import TurfLang.Sema.Slices

/-!
# The write search over the hand-offs

`writesThroughSliceParam` is the memoised search of `Lib.Search`, over the graph in which a
parameter leads to the parameters its views are handed to. It therefore always answers.
-/

namespace TurfLang.Slice

open TurfLang.Search (Mark Memo ask askAll)

namespace Program

variable (P : Program)

/-- The views of a parameter in its function's body; `none` if the body never names it. -/
def viewsOf (key : Key) : Option (Finset Symbol) :=
  (P.decl key.1).params[key.2]?.bind fun param =>
    (P.findParam (P.decl key.1).body param.name).map (P.views (P.decl key.1).body)

/-- The place a node changes, if any. -/
def written : Expr → Option Expr
  | .assignment lhs _ => some lhs
  | .compoundAssignment lhs _ => some lhs
  | .postfixExpr operand => some operand
  | .methodCall base _ (some t) false =>
    if !base.namesStruct && P.mutatesReceiver t then some base else none
  | _ => none

/-- Does the node change an element of a view? -/
def writesHere (views : Finset Symbol) (n : Expr) : Bool :=
  (P.written n).any (isSliceElementPlace · views)

/-- The keys a node hands a view to. -/
def handOffs (views : Finset Symbol) (n : Expr) : List Key :=
  ((P.handed n).filter fun arg => inViews arg.1 views).map Prod.snd

/-- What the body of a key's function shows about it. -/
def graph : Search.Graph Key where
  hit key := (P.viewsOf key).any fun views => (P.decl key.1).body.nodes.any (P.writesHere views)
  next key := (P.viewsOf key).elim [] fun views =>
    (P.decl key.1).body.nodes.flatMap (P.handOffs views)

variable {P}

/-! ### The code is the search -/

section Refinement

variable {f : Key → Memo Key → Option (Bool × Memo Key)} {views : Finset Symbol}

/-- An answer already found is added at the end. -/
theorem askAll_or (f : Key → Memo Key → Option (Bool × Memo Key)) (ks : List Key) (a found : Bool)
    (memo : Memo Key) :
    askAll f ks (a || found) memo = (askAll f ks found memo).map fun r => (a || r.1, r.2) := by
  induction ks generalizing found memo with
  | nil => rfl
  | cons k ks ih =>
    simp only [askAll, Option.map_bind]
    refine Option.bind_congr fun r _ => ?_
    rw [Bool.or_assoc]
    exact ih _ _

/-- A fold whose steps ask about some keys each asks about all of them in turn. -/
theorem foldlM_askAll {α : Type} {g : Bool × Memo Key → α → Option (Bool × Memo Key)}
    {keys : α → List Key} {hit : α → Bool}
    (hg : ∀ s a, g s a = askAll f (keys a) (s.1 || hit a) s.2) (as : List α)
    (s : Bool × Memo Key) :
    as.foldlM g s = askAll f (as.flatMap keys) (s.1 || as.any hit) s.2 := by
  induction as generalizing s with
  | nil => simp [askAll]
  | cons a as ih =>
    have hor : (s.1 || (hit a || as.any hit)) = (as.any hit || (s.1 || hit a)) := by
      rw [← Bool.or_assoc, Bool.or_comm]
    rw [List.foldlM_cons, List.flatMap_cons, List.any_cons, Search.askAll_append, hor, askAll_or, hg,
      Option.bind_map]
    refine Option.bind_congr fun r _ => ?_
    rw [ih, Bool.or_comm]
    rfl

/-- The keys an argument is handed to. -/
def handOffOf (P : Program) (views : Finset Symbol) (t : Target) (arg : Expr × ℕ) : List Key :=
  ((P.handedArgument t arg).toList.filter fun a => inViews a.1 views).map Prod.snd

theorem flatMap_handOffOf (t : Target) (args : List (Expr × ℕ)) :
    args.flatMap (P.handOffOf views t) =
      ((P.handedTo t args).filter fun arg => inViews arg.1 views).map Prod.snd := by
  induction args with
  | nil => rfl
  | cons arg args ih =>
    rw [List.flatMap_cons, ih, handOffOf, handedTo, handedTo, List.filterMap_cons]
    cases P.handedArgument t arg with
    | none => rfl
    | some a => by_cases ha : inViews a.1 views <;> simp [ha]

theorem checkArgument_eq (t : Target) (s : Bool × Memo Key) (arg : Expr × ℕ) :
    P.checkArgument f views t s arg = askAll f (P.handOffOf views t arg) (s.1 || false) s.2 := by
  rw [Bool.or_false]
  unfold checkArgument handOffOf handedArgument targetWritesThroughSlice
  by_cases hv : inViews arg.1 views
  · by_cases hu : t.unsizedParam arg.2
    · cases P.targetKey t arg.2 with
      | none => simp [hv, hu, askAll]
      | some key =>
        simp [hv, hu, askAll, Option.map_eq_bind]
    · simp [hu, askAll]
  · by_cases hu : t.unsizedParam arg.2
    · cases P.targetKey t arg.2 <;> simp [hv, hu, askAll]
    · simp [hu, askAll]

theorem checkHandOff_eq (args : List (Expr × ℕ)) (t : Target) (s : Bool × Memo Key) :
    P.checkHandOff f views args t s =
      askAll f (((P.handedTo t args).filter fun arg => inViews arg.1 views).map Prod.snd) s.1 s.2 := by
  have hfold : args.foldlM (P.checkArgument f views t) s =
      askAll f (args.flatMap (P.handOffOf views t)) (s.1 || args.any fun _ => false) s.2 :=
    foldlM_askAll (fun s arg => checkArgument_eq t s arg) args s
  rw [List.any_eq_false.mpr (by simp), Bool.or_false] at hfold
  rw [checkHandOff, hfold, flatMap_handOffOf]

theorem findWrite_eq (s : Bool × Memo Key) (n : Expr) :
    P.findWrite f views s n =
      askAll f (P.handOffs views n) (s.1 || P.writesHere views n) s.2 := by
  unfold findWrite handOffs writesHere written handed
  split
  case h_6 base args t =>
    rw [checkHandOff_eq, Bool.or_comm, askAll_or]
    refine congrFun (congrArg Option.map ?_) _
    funext r
    cases hs : base.namesStruct <;> cases hm : P.mutatesReceiver t <;>
      simp [hs, hm, Bool.or_comm]
  all_goals simp [askAll, checkHandOff_eq]

end Refinement

theorem writesThroughSliceParam_eq (fuel : ℕ) :
    P.writesThroughSliceParam fuel = ask P.graph fuel := by
  induction fuel with
  | zero => rfl
  | succ n ih =>
    funext key memo
    unfold writesThroughSliceParam ask
    cases memo key with
    | some mark => rfl
    | none =>
      -- a parameter the body never names is opened and closed without a look
      have hclose : P.viewsOf key = none →
          some (false, Function.update memo key (some .no)) =
            (askAll (ask P.graph n) (P.graph.next key) (P.graph.hit key)
              (Function.update memo key (some .inProgress))).map
              fun r => (r.1, Function.update r.2 key (some (.ofAnswer r.1))) := by
        intro hv
        simp [graph, hv, askAll, Mark.ofAnswer]
      cases hp : (P.decl key.1).params[key.2]? with
      | none => exact hclose (by simp [viewsOf, hp])
      | some param =>
        cases hs : P.findParam (P.decl key.1).body param.name with
        | none =>
          simp only [hs]
          exact hclose (by simp [viewsOf, hp, hs])
        | some symbol =>
          have hv : P.viewsOf key = some (P.views (P.decl key.1).body symbol) := by
            simp [viewsOf, hp, hs]
          simp only [hs, ih, foldlM_askAll (fun s a => findWrite_eq s a), graph, hv,
            Option.any_some, Option.elim_some, Bool.false_or]
          rfl

/-! ### Every question is answered -/

/-- The keys the bodies hand something to. -/
def handedKeys (P : Program) : Finset Key :=
  ((P.decls.flatMap fun d => d.body.nodes.flatMap P.handed).map Prod.snd).toFinset

theorem mem_handedKeys {key c : Key} (h : c ∈ P.graph.next key) : c ∈ P.handedKeys := by
  cases hv : P.viewsOf key with
  | none => simp [graph, hv] at h
  | some views =>
    simp only [graph, hv, Option.elim_some, List.mem_flatMap, handOffs, List.mem_map,
      List.mem_filter] at h
    obtain ⟨n, hn, arg, ⟨harg, -⟩, rfl⟩ := h
    have hd : P.decl key.1 ∈ P.decls := by
      unfold decl at hn ⊢
      cases hd : P.decls[key.1]? with
      | none => simp [List.getD_eq_getElem?_getD, hd, Expr.nodes] at hn
      | some d =>
        rw [List.getD_eq_getElem?_getD, hd]
        exact List.mem_of_getElem? hd
    simp only [handedKeys, List.mem_toFinset, List.mem_map, List.mem_flatMap]
    exact ⟨arg, ⟨_, hd, n, hn, harg⟩, rfl⟩

theorem exists_query (key : Key) (memo : Memo Key) :
    ∃ b memo', P.query key memo = some (b, memo') := by
  unfold query
  rw [writesThroughSliceParam_eq]
  refine Search.exists_ask (U := insert key P.handedKeys) ?_ (Finset.mem_insert_self _ _) ?_
  · exact fun x _ c hc => Finset.mem_insert_of_mem (mem_handedKeys hc)
  · calc (Search.unmarked (insert key P.handedKeys) memo).card
        ≤ (insert key P.handedKeys).card := Finset.card_le_card (Finset.filter_subset _ _)
      _ ≤ P.handedKeys.card + 1 := Finset.card_insert_le _ _
      _ ≤ (P.decls.flatMap fun d => d.body.nodes.flatMap P.handed).length + 1 := by
        simpa [handedKeys] using List.toFinset_card_le
          ((P.decls.flatMap fun d => d.body.nodes.flatMap P.handed).map Prod.snd)
      _ < P.fuel := by unfold fuel; omega

end Program

end TurfLang.Slice
