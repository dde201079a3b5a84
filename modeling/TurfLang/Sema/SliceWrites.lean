import TurfLang.Sema.SliceSearch

/-!
# What a write through a slice is, and when the search finds it

A function writes through a parameter when its body changes an element of a view of it, or
hands such a view to a function that writes through what it is given. Executions of the bodies
are what the definition is measured against: a parameter that is not written leaves the array
unchanged. The search decides the relation, over every sequence of questions, exactly if it
opens no key at which a single look at the body is wrong.
-/

namespace TurfLang.Slice

open TurfLang.Search (Mark Memo ExactRun SightedRun)

/-! ### Writing through a slice -/

/-- The variables whose array the value of an expression may be, or be part of. An `operator[]`
read is a copy, and a `give`/`otherwise` is one of its two branches. -/
def roots : Expr → List Symbol
  | .var v => v.resolvedSymbol.toList
  | .arrayAccess base _ resolvedIndexGet => if resolvedIndexGet then [] else roots base
  | .slice base _ _ => roots base
  | .fieldAccess base => roots base
  | .giveOtherwise _ thenBody elseBody => roots thenBody ++ roots elseBody
  | _ => []

/-- The variables whose array a place is an element of, or part of an element. -/
def elementRoots : Expr → List Symbol
  | .arrayAccess base _ resolvedIndexGet => if resolvedIndexGet then [] else roots base
  | .slice base _ _ => elementRoots base
  | .fieldAccess base => elementRoots base
  | .giveOtherwise _ thenBody elseBody => elementRoots thenBody ++ elementRoots elseBody
  | _ => []

namespace Program

variable (P : Program)

/-- The symbol of a parameter. -/
def paramSymbol (key : Key) : Option Symbol := (P.decl key.1).params[key.2]?.map (·.symbol)

/-- The receiver of a method call, with the `self` it becomes. -/
def receives : Expr → List (Expr × Key)
  | .methodCall base _ (some t) false =>
    if base.namesStruct then [] else (P.receiverKey t).toList.map (base, ·)
  | _ => []

/-- Everything a node hands on: arguments to `T[]` parameters and receivers. -/
def handsOn (n : Expr) : List (Expr × Key) := P.handed n ++ P.receives n

/-- The variables that view the array of a variable `s` at some point of the body: `s`, and the
`T[]` variables a view is stored in. -/
inductive Viewed (body : Expr) (s : Symbol) : Symbol → Prop
  | itself : Viewed body s s
  | stored {n value x r} : n ∈ body.nodes → n.stores = some (x, value) → P.isUnsized x = true →
      r ∈ roots value → Viewed body s r → Viewed body s x

/-- The function of a key writes through its parameter, by itself or along hand-offs. -/
inductive Writes : Key → Prop
  | place {key s n place r} : P.paramSymbol key = some s → n ∈ (P.decl key.1).body.nodes →
      P.written n = some place → r ∈ elementRoots place →
      P.Viewed (P.decl key.1).body s r → Writes key
  | handOff {key s n arg key' r} : P.paramSymbol key = some s →
      n ∈ (P.decl key.1).body.nodes → (arg, key') ∈ P.handsOn n → r ∈ roots arg →
      P.Viewed (P.decl key.1).body s r → Writes key' → Writes key

/-! ### Executions -/

/-- An array in memory. -/
abbrev Loc := ℕ

/-- The arrays the variables of a running function hold or view. -/
abbrev Env := Symbol → Option Loc

/-- `Changes d env ℓ`: some execution of function `d`, started with its variables as in `env`,
changes an element of the array `ℓ`. The nodes of a body are executed in any order and any
number of times, which covers every control flow; a called function starts with the arrays it
is handed. -/
inductive Changes : DeclId → Env → Loc → Prop
  | write {d env ℓ n place r} : n ∈ (P.decl d).body.nodes → P.written n = some place →
      r ∈ elementRoots place → env r = some ℓ → Changes d env ℓ
  | store {d env ℓ n x value held} : n ∈ (P.decl d).body.nodes → n.stores = some (x, value) →
      P.isUnsized x = true → (held = none ∨ ∃ r ∈ roots value, held = env r) →
      Changes d (Function.update env x held) ℓ → Changes d env ℓ
  | call {d env ℓ n d' env'} : n ∈ (P.decl d).body.nodes →
      (∀ x ℓ', env' x = some ℓ' → ∃ arg key r, (arg, key) ∈ P.handsOn n ∧ key.1 = d' ∧
        P.paramSymbol key = some x ∧ r ∈ roots arg ∧ env r = some ℓ') →
      Changes d' env' ℓ → Changes d env ℓ

variable {P}

/-- An array that is changed was held by a view of a parameter that is written. -/
theorem Changes.exists_writes {d : DeclId} {env : Env} {ℓ : Loc} (h : P.Changes d env ℓ)
    {I : Set ℕ} (hI : ∀ x, env x = some ℓ →
      ∃ i ∈ I, ∃ s, P.paramSymbol (d, i) = some s ∧ P.Viewed (P.decl d).body s x) :
    ∃ i ∈ I, P.Writes (d, i) := by
  induction h generalizing I with
  | @write d env ℓ n place r hn hplace hr hℓ =>
    obtain ⟨i, hi, s, hs, hv⟩ := hI r hℓ
    exact ⟨i, hi, .place hs hn hplace hr hv⟩
  | @store d env ℓ n x value held hn hstores hun hheld _ ih =>
    refine ih fun y hy => ?_
    by_cases hyx : y = x
    · subst hyx
      rw [Function.update_self] at hy
      obtain rfl | ⟨r, hr, rfl⟩ := hheld
      · simp at hy
      · obtain ⟨i, hi, s, hs, hv⟩ := hI r hy
        exact ⟨i, hi, s, hs, .stored hn hstores hun hr hv⟩
    · rw [Function.update_of_ne hyx] at hy
      exact hI y hy
  | @call d env ℓ n d' env' hn henter _ ih =>
    -- the callee writes through a parameter that was handed a view of `ℓ`
    obtain ⟨j, ⟨arg, r, hmem, hr, hℓ⟩, hw⟩ := ih
      (I := {j | ∃ arg r, (arg, (d', j)) ∈ P.handsOn n ∧ r ∈ roots arg ∧ env r = some ℓ}) (by
        intro x hx
        obtain ⟨arg, ⟨d'', j⟩, r, hmem, rfl, hs, hr, hℓ⟩ := henter x ℓ hx
        exact ⟨j, ⟨arg, r, hmem, hr, hℓ⟩, x, hs, .itself⟩)
    obtain ⟨i, hi, s, hs, hv⟩ := hI r hℓ
    exact ⟨i, hi, .handOff hs hn hmem hr hv hw⟩

/-! ### Calls and what the check accepts -/

end Program

/-- A call as the checker notes it: the arguments with their positions, the receiver of an
instance method, and the target. -/
structure Call where
  args : List (Expr × ℕ)
  receiver : Option Expr
  target : Target
  loc : SourceLoc

namespace Program

variable (P : Program)

def pendingSelf (calls : List Call) : List PendingSliceWrite :=
  calls.flatMap fun c => c.receiver.toList.flatMap fun base => P.noteReceiver base c.target c.loc

def pending (calls : List Call) : List PendingSliceWrite :=
  calls.flatMap fun c => P.noteSliceArguments c.args c.target c.loc

/-- The questions `checkSliceWrites` asks if none of them ends it. -/
def asked (calls : List Call) : List Key :=
  (P.pendingSelf calls).filterMap (fun p => P.receiverKey p.callee) ++
    (P.pending calls).filterMap P.argumentKey

/-- A call gives the array of the variable `a` to a parameter: as an argument rooted at `a`, or
as the receiver of a method that does not change it directly. -/
def Gives (c : Call) (a : Symbol) (key : Key) : Prop :=
  (∃ arg v, (arg, key) ∈ P.handedTo c.target c.args ∧ rootVariable arg = some v ∧
    v.resolvedSymbol = some a) ∨
  (∃ v, c.receiver = some (.var v) ∧ v.resolvedSymbol = some a ∧
    P.mutatesReceiver c.target = false ∧ P.receiverKey c.target = some key)

/-- If the check accepts the calls, no execution of a called function changes an element of an
immutable array that the call gives it. -/
def Safe (calls : List Call) (memo : Memo Key) : Prop :=
  ∀ memo', P.checkSliceWrites (P.pendingSelf calls) (P.pending calls) memo = some (.ok memo') →
    ∀ c ∈ calls, ∀ a, (P.symbols a).isImmutable = true → ∀ d env ℓ,
      (∀ x, env x = some ℓ → ∃ i, P.Gives c a (d, i) ∧ P.paramSymbol (d, i) = some x) →
      ¬P.Changes d env ℓ

/-- The memo of a new checker. -/
def noMarks : Memo Key := fun _ => none

/-- Every question of the sequence, asked of a new checker, is answered, and with yes exactly if
the parameter is written through. -/
def Exact (keys : List Key) : Prop := ExactRun P.Writes P.query noMarks keys

/-- Every key that a question of the sequence opens is one where a single look is right: the
parameter is written through exactly if its body changes an element of one of the views the
collector finds, or hands one to another parameter that is written through and not open. -/
def Sighted (keys : List Key) : Prop := SightedRun P.graph P.Writes P.query noMarks keys

variable {P}

/-- A parameter that is given an immutable array is asked about. -/
theorem Gives.mem_asked {calls : List Call} {c : Call} {a : Symbol} {key : Key} (hc : c ∈ calls)
    (ha : (P.symbols a).isImmutable = true) (h : P.Gives c a key) : key ∈ P.asked calls := by
  obtain ⟨arg, ⟨name, _, isStruct⟩, hmem, hroot, rfl⟩ | ⟨⟨name, _, isStruct⟩, hbase, rfl, hm, hkey⟩ := h
  · refine List.mem_append_right _ (List.mem_filterMap.mpr ?_)
    obtain ⟨⟨arg', i⟩, hin, hkey⟩ := List.mem_filterMap.mp hmem
    by_cases hu : c.target.unsizedParam i
    · simp only [handedArgument, hu, if_true, Option.map_eq_some_iff, Prod.mk.injEq] at hkey
      obtain ⟨key', hkey', rfl, rfl⟩ := hkey
      have hd : c.target.decl.isNone = false := by
        unfold targetKey at hkey'
        cases hd : c.target.decl <;> simp_all
      refine ⟨⟨c.loc, a, name, c.target, i⟩, ?_, hkey'⟩
      refine List.mem_flatMap.mpr ⟨c, hc, ?_⟩
      unfold noteSliceArguments
      rw [hd]
      exact List.mem_filterMap.mpr ⟨(arg', i), hin, by simp [hu, hroot, ha]⟩
    · simp [handedArgument, hu] at hkey
  · refine List.mem_append_left _ (List.mem_filterMap.mpr
      ⟨⟨c.loc, a, name, c.target, 0⟩, List.mem_flatMap.mpr ⟨c, hc, ?_⟩, hkey⟩)
    have hd : c.target.decl.isNone = false := by
      unfold receiverKey at hkey
      cases hd : c.target.decl <;> simp_all
    simp [hbase, noteReceiver, hm, hd, ha]

/-- An exact sequence of questions by one loop of the check: if it accepts, no key it asked
about is written. -/
theorem refuseWrites_ok {key : PendingSliceWrite → Option Key}
    {report : PendingSliceWrite → Diagnostic} {ps : List PendingSliceWrite} {memo memo' : Memo Key}
    {rest : List Key} (hrun : ExactRun P.Writes P.query memo (ps.filterMap key ++ rest))
    (hok : P.refuseWrites key report ps memo = some (.ok memo')) :
    (∀ k ∈ ps.filterMap key, ¬P.Writes k) ∧ ExactRun P.Writes P.query memo' rest := by
  induction ps generalizing memo with
  | nil =>
    simp only [refuseWrites, Option.some.injEq, Except.ok.injEq] at hok
    exact ⟨by simp, hok ▸ hrun⟩
  | cons p ps ih =>
    cases hk : key p with
    | none =>
      simp only [refuseWrites, hk] at hok
      rw [List.filterMap_cons_none hk] at hrun ⊢
      exact ih hrun hok
    | some k =>
      rw [List.filterMap_cons_some hk] at hrun ⊢
      obtain ⟨b, m, hq, hb, hrun'⟩ := hrun
      simp only [refuseWrites, hk, hq, Option.bind_some] at hok
      cases b with
      | true => simp at hok
      | false =>
        obtain ⟨hps, hrest⟩ := ih hrun' hok
        refine ⟨fun k' hk' => ?_, hrest⟩
        obtain rfl | hk' := List.mem_cons.mp hk'
        · exact fun hw => by simpa using hb.mpr hw
        · exact hps k' hk'

/-- Where the questions of the check are answered rightly, what it accepts is safe. -/
theorem safe_of_exact {calls : List Call} {memo : Memo Key}
    (hrun : ExactRun P.Writes P.query memo (P.asked calls)) : P.Safe calls memo := by
  intro memo' hok c hc a ha d env ℓ henv hchanges
  unfold checkSliceWrites at hok
  rw [Option.bind_eq_some_iff] at hok
  obtain ⟨r, hself, hargs⟩ := hok
  cases r with
  | error e => simp at hargs
  | ok m =>
    obtain ⟨hself, hrun'⟩ := refuseWrites_ok hrun hself
    rw [← List.append_nil ((P.pending calls).filterMap P.argumentKey)] at hrun'
    obtain ⟨hargs, -⟩ := refuseWrites_ok hrun' hargs
    obtain ⟨i, hi, hw⟩ := hchanges.exists_writes (I := {i | P.Gives c a (d, i)}) fun x hx => by
      obtain ⟨i, hg, hs⟩ := henv x hx
      exact ⟨i, hg, x, hs, .itself⟩
    obtain hk | hk := List.mem_append.mp (Gives.mem_asked hc ha hi)
    · exact hself _ hk hw
    · exact hargs _ hk hw

theorem query_eq : P.query = Search.ask P.graph P.fuel := by
  funext key memo
  rw [query, writesThroughSliceParam_eq]

theorem settled_noMarks : Search.Settled P.Writes noMarks := fun x => by simp [noMarks]

theorem Sighted.exact {keys : List Key} (h : P.Sighted keys) : P.Exact keys := by
  have htotal : ∀ k memo, ∃ b memo', Search.ask P.graph P.fuel k memo = some (b, memo') := by
    intro k memo
    rw [← query_eq]
    exact exists_query k memo
  unfold Sighted at h
  unfold Exact
  rw [query_eq] at h ⊢
  exact h.exact htotal (fun x => by simp [noMarks]) settled_noMarks

end Program

/-- A use of a variable. -/
def use (name : String) (s : Symbol) : Expr := .var ⟨name, some s, false⟩

/-- `f` or `g`, which takes one `int[]`. -/
def takesSlice (name param : String) (d : DeclId) : Target :=
  ⟨name, [⟨param, .array .int .unsized⟩], false, some d, (0, 0)⟩

/-- `fn f(p: int[]) { g(p); p[0] = 1; }` and `fn g(q: int[]) { f(q); }`, with an `immut a`. -/
def mutualProgram : Program where
  symbols s := ⟨.array .int (if s = 2 then .fixed 3 else .unsized), s = 2, s != 2, (0, 0)⟩
  decls :=
    [⟨[⟨"p", 0⟩], .node [
      .funcCall .absent [use "p" 0] (some (takesSlice "g" "q" 1)),
      .assignment (.arrayAccess (use "p" 0) (.node []) false) (.node [])]⟩,
    ⟨[⟨"q", 1⟩], .node [.funcCall .absent [use "q" 1] (some (takesSlice "f" "p" 0))]⟩]
  mutatesSelfTransitively _ := false

/-- `fn f(p: int[]) { mut b: int[] = give p if c otherwise p; b[0] = 1; }`. -/
def choiceProgram : Program where
  symbols s := ⟨.array .int .unsized, false, s = 0, (0, 0)⟩
  decls :=
    [⟨[⟨"p", 0⟩], .node [
      .varDecl (some 1) (.giveOtherwise (.node []) (use "p" 0) (use "p" 0)),
      .assignment (.arrayAccess (use "b" 1) (.node []) false) (.node [])]⟩]
  mutatesSelfTransitively _ := false

/-- A view chosen by `give`/`otherwise` has no root variable, so the collector misses it. -/
theorem not_exact_choiceProgram : ¬choiceProgram.Exact [(0, 0)] := by
  rintro ⟨b, memo, hf, hb, -⟩
  have hview : choiceProgram.Viewed (choiceProgram.decl 0).body 0 1 :=
    .stored (r := 0) (.tail _ (.head _)) rfl rfl (.head _) .itself
  have hwrites : choiceProgram.Writes (0, 0) :=
    .place rfl (.tail _ (.tail _ (.tail _ (.tail _ (.tail _ (.tail _ (.head _))))))) rfl
      (.head _) hview
  have hanswer : (choiceProgram.query (0, 0) Program.noMarks).map Prod.fst = some false := rfl
  rw [hf, Option.map_some, Option.some.injEq] at hanswer
  subst hanswer
  simpa using hb.mpr hwrites

end TurfLang.Slice
