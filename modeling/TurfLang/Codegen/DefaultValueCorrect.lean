import TurfLang.Codegen.DefaultValue

/-!
# Default values end, unless a cycle goes around the stack

From a type that reaches no cycle the emission goes through every part and succeeds. From one that
does it succeeds on the parts before the first cyclic part and comes to that: so it follows a walk,
which ends with a report when an `&` leads to a struct that was entered before.
-/

namespace TurfLang.DefaultValue

open Relation

variable {n : ℕ} {d : Decls n} {T U P : Ty n} {i : Fin n}

/-! ### Outcomes -/

section Outcomes

variable {α β : Type} {r : Outcome n α} {f : α → Emitter n → Outcome n β}

theorem andThen_ok {a : α} {s : Emitter n} :
    Outcome.andThen (some (.ok (a, s))) f = f a s := rfl

theorem andThen_error {e : DefaultThroughReferenceCycle} :
    Outcome.andThen (some (.error e)) f = some (.error e) := rfl

theorem andThen_none : Outcome.andThen none f = none := rfl

/-- The parts of two lists, one after the other. -/
theorem emitParts_append (emit : Ty n → Emitter n → Outcome n (Value n)) (Ts Us : List (Ty n))
    (s : Emitter n) : emitParts emit (Ts ++ Us) s =
      (emitParts emit Ts s).andThen fun vs s =>
        (emitParts emit Us s).andThen fun ws s => some (.ok (vs ++ ws, s)) := by
  induction Ts generalizing s with
  | nil =>
    rw [List.nil_append, emitParts, andThen_ok]
    rcases emitParts emit Us s with _ | _ | ⟨ws, s⟩ <;> rfl
  | cons T Ts ih =>
    rw [List.cons_append, emitParts, emitParts]
    rcases emit T s with _ | _ | ⟨v, s⟩
    · rfl
    · rfl
    · simp only [andThen_ok, ih]
      rcases emitParts emit Ts s with _ | _ | ⟨vs, s⟩
      · rfl
      · rfl
      · simp only [andThen_ok]
        rcases emitParts emit Us s with _ | _ | ⟨ws, s⟩ <;> rfl

end Outcomes

/-! ### Parts -/

theorem defaultStructOf_reference : d.defaultStructOf (.reference P) = none := rfl

theorem parts_reference : d.parts (.reference P) = [P] := rfl

theorem parts_named (name : String) :
    d.parts (.named name) = (d.lookupType name).elim [] d.fields := rfl

theorem parts_of_struct (hT : d.defaultStructOf T = some i) : d.parts T = d.fields i := by
  cases T with
  | named name =>
    have hname : d.lookupType name = some i := hT
    rw [parts_named, hname, Option.elim_some]
  | struct j => exact congrArg d.fields (Option.some.inj hT)
  | _ => cases hT

/-- A type that is neither an aggregate nor a reference has no parts. -/
theorem parts_eq_nil (hT : ¬ d.IsAggregate T) (href : ∀ P, T ≠ .reference P) : d.parts T = [] := by
  cases T with
  | named name =>
    rcases hname : d.lookupType name with _ | i
    · rw [parts_named, hname, Option.elim_none]
    · exact absurd (.inl ⟨i, hname⟩) hT
  | struct j => exact absurd (.inl ⟨j, rfl⟩) hT
  | reference P => exact absurd rfl (href P)
  | nullableReference P => rfl
  | pointer P => rfl
  | array E size =>
    rw [Decls.parts, if_pos]
    by_contra hsize
    exact hT (.inr ⟨E, size, rfl, by omega⟩)

/-- The parts of two types of one struct are the same. -/
theorem parts_congr (hT : d.defaultStructOf T = some i) (hU : d.defaultStructOf U = some i) :
    d.parts T = d.parts U := by
  rw [parts_of_struct hT, parts_of_struct hU]

/-! ### Cycles -/

/-- What is reached from a type beside the type itself is reached from a part. -/
theorem Decls.Reaches.cases_part (h : d.Reaches T U) :
    T = U ∨ ∃ W ∈ d.parts T, d.Reaches W U := by
  rcases ReflTransGen.cases_head h with rfl | ⟨W, hW, hreach⟩
  · exact .inl rfl
  · exact .inr ⟨W, hW, hreach⟩

theorem Decls.Cyclic.of_reaches (h : d.Cyclic U) (hTU : d.Reaches T U) : d.Cyclic T := by
  obtain ⟨W, Q, V, i, hUW, hW, hWQ, hQV, hV⟩ := h
  exact ⟨W, Q, V, i, hTU.trans hUW, hW, hWQ, hQV, hV⟩

/-- The struct that an `&` comes back to is on a cycle. -/
theorem cyclic_of_reference (hT : d.defaultStructOf T = some i) (hreach : d.Reaches T (.reference P))
    (hP : d.defaultStructOf P = some i) : d.Cyclic P := by
  rcases hreach.cases_part with rfl | ⟨W, hW, hWP⟩
  · cases hT
  · rw [parts_congr hT hP] at hW
    exact ⟨P, P, P, i, .refl, hP, .head hW hWP, .single (List.mem_singleton_self P), hP⟩

/-- One part of a cyclic type is cyclic. -/
theorem Decls.Cyclic.exists_part (h : d.Cyclic T) : ∃ U ∈ d.parts T, d.Cyclic U := by
  obtain ⟨U, P, V, i, hTU, hU, hUP, hPV, hV⟩ := h
  rcases hTU.cases_part with rfl | ⟨W, hW, hWU⟩
  · rcases hUP.cases_part with rfl | ⟨W, hW, hWP⟩
    · cases hU
    · -- the part leads to the reference and, by that, to a type of the same struct
      have hW' := hW
      rw [parts_congr hU hV] at hW'
      exact ⟨W, hW, V, P, V, i, hWP.trans hPV, hV, .head hW' hWP, hPV, hV⟩
  · exact ⟨W, hW, U, P, V, i, hWU, hU, hUP, hPV, hV⟩

/-- A part is smaller, unless it is the field of a struct. -/
theorem sizeOf_part (h : U ∈ d.parts T) :
    sizeOf U < sizeOf T ∨ ∃ i, d.defaultStructOf T = some i := by
  cases T with
  | named name =>
    rcases hname : d.lookupType name with _ | i
    · rw [parts_named, hname] at h
      cases h
    · exact .inr ⟨i, hname⟩
  | struct j => exact .inr ⟨j, rfl⟩
  | reference P =>
    obtain rfl := List.mem_singleton.1 h
    exact .inl (by simp)
  | nullableReference P => cases h
  | pointer P => cases h
  | array E size =>
    rw [Decls.parts] at h
    split_ifs at h
    · cases h
    · obtain rfl := List.eq_of_mem_replicate h
      exact .inl (by simp; omega)

/-- Following parts leads to a smaller type, or by a struct. -/
theorem sizeOf_lt_or_struct (h : TransGen (fun T U => U ∈ d.parts T) T U) :
    sizeOf U < sizeOf T ∨ ∃ V i, d.defaultStructOf V = some i ∧ d.Reaches T V ∧
      TransGen (fun T U => U ∈ d.parts T) V U := by
  induction h using TransGen.head_induction_on with
  | @single T hU =>
    rcases sizeOf_part hU with hlt | ⟨i, hT⟩
    · exact .inl hlt
    · exact .inr ⟨T, i, hT, .refl, .single hU⟩
  | @head T W hW hWU ih =>
    rcases sizeOf_part hW with hlt | ⟨i, hT⟩
    · rcases ih with hlt' | ⟨V, i, hV, hWV, hVU⟩
      · exact .inl (hlt'.trans hlt)
      · exact .inr ⟨V, i, hV, .head hW hWV, hVU⟩
    · exact .inr ⟨T, i, hT, .refl, .head hW hWU⟩

/-- A way along parts stays by value or goes by an `&`. -/
theorem byValue_or_reference (h : TransGen (fun T U => U ∈ d.parts T) T U) :
    TransGen d.ByValue T U ∨ ∃ P, d.Reaches T (.reference P) ∧ d.Reaches (.reference P) U := by
  have hstep : ∀ {V W}, W ∈ d.parts V → d.ByValue V W ∨ ∃ P, V = .reference P := by
    intro V W hW
    by_cases href : ∃ P, V = .reference P
    · exact .inr href
    · exact .inl ⟨hW, fun P hP => href ⟨P, hP⟩⟩
  induction h with
  | single hU =>
    rcases hstep hU with hval | ⟨P, rfl⟩
    · exact .inl (.single hval)
    · exact .inr ⟨P, .refl, .single hU⟩
  | @tail V W hTV hW ih =>
    rcases ih with hval | ⟨P, hTP, hPV⟩
    · rcases hstep hW with hval' | ⟨P, rfl⟩
      · exact .inl (hval.tail hval')
      · exact .inr ⟨P, hTV.to_reflTransGen, .single hW⟩
    · exact .inr ⟨P, hTP, hPV.tail hW⟩

/-- Without cycles by value, a type that is reached from its own parts is cyclic. -/
theorem cyclic_of_loop (hval : d.NoValueCycle) (h : TransGen (fun T U => U ∈ d.parts T) T T) :
    d.Cyclic T := by
  rcases sizeOf_lt_or_struct h with hlt | ⟨V, i, hV, hTV, hVT⟩
  · exact absurd hlt (lt_irrefl _)
  · rcases byValue_or_reference (hVT.trans_left hTV) with hloop | ⟨P, hVP, hPV⟩
    · exact absurd hloop (hval V V i hV hV)
    · exact ⟨V, P, V, i, hTV, hV, hVP, hPV, hV⟩

/-! ### Finitely many types -/

/-- A type and what it is written with, as far as parts lead into it. -/
def subterms : Ty n → List (Ty n)
  | .reference P => .reference P :: subterms P
  | .array E size => .array E size :: subterms E
  | T => [T]

theorem self_mem_subterms (T : Ty n) : T ∈ subterms T := by
  cases T <;> simp [subterms]

/-- The types that can be reached from a type. -/
def reachable (d : Decls n) (T : Ty n) : List (Ty n) :=
  subterms T ++ (List.finRange n).flatMap fun i => (d.fields i).flatMap subterms

/-- A part of a subterm is a subterm or a field. -/
theorem part_of_subterm (h : U ∈ subterms T) {W : Ty n} (hW : W ∈ d.parts U) :
    W ∈ subterms T ∨ ∃ i, W ∈ d.fields i := by
  induction T with
  | named name =>
    obtain rfl := List.mem_singleton.1 h
    rw [parts_named] at hW
    rcases hname : d.lookupType name with _ | i
    · rw [hname] at hW
      cases hW
    · rw [hname] at hW
      exact .inr ⟨i, hW⟩
  | struct j =>
    obtain rfl := List.mem_singleton.1 h
    exact .inr ⟨j, hW⟩
  | reference P ih =>
    rcases List.mem_cons.1 h with rfl | h
    · obtain rfl := List.mem_singleton.1 hW
      exact .inl (List.mem_cons_of_mem _ (self_mem_subterms W))
    · exact (ih h).imp_left (List.mem_cons_of_mem _)
  | nullableReference P =>
    obtain rfl := List.mem_singleton.1 h
    cases hW
  | pointer P =>
    obtain rfl := List.mem_singleton.1 h
    cases hW
  | array E size ih =>
    rcases List.mem_cons.1 h with rfl | h
    · rw [Decls.parts] at hW
      split_ifs at hW
      · cases hW
      · obtain rfl := List.eq_of_mem_replicate hW
        exact .inl (List.mem_cons_of_mem _ (self_mem_subterms W))
    · exact (ih h).imp_left (List.mem_cons_of_mem _)

theorem field_mem_reachable {W V : Ty n} (hW : W ∈ d.fields i) (hV : V ∈ subterms W) :
    V ∈ reachable d T :=
  List.mem_append_right _ (List.mem_flatMap.2 ⟨i, List.mem_finRange i,
    List.mem_flatMap.2 ⟨W, hW, hV⟩⟩)

theorem reaches_mem_reachable (h : d.Reaches T U) : U ∈ reachable d T := by
  induction h with
  | refl => exact List.mem_append_left _ (self_mem_subterms T)
  | @tail V W _ hW ih =>
    rcases List.mem_append.1 ih with hV | hV
    · rcases part_of_subterm hV hW with hsub | ⟨i, hfield⟩
      · exact List.mem_append_left _ hsub
      · exact field_mem_reachable hfield (self_mem_subterms W)
    · obtain ⟨i, -, hV⟩ := List.mem_flatMap.1 hV
      obtain ⟨F, hF, hV⟩ := List.mem_flatMap.1 hV
      rcases part_of_subterm hV hW with hsub | ⟨j, hfield⟩
      · exact field_mem_reachable hF hsub
      · exact field_mem_reachable hfield (self_mem_subterms W)

/-- A type that reaches no cycle has its parts in a well-founded order. -/
theorem acc_parts (hval : d.NoValueCycle) (hT : ¬ d.Cyclic T) :
    Acc (fun U T => U ∈ d.parts T) T := by
  refine Descent.acc_of_acyclic (r := fun T U => U ∈ d.parts T) ?_ fun U hTU hloop => ?_
  · exact (List.finite_toSet (reachable d T)).subset fun U hU => reaches_mem_reachable hU
  · exact hT ((cyclic_of_loop hval hloop).of_reaches hTU)

/-! ### What one call does -/

section Calls

attribute [local simp] emitDefaultValueRec Decls.defaultStructOf

variable {depth : ℕ} {s : Emitter n}

/-- An `&` to a struct that is in progress is reported. -/
theorem emit_reference_of_mem (hP : d.defaultStructOf P = some i) (hi : i ∈ s.inProgress) :
    ∃ e, emitDefaultValueRec d (depth + 1) (.reference P) s = some (.error e) := by
  rw [emitDefaultValueRec, hP]
  exact ⟨_, if_pos hi⟩

/-- The types of one struct have the same default. -/
theorem emit_congr (hT : d.defaultStructOf T = some i) (depth : ℕ) (s : Emitter n) :
    emitDefaultValueRec d depth (.struct i) s = emitDefaultValueRec d depth T s := by
  cases depth with
  | zero => rfl
  | succ depth =>
    cases T with
    | named name =>
      have hname : d.lookupType name = some i := hT
      simp [hname]
    | struct j => rw [show j = i from Option.some.inj hT]
    | _ => cases hT

/-- The stack under the pointee of an `&`. -/
def push (d : Decls n) (P : Ty n) (L : List (Fin n)) : List (Fin n) :=
  L ++ (d.defaultStructOf P).toList

/-- Any other `&` is an allocation with the default of its pointee. -/
theorem emit_reference (hfree : ∀ i ∈ s.inProgress, d.defaultStructOf P ≠ some i) :
    emitDefaultValueRec d (depth + 1) (.reference P) s =
      Outcome.andThen (emitDefaultValueRec d depth P ⟨push d P s.inProgress, s.allocations⟩)
        fun v s' => some (.ok (.heap s'.allocations v,
          ⟨if (d.defaultStructOf P).isSome then s'.inProgress.dropLast else s'.inProgress,
            s'.allocations + 1⟩)) := by
  rw [emitDefaultValueRec, push]
  rcases hP : d.defaultStructOf P with _ | i
  · simp
  · have hi : i ∉ s.inProgress := fun hi => hfree i hi hP
    simp [hi, emit_congr hP]

/-- The stack under the parts of an aggregate. -/
def enter (d : Decls n) (T : Ty n) (L : List (Fin n)) : List (Fin n) :=
  if L = [] then (d.defaultStructOf T).toList else L

/-- An aggregate is built from the defaults of its parts. -/
theorem emit_aggregate (hT : d.IsAggregate T) :
    emitDefaultValueRec d (depth + 1) T s =
      Outcome.andThen (emitParts (emitDefaultValueRec d depth) (d.parts T)
        ⟨enter d T s.inProgress, s.allocations⟩) fun vs s' => some (.ok (.aggregate vs, s')) := by
  rcases hT with ⟨i, hi⟩ | ⟨E, size, rfl, hsize⟩
  · have hs : (if s.inProgress = [] then { s with inProgress := [i] } else s) =
        ⟨enter d T s.inProgress, s.allocations⟩ := by
      rw [enter, hi]
      split_ifs <;> rfl
    rw [parts_of_struct hi, ← hs]
    cases T with
    | named name =>
      have hname : d.lookupType name = some i := hi
      simp [hname]
    | struct j =>
      obtain rfl : j = i := Option.some.inj hi
      simp
    | _ => cases hi
  · have hs : enter d (.array E size) s.inProgress = s.inProgress := by
      rw [enter]
      split_ifs with h0
      · rw [h0]
        rfl
      · rfl
    rw [emitDefaultValueRec, if_neg (by omega), Decls.parts, if_neg (by omega), hs]

/-- Anything else is a constant. -/
theorem emit_constant (hT : ¬ d.IsAggregate T) (href : ∀ P, T ≠ .reference P) :
    emitDefaultValueRec d (depth + 1) T s = some (.ok (.constant T, s)) := by
  cases T with
  | named name =>
    rcases hname : d.lookupType name with _ | i
    · simp [hname]
    · exact absurd (.inl ⟨i, hname⟩) hT
  | struct j => exact absurd (.inl ⟨j, rfl⟩) hT
  | reference P => exact absurd rfl (href P)
  | nullableReference P => simp
  | pointer P => simp
  | array E size =>
    rw [emitDefaultValueRec, if_pos]
    by_contra hsize
    exact hT (.inr ⟨E, size, rfl, by omega⟩)

end Calls

/-! ### The stack -/

/-- No struct on the stack is the pointee of an `&` that the type reaches. -/
def Clear (d : Decls n) (L : List (Fin n)) (T : Ty n) : Prop :=
  ∀ i ∈ L, ∀ P, d.Reaches T (.reference P) → d.defaultStructOf P ≠ some i

/-- The struct that stays on an empty stack once a type's default is built. -/
def entered (d : Decls n) : Ty n → Option (Fin n)
  | .array E size => if size ≤ 0 then none else entered d E
  | .reference P => if (d.defaultStructOf P).isSome then none else entered d P
  | T => d.defaultStructOf T

/-- The stack once a type's default is built. -/
def after (d : Decls n) (T : Ty n) (L : List (Fin n)) : List (Fin n) :=
  if L = [] then (entered d T).toList else L

section Stack

attribute [local simp] entered

variable {L : List (Fin n)}

theorem after_of_ne_nil (hL : L ≠ []) : after d T L = L := if_neg hL

theorem after_after : after d T (after d T L) = after d T L := by
  rcases eq_or_ne L [] with rfl | hL
  · by_cases h0 : after d T [] = []
    · rw [h0, h0]
    · exact after_of_ne_nil h0
  · rw [after_of_ne_nil hL, after_of_ne_nil hL]

theorem foldl_after_of_ne_nil (hL : L ≠ []) (Ts : List (Ty n)) :
    Ts.foldl (fun L T => after d T L) L = L := by
  induction Ts with
  | nil => rfl
  | cons T Ts ih => rw [List.foldl_cons, after_of_ne_nil hL, ih]

theorem foldl_after_replicate (k : ℕ) :
    (List.replicate (k + 1) T).foldl (fun L T => after d T L) L = after d T L := by
  induction k generalizing L with
  | zero => rfl
  | succ k ih => rw [List.replicate_succ, List.foldl_cons, ih, after_after]

theorem after_reference :
    after d (.reference P) L = if (d.defaultStructOf P).isSome then L else after d P L := by
  unfold after
  rw [entered]
  split_ifs with hL hP
  · rw [hL]
    rfl
  · rfl
  · rfl
  · rfl

theorem after_array {E : Ty n} {size : ℤ} (hsize : 0 < size) :
    after d (.array E size) L = after d E L := by
  have hentered : entered d (.array E size) = entered d E := by
    rw [entered, if_neg (by omega)]
  rw [after, hentered, after]

theorem after_of_struct (hT : d.defaultStructOf T = some i) : after d T L = enter d T L := by
  cases T with
  | named name => rfl
  | struct j => rfl
  | _ => cases hT

theorem after_constant (hT : ¬ d.IsAggregate T) (href : ∀ P, T ≠ .reference P) :
    after d T L = L := by
  have hentered : entered d T = none := by
    cases T with
    | named name =>
      by_contra h
      obtain ⟨i, hi⟩ := Option.ne_none_iff_exists'.1 h
      exact hT (.inl ⟨i, hi⟩)
    | struct j => exact absurd (.inl ⟨j, rfl⟩) hT
    | reference P => exact absurd rfl (href P)
    | nullableReference P => rfl
    | pointer P => rfl
    | array E size =>
      rw [entered, if_pos]
      by_contra hsize
      exact hT (.inr ⟨E, size, rfl, by omega⟩)
  rw [after, hentered]
  split_ifs with hL
  · rw [hL]
    rfl
  · rfl

theorem Clear.nil : Clear d [] T := fun i hi => by cases hi

theorem Clear.part (h : Clear d L T) (hU : U ∈ d.parts T) : Clear d L U :=
  fun i hi P hUP => h i hi P (.head hU hUP)

/-- A struct that reaches no cycle has no `&` that leads back to it. -/
theorem clear_of_struct (hT : ¬ d.Cyclic T) (hi : d.defaultStructOf T = some i) :
    Clear d [i] T := by
  intro j hj P hTP hP
  obtain rfl := List.mem_singleton.1 hj
  refine hT ((cyclic_of_reference hi hTP hP).of_reaches (hTP.tail ?_))
  exact List.mem_singleton_self P

theorem Clear.push (h : Clear d L P) (hP : ¬ d.Cyclic P) : Clear d (push d P L) P := by
  intro i hi
  rcases List.mem_append.1 hi with hi | hi
  · exact h i hi
  · exact clear_of_struct hP (Option.mem_toList.1 hi) i (List.mem_singleton_self i)

theorem Clear.enter (h : Clear d L T) (hT : ¬ d.Cyclic T) : Clear d (enter d T L) T := by
  unfold DefaultValue.enter
  split_ifs with hL
  · intro i hi
    exact clear_of_struct hT (Option.mem_toList.1 hi) i (List.mem_singleton_self i)
  · exact h

/-- What stays on the stack does not disturb the same type built again. -/
theorem clear_entered (hT : ¬ d.Cyclic T) (hi : entered d T = some i) : Clear d [i] T := by
  induction T with
  | named name => exact clear_of_struct hT hi
  | struct j => exact clear_of_struct hT hi
  | nullableReference P => cases hi
  | pointer P => cases hi
  | reference P ih =>
    rw [entered] at hi
    split_ifs at hi with hP
    have hclear := ih (fun h => hT (h.of_reaches (.single (List.mem_singleton_self P)))) hi
    intro j hj Q hQ
    rcases hQ.cases_part with heq | ⟨W, hW, hWQ⟩
    · obtain rfl : P = Q := by simpa using heq
      intro hstruct
      exact hP (hstruct ▸ rfl)
    · obtain rfl := List.mem_singleton.1 hW
      exact hclear j hj Q hWQ
  | array E size ih =>
    rw [entered] at hi
    split_ifs at hi with hsize
    have hpart : ∀ W ∈ d.parts (.array E size), W = E := by
      intro W hW
      rw [Decls.parts, if_neg hsize] at hW
      exact List.eq_of_mem_replicate hW
    have hE : E ∈ d.parts (.array E size) := by
      rw [Decls.parts, if_neg hsize]
      exact List.mem_replicate.2 ⟨by omega, rfl⟩
    have hclear := ih (fun h => hT (h.of_reaches (.single hE))) hi
    intro j hj Q hQ
    rcases hQ.cases_part with heq | ⟨W, hW, hWQ⟩
    · cases heq
    · obtain rfl := hpart W hW
      exact hclear j hj Q hWQ

theorem Clear.after (h : Clear d L T) (hT : ¬ d.Cyclic T) : Clear d (after d T L) T := by
  unfold DefaultValue.after
  split_ifs with hL
  · intro i hi
    exact clear_entered hT (Option.mem_toList.1 hi) i (List.mem_singleton_self i)
  · exact h

end Stack

/-! ### Types without cycles -/

/-- What a successful call gives. -/
structure Emitted (d : Decls n) (T : Ty n) (s : Emitter n) (v : Value n) (s' : Emitter n) :
    Prop where
  built : Built d T v
  inProgress : s'.inProgress = after d T s.inProgress
  le : s.allocations ≤ s'.allocations
  sites : ∀ x ∈ v.sites, s.allocations ≤ x ∧ x < s'.allocations
  nodup : v.sites.Nodup

/-- What successful calls for some parts give. -/
structure EmittedAll (d : Decls n) (Ts : List (Ty n)) (s : Emitter n) (vs : List (Value n))
    (s' : Emitter n) : Prop where
  built : List.Forall₂ (Built d) Ts vs
  inProgress : s'.inProgress = Ts.foldl (fun L T => after d T L) s.inProgress
  le : s.allocations ≤ s'.allocations
  sites : ∀ x ∈ Value.sitesAll vs, s.allocations ≤ x ∧ x < s'.allocations
  nodup : (Value.sitesAll vs).Nodup

section Success

variable {depth : ℕ} {s s' s'' : Emitter n} {Ts : List (Ty n)} {v : Value n} {vs : List (Value n)}

theorem EmittedAll.cons (h : Emitted d T s v s') (hs : EmittedAll d Ts s' vs s'') :
    EmittedAll d (T :: Ts) s (v :: vs) s'' where
  built := .cons h.built hs.built
  inProgress := by rw [hs.inProgress, h.inProgress, List.foldl_cons]
  le := h.le.trans hs.le
  sites x hx := by
    rw [Value.sitesAll] at hx
    rcases List.mem_append.1 hx with hx | hx
    · have := h.sites x hx
      have := hs.le
      omega
    · have := hs.sites x hx
      have := h.le
      omega
  nodup := by
    rw [Value.sitesAll]
    refine List.nodup_append.2 ⟨h.nodup, hs.nodup, fun x hx y hy => ?_⟩
    have := h.sites x hx
    have := hs.sites y hy
    omega

/-- The parts succeed when each does and the stacks between them are clear. -/
theorem emitParts_ok {emit : Ty n → Emitter n → Outcome n (Value n)} {I : List (Fin n) → Prop}
    (hI : ∀ U ∈ Ts, ∀ L, I L → I (after d U L))
    (hemit : ∀ U ∈ Ts, ∀ s r, I s.inProgress → emit U s = some r →
      ∃ v s', r = .ok (v, s') ∧ Emitted d U s v s')
    (hs : I s.inProgress) {r : Except DefaultThroughReferenceCycle (List (Value n) × Emitter n)}
    (h : emitParts emit Ts s = some r) :
    ∃ vs s', r = .ok (vs, s') ∧ EmittedAll d Ts s vs s' := by
  induction Ts generalizing s r with
  | nil =>
    obtain rfl := Option.some.inj h
    exact ⟨[], s, rfl, .nil, rfl, le_rfl, fun x hx => (by cases hx), List.nodup_nil⟩
  | cons T Ts ih =>
    rw [emitParts] at h
    rcases hT : emit T s with _ | r'
    · rw [hT] at h
      cases h
    · obtain ⟨v, s₁, rfl, hE⟩ := hemit T List.mem_cons_self s r' hs hT
      rw [hT, andThen_ok] at h
      have hs₁ : I s₁.inProgress := by
        rw [hE.inProgress]
        exact hI T List.mem_cons_self _ hs
      rcases hTs : emitParts emit Ts s₁ with _ | r₂
      · rw [hTs] at h
        cases h
      · obtain ⟨vs, s₂, rfl, hEs⟩ := ih (fun U hU => hI U (List.mem_cons_of_mem _ hU))
          (fun U hU => hemit U (List.mem_cons_of_mem _ hU)) hs₁ hTs
        rw [hTs, andThen_ok] at h
        obtain rfl := Option.some.inj h
        exact ⟨v :: vs, s₂, rfl, .cons hE hEs⟩

/-- The defaults of the elements of an array. -/
theorem enter_array {E : Ty n} {size : ℤ} (L : List (Fin n)) :
    enter d (.array E size) L = L := by
  rw [enter]
  split_ifs with h0
  · rw [h0]
    rfl
  · rfl

theorem parts_array {E : Ty n} {size : ℤ} (hsize : 0 < size) :
    ∃ k, d.parts (.array E size) = List.replicate (k + 1) E := by
  obtain ⟨k, hk⟩ : ∃ k, size.toNat = k + 1 := ⟨size.toNat - 1, by omega⟩
  exact ⟨k, by rw [Decls.parts, if_neg (by omega), hk]⟩

theorem enter_ne_nil (hT : d.defaultStructOf T = some i) (L : List (Fin n)) :
    enter d T L ≠ [] := by
  unfold enter
  rw [hT]
  split_ifs with hL
  · exact List.cons_ne_nil _ _
  · exact hL

/-- The stacks between the parts of an aggregate without cycles. -/
theorem exists_stacks (hagg : d.IsAggregate T) (hT : ¬ d.Cyclic T) {L : List (Fin n)}
    (hclear : Clear d L T) : ∃ I : List (Fin n) → Prop, I (enter d T L) ∧
      (∀ U ∈ d.parts T, ∀ L', I L' → Clear d L' U ∧ I (after d U L')) ∧
      (d.parts T).foldl (fun L U => after d U L) (enter d T L) = after d T L := by
  rcases hagg with ⟨i, hi⟩ | ⟨E, size, rfl, hsize⟩
  · have hne := enter_ne_nil hi L
    refine ⟨fun L' => L' = enter d T L, rfl, fun U hU L' hL' => ?_, ?_⟩
    · subst hL'
      exact ⟨(hclear.enter hT).part hU, after_of_ne_nil hne⟩
    · rw [foldl_after_of_ne_nil hne, after_of_struct hi]
  · obtain ⟨k, hk⟩ := parts_array (d := d) (E := E) hsize
    have hE : E ∈ d.parts (.array E size) := by
      rw [hk]
      exact List.mem_replicate.2 ⟨by omega, rfl⟩
    have hclearE := hclear.part hE
    have hacyc : ¬ d.Cyclic E := fun h => hT (h.of_reaches (.single hE))
    refine ⟨fun L' => L' = L ∨ L' = after d E L, .inl (enter_array L), fun U hU L' hL' => ?_, ?_⟩
    · rw [hk] at hU
      obtain rfl := List.eq_of_mem_replicate hU
      rcases hL' with rfl | rfl
      · exact ⟨hclearE, .inr rfl⟩
      · exact ⟨hclearE.after hacyc, .inr after_after⟩
    · rw [hk, enter_array, foldl_after_replicate, after_array hsize]

/-- A type that reaches no cycle has a default, if the recursion ends. -/
theorem emit_ok (hT : ¬ d.Cyclic T) (hclear : Clear d s.inProgress T)
    {r : Except DefaultThroughReferenceCycle (Value n × Emitter n)}
    (h : emitDefaultValueRec d depth T s = some r) :
    ∃ v s', r = .ok (v, s') ∧ Emitted d T s v s' := by
  induction depth generalizing T s r with
  | zero => cases h
  | succ depth ih =>
    by_cases href : ∃ P, T = .reference P
    · obtain ⟨P, rfl⟩ := href
      have hP : ¬ d.Cyclic P := fun h => hT (h.of_reaches (.single (List.mem_singleton_self P)))
      rw [emit_reference fun i hi => hclear i hi P .refl] at h
      have hclear' := (hclear.part (List.mem_singleton_self P)).push hP
      rcases hrec : emitDefaultValueRec d depth P ⟨push d P s.inProgress, s.allocations⟩
        with _ | r'
      · rw [hrec] at h
        cases h
      · obtain ⟨v, s₁, rfl, hE⟩ := ih hP hclear' hrec
        rw [hrec, andThen_ok] at h
        obtain rfl := Option.some.inj h
        refine ⟨_, _, rfl, .reference hE.built, ?_, ?_, ?_, ?_⟩
        · -- the pointee's own struct is taken off again
          have hin := hE.inProgress
          simp only [push] at hin
          rw [after_reference]
          rcases hstruct : d.defaultStructOf P with _ | i
          · rw [hstruct, Option.toList_none, List.append_nil] at hin
            exact hin
          · rw [hstruct, Option.toList_some, after_of_ne_nil (by simp)] at hin
            simp [hin]
        · have := hE.le
          simp only at this ⊢
          omega
        · intro x hx
          have hle := hE.le
          rcases List.mem_cons.1 hx with rfl | hx
          · simp only at hle ⊢
            omega
          · have := hE.sites x hx
            simp only at this hle ⊢
            omega
        · refine List.nodup_cons.2 ⟨fun hmem => ?_, hE.nodup⟩
          exact absurd (hE.sites _ hmem).2 (lt_irrefl _)
    · have href' : ∀ P, T ≠ .reference P := fun P hP => href ⟨P, hP⟩
      by_cases hagg : d.IsAggregate T
      · rw [emit_aggregate hagg] at h
        obtain ⟨I, hstart, hI, hfold⟩ := exists_stacks hagg hT hclear
        rcases hrec : emitParts (emitDefaultValueRec d depth) (d.parts T)
          ⟨enter d T s.inProgress, s.allocations⟩ with _ | r'
        · rw [hrec] at h
          cases h
        · obtain ⟨vs, s₁, rfl, hE⟩ := emitParts_ok (d := d) (fun U hU L hL => (hI U hU L hL).2)
            (fun U hU s r hs hr => ih (fun hcyc => hT (hcyc.of_reaches (.single hU)))
              (hI U hU _ hs).1 hr) hstart hrec
          rw [hrec, andThen_ok] at h
          obtain rfl := Option.some.inj h
          exact ⟨_, _, rfl, .aggregate hagg hE.built, hE.inProgress.trans hfold, hE.le, hE.sites,
            hE.nodup⟩
      · rw [emit_constant hagg href'] at h
        obtain rfl := Option.some.inj h
        exact ⟨_, _, rfl, .constant hagg href', (after_constant hagg href').symm, le_rfl,
          fun x hx => (by cases hx), List.nodup_nil⟩

/-- One depth for all the types of a list. -/
theorem exists_depth {Q : ℕ → Ty n → Prop} (h : ∀ U ∈ Ts, ∃ D, ∀ depth, D ≤ depth → Q depth U) :
    ∃ D, ∀ depth, D ≤ depth → ∀ U ∈ Ts, Q depth U := by
  induction Ts with
  | nil => exact ⟨0, fun depth _ U hU => by cases hU⟩
  | cons T Ts ih =>
    obtain ⟨D, hD⟩ := h T List.mem_cons_self
    obtain ⟨D', hD'⟩ := ih fun U hU => h U (List.mem_cons_of_mem _ hU)
    refine ⟨max D D', fun depth hle U hU => ?_⟩
    rcases List.mem_cons.1 hU with rfl | hU
    · exact hD depth (by omega)
    · exact hD' depth (by omega) U hU

theorem andThen_ne_none {α β : Type} {r : Outcome n α} {f : α → Emitter n → Outcome n β}
    (hr : r ≠ none) (hf : ∀ a s, f a s ≠ none) : Outcome.andThen r f ≠ none := by
  rcases r with _ | _ | ⟨a, s⟩
  · exact absurd rfl hr
  · exact Option.some_ne_none _
  · exact hf a s

theorem emitParts_ne_none {emit : Ty n → Emitter n → Outcome n (Value n)}
    {I : List (Fin n) → Prop} (hI : ∀ U ∈ Ts, ∀ L, I L → I (after d U L))
    (hemit : ∀ U ∈ Ts, ∀ s r, I s.inProgress → emit U s = some r →
      ∃ v s', r = .ok (v, s') ∧ Emitted d U s v s')
    (hends : ∀ U ∈ Ts, ∀ s, I s.inProgress → emit U s ≠ none) (hs : I s.inProgress) :
    emitParts emit Ts s ≠ none := by
  induction Ts generalizing s with
  | nil => exact Option.some_ne_none _
  | cons T Ts ih =>
    rw [emitParts]
    obtain ⟨r, hr⟩ := Option.ne_none_iff_exists'.1 (hends T List.mem_cons_self s hs)
    obtain ⟨v, s₁, rfl, hE⟩ := hemit T List.mem_cons_self s r hs hr
    rw [hr, andThen_ok]
    have hs₁ : I s₁.inProgress := by
      rw [hE.inProgress]
      exact hI T List.mem_cons_self _ hs
    refine andThen_ne_none ?_ fun vs s => Option.some_ne_none _
    exact ih (fun U hU => hI U (List.mem_cons_of_mem _ hU))
      (fun U hU => hemit U (List.mem_cons_of_mem _ hU))
      (fun U hU => hends U (List.mem_cons_of_mem _ hU)) hs₁

/-- The recursion ends on a type that reaches no cycle. -/
theorem emit_ends (hval : d.NoValueCycle) (hT : ¬ d.Cyclic T) :
    ∃ D, ∀ depth, D ≤ depth → ∀ s : Emitter n, Clear d s.inProgress T →
      emitDefaultValueRec d depth T s ≠ none := by
  induction acc_parts hval hT with
  | intro T _ ih =>
    have hparts : ∀ U ∈ d.parts T, ¬ d.Cyclic U := fun U hU h =>
      hT (h.of_reaches (.single hU))
    obtain ⟨D, hD⟩ := exists_depth fun U (hU : U ∈ d.parts T) => ih U hU (hparts U hU)
    refine ⟨D + 1, fun depth hle s hclear => ?_⟩
    obtain ⟨k, rfl⟩ : ∃ k, depth = k + 1 := ⟨depth - 1, by omega⟩
    by_cases href : ∃ P, T = .reference P
    · obtain ⟨P, rfl⟩ := href
      have hP := List.mem_singleton_self P
      rw [emit_reference fun i hi => hclear i hi P .refl]
      refine andThen_ne_none (hD k (by omega) P hP _ ?_) fun v s => Option.some_ne_none _
      exact (hclear.part hP).push (hparts P hP)
    · have href' : ∀ P, T ≠ .reference P := fun P hP => href ⟨P, hP⟩
      by_cases hagg : d.IsAggregate T
      · rw [emit_aggregate hagg]
        obtain ⟨I, hstart, hI, -⟩ := exists_stacks hagg hT hclear
        refine andThen_ne_none ?_ fun vs s => Option.some_ne_none _
        exact emitParts_ne_none (fun U hU L hL => (hI U hU L hL).2)
          (fun U hU s r hs hr => emit_ok (hparts U hU) (hI U hU _ hs).1 hr)
          (fun U hU s hs => hD k (by omega) U hU s (hI U hU _ hs).1) hstart
      · rw [emit_constant hagg href']
        exact Option.some_ne_none _

end Success

/-! ### The walk into the cycle -/

section Walk

variable {k : ℕ} {L : List (Fin n)}

open Classical in
theorem find_cyclic (hT : d.Cyclic T) :
    (d.parts T).find? (fun U => d.Cyclic U) = some (d.firstCyclic T) := by
  obtain ⟨U, hU, hcyc⟩ := hT.exists_part
  rcases hfind : (d.parts T).find? fun U => d.Cyclic U with _ | W
  · exact absurd (decide_eq_true hcyc) (List.find?_eq_none.1 hfind U hU)
  · rw [Decls.firstCyclic, hfind, Option.getD_some]

open Classical in
/-- The parts before the first cyclic one reach no cycle. -/
theorem firstCyclic_spec (hT : d.Cyclic T) : ∃ before rest,
    d.parts T = before ++ d.firstCyclic T :: rest ∧ d.Cyclic (d.firstCyclic T) ∧
      ∀ U ∈ before, ¬ d.Cyclic U := by
  obtain ⟨hcyc, before, rest, hparts, hbefore⟩ :=
    List.find?_eq_some_iff_append.1 (find_cyclic hT)
  exact ⟨before, rest, hparts, of_decide_eq_true hcyc, fun U hU => by simpa using hbefore U hU⟩

theorem firstCyclic_reference (hT : d.Cyclic (.reference P)) :
    d.firstCyclic (.reference P) = P := by
  obtain ⟨before, rest, hparts, -, -⟩ := firstCyclic_spec hT
  have hmem : d.firstCyclic (.reference P) ∈ d.parts (.reference P) := by
    rw [hparts]
    exact List.mem_append_right _ List.mem_cons_self
  exact List.mem_singleton.1 hmem

/-- The walk goes on the same from the types of one struct. -/
theorem firstCyclic_congr (hT : d.Cyclic T) (hU : d.Cyclic U) (hparts : d.parts T = d.parts U) :
    d.firstCyclic T = d.firstCyclic U := by
  have hfind := find_cyclic hT
  rw [hparts, find_cyclic hU] at hfind
  exact (Option.some.inj hfind).symm

theorem walk_succ (k : ℕ) : d.firstCyclic^[k + 1] T = d.firstCyclic (d.firstCyclic^[k] T) :=
  Function.iterate_succ_apply' _ _ _

theorem cyclic_walk (hT : d.Cyclic T) (k : ℕ) : d.Cyclic (d.firstCyclic^[k] T) := by
  induction k with
  | zero => exact hT
  | succ k ih =>
    obtain ⟨-, -, -, hcyc, -⟩ := firstCyclic_spec ih
    rwa [walk_succ]

theorem walk_mem (hT : d.Cyclic T) (k : ℕ) :
    d.firstCyclic^[k + 1] T ∈ d.parts (d.firstCyclic^[k] T) := by
  obtain ⟨before, rest, hparts, -, -⟩ := firstCyclic_spec (cyclic_walk hT k)
  rw [walk_succ, hparts]
  exact List.mem_append_right _ List.mem_cons_self

theorem walk_reaches (hT : d.Cyclic T) {m k : ℕ} (h : m ≤ k) :
    d.Reaches (d.firstCyclic^[m] T) (d.firstCyclic^[k] T) := by
  induction h with
  | refl => exact .refl
  | step _ ih => exact ih.tail (walk_mem hT _)

/-- The walk has come by every struct on the stack. -/
def Entered (d : Decls n) (T : Ty n) (k : ℕ) (L : List (Fin n)) : Prop :=
  ∀ i ∈ L, ∃ m, m ≤ k ∧ d.defaultStructOf (d.firstCyclic^[m] T) = some i

theorem Entered.succ (h : Entered d T k L) : Entered d T (k + 1) L := by
  intro i hi
  obtain ⟨m, hm, hstruct⟩ := h i hi
  exact ⟨m, Nat.le_succ_of_le hm, hstruct⟩

theorem Entered.enter (h : Entered d T k L) :
    Entered d T k (enter d (d.firstCyclic^[k] T) L) := by
  intro i hi
  unfold DefaultValue.enter at hi
  split_ifs at hi with hL
  · exact ⟨k, le_rfl, Option.mem_toList.1 hi⟩
  · exact h i hi

theorem Entered.push (h : Entered d T k L) (hP : d.firstCyclic^[k + 1] T = P) :
    Entered d T (k + 1) (push d P L) := by
  intro i hi
  rcases List.mem_append.1 hi with hi | hi
  · exact h.succ i hi
  · exact ⟨k + 1, le_rfl, hP ▸ Option.mem_toList.1 hi⟩

/-- A part without cycles beside the walk leads to no struct the walk came by. -/
theorem Entered.clear (hT : d.Cyclic T) (h : Entered d T k L)
    (hU : U ∈ d.parts (d.firstCyclic^[k] T)) (hacyc : ¬ d.Cyclic U) : Clear d L U := by
  intro i hi P hUP hP
  obtain ⟨m, hm, hstruct⟩ := h i hi
  have hreach := ((walk_reaches hT hm).tail hU).trans hUP
  refine hacyc ((cyclic_of_reference hstruct hreach hP).of_reaches (hUP.tail ?_))
  exact List.mem_singleton_self P

/-- There are no parts before the walk's, or there is a struct on the stack. -/
theorem before_cases {before rest : List (Ty n)} (hT : d.Cyclic T)
    (hagg : d.IsAggregate (d.firstCyclic^[k] T))
    (hparts : d.parts (d.firstCyclic^[k] T) = before ++ d.firstCyclic^[k + 1] T :: rest)
    (hbefore : ∀ U ∈ before, ¬ d.Cyclic U) :
    before = [] ∨ ∀ L, enter d (d.firstCyclic^[k] T) L ≠ [] := by
  rcases hagg with ⟨i, hi⟩ | ⟨E, size, hE, hsize⟩
  · exact .inr (enter_ne_nil hi)
  · -- all elements are of one type, so the first is the walk's
    left
    obtain ⟨j, hj⟩ := parts_array (d := d) (E := E) hsize
    rw [hE, hj] at hparts
    have hall : ∀ U ∈ before ++ d.firstCyclic^[k + 1] T :: rest, U = E := fun U hU =>
      List.eq_of_mem_replicate (hparts ▸ hU)
    refine List.eq_nil_iff_forall_not_mem.2 fun U hU => hbefore U hU ?_
    rw [hall U (List.mem_append_left _ hU),
      ← hall _ (List.mem_append_right _ List.mem_cons_self)]
    exact cyclic_walk hT (k + 1)

/-- The parts before the walk's leave the stack as it is. -/
theorem emitParts_before {before rest : List (Ty n)} {depth : ℕ} {s : Emitter n}
    (hT : d.Cyclic T) (hagg : d.IsAggregate (d.firstCyclic^[k] T)) (h : Entered d T k L)
    (hparts : d.parts (d.firstCyclic^[k] T) = before ++ d.firstCyclic^[k + 1] T :: rest)
    (hbefore : ∀ U ∈ before, ¬ d.Cyclic U)
    (hs : s.inProgress = enter d (d.firstCyclic^[k] T) L)
    {r : Except DefaultThroughReferenceCycle (List (Value n) × Emitter n)}
    (hr : emitParts (emitDefaultValueRec d depth) before s = some r) :
    ∃ vs s', r = .ok (vs, s') ∧ s'.inProgress = s.inProgress := by
  rcases before_cases hT hagg hparts hbefore with rfl | hne
  · obtain rfl := Option.some.inj hr
    exact ⟨[], s, rfl, rfl⟩
  have hne' : s.inProgress ≠ [] := hs ▸ hne L
  have hclear : ∀ U ∈ before, Clear d s.inProgress U := by
    intro U hU
    rw [hs]
    exact h.enter.clear hT (hparts ▸ List.mem_append_left _ hU) (hbefore U hU)
  obtain ⟨vs, s', rfl, hall⟩ := emitParts_ok (d := d) (I := fun L' => L' = s.inProgress)
    (fun U hU L' hL' => by rw [hL', after_of_ne_nil hne'])
    (fun U hU s₁ r hs₁ hr => emit_ok (hbefore U hU) (hs₁ ▸ hclear U hU) hr) rfl hr
  exact ⟨vs, s', rfl, hall.inProgress.trans (foldl_after_of_ne_nil hne' _)⟩

/-- A cyclic type is an `&` or has parts. -/
theorem isAggregate_of_cyclic (hT : d.Cyclic T) (href : ∀ P, T ≠ .reference P) :
    d.IsAggregate T := by
  by_contra hagg
  obtain ⟨U, hU, -⟩ := hT.exists_part
  rw [parts_eq_nil hagg href] at hU
  cases hU

/-- If the recursion ends on the walk, an `&` leads back to a struct the walk came by. -/
theorem exists_back_reference (hT : d.Cyclic T) {depth : ℕ} {s : Emitter n}
    (h : Entered d T k s.inProgress)
    {r : Except DefaultThroughReferenceCycle (Value n × Emitter n)}
    (hr : emitDefaultValueRec d depth (d.firstCyclic^[k] T) s = some r) :
    ∃ j P i m, d.firstCyclic^[j] T = .reference P ∧ d.defaultStructOf P = some i ∧ m ≤ j ∧
      d.defaultStructOf (d.firstCyclic^[m] T) = some i := by
  induction depth generalizing k s r with
  | zero => cases hr
  | succ depth ih =>
    by_cases href : ∃ P, d.firstCyclic^[k] T = .reference P
    · obtain ⟨P, hP⟩ := href
      have hnext : d.firstCyclic^[k + 1] T = P := by
        rw [walk_succ, hP]
        exact firstCyclic_reference (hP ▸ cyclic_walk hT k)
      by_cases hfree : ∀ i ∈ s.inProgress, d.defaultStructOf P ≠ some i
      · rw [hP, emit_reference hfree] at hr
        rcases hrec : emitDefaultValueRec d depth P ⟨push d P s.inProgress, s.allocations⟩
          with _ | r'
        · rw [hrec] at hr
          cases hr
        · exact ih (s := ⟨push d P s.inProgress, s.allocations⟩) (h.push hnext)
            (by rw [hnext]; exact hrec)
      · push Not at hfree
        obtain ⟨i, hi, hstruct⟩ := hfree
        obtain ⟨m, hm, hm'⟩ := h i hi
        exact ⟨k, P, i, m, hP, hstruct, hm, hm'⟩
    · have hagg := isAggregate_of_cyclic (cyclic_walk hT k) fun P hP => href ⟨P, hP⟩
      obtain ⟨before, rest, hparts, -, hbefore⟩ := firstCyclic_spec (cyclic_walk hT k)
      rw [← walk_succ] at hparts
      rw [emit_aggregate hagg, hparts, emitParts_append] at hr
      rcases hrec : emitParts (emitDefaultValueRec d depth) before
        ⟨enter d (d.firstCyclic^[k] T) s.inProgress, s.allocations⟩ with _ | r'
      · rw [hrec] at hr
        cases hr
      · obtain ⟨vs, s₁, rfl, hin⟩ := emitParts_before hT hagg h hparts hbefore rfl hrec
        rw [hrec, andThen_ok, emitParts] at hr
        rcases hnext : emitDefaultValueRec d depth (d.firstCyclic^[k + 1] T) s₁ with _ | r'
        · rw [hnext] at hr
          cases hr
        · refine ih ?_ hnext
          rw [hin]
          exact h.enter.succ

/-- The recursion ends on the parts before the walk's. -/
theorem exists_depth_before (hval : d.NoValueCycle) {before rest : List (Ty n)}
    (hT : d.Cyclic T) (hagg : d.IsAggregate (d.firstCyclic^[k] T)) (h : Entered d T k L)
    (hparts : d.parts (d.firstCyclic^[k] T) = before ++ d.firstCyclic^[k + 1] T :: rest)
    (hbefore : ∀ U ∈ before, ¬ d.Cyclic U) : ∃ D, ∀ depth, D ≤ depth → ∀ a,
      emitParts (emitDefaultValueRec d depth) before ⟨enter d (d.firstCyclic^[k] T) L, a⟩ ≠
        none := by
  obtain ⟨D, hD⟩ := exists_depth fun U (hU : U ∈ before) => emit_ends hval (hbefore U hU)
  refine ⟨D, fun depth hle a => ?_⟩
  rcases before_cases hT hagg hparts hbefore with rfl | hne
  · exact Option.some_ne_none _
  have hclear : ∀ U ∈ before, Clear d (enter d (d.firstCyclic^[k] T) L) U := fun U hU =>
    h.enter.clear hT (hparts ▸ List.mem_append_left _ hU) (hbefore U hU)
  refine emitParts_ne_none (d := d) (I := fun L' => L' = enter d (d.firstCyclic^[k] T) L)
    ?_ ?_ ?_ rfl
  · intro U hU L' hL'
    rw [hL', after_of_ne_nil (hne L)]
  · intro U hU s₁ r hs₁ hr
    exact emit_ok (hbefore U hU) (hs₁ ▸ hclear U hU) hr
  · intro U hU s₁ hs₁
    exact hD depth hle U hU s₁ (hs₁ ▸ hclear U hU)

/-- From the walk's `k`-th type and a stack the emission ends with a report. -/
def Reports (d : Decls n) (T : Ty n) (k : ℕ) (L : List (Fin n)) : Prop :=
  ∃ D, ∀ depth, D ≤ depth → ∀ a, ∃ e,
    emitDefaultValueRec d depth (d.firstCyclic^[k] T) ⟨L, a⟩ = some (.error e)

theorem reports_of_reference (hP : d.firstCyclic^[k] T = .reference P) (hT : d.Cyclic T)
    (h : (∀ i ∈ L, d.defaultStructOf P ≠ some i) → Reports d T (k + 1) (push d P L)) :
    Reports d T k L := by
  have hnext : d.firstCyclic^[k + 1] T = P := by
    rw [walk_succ, hP]
    exact firstCyclic_reference (hP ▸ cyclic_walk hT k)
  unfold Reports
  rw [hP]
  by_cases hfree : ∀ i ∈ L, d.defaultStructOf P ≠ some i
  · obtain ⟨D, hD⟩ := h hfree
    refine ⟨D + 1, fun depth hle a => ?_⟩
    obtain ⟨m, rfl⟩ : ∃ m, depth = m + 1 := ⟨depth - 1, by omega⟩
    obtain ⟨e, he⟩ := hD m (by omega) a
    rw [hnext] at he
    exact ⟨e, by rw [emit_reference hfree, he, andThen_error]⟩
  · push Not at hfree
    obtain ⟨i, hi, hstruct⟩ := hfree
    refine ⟨1, fun depth hle a => ?_⟩
    obtain ⟨m, rfl⟩ : ∃ m, depth = m + 1 := ⟨depth - 1, by omega⟩
    exact emit_reference_of_mem hstruct hi

theorem reports_of_aggregate (hval : d.NoValueCycle) (hT : d.Cyclic T)
    (hagg : d.IsAggregate (d.firstCyclic^[k] T)) (hL : Entered d T k L)
    (h : Reports d T (k + 1) (enter d (d.firstCyclic^[k] T) L)) : Reports d T k L := by
  obtain ⟨before, rest, hparts, -, hbefore⟩ := firstCyclic_spec (cyclic_walk hT k)
  rw [← walk_succ] at hparts
  obtain ⟨D, hD⟩ := h
  obtain ⟨D', hD'⟩ := exists_depth_before hval hT hagg hL hparts hbefore
  refine ⟨max D D' + 1, fun depth hle a => ?_⟩
  obtain ⟨m, rfl⟩ : ∃ m, depth = m + 1 := ⟨depth - 1, by omega⟩
  rw [emit_aggregate hagg, hparts, emitParts_append]
  obtain ⟨r, hr⟩ := Option.ne_none_iff_exists'.1 (hD' m (by omega) a)
  obtain ⟨vs, ⟨L', b⟩, rfl, hin⟩ := emitParts_before hT hagg hL hparts hbefore rfl hr
  obtain rfl : L' = enter d (d.firstCyclic^[k] T) L := hin
  obtain ⟨e, he⟩ := hD m (by omega) b
  rw [hr, andThen_ok, emitParts, he]
  exact ⟨e, rfl⟩

theorem nodup_toList (o : Option (Fin n)) : o.toList.Nodup := by
  cases o <;> simp

/-- A walk that comes by an `&` to a struct again and again ends with a report: each such `&` puts
a struct on the stack that was not there, and there are `n`. -/
theorem reports_of_references (hval : d.NoValueCycle) (hT : d.Cyclic T)
    (hinf : ∀ k, ∃ j, k ≤ j ∧ d.StructReference (d.firstCyclic^[j] T)) {c q : ℕ}
    (hroom : n < c + L.length) (hnodup : L.Nodup) (hL : Entered d T k L)
    (hq : d.StructReference (d.firstCyclic^[k + q] T)) : Reports d T k L := by
  -- `c` structs at most can still be put on the stack, and the next such `&` is `q` steps ahead
  induction c generalizing q k L with
  | zero =>
    have := hnodup.length_le_card
    rw [Fintype.card_fin] at this
    omega
  | succ c ihc =>
    induction q generalizing k L with
    | zero =>
      obtain ⟨P, i, hP, hstruct⟩ := hq
      refine reports_of_reference hP hT fun hfree => ?_
      have hnext : d.firstCyclic^[k + 1] T = P := by
        rw [walk_succ]
        exact (congrArg d.firstCyclic hP).trans (firstCyclic_reference (hP ▸ cyclic_walk hT k))
      obtain ⟨j, hj, hnextRef⟩ := hinf (k + 1)
      obtain ⟨q, rfl⟩ := Nat.exists_eq_add_of_le hj
      have hpush : push d P L = L ++ [i] := by rw [push, hstruct, Option.toList_some]
      refine ihc ?_ ?_ (hL.push hnext) hnextRef
      · rw [hpush, List.length_append, List.length_singleton]
        omega
      · rw [hpush]
        refine List.nodup_append.2 ⟨hnodup, List.nodup_singleton i, fun j hj j' hj' heq => ?_⟩
        rw [List.mem_singleton.1 hj'] at heq
        exact hfree j hj (heq ▸ hstruct)
    | succ q ihq =>
      rw [show k + (q + 1) = k + 1 + q by omega] at hq
      by_cases href : ∃ P, d.firstCyclic^[k] T = .reference P
      · obtain ⟨P, hP⟩ := href
        refine reports_of_reference hP hT fun hfree => ?_
        have hnext : d.firstCyclic^[k + 1] T = P := by
          rw [walk_succ, hP]
          exact firstCyclic_reference (hP ▸ cyclic_walk hT k)
        refine ihq ?_ ?_ (hL.push hnext) hq
        · rw [push, List.length_append]
          omega
        · refine List.nodup_append.2 ⟨hnodup, nodup_toList _, fun j hj j' hj' heq => ?_⟩
          exact hfree j hj (heq ▸ Option.mem_toList.1 hj')
      · have hagg := isAggregate_of_cyclic (cyclic_walk hT k) fun P hP => href ⟨P, hP⟩
        refine reports_of_aggregate hval hT hagg hL (ihq ?_ ?_ hL.enter.succ hq)
        · unfold enter
          split_ifs with h0
          · rw [h0] at hroom
            exact hroom.trans_le (Nat.add_le_add_left (Nat.zero_le _) _)
          · exact hroom
        · unfold enter
          split_ifs
          · exact nodup_toList _
          · exact hnodup

end Walk

/-! ### When a default is built right -/

/-- Without cycles by value, the emission ends, reports the cycles and gives every `&` its own
allocation, exactly when the walk into the first cyclic part comes by an `&` to a struct again and
again. -/
theorem faithful_iff_guarded (hval : d.NoValueCycle) (T : Ty n) :
    Faithful d T ↔ d.Guarded T := by
  have hempty : ∀ k, Entered d T k [] := fun k i hi => by cases hi
  constructor
  · rintro ⟨depth, r, hr, -⟩ hT
    obtain ⟨j, P, i, m, hP, hstruct, hm, hm'⟩ :=
      exists_back_reference (k := 0) (s := ⟨[], 0⟩) hT (hempty 0) hr
    have hne : m ≠ j := by
      rintro rfl
      rw [hP] at hm'
      cases hm'
    have hnext : d.firstCyclic^[j + 1] T = P := by
      rw [walk_succ, hP]
      exact firstCyclic_reference (hP ▸ cyclic_walk hT j)
    -- the walk goes on from the struct as it did before
    have hback : d.firstCyclic^[m + 1] T = d.firstCyclic^[j + 1 + 1] T := by
      rw [walk_succ, walk_succ]
      exact firstCyclic_congr (cyclic_walk hT m) (cyclic_walk hT (j + 1))
        (parts_congr hm' (hnext.symm ▸ hstruct))
    intro k
    obtain ⟨j', hj', heq⟩ := Descent.exists_iterate_eq d.firstCyclic (i := j) (by omega) hback
      (by omega) k
    exact ⟨j', hj', P, i, heq.trans hP, hstruct⟩
  · intro hguarded
    by_cases hT : d.Cyclic T
    · obtain ⟨j, -, hj⟩ := hguarded hT 0
      obtain ⟨D, hD⟩ := reports_of_references (k := 0) (L := []) (c := n + 1) (q := j) hval hT
        (hguarded hT) (by simp) List.nodup_nil (hempty 0) (by rwa [Nat.zero_add])
      obtain ⟨e, he⟩ := hD D le_rfl 0
      refine ⟨D, .error e, he, iff_of_true ⟨e, rfl⟩ hT, fun v s h => by cases h⟩
    · obtain ⟨D, hD⟩ := emit_ends hval hT
      obtain ⟨r, hr⟩ := Option.ne_none_iff_exists'.1 (hD D le_rfl ⟨[], 0⟩ .nil)
      obtain ⟨v, s', rfl, hE⟩ := emit_ok hT .nil hr
      refine ⟨D, _, hr, iff_of_false (fun ⟨e, he⟩ => by cases he) hT, fun v' s h => ?_⟩
      obtain ⟨rfl, rfl⟩ := Prod.mk.inj (Except.ok.inj h)
      exact ⟨hE.built, hE.nodup⟩

/-- A list whose nodes are default values: `struct Item { head: &Node }`, and a `Node` that ends
in a null `&?Node`. -/
def listDecls : Decls 2 where
  name i := if i = 0 then "Item" else "Node"
  fields i := if i = 0 then [.reference (.named "Node")] else [.nullableReference (.named "Node")]
  lookupType name := if name = "Item" then some 0 else if name = "Node" then some 1 else none

/-- `struct Node { next: &(Node[2]) }`. -/
def pairDecls : Decls 1 where
  name _ := "Node"
  fields _ := [.reference (.array (.named "Node") 2)]
  lookupType name := if name = "Node" then some 0 else none

example : emitDefaultValue listDecls 4 (.struct 0) = some (.ok (.aggregate [.heap 0 (.aggregate
    [.constant (.nullableReference (.named "Node"))])], ⟨[0], 1⟩)) := by
  rfl

/-- The recursion does not end on an aggregate when it does not on its first part. -/
theorem emit_aggregate_none {depth : ℕ} {rest : List (Ty n)} (hagg : d.IsAggregate T)
    (hparts : d.parts T = U :: rest) (h : ∀ s, emitDefaultValueRec d depth U s = none)
    (s : Emitter n) : emitDefaultValueRec d (depth + 1) T s = none := by
  rw [emit_aggregate hagg, hparts, emitParts, h, andThen_none, andThen_none]

/-- The recursion on `Node` does not end: no `&` on its way is one to a struct. -/
theorem emit_pair_none (depth : ℕ) :
    (∀ s, emitDefaultValueRec pairDecls depth (.struct 0) s = none) ∧
    (∀ s, emitDefaultValueRec pairDecls depth (.array (.named "Node") 2) s = none) ∧
    ∀ s, emitDefaultValueRec pairDecls depth (.reference (.array (.named "Node") 2)) s = none := by
  induction depth with
  | zero => exact ⟨fun s => rfl, fun s => rfl, fun s => rfl⟩
  | succ depth ih =>
    obtain ⟨hnode, harray, href⟩ := ih
    have hname : ∀ s, emitDefaultValueRec pairDecls depth (.named "Node") s = none := fun s => by
      rw [← emit_congr (i := 0) rfl]
      exact hnode s
    refine ⟨emit_aggregate_none (.inl ⟨0, rfl⟩) rfl href,
      emit_aggregate_none (.inr ⟨_, _, rfl, by decide⟩) rfl hname, fun s => ?_⟩
    rw [emit_reference (fun i hi hstruct => by cases hstruct), harray, andThen_none]

/-- `Node::default()` does not end, though `Node` reaches itself through an `&`. -/
theorem not_faithful_pair :
    ¬ ∀ (n : ℕ) (d : Decls n), d.NoValueCycle → ∀ T, Faithful d T := by
  intro hall
  have hval : pairDecls.NoValueCycle := by
    intro T U i hT hU hTU
    obtain ⟨V, hV, hVU⟩ := (TransGen.head'_iff).1 hTU
    -- the only field of the struct is an `&`, after which nothing lies by value
    have hparts : pairDecls.parts T = [.reference (.array (.named "Node") 2)] := parts_of_struct hT
    have hV' := hV.1
    rw [hparts] at hV'
    obtain rfl := List.mem_singleton.1 hV'
    rcases ReflTransGen.cases_head hVU with rfl | ⟨W, hW, -⟩
    · cases hU
    · exact hW.2 _ rfl
  obtain ⟨depth, r, hr, -⟩ := hall 1 pairDecls hval (.struct 0)
  rw [emitDefaultValue, (emit_pair_none depth).1] at hr
  cases hr

theorem faithful_iff_guarded_list :
    Faithful listDecls (.struct 0) ↔ listDecls.Guarded (.struct 0) := by
  have hval : listDecls.NoValueCycle := by
    intro T U i hT hU hTU
    obtain ⟨V, hV, hVU⟩ := (TransGen.head'_iff).1 hTU
    have hV' := hV.1
    rw [parts_of_struct hT] at hV'
    have hleaf : V = .reference (.named "Node") ∨ V = .nullableReference (.named "Node") := by
      unfold listDecls at hV'
      simp only at hV'
      split_ifs at hV'
      · exact .inl (List.mem_singleton.1 hV')
      · exact .inr (List.mem_singleton.1 hV')
    rcases ReflTransGen.cases_head hVU with rfl | ⟨W, hW, -⟩
    · rcases hleaf with rfl | rfl <;> cases hU
    · rcases hleaf with rfl | rfl
      · exact hW.2 _ rfl
      · cases hW.1
  exact faithful_iff_guarded hval (.struct 0)

end TurfLang.DefaultValue
