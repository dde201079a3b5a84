import TurfLang.Codegen.Machine

/-!
# Machines along a run

A run is made of transitions and of other code, which sets no machine. A receiver is code too, so
the evaluation of one is a run in turn. If every transition of a run has a steady receiver, each
machine moves along declared edges only. Variables are steady, and so are fields and elements of
them, as long as no index has an effect.
-/

namespace TurfLang

namespace Machine

/-! ### Receivers without effects -/

/-- The code leaves the state as it is. -/
def Keeps {α : Type} (c : Code α) : Prop := ∀ s a s', c s = some (a, s') → s' = s

section

variable {α β : Type}

theorem Keeps.pure (a : α) : Keeps (pure a : Code α) := by
  rintro s a' s' ⟨⟩
  rfl

theorem Keeps.failure : Keeps (failure : Code α) := by
  rintro s a s' ⟨⟩

theorem Keeps.get : Keeps (get : Code State) := by
  rintro s a s' ⟨⟩
  rfl

theorem Keeps.bind {c : Code α} {f : α → Code β} (hc : Keeps c) (hf : ∀ a, Keeps (f a)) :
    Keeps (c >>= f) := by
  intro s b s'' h
  obtain ⟨⟨a, s'⟩, ha, hb⟩ := Option.bind_eq_some_iff.1 h
  rw [hf a s' b s'' hb, hc s a s' ha]

theorem Keeps.addressOf (v : Value) (path : List ℕ) : Keeps (addressOf v path) := by
  unfold Machine.addressOf
  split
  · exact .pure _
  · exact .failure

theorem Keeps.boundsCheck (i size : ℤ) : Keeps (boundsCheck i size) := by
  unfold Machine.boundsCheck
  split
  · exact .pure _
  · split
    · exact .pure _
    · exact .failure

end

/-- Nothing in the receiver has an effect, and no field is one of a value without an address. -/
def Receiver.Pure : Receiver → Prop
  | .varRef _ => True
  | .fieldAccess base _ _ => base.Pure ∧ base.lower.lvalue ≠ none
  | .arrayAccess base _ index => base.Pure ∧ Keeps index
  | .rvalue run => Keeps run

/-- Both lowerings of an expression leave the state as it is. -/
structure Lowering.Keeps (l : Lowering) : Prop where
  lvalue : ∀ c, l.lvalue = some c → Machine.Keeps c
  value : Machine.Keeps l.value

theorem Lowering.Keeps.addressable {c : Code Place} (h : Machine.Keeps c) :
    (addressable c).Keeps where
  lvalue := by
    rintro _ ⟨⟩
    exact h
  value := h.bind fun _ => Machine.Keeps.get.bind fun _ => .pure _

theorem Receiver.Pure.keeps {r : Receiver} (h : r.Pure) : r.lower.Keeps := by
  induction r with
  | varRef root => exact .addressable (.pure _)
  | fieldAccess base throughPointer field ih =>
    obtain ⟨hbase, haddr⟩ := h
    obtain ⟨c, hc⟩ := Option.ne_none_iff_exists'.1 haddr
    refine .addressable ?_
    rw [hc, Option.getD_some]
    refine ((ih hbase).lvalue c hc).bind fun b => ?_
    refine .bind ?_ fun _ => .pure _
    cases throughPointer with
    | true => exact Keeps.get.bind fun _ => .addressOf _ _
    | false => exact .pure _
  | arrayAccess base kind index ih =>
    obtain ⟨hbase, hindex⟩ := h
    cases kind with
    | array size =>
      simp only [lower]
      split
      · rename_i c hc
        exact .addressable (((ih hbase).lvalue c hc).bind fun _ => hindex.bind fun _ =>
          (Keeps.boundsCheck _ _).bind fun _ => .pure _)
      · refine ⟨by simp, ?_⟩
        exact (ih hbase).value.bind fun _ => hindex.bind fun _ =>
          (Keeps.boundsCheck _ _).bind fun _ => .pure _
    | referencedArray size =>
      exact .addressable ((ih hbase).value.bind fun _ => (Keeps.addressOf _ _).bind fun _ =>
        hindex.bind fun _ => (Keeps.boundsCheck _ _).bind fun _ => .pure _)
    | slice =>
      refine .addressable ((ih hbase).value.bind fun v => (Keeps.addressOf _ _).bind fun _ => ?_)
      cases v [1] with
      | int length =>
        exact hindex.bind fun _ => (Keeps.boundsCheck _ _).bind fun _ => .pure _
      | addr p => exact .failure
    | pointer =>
      exact .addressable ((ih hbase).value.bind fun _ => (Keeps.addressOf _ _).bind fun _ =>
        hindex.bind fun _ => .pure _)
  | rvalue run => exact ⟨by simp [lower], h⟩

variable {m : MachineType}

/-- A test of a receiver without effects is a test of the machine that is set. -/
theorem Call.steady_of_pure {call : Call} (hpure : call.receiver.Pure) (haddr : call.pointer ≠ none)
    (hproven : call.compileTimeProven = false) (s : State) : call.Steady m s where
  addressed := haddr
  proven _ _ _ h := by simp [hproven] at h
  repeatable p s' h _ := by
    by_cases href : call.isReference = true
    · exact .inl href
    · right
      obtain ⟨c, hc⟩ := Option.ne_none_iff_exists'.1 haddr
      have hlvalue : call.receiver.lower.lvalue = some c := by
        simpa [pointer, href] using hc
      rw [evaluate_of_pointer hc] at h ⊢
      have hs := hpure.keeps.lvalue c hlvalue s p s' h
      rw [hs] at h ⊢
      exact h

/-! ### Runs -/

/-- A run in which every transition has a steady receiver: other code sets no machine, and
evaluating a receiver is a run. -/
inductive Run (m : MachineType) (machines : Set Place) : State → State → Prop
  | refl (s : State) : Run m machines s s
  | other {s s₁ s₂ : State} (h : Run m machines s s₁)
      (hkeep : ∀ p ∈ machines, s₂.mem p = s₁.mem p) : Run m machines s s₂
  | transition {s s₁ s₂ s₃ : State} {p : Place} {at_ : Option (State × Place)} (call : Call)
      (h : Run m machines s s₁) (heval : call.evaluate s₁ = some (p, s₂))
      (hreceiver : Run m machines s₁ s₂) (hsteady : call.Steady m s₁)
      (hrun : call.run m s₁ = .stored at_ s₃) : Run m machines s s₃

/-- What a transition stores, it stores along an edge, in the one machine it evaluates to. -/
theorem Call.Steady.stored {call : Call} {s s₂ s₃ : State} {p : Place}
    {at_ : Option (State × Place)} (h : call.Steady m s) (heval : call.evaluate s = some (p, s₂))
    (hrun : call.run m s = .stored at_ s₃) :
    m.HasEdge (s₂.mem p) call.target ∧ s₃ = s₂.store p (.int (m.variantValue call.target)) := by
  have hf := follows_run_iff.2 h
  rw [hrun] at hf
  simp only [Follows, heval] at hf
  by_cases hedge : m.HasEdge (s₂.mem p) call.target
  · obtain ⟨_, _, hout⟩ := hf.1 hedge
    injection hout with _ hs
    exact ⟨hedge, hs⟩
  · cases hf.2 hedge

/-- Along a run every machine follows declared edges. -/
theorem Run.path {machines : Set Place} {s s' : State} (h : Run m machines s s') {q : Place}
    (hq : q ∈ machines) : Relation.ReflTransGen m.Edge (s.mem q) (s'.mem q) := by
  induction h with
  | refl s => exact .refl
  | other _ hkeep ih =>
    rw [hkeep q hq]
    exact ih
  | transition call _ heval _ hsteady hrun ih ihreceiver =>
    obtain ⟨hedge, rfl⟩ := hsteady.stored heval hrun
    have hpath := ih.trans ihreceiver
    rename_i p _ _ _
    by_cases hqp : q = p
    · subst hqp
      rw [State.store_mem_self]
      exact hpath.tail ⟨call.target, hedge, rfl⟩
    · rw [State.store_mem_of_ne _ _ hqp]
      exact hpath

/-- A transition sets the machine that its receiver evaluates to, and panics if there is no edge
for it, exactly where the receiver is steady; and along a run of such transitions every machine
moves along declared edges. -/
theorem transition_follows_edges (m : MachineType) :
    (∀ (call : Call) (s : State), call.Follows m s (call.run m s) ↔ call.Steady m s) ∧
      ∀ (machines : Set Place) (s s' : State), Run m machines s s' →
        ∀ q ∈ machines, Relation.ReflTransGen m.Edge (s.mem q) (s'.mem q) :=
  ⟨fun _ _ => Call.follows_run_iff, fun _ _ _ h _ hq => h.path hq⟩

/-! ### A transition that goes wrong -/

/-- `machine M { A -> B }`. -/
def twoStates : MachineType where
  states := ["A", "B"]
  edges source := if source = "A" then ["B"] else []

/-- Two machines in an array, the first in state `B` and the second in state `A`, and a counter. -/
def twoMachines : State where
  mem p := if p = ⟨0, [0]⟩ then .int 1 else .int 0
  fresh := 2

/-- `next()`, which counts up and returns the old count. -/
def next : Code ℤ := fun s =>
  match s.mem ⟨1, []⟩ with
  | .int n => some (n, s.store ⟨1, []⟩ (.int (n + 1)))
  | .addr _ => none

/-- `machines[next()].transition(M::B)`. -/
def countingCall : Call := ⟨.arrayAccess (.varRef 0) (.array 2) next, false, "B", false⟩

/-- The second machine is tested and the first is set: the missing edge from `B` to `B` is not
noticed. -/
theorem not_follows_countingCall :
    ¬ countingCall.Follows twoStates twoMachines (countingCall.run twoStates twoMachines) := by
  intro hf
  have hsteady := Call.follows_run_iff.1 hf
  have hfirst : countingCall.evaluate twoMachines =
      some (⟨0, [0]⟩, twoMachines.store ⟨1, []⟩ (.int 1)) := by rfl
  rcases hsteady.repeatable _ _ hfirst rfl with href | hagain
  · cases href
  · have hplace := congrArg (Option.map Prod.fst) hagain
    have hsecond : (countingCall.evaluate (twoMachines.store ⟨1, []⟩ (.int 1))).map Prod.fst =
        some ⟨0, [1]⟩ := by rfl
    rw [hsecond] at hplace
    exact absurd hplace (by decide)

/-- A variable goes from `A` to `B`. -/
theorem transition_follows_edges_variable :
    (∀ (call : Call) (s : State), call.Follows twoStates s (call.run twoStates s) ↔
        call.Steady twoStates s) ∧
      Relation.ReflTransGen twoStates.Edge (.int 0) (.int 1) := by
  have hsteady : Call.Steady twoStates ⟨.varRef 1, false, "B", false⟩ twoMachines :=
    Call.steady_of_pure (by exact trivial) (by simp [Call.pointer, Receiver.lower, addressable]) rfl _
  have hrun : Run twoStates {⟨1, []⟩} twoMachines (twoMachines.store ⟨1, []⟩ (.int 1)) :=
    .transition ⟨.varRef 1, false, "B", false⟩ (.refl _) (by rfl) (.refl _) hsteady (by rfl)
  exact ⟨(transition_follows_edges twoStates).1,
    (transition_follows_edges twoStates).2 _ _ _ hrun ⟨1, []⟩ rfl⟩

end Machine

end TurfLang
