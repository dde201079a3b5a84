import Mathlib.Tactic

/-!
# `src/codegen/CodegenStruct.cpp`: machine transitions

`r.transition(S)` stores `S` where `r` is, after a test of the state that `r` has. The place of the
store and the value of the test come from two evaluations of `r`, unless `r` is a reference.
`codegenLValue` of a variable, a field or an element gives its address and `codegen` is the same
evaluation with a load after it; other expressions have no address.

An index, and an expression that has no address, is arbitrary code: it may change the state and
may panic.
-/

namespace TurfLang

namespace Machine

/-- A storage location: an object, and the numbers of the fields and elements that lead into it. -/
structure Place where
  root : ℕ
  path : List ℕ
  deriving DecidableEq

/-- A field or an element of what is at the place. -/
def Place.sub (p : Place) (i : ℕ) : Place := ⟨p.root, p.path ++ [i]⟩

/-- `CreateGEP`: the element `i` after the one at the place. -/
def Place.gep (p : Place) (i : ℤ) : Place :=
  match p.path.getLast? with
  | some k => ⟨p.root, p.path.dropLast ++ [(k + i).toNat]⟩
  | none => p

/-- What a scalar holds: a number, such as the state of a machine, or an address. -/
inductive Cell
  | int (n : ℤ)
  | addr (p : Place)
  deriving DecidableEq

/-- A value, by the paths of its scalars. -/
abbrev Value := List ℕ → Cell

/-- The scalars in memory, and the next object. -/
structure State where
  mem : Place → Cell
  fresh : ℕ

namespace State

/-- `CreateStore` of a scalar. -/
def store (s : State) (p : Place) (c : Cell) : State := { s with mem := Function.update s.mem p c }

/-- `CreateLoad`. -/
def load (s : State) (p : Place) : Value := fun path => s.mem ⟨p.root, p.path ++ path⟩

/-- A new stack slot with the value in it. -/
def spill (s : State) (v : Value) : State where
  mem p := if p.root = s.fresh then v p.path else s.mem p
  fresh := s.fresh + 1

@[simp] theorem store_mem_self (s : State) (p : Place) (c : Cell) : (s.store p c).mem p = c := by
  simp [store]

theorem store_mem_of_ne (s : State) {p q : Place} (c : Cell) (h : q ≠ p) :
    (s.store p c).mem q = s.mem q := by
  simp [store, h]

end State

/-- Code that gives a value, or panics. -/
abbrev Code := StateT State Option

/-- The pointer that a value is. -/
def addressOf (v : Value) (path : List ℕ) : Code Place :=
  match v path with
  | .addr p => pure p
  | .int _ => failure

/-- `EmitRuntimeBoundsCheck`: a negative index counts from the end. -/
def boundsCheck (i size : ℤ) : Code ℕ :=
  if 0 ≤ i ∧ i < size then pure i.toNat
  else if -size ≤ i ∧ i < 0 then pure (i + size).toNat
  else failure

/-- What stands before the brackets of an index. -/
inductive IndexedBase
  | array (size : ℕ)
  | referencedArray (size : ℕ)
  | slice
  | pointer

/-- A receiver. -/
inductive Receiver
  | varRef (root : ℕ)
  | fieldAccess (base : Receiver) (throughPointer : Bool) (field : ℕ)
  | arrayAccess (base : Receiver) (kind : IndexedBase) (index : Code ℤ)
  | rvalue (run : Code Value)

/-- `codegenLValue`, a null pointer where there is no address, and `codegen`. -/
structure Lowering where
  lvalue : Option (Code Place)
  value : Code Value

/-- An address, and a load from it. -/
def addressable (lvalue : Code Place) : Lowering where
  lvalue := some lvalue
  value := do
    let p ← lvalue
    return (← get).load p

/-- A value put into a stack slot. -/
def spilled (value : Code Value) : Code Place := do
  let v ← value
  let s ← get
  set (s.spill v)
  return ⟨s.fresh, []⟩

namespace Receiver

/-- `codegenLValue` and `codegen` of the expressions that may be receivers. -/
def lower : Receiver → Lowering
  | varRef root => addressable (pure ⟨root, []⟩)
  | fieldAccess base throughPointer field => addressable do
    let b ← base.lower.lvalue.getD (spilled base.lower.value)
    let b ← (if throughPointer then do addressOf ((← get).load b) [] else pure b)
    return b.sub field
  | arrayAccess base (.array size) index =>
    match base.lower.lvalue with
    | some lvalue => addressable do
      let b ← lvalue
      let i ← boundsCheck (← index) size
      return b.sub i
    | none => ⟨none, do
      let v ← base.lower.value
      let i ← boundsCheck (← index) size
      return fun path => v (i :: path)⟩
  | arrayAccess base (.referencedArray size) index => addressable do
    let b ← addressOf (← base.lower.value) []
    let i ← boundsCheck (← index) size
    return b.sub i
  | arrayAccess base .slice index => addressable do
    let v ← base.lower.value
    let data ← addressOf v [0]
    match v [1] with
    | .int length => return data.gep (← boundsCheck (← index) length)
    | .addr _ => failure
  | arrayAccess base .pointer index => addressable do
    let b ← addressOf (← base.lower.value) []
    return b.gep (← index)
  | rvalue run => ⟨none, run⟩

/-- `codegen` of an expression that has an address evaluates the address and loads. -/
theorem value_of_lvalue {r : Receiver} {lvalue : Code Place} (h : r.lower.lvalue = some lvalue) :
    r.lower.value = do
      let p ← lvalue
      return (← get).load p := by
  have hadd : ∀ c, (addressable c).lvalue = some lvalue → (addressable c).value = do
      let p ← lvalue
      return (← get).load p := by
    intro c hc
    cases hc
    rfl
  cases r with
  | varRef root => exact hadd _ h
  | fieldAccess base throughPointer field => exact hadd _ h
  | arrayAccess base kind index =>
    cases kind with
    | array size =>
      simp only [lower] at h ⊢
      split at h
      · exact hadd _ h
      · cases h
    | referencedArray size | slice | pointer => exact hadd _ h
  | rvalue run => cases h

end Receiver

/-! ### Transitions -/

end Machine

/-- `TurfMachineType`: the states in the order of their ordinals, and the declared edges. -/
structure MachineType where
  states : List String
  edges : String → List String

namespace MachineType

/-- `getVariantValue`. -/
def variantValue (m : MachineType) (name : String) : ℤ := m.states.idxOf name

/-- The cases of the switch: the states with an edge to the target. -/
def switchCases (m : MachineType) (target : String) : List ℤ :=
  (m.states.filter fun source => target ∈ m.edges source).map m.variantValue

/-- A machine that holds this has a declared edge to the target. -/
def HasEdge (m : MachineType) (c : Machine.Cell) (target : String) : Prop :=
  ∃ source ∈ m.states, c = .int (m.variantValue source) ∧ target ∈ m.edges source

/-- A declared edge, between what a machine may hold. -/
def Edge (m : MachineType) (c c' : Machine.Cell) : Prop :=
  ∃ target, m.HasEdge c target ∧ c' = .int (m.variantValue target)

end MachineType

namespace Machine

/-- The switch takes one of its cases. -/
def tested (m : MachineType) (target : String) : Cell → Bool
  | .int n => n ∈ m.switchCases target
  | .addr _ => false

theorem tested_iff {m : MachineType} {target : String} {c : Cell} :
    tested m target c = true ↔ m.HasEdge c target := by
  unfold tested MachineType.HasEdge MachineType.switchCases
  cases c with
  | int n => simp only [List.mem_map, List.mem_filter, decide_eq_true_eq, Cell.int.injEq]; grind
  | addr p => simp

/-- `receiver.transition(target)`, as the checker leaves it. -/
structure Call where
  receiver : Receiver
  isReference : Bool
  target : String
  compileTimeProven : Bool

/-- What the code of a transition does: there is none, nor of the rest of the block; the receiver
panics; the test, made on a place in a state, fails; or the target is stored, after a test or
without one. -/
inductive Outcome
  | dropped
  | aborted
  | illegal (at_ : State × Place)
  | stored (at_ : Option (State × Place)) (s : State)

namespace Call

/-- The address that is stored to; none where the receiver has no address. -/
def pointer (call : Call) : Option (Code Place) :=
  if call.isReference then
    some do addressOf (← call.receiver.lower.value) []
  else call.receiver.lower.lvalue

/-- Where the value comes from that is tested: a reference is loaded through, any other receiver
is evaluated again. -/
def current (call : Call) (ptr : Code Place) (p : Place) : Code Place :=
  if call.isReference then pure p else ptr

/-- The machine transition of `MethodCallExprAST::codegen`, run. -/
def run (m : MachineType) (call : Call) (s : State) : Outcome :=
  match call.pointer with
  | none => .dropped
  | some ptr =>
    match ptr s with
    | none => .aborted
    | some (p, s) =>
      let targetVal := Cell.int (m.variantValue call.target)
      if call.compileTimeProven then .stored none (s.store p targetVal)
      else
        match call.current ptr p s with
        | none => .aborted
        | some (q, s) =>
          if tested m call.target (s.mem q) then .stored (some (s, q)) (s.store p targetVal)
          else .illegal (s, q)

/-! ### What a transition should do -/

/-- The receiver, evaluated once. -/
def evaluate (call : Call) : Code Place :=
  call.pointer.getD (spilled call.receiver.lower.value)

/-- The machine that the receiver evaluates to is tested, unless it is known to have the edge. It
is set to the target if it has a declared edge there, and the call panics otherwise. -/
def Follows (m : MachineType) (call : Call) (s : State) (outcome : Outcome) : Prop :=
  match call.evaluate s with
  | none => outcome = .aborted
  | some (p, s) =>
    (m.HasEdge (s.mem p) call.target → ∃ at_, (at_ = none ∨ at_ = some (s, p)) ∧
        outcome = .stored at_ (s.store p (.int (m.variantValue call.target)))) ∧
      (¬ m.HasEdge (s.mem p) call.target → outcome = .illegal (s, p))

/-- The receiver has an address. If the checker has proven the edge, the machine has it; if not,
the receiver is a reference or evaluates to the same place again, without an effect. -/
structure Steady (m : MachineType) (call : Call) (s : State) : Prop where
  addressed : call.pointer ≠ none
  proven : ∀ p s', call.evaluate s = some (p, s') → call.compileTimeProven = true →
    m.HasEdge (s'.mem p) call.target
  repeatable : ∀ p s', call.evaluate s = some (p, s') → call.compileTimeProven = false →
    call.isReference = true ∨ call.evaluate s' = some (p, s')

theorem evaluate_of_pointer {call : Call} {ptr : Code Place} (h : call.pointer = some ptr) :
    call.evaluate = ptr := by
  rw [evaluate, h, Option.getD_some]

theorem pointer_ne_none_of_isReference {call : Call} (h : call.isReference = true) :
    call.pointer ≠ none := by
  simp [pointer, h]

variable {m : MachineType} {call : Call} {s s' : State} {p : Place}

/-- Once the receiver has a value, there is a store or the panic of the test. -/
theorem Follows.stored_or_illegal {outcome : Outcome} (h : call.evaluate s = some (p, s'))
    (hf : Follows m call s outcome) :
    (∃ at_ s'', outcome = .stored at_ s'') ∨ outcome = .illegal (s', p) := by
  simp only [Follows, h] at hf
  by_cases hedge : m.HasEdge (s'.mem p) call.target
  · obtain ⟨at_, _, hstored⟩ := hf.1 hedge
    exact .inl ⟨at_, _, hstored⟩
  · exact .inr (hf.2 hedge)

theorem not_follows_aborted (h : call.evaluate s = some (p, s')) : ¬ Follows m call s .aborted := by
  intro hf
  rcases hf.stored_or_illegal h with ⟨_, _, hout⟩ | hout <;> cases hout

/-- Without an address nothing runs. -/
theorem not_follows_dropped : ¬ Follows m call s .dropped := by
  intro hf
  cases h : call.evaluate s with
  | none => simp [Follows, h] at hf
  | some first => rcases hf.stored_or_illegal h with ⟨_, _, hout⟩ | hout <;> cases hout

/-- A store without a test is right where there is an edge. -/
theorem follows_untested_iff (h : call.evaluate s = some (p, s')) :
    Follows m call s (.stored none (s'.store p (.int (m.variantValue call.target)))) ↔
      m.HasEdge (s'.mem p) call.target := by
  simp only [Follows, h]
  constructor
  · rintro ⟨_, hillegal⟩
    by_contra hedge
    cases hillegal hedge
  · exact fun hedge => ⟨fun _ => ⟨none, .inl rfl, rfl⟩, fun hno => absurd hedge hno⟩

/-- The outcome of a test that is made in the state `s''`, on the place `q`. -/
theorem follows_tested_iff (h : call.evaluate s = some (p, s')) {s'' : State} {q : Place} :
    Follows m call s
        (if tested m call.target (s''.mem q) then
          .stored (some (s'', q)) (s''.store p (.int (m.variantValue call.target)))
        else .illegal (s'', q)) ↔
      (s'', q) = (s', p) := by
  simp only [Follows, h]
  constructor
  · rintro ⟨hedge, hillegal⟩
    by_cases hold : m.HasEdge (s'.mem p) call.target
    · obtain ⟨at_, hat, hstored⟩ := hedge hold
      split at hstored
      · injection hstored with hat' _
        rw [← hat'] at hat
        simpa using hat
      · cases hstored
    · have hout := hillegal hold
      split at hout
      · cases hout
      · cases hout
        rfl
  · rintro ⟨⟩
    constructor
    · intro hold
      rw [if_pos (tested_iff.2 hold)]
      exact ⟨_, .inr rfl, rfl⟩
    · intro hno
      rw [if_neg (fun htest => hno (tested_iff.1 htest))]

/-- A transition does what it should exactly where its receiver is steady. -/
theorem follows_run_iff : Follows m call s (call.run m s) ↔ Steady m call s := by
  cases hptr : call.pointer with
  | none =>
    simp only [run, hptr, not_follows_dropped, false_iff]
    exact fun hsteady => hsteady.addressed hptr
  | some ptr =>
    have heval := evaluate_of_pointer hptr
    have hne : call.pointer ≠ none := by simp [hptr]
    cases hfirst : ptr s with
    | none =>
      have hnone : call.evaluate s = none := by rw [heval, hfirst]
      simp only [run, hptr, hfirst, Follows, hnone, true_iff]
      exact ⟨hne, by simp [hnone], by simp [hnone]⟩
    | some first =>
      obtain ⟨p, s'⟩ := first
      have hsome : call.evaluate s = some (p, s') := by rw [heval, hfirst]
      simp only [run, hptr, hfirst]
      cases hproven : call.compileTimeProven with
      | true =>
        rw [if_pos rfl, follows_untested_iff hsome]
        constructor
        · refine fun hedge => ⟨hne, fun p₁ s₁ h₁ _ => ?_, fun _ _ _ hno => by simp [hproven] at hno⟩
          cases hsome.symm.trans h₁
          exact hedge
        · exact fun hsteady => hsteady.proven p s' hsome hproven
      | false =>
        have hcond : Steady m call s ↔ call.isReference = true ∨ call.evaluate s' = some (p, s') := by
          constructor
          · exact fun hsteady => hsteady.repeatable p s' hsome hproven
          · refine fun hagain => ⟨hne, fun _ _ _ hno => by simp [hproven] at hno, fun p₁ s₁ h₁ _ => ?_⟩
            cases hsome.symm.trans h₁
            exact hagain
        rw [hcond]
        simp only [Bool.false_eq_true, if_false]
        by_cases href : call.isReference = true
        · simp only [current, href, if_true, true_or, iff_true]
          exact (follows_tested_iff hsome).2 rfl
        · simp only [current, href, if_false, false_or, Bool.false_eq_true]
          rw [heval]
          cases hsecond : ptr s' with
          | none => simp [not_follows_aborted hsome]
          | some second =>
            obtain ⟨q, s''⟩ := second
            simp only
            rw [follows_tested_iff hsome]
            simp [and_comm]

end Call

end Machine

end TurfLang
