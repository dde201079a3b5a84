import TurfLang.Codegen.FallibleReturn

/-!
# Which returned values arrive

`TravelsFaithfully` says what a caller should see of `return e` in a function of type `!T`: the error
that `e` evaluates to, where the type of `e` is an error type, and otherwise the value of `e`
converted to `T`. `travelsFaithfully_iff` says when it does: the shape by which the code generator
tells errors is right about `e`, and a success value goes into the slot at a type that reads back
as `T`. An `int` in a function of type `!double` is not converted on its way and arrives only where
its bits are those of the double.
-/

namespace TurfLang

namespace Codegen

variable {lookup : String → Option TurfType} {T : TurfType}

/-- `ReturnExprAST::codegen` in a function of type `!T`: the value of the expression, then the
pending defers, then the wrapped value. A box, if there is need of one, gets the given address. -/
def ReturnExpr.run (r : ReturnExpr lookup) (defers : Boxes → Option Boxes) (address : BitVec 64)
    (boxes : Boxes) : Option (Value × FallibleValue × Boxes) := do
  let (boxes, val) ← r.val.codegen boxes
  let boxes ← defers boxes
  let (fv, boxes) ← r.wrap address val boxes
  some (val, fv, boxes)

/-- A value of the checker's type, as a value of type `T`: the same, or a number widened, or an
untyped literal as the `int32` it acquires. -/
def convert (val : Value) (type : LLVMType) : Option Value :=
  if val.type = type then some val
  else
    match val, type with
    | .i32 bits, .i64 => some (.i64 (bits.signExtend 64))
    | .i64 bits, .i32 => some (.i32 (bits.setWidth 32))
    | .i64 bits, .double => some (.double (sitofp bits))
    | .i32 bits, .double => some (.double (sitofp (bits.signExtend 64)))
    | _, _ => none

/-- The checker's type of the expression is an error type. -/
def Expr.isErrorExpr (e : Expr lookup) : Bool := e.typeOf.any (isDeclaredErrorTypeValue lookup)

/-- The `recover` and the `try` of a caller both see this outcome. -/
structure Observes (lookup : String → Option TurfType) (T : TurfType) (fv : FallibleValue)
    (boxes : Boxes) (outcome : Outcome) : Prop where
  recover : recoverOutcome lookup T fv boxes = some outcome
  try_ : tryResult lookup T fv boxes = some (match outcome with
    | .success val => .value val
    | .error payload => .returns ⟨false, 0, payload⟩)

/-- The caller gets what `e` evaluated to. A fallible `e` handed on is its own outcome. -/
def TravelsFaithfully (T : TurfType) (e : Expr lookup) (r : ReturnExpr lookup) (val : Value)
    (fv : FallibleValue) (boxes : Boxes) : Prop :=
  if r.passesThroughFallible then val = .fallible fv
  else if e.isErrorExpr then ∃ payload, val = .ptr payload ∧ Observes lookup T fv boxes (.error payload)
  else ∃ w, convert val (T.llvmTypeIn lookup) = some w ∧ Observes lookup T fv boxes (.success w)

/-- The slot reads back at the second type what goes in at the first. -/
def SlotAgrees (type type' : LLVMType) : Prop :=
  type = type' ∨ (type = .i64 ∨ type = .i32) ∧ (type' = .i64 ∨ type' = .i32)

/-- The bits of the number are those of the double that it is. -/
def RawDouble : Value → Prop
  | .i64 bits => sitofp bits = bits
  | .i32 bits => sitofp (bits.signExtend 64) = bits.signExtend 64
  | _ => False

/-- `return e` with this value arrives. -/
def Arrives (T : TurfType) (e : Expr lookup) (r : ReturnExpr lookup) (val : Value) : Prop :=
  r.passesThroughFallible = true ∨
    e.isErrorTagExpr = e.isErrorExpr ∧
      (e.isErrorExpr = true ∨ SlotAgrees r.val.llvmType (T.llvmTypeIn lookup) ∨
        T.llvmTypeIn lookup = .double ∧ RawDouble val)

/-! ### The slot -/

theorem convert_self {val : Value} {type : LLVMType} (h : val.type = type) :
    convert val type = some val := if_pos h

/-- A success value comes out of the slot converted exactly where the types agree on the slot or
the bits happen to be right. -/
theorem unbox_eq_convert_iff {address : BitVec 64} {val : Value} {boxes : Boxes} {type : LLVMType} :
    (∃ w, convert val type = some w ∧
      unboxFromI64Slot (boxToI64Slot address val boxes).1 type
        (boxToI64Slot address val boxes).2 = some w) ↔
      SlotAgrees val.type type ∨ type = .double ∧ RawDouble val := by
  by_cases hself : val.type = type
  · subst hself
    constructor
    · exact fun _ => .inl (.inl rfl)
    · exact fun _ => ⟨val, convert_self rfl, unbox_box address val boxes⟩
  cases val with
  | i64 bits =>
    cases type with
    | i64 => exact absurd rfl hself
    | i32 => simp [convert, Value.type, boxToI64Slot, unboxFromI64Slot, SlotAgrees]
    | double =>
      simp [convert, Value.type, boxToI64Slot, unboxFromI64Slot, SlotAgrees, RawDouble, eq_comm]
    | _ => simp [convert, Value.type, SlotAgrees]
  | i32 bits =>
    cases type with
    | i32 => exact absurd rfl hself
    | i64 => simp [convert, Value.type, boxToI64Slot, unboxFromI64Slot, SlotAgrees]
    | double =>
      simp [convert, Value.type, boxToI64Slot, unboxFromI64Slot, SlotAgrees, RawDouble, eq_comm]
    | _ => simp [convert, Value.type, SlotAgrees]
  | wide type' bytes hwide =>
    have hi64 : type' ≠ .i64 := fun h => by simp [h, isWide] at hwide
    have hi32 : type' ≠ .i32 := fun h => by simp [h, isWide] at hwide
    have hne : type' ≠ type := hself
    simp [convert, Value.type, SlotAgrees, RawDouble, hne, hi64, hi32]
  | _ =>
    simp only [Value.type] at hself
    simp [convert, Value.type, SlotAgrees, RawDouble, hself]

/-! ### The return -/

theorem isErrorTagExpr_of_widenedLiteral {e e' : Expr lookup} (h : widenedLiteral e T = some e') :
    e'.isErrorTagExpr = e.isErrorTagExpr := by
  unfold widenedLiteral at h
  split at h
  · obtain ⟨_, hlit⟩ := Option.ite_none_right_eq_some.1 h
    cases hlit
    rfl
  · cases h

/-- What the accepted expression is built from is the expression itself, up to the type an array
literal is built at. -/
theorem isErrorTagExpr_of_visitReturn {e : Expr lookup} {r : ReturnExpr lookup}
    (h : visitReturn T e = some r) : r.val.isErrorTagExpr = e.isErrorTagExpr := by
  simp only [visitReturn, Option.bind_eq_bind, Option.bind_eq_some_iff, Option.some.injEq] at h
  obtain ⟨retTy, _, r', hr, _, _, rfl⟩ := h
  unfold compatibleReturn at hr
  split at hr
  · cases hr
    rfl
  · split at hr
    · rename_i e' he'
      cases hr
      exact isErrorTagExpr_of_widenedLiteral he'
    · split at hr
      · split at hr
        · cases hr
          rfl
        · cases hr
      · cases hr

/-- A returned value arrives exactly where the condition holds of it. -/
theorem travelsFaithfully_iff {e : Expr lookup} {r : ReturnExpr lookup}
    (hr : visitReturn T e = some r) {defers : Boxes → Option Boxes} {address : BitVec 64}
    {boxes boxes' : Boxes} {val : Value} {fv : FallibleValue}
    (hrun : r.run defers address boxes = some (val, fv, boxes')) :
    TravelsFaithfully T e r val fv boxes' ↔ Arrives T e r val := by
  simp only [ReturnExpr.run, Option.bind_eq_bind, Option.bind_eq_some_iff, Option.some.injEq,
    Prod.mk.injEq] at hrun
  obtain ⟨⟨boxes₁, val'⟩, hval, boxes₂, _, ⟨fv', boxes₃⟩, hwrap, rfl, rfl, rfl⟩ := hrun
  have htype := Expr.codegen_type hval
  unfold TravelsFaithfully Arrives
  unfold ReturnExpr.wrap at hwrap
  by_cases hpass : r.passesThroughFallible = true
  · rw [if_pos hpass] at hwrap
    cases val' with
    | fallible fv =>
      cases hwrap
      simp [hpass]
    | _ => cases hwrap
  simp only [hpass, if_false, false_or, Bool.false_eq_true] at hwrap ⊢
  rw [isErrorTagExpr_of_visitReturn hr] at hwrap
  cases htag : e.isErrorTagExpr with
  | true =>
    rw [htag] at hwrap
    cases val' with
    | ptr payload =>
      cases hwrap
      cases herr : e.isErrorExpr with
      | true =>
        simp only [if_true, true_or, and_self, iff_true]
        exact ⟨payload, rfl, rfl, rfl⟩
      | false =>
        -- a success that the code generator takes for an error
        simp only [Bool.false_eq_true, if_false, Bool.true_eq_false, false_and, iff_false]
        rintro ⟨w, _, hw⟩
        exact absurd hw.recover (by simp [recoverOutcome])
    | _ => cases hwrap
  | false =>
    rw [htag] at hwrap
    simp only [wrapFallibleValue, Bool.false_eq_true, if_false, Option.some.injEq,
      Prod.mk.injEq] at hwrap
    obtain ⟨rfl, rfl⟩ := hwrap
    cases herr : e.isErrorExpr with
    | true =>
      -- an error that the code generator takes for a success
      simp only [if_true, Bool.false_eq_true, false_and, iff_false]
      rintro ⟨payload, _, hw⟩
      exact absurd hw.recover (by simp [recoverOutcome])
    | false =>
      simp only [Bool.false_eq_true, if_false, true_and, false_or]
      rw [← htype, ← @unbox_eq_convert_iff address val' boxes₂]
      refine exists_congr fun w => and_congr_right fun _ => ⟨fun hw => ?_, fun hw => ⟨?_, ?_⟩⟩
      · simpa [recoverOutcome] using hw.recover
      · simp [recoverOutcome, hw]
      · simp [tryResult, hw]

/-! ### Returns that go wrong -/

/-- A literal of type `int`. -/
def intLiteral (n : ℤ) : Expr (fun _ => none) :=
  .other ⟨.int, some n, fun boxes => some (boxes, .i64 (BitVec.ofInt 64 n)),
    fun _ _ _ h => by cases h; rfl⟩

/-- A variant of the error type `E`, at an address. -/
def errorVariant (address : BitVec 64) : Expr (fun _ => none) :=
  .scopeAccess .errorVariantRef
    ⟨.userError "E", none, fun boxes => some (boxes, .ptr address), fun _ _ _ h => by cases h; rfl⟩

/-- `c give E::A otherwise E::B`, with `c` true. -/
def giveErrors : Expr (fun _ => none) :=
  .ifExpr (fun boxes => some (boxes, true)) (errorVariant 4096) (errorVariant 8192)

/-- `return 1;` in a function of type `!double`: the condition fails, as `1` has not the bits of
`1.0`. -/
theorem travelsFaithfully_iff_intLiteral :
    TravelsFaithfully .double (intLiteral 1) ⟨intLiteral 1, false⟩ (.i64 1) ⟨true, 1, 0⟩
        (fun _ => none) ↔
      Arrives .double (intLiteral 1) ⟨intLiteral 1, false⟩ (.i64 1) :=
  have hr : visitReturn .double (intLiteral 1) = some ⟨intLiteral 1, false⟩ := by rfl
  have hrun : (ReturnExpr.mk (intLiteral 1) false).run some 0 (fun _ => none) =
      some (.i64 1, ⟨true, 1, 0⟩, fun _ => none) := by rfl
  travelsFaithfully_iff hr hrun

/-- `return c give E::A otherwise E::B;` in a function of type `!int` delivers the address of the
error as a success. -/
theorem not_travelsFaithfully_giveErrors :
    visitReturn .int giveErrors = some ⟨giveErrors, false⟩ ∧
      (ReturnExpr.mk giveErrors false).run some 0 (fun _ => none) =
        some (.ptr 4096, ⟨true, 4096, 0⟩, fun _ => none) ∧
      recoverOutcome (fun _ => none) .int ⟨true, 4096, 0⟩ (fun _ => none) =
        some (.success (.i64 4096)) ∧
      ¬ TravelsFaithfully .int giveErrors ⟨giveErrors, false⟩ (.ptr 4096) ⟨true, 4096, 0⟩
        (fun _ => none) := by
  refine ⟨by rfl, by rfl, by rfl, ?_⟩
  rintro ⟨payload, _, hw⟩
  cases hw.recover

/-- `return 1;` in a function of type `!double` delivers the double whose bits are the number
one. -/
theorem not_travelsFaithfully_intLiteral :
    recoverOutcome (fun _ => none) .double ⟨true, 1, 0⟩ (fun _ => none) =
        some (.success (.double 1)) ∧
      ¬ TravelsFaithfully .double (intLiteral 1) ⟨intLiteral 1, false⟩ (.i64 1) ⟨true, 1, 0⟩
        (fun _ => none) := by
  refine ⟨by rfl, ?_⟩
  rintro ⟨w, hw, hobs⟩
  cases hobs.recover
  exact absurd hw (by decide)

end Codegen

end TurfLang
