import TurfLang.Sema.Assignable

/-!
# `src/codegen/CodegenCore.cpp`: the run-time form of `!T`

A value of type `!T` is one struct whatever `T` is: a success bit, a slot of 64 bits and a pointer
to an error value. `boxToI64Slot` puts a success value into the slot at the LLVM type it has,
`unboxFromI64Slot` takes it out at the LLVM type of `T`. A value too wide for the slot goes to a
heap box and its address into the slot.
-/

namespace TurfLang

deriving instance DecidableEq for LLVMType

namespace TurfType

/-- The names that `getLLVMType` answers first. -/
def primitiveLLVMType : String → Option LLVMType
  | "int" => some .i64
  | "int32" => some .i32
  | "double" => some .double
  | "bool" => some .i1
  | "char" => some .i8
  | "string" => some .ptr
  | "void" => some .void
  | "ptr" => some .ptr
  | _ => none

/-- `getLLVMType` where the declared types are looked up: a name may stand for an enum or for an
error type. -/
def llvmTypeIn (lookup : String → Option TurfType) : TurfType → LLVMType
  | .named name =>
    (primitiveLLVMType name).getD
      (match lookup name with
      | some (.enum _ _) | some (.machine _) => .i64
      | some (.userError _) => .ptr
      | _ => .struct name)
  | .array e (.fixed size) => if 0 < size then .array (e.llvmTypeIn lookup) size else .slice
  | T => T.getLLVMType

end TurfType

namespace Codegen

/-- `FallibleValue`: `{ i1 isOk, i64 successBits, ptr errorPayload }`. -/
structure FallibleValue where
  isOk : Bool
  successBits : BitVec 64
  errorPayload : BitVec 64
  deriving DecidableEq

/-- The aggregates that are wider than a slot. -/
def isWide : LLVMType → Bool
  | .slice | .array _ _ | .struct _ => true
  | _ => false

/-- A value of the generated code. A double is its bits. -/
inductive Value
  | i64 (bits : BitVec 64)
  | i32 (bits : BitVec 32)
  | i1 (bits : BitVec 1)
  | i8 (bits : BitVec 8)
  | double (bits : BitVec 64)
  | ptr (address : BitVec 64)
  | void
  | fallible (value : FallibleValue)
  | wide (type : LLVMType) (bytes : List (BitVec 8)) (hwide : isWide type = true)
  deriving DecidableEq

namespace Value

/-- `Val->getType()`. -/
def type : Value → LLVMType
  | .i64 _ => .i64
  | .i32 _ => .i32
  | .i1 _ => .i1
  | .i8 _ => .i8
  | .double _ => .double
  | .ptr _ => .ptr
  | .void => .void
  | .fallible _ => .fallible
  | .wide type _ _ => type

end Value

/-- The boxes of the heap, by address. -/
abbrev Boxes := BitVec 64 → Option Value

/-- `BoxToI64Slot`, with the address the allocator gives where it is asked. -/
def boxToI64Slot (address : BitVec 64) (val : Value) (boxes : Boxes) : BitVec 64 × Boxes :=
  match val with
  | .i64 bits => (bits, boxes)
  | .i32 bits => (bits.signExtend 64, boxes)
  | .i1 bits => (bits.setWidth 64, boxes)
  | .i8 bits => (bits.setWidth 64, boxes)
  | .double bits => (bits, boxes)
  | .ptr a => (a, boxes)
  | .void => (0, boxes)
  | .fallible _ | .wide _ _ _ => (address, Function.update boxes address (some val))

/-- `UnboxFromI64Slot` at the LLVM type of the success type. A box is read at the type it was
written at. -/
def unboxFromI64Slot (slot : BitVec 64) (targetTy : LLVMType) (boxes : Boxes) : Option Value :=
  match targetTy with
  | .i64 => some (.i64 slot)
  | .i32 => some (.i32 (slot.setWidth 32))
  | .i1 => some (.i1 (slot.setWidth 1))
  | .i8 => some (.i8 (slot.setWidth 8))
  | .double => some (.double slot)
  | .ptr => some (.ptr slot)
  | .void => some .void
  | .fallible | .slice | .array _ _ | .struct _ =>
    (boxes slot).filter fun val => val.type = targetTy

/-- `WrapFallibleValue` of a value that is there; the pointer of an error is stored as it is. -/
def wrapFallibleValue (address : BitVec 64) (rawVal : Value) (isError : Bool) (boxes : Boxes) :
    Option (FallibleValue × Boxes) :=
  if isError then
    match rawVal with
    | .ptr a => some (⟨false, 0, a⟩, boxes)
    | _ => none
  else
    let slot := boxToI64Slot address rawVal boxes
    some (⟨true, slot.1, 0⟩, slot.2)

/-! ### What is boxed comes out -/

theorem trunc_sext (bits : BitVec 32) : (bits.signExtend 64).setWidth 32 = bits := by
  ext i hi
  simp only [BitVec.getElem_setWidth, BitVec.getLsbD_signExtend]
  have hi' : i < 64 := by omega
  simp [hi, hi']

/-- A value read at its own type is the value that was boxed. -/
theorem unbox_box (address : BitVec 64) (val : Value) (boxes : Boxes) :
    unboxFromI64Slot (boxToI64Slot address val boxes).1 val.type
      (boxToI64Slot address val boxes).2 = some val := by
  cases val with
  | i32 bits => simp only [boxToI64Slot, Value.type, unboxFromI64Slot, trunc_sext]
  | i1 bits =>
    have h : (bits.setWidth 64).setWidth 1 = bits := by simp
    simp only [boxToI64Slot, Value.type, unboxFromI64Slot, h]
  | i8 bits =>
    have h : (bits.setWidth 64).setWidth 8 = bits := by simp
    simp only [boxToI64Slot, Value.type, unboxFromI64Slot, h]
  | wide type bytes hwide =>
    have hslot : (boxToI64Slot address (.wide type bytes hwide) boxes).1 = address := rfl
    cases type with
    | slice | array | struct =>
      simp [boxToI64Slot, Value.type, unboxFromI64Slot]
    | _ => cases hwide
  | fallible value => simp [boxToI64Slot, Value.type, unboxFromI64Slot]
  | _ => rfl

end Codegen

end TurfLang
