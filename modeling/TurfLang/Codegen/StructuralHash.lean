import TurfLang.Lib.Mixing
import TurfLang.Std.Map.Header
import Mathlib.Data.List.OfFn
import Mathlib.Tactic

/-!
# `src/codegen/CodegenCore.cpp`: `hash_of`, beside the `==` of `src/codegen/CodegenExpr.cpp`

`EmitStructuralHash` folds every part of a value into a 64-bit state, by the static type of the
part: a string by its text, a double with `-0.0` taken as `0.0`, an array and a struct part by
part, and whatever else is a pointer by its address. `BinaryExprAST::codegen` compares two
operands: errors by their tags, then by a declared `operator ==`, then by value.
-/

namespace TurfLang.StructuralHash

/-! ### Types and values -/

/-- The types that are LLVM integers. -/
inductive IntKind
  | int
  | int32
  | char
  | bool
  | enum (name : String)
  deriving DecidableEq

/-- `getIntegerBitWidth`. -/
def IntKind.width : IntKind → ℕ
  | int => 64
  | int32 => 32
  | char => 8
  | bool => 1
  | enum _ => 64

mutual

/-- A static type with its names looked up. `pointer` is `&T`, `&?T`, `T*`, `ptr` or a function,
under its spelling; `error` is a declared error type or `AnyErrorType`. -/
inductive Ty
  | integer (kind : IntKind)
  | double
  | string
  | error (name : String)
  | pointer (name : String)
  | array (element : Ty) (size : ℕ)
  | slice (element : Ty)
  | struct (name : String) (fields : Fields)

/-- The types of the fields of a struct, in order. -/
inductive Fields
  | nil
  | cons (type : Ty) (rest : Fields)

end

/-- An address. -/
abbrev Addr := BitVec 64

mutual

/-- A value of a type. Strings, errors and pointers are addresses, a double is its bits, and a
slice is the elements it views. -/
@[reducible] def Value : Ty → Type
  | .integer kind => BitVec kind.width
  | .double => BitVec 64
  | .string => Addr
  | .error _ => Addr
  | .pointer _ => Addr
  | .array element size => Fin size → Value element
  | .slice element => List (Value element)
  | .struct _ fields => Values fields

/-- The values of the fields of a struct. -/
@[reducible] def Values : Fields → Type
  | .nil => Unit
  | .cons type rest => Value type × Values rest

end

/-- What is read through an address: the bytes of a string before its NUL, and the tag of a
`TurfErrorValue`. -/
structure Memory where
  cstr : Addr → List (BitVec 8)
  errTag : Addr → Addr

/-! ### `hash_of` -/

/-- `hashMix`: the finalizer of splitmix64. -/
def hashMix (x : BitVec 64) : BitVec 64 :=
  let x := x ^^^ (x >>> 30)
  let x := x * 0xbf58476d1ce4e5b9#64
  let x := x ^^^ (x >>> 27)
  let x := x * 0x94d049bb133111eb#64
  x ^^^ (x >>> 31)

/-- `hashCombine`. -/
def hashCombine (h part : BitVec 64) : BitVec 64 :=
  hashMix ((h * 0x100000001b3#64) ^^^ part)

/-- `__turf_hash_cstr`: FNV-1a over the bytes of a string; a null string hashes as the empty
one. -/
def hashCStr (m : Memory) (s : Addr) : BitVec 64 :=
  if s = 0 then 0xcbf29ce484222325#64
  else (m.cstr s).foldl (fun h c => (h ^^^ c.setWidth 64) * 0x100000001b3#64)
    0xcbf29ce484222325#64

/-- The bits of a NaN. -/
def isNaN (v : BitVec 64) : Bool := 0x7ff0000000000000#64 < v &&& 0x7fffffffffffffff#64

/-- The bits of `0.0` and `-0.0`. -/
def isZero (v : BitVec 64) : Bool := v &&& 0x7fffffffffffffff#64 = 0#64

/-- `CreateFCmpOEQ` on the bits of two doubles: neither is a NaN, and they are the same bits or
the two zeros. -/
def fcmpOEQ (a b : BitVec 64) : Bool :=
  !isNaN a && !isNaN b && (a = b || (isZero a && isZero b))

/-- What a double is hashed as: `-0.0` as `0.0`. -/
def hashedDouble (v : BitVec 64) : BitVec 64 := if fcmpOEQ v 0#64 then 0#64 else v

/-- What an integer is hashed as: `CreateIntCast`, signed above a width of 8. -/
def hashedInt {w : ℕ} (v : BitVec w) : BitVec 64 :=
  if w > 8 then v.signExtend 64 else v.setWidth 64

mutual

/-- `emitHashRec`: fold a value into the state. -/
def emitHashRec (m : Memory) : (T : Ty) → Value T → BitVec 64 → ℕ → BitVec 64
  | .integer _, v, h, depth => if depth > 16 then h else hashCombine h (hashedInt v)
  | .double, v, h, depth => if depth > 16 then h else hashCombine h (hashedDouble v)
  | .string, v, h, depth => if depth > 16 then h else hashCombine h (hashCStr m v)
  | .error _, v, h, depth => if depth > 16 then h else hashCombine h v
  | .pointer _, v, h, depth => if depth > 16 then h else hashCombine h v
  | .array element _, v, h, depth =>
    if depth > 16 then h
    else (List.ofFn v).foldl (fun acc x => emitHashRec m element x acc (depth + 1)) h
  | .slice element, v, h, depth =>
    if depth > 16 then h
    else List.foldl (fun acc x => emitHashRec m element x acc (depth + 1)) h v
  | .struct _ fields, v, h, depth =>
    if depth > 16 then h else emitHashFields m fields v h (depth + 1)

/-- The fields of a struct, one after the other. -/
def emitHashFields (m : Memory) : (fs : Fields) → Values fs → BitVec 64 → ℕ → BitVec 64
  | .nil, _, h, _ => h
  | .cons type rest, v, h, depth =>
    emitHashFields m rest v.2 (emitHashRec m type v.1 h depth) depth

end

/-- `hash_of(x)`. -/
def hashOf (m : Memory) (T : Ty) (v : Value T) : BitVec 64 :=
  emitHashRec m T v 0x243f6a8885a308d3#64 0

/-! ### `==` -/

/-- How an operand of `==` is written: `ErrorType::Variant`, a construction of one, a variable,
or anything else. -/
inductive Shape
  | variantRef
  | variantConstruct
  | variable
  | other
  deriving DecidableEq

/-- An operand, and the value it has. -/
structure Operand (T : Ty) where
  shape : Shape
  value : Value T

/-- `IsErrorTagExpr`. -/
def isErrorTagExpr : {T : Ty} → Operand T → Bool
  | .error _, e => e.shape ≠ .other
  | _, _ => false

/-- `strcmp(a, b) == 0`; a null string has no answer. -/
def strcmpEq (m : Memory) (a b : Addr) : Option Bool :=
  if a = 0 ∨ b = 0 then none else some (m.cstr a = m.cstr b)

/-- `LoadErrorValueField` of the tag; there is none behind a null pointer. -/
def loadTag (m : Memory) (e : Addr) : Option Addr := if e = 0 then none else some (m.errTag e)

/-- `GetErrorTagValue`. -/
def getErrorTagValue (m : Memory) : {T : Ty} → Operand T → Option Addr
  | .error _, e => loadTag m e.value
  | _, _ => none

/-- `CreateICmpEQ`. -/
def icmpEQ {w : ℕ} (a b : BitVec w) : Bool := a = b

/-- `IsBuiltinOperandType`. -/
def Ty.isBuiltinOperand : Ty → Bool
  | .integer (.enum _) => false
  | .integer _ => true
  | .double => true
  | .pointer _ => true
  | _ => false

/-- The overloads of `==` that are visible, one for each exact operand type at most;
`validateOperatorDecl` rejects one whose operands are both builtin. A call that does not return
has no answer. -/
structure Operators where
  overload : (T : Ty) → Option (Value T → Value T → Option Bool)
  overload_builtin : ∀ T, T.isBuiltinOperand = true → overload T = none

/-- The comparison the compiler has built in; the type checker rejects it for strings, arrays,
slices and structs. -/
def builtinEq : (T : Ty) → Value T → Value T → Option Bool
  | .integer _, a, b => some (icmpEQ a b)
  | .double, a, b => some (fcmpOEQ a b)
  | .error _, a, b => some (icmpEQ a b)
  | .pointer _, a, b => some (icmpEQ a b)
  | _, _, _ => none

/-- The answer of `l == r`, as `BinaryExprAST::codegen` compiles it. -/
def binaryEq (m : Memory) (ops : Operators) {T : Ty} (l r : Operand T) : Option Bool :=
  if isErrorTagExpr l || isErrorTagExpr r then do
    strcmpEq m (← getErrorTagValue m l) (← getErrorTagValue m r)
  else
    match ops.overload T with
    | some operator => operator l.value r.value
    | none => builtinEq T l.value r.value

mutual

/-- Two values are equal field by field: one way to write `==` finds every two parts of them
equal, elements of arrays and slices one by one. -/
def Same (m : Memory) : (T : Ty) → Value T → Value T → Prop
  | .integer _, a, b => icmpEQ a b = true
  | .double, a, b => fcmpOEQ a b = true
  | .string, a, b => strcmpEq m a b = some true
  | .error _, a, b =>
    icmpEQ a b = true ∨ (do strcmpEq m (← loadTag m a) (← loadTag m b)) = some true
  | .pointer _, a, b => icmpEQ a b = true
  | .array element _, a, b => ∀ i, Same m element (a i) (b i)
  | .slice element, a, b => List.Forall₂ (Same m element) a b
  | .struct _ fields, a, b => SameFields m fields a b

/-- The same of the fields of a struct. -/
def SameFields (m : Memory) : (fs : Fields) → Values fs → Values fs → Prop
  | .nil, _, _ => True
  | .cons type rest, a, b => Same m type a.1 b.1 ∧ SameFields m rest a.2 b.2

end

/-- What the reference asks of an `operator ==` of a key: it compares field by field. -/
def Operators.FieldByField (m : Memory) (ops : Operators) : Prop :=
  ∀ T operator, ops.overload T = some operator → ∀ a b, operator a b = some true → Same m T a b

/-- The `operator ==` of `lib/std/core/strings.tr`. -/
def stringsOverload (m : Memory) : (T : Ty) → Option (Value T → Value T → Option Bool)
  | .string => some fun a b => strcmpEq m a b
  | _ => none

/-- A program that declares no `operator ==` of its own. -/
def stringsOperator (m : Memory) : Operators where
  overload := stringsOverload m
  overload_builtin T hT := by
    cases T
    case string => cases hT
    all_goals rfl

end TurfLang.StructuralHash
