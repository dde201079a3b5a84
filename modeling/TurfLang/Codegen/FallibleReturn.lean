import TurfLang.Codegen.FallibleValue

/-!
# `return e` in a function of return type `!T`

Three places decide what the caller gets. `visitReturn` accepts `e` by its type and marks the calls
whose `!T` is handed on unopened. `ReturnExprAST::codegen` looks at the shape of `e` to tell an
error from a success and boxes a success at the LLVM type the value has. The `try` or `recover` of
the caller goes by the success bit and unboxes at the type `T`.

An expression is what these places look at: its shape, its type in the checker and its value, an
arbitrary computation that may panic and may change the boxes of the heap.
-/

namespace TurfLang

namespace Codegen

/-! ### Conversions -/

/-- `m / 2 ^ k`, rounded to the nearest number, to the even one of two. -/
def roundShift (m k : ℕ) : ℕ :=
  let q := m / 2 ^ k
  let r := m % 2 ^ k
  if 2 ^ k < 2 * r ∨ 2 * r = 2 ^ k ∧ q % 2 = 1 then q + 1 else q

/-- `CreateSIToFP`: the bits of the double nearest to a signed number. A significand rounded up to
`2 ^ 53` carries into the exponent. -/
def sitofp (bits : BitVec 64) : BitVec 64 :=
  let m := bits.toInt.natAbs
  if m = 0 then 0
  else
    let e := m.log2
    let significand := if e ≤ 52 then m * 2 ^ (52 - e) else roundShift m (e - 52)
    let sign := if bits.toInt < 0 then 2 ^ 63 else 0
    BitVec.ofNat 64 (sign + (e + 1022) * 2 ^ 52 + significand)

example : sitofp 1 = 0x3FF0000000000000 := by decide
example : sitofp (-3) = 0xC008000000000000 := by decide
example : sitofp 9007199254740993 = sitofp 9007199254740992 := by decide

/-- `getTurfTypeFromLLVM`. -/
def getTurfTypeFromLLVM : LLVMType → TurfType
  | .double => .double
  | .i64 => .int
  | .i32 => .int
  | .i1 => .bool
  | .i8 => .char
  | .ptr => .opaquePointer
  | .void => .void
  | _ => .double

/-- `getTypeRank`. -/
def getTypeRank : TurfType → ℕ
  | .double => 3
  | .int => 2
  | .bool => 1
  | .char => 5
  | .string => 4
  | _ => 0

/-- `getCommonType`. -/
def getCommonType (A B : TurfType) : TurfType := if getTypeRank B ≤ getTypeRank A then A else B

/-- The first step of `CastToType`: foreign integer widths become 64 bits. -/
def widenInt32 : Value → Value
  | .i32 bits => .i64 (bits.signExtend 64)
  | val => val

/-- The casts between different types. -/
def castScalar (destType : TurfType) (val : Value) : Value :=
  match val with
  | .i64 bits =>
    match destType with
    | .double => .double (sitofp bits)
    | .char => .i8 (bits.setWidth 8)
    | _ => val
  | .i1 bits =>
    match destType with
    | .double => .double (sitofp (bits.setWidth 64))
    | .int => .i64 (bits.setWidth 64)
    | _ => val
  | .i8 bits =>
    match destType with
    | .int => .i64 (bits.setWidth 64)
    | _ => val
  | _ => val

/-- `CastToType` to a common type of two LLVM types. `double` outranks `int`, so nothing is cast
from `double` to `int` here. -/
def castToType (val : Value) (destType : TurfType) : Value :=
  if (getTurfTypeFromLLVM (widenInt32 val).type).getName = destType.getName then widenInt32 val
  else castScalar destType (widenInt32 val)

/-- The LLVM type that `widenInt32` leaves. -/
def widenedType : LLVMType → LLVMType
  | .i32 => .i64
  | type => type

/-- The LLVM type that `castScalar` leaves. -/
def castedScalar : LLVMType → TurfType → LLVMType
  | .i64, .double | .i1, .double => .double
  | .i64, .char => .i8
  | .i1, .int | .i8, .int => .i64
  | type, _ => type

/-- The LLVM type that `CastToType` leaves. -/
def castedType (type : LLVMType) (destType : TurfType) : LLVMType :=
  if (getTurfTypeFromLLVM (widenedType type)).getName = destType.getName then widenedType type
  else castedScalar (widenedType type) destType

theorem widenInt32_type (val : Value) : (widenInt32 val).type = widenedType val.type := by
  cases val with
  | wide type bytes hwide =>
    cases type with
    | slice | array | struct => rfl
    | _ => cases hwide
  | _ => rfl

theorem castScalar_type (destType : TurfType) (val : Value) :
    (castScalar destType val).type = castedScalar val.type destType := by
  cases val with
  | wide type bytes hwide =>
    cases type with
    | slice | array | struct => rfl
    | _ => cases hwide
  | i64 | i1 | i8 => cases destType <;> rfl
  | _ => rfl

theorem castToType_type (val : Value) (destType : TurfType) :
    (castToType val destType).type = castedType val.type destType := by
  unfold castToType castedType
  rw [← widenInt32_type]
  split
  · rfl
  · exact castScalar_type destType (widenInt32 val)

/-! ### Expressions -/

/-- `ScopeAccessKind`, as far as `IsErrorTagExpr` looks at it. -/
inductive ScopeAccessKind
  | errorVariantRef
  | errorVariantConstruct
  | other
  deriving DecidableEq

section

variable (lookup : String → Option TurfType)

/-- An expression that is not looked into: its type, the number `tryFoldUntypedIntConstant` makes
of it, and its value, which has the LLVM type of its type. -/
structure Leaf where
  type : TurfType
  foldedInt : Option ℤ
  run : Boxes → Option (Boxes × Value)
  typed : ∀ boxes boxes' val, run boxes = some (boxes', val) → val.type = type.llvmTypeIn lookup

/-- An array literal, built at its cached type. -/
structure ArrayLiteral where
  run : TurfType → Boxes → Option (Boxes × Value)
  typed : ∀ cachedType boxes boxes' val, run cachedType boxes = some (boxes', val) →
    val.type = cachedType.llvmTypeIn lookup

/-- `ExprAST`. -/
inductive Expr
  | null
  | scopeAccess (resolvedKind : ScopeAccessKind) (leaf : Leaf lookup)
  | funcCall (callee : Option ScopeAccessKind) (leaf : Leaf lookup)
  | varRef (symbolType : Option TurfType) (leaf : Leaf lookup)
  | arrayLiteral (cachedType : TurfType) (literal : ArrayLiteral lookup)
  | ifExpr (cond : Boxes → Option (Boxes × Bool)) (thenExpr elseExpr : Expr)
  | other (leaf : Leaf lookup)

end

variable {lookup : String → Option TurfType}

namespace Expr

/-- The type that the checker gives; nothing where it reports the two sides of a
`give`/`otherwise` as incompatible. -/
def typeOf : Expr lookup → Option TurfType
  | null => some .null
  | scopeAccess _ leaf | funcCall _ leaf | varRef _ leaf | other leaf => some leaf.type
  | arrayLiteral cachedType _ => some cachedType
  | ifExpr _ thenExpr elseExpr => do
    let thenTy ← thenExpr.typeOf
    let elseTy ← elseExpr.typeOf
    if thenTy.getName = elseTy.getName then some thenTy
    else if thenTy.isNumeric && elseTy.isNumeric then
      if thenTy.getName = "double" ∨ elseTy.getName = "double" then some .double else some .int
    else none

/-- `tryFoldUntypedIntConstant`. -/
def foldedInt : Expr lookup → Option ℤ
  | scopeAccess _ leaf | funcCall _ leaf | varRef _ leaf | other leaf => leaf.foldedInt
  | null | arrayLiteral _ _ | ifExpr _ _ _ => none

/-- The LLVM type of the value. -/
def llvmType : Expr lookup → LLVMType
  | null => .ptr
  | scopeAccess _ leaf | funcCall _ leaf | varRef _ leaf | other leaf =>
    leaf.type.llvmTypeIn lookup
  | arrayLiteral cachedType _ => cachedType.llvmTypeIn lookup
  | ifExpr _ thenExpr elseExpr =>
    castedType thenExpr.llvmType (getCommonType (getTurfTypeFromLLVM thenExpr.llvmType)
      (getTurfTypeFromLLVM elseExpr.llvmType))

/-- `codegen`, run. Each side of a `give`/`otherwise` is cast to the common type; sides that come
out of it with different LLVM types make invalid code. -/
def codegen : Expr lookup → Boxes → Option (Boxes × Value)
  | null, boxes => some (boxes, .ptr 0)
  | scopeAccess _ leaf, boxes => leaf.run boxes
  | funcCall _ leaf, boxes => leaf.run boxes
  | varRef _ leaf, boxes => leaf.run boxes
  | other leaf, boxes => leaf.run boxes
  | arrayLiteral cachedType literal, boxes => literal.run cachedType boxes
  | ifExpr cond thenExpr elseExpr, boxes => do
    let mergeType := getCommonType (getTurfTypeFromLLVM thenExpr.llvmType)
      (getTurfTypeFromLLVM elseExpr.llvmType)
    guard (castedType thenExpr.llvmType mergeType = castedType elseExpr.llvmType mergeType)
    let (boxes, c) ← cond boxes
    let (boxes, val) ← (if c then thenExpr.codegen boxes else elseExpr.codegen boxes)
    some (boxes, castToType val mergeType)

/-- `IsErrorTagExpr`. -/
def isErrorTagExpr : Expr lookup → Bool
  | scopeAccess resolvedKind _ => resolvedKind = .errorVariantRef
  | funcCall callee _ => callee = some .errorVariantConstruct
  | varRef symbolType _ =>
    match symbolType with
    | some .anyError | some (.userError _) => true
    | _ => false
  | null | arrayLiteral _ _ | ifExpr _ _ _ | other _ => false

/-- The value an expression gives has the LLVM type of the expression. -/
theorem codegen_type {e : Expr lookup} {boxes boxes' : Boxes} {val : Value}
    (h : e.codegen boxes = some (boxes', val)) : val.type = e.llvmType := by
  induction e generalizing boxes boxes' val with
  | null =>
    simp only [codegen, Option.some.injEq, Prod.mk.injEq] at h
    rw [← h.2]
    rfl
  | scopeAccess _ leaf | funcCall _ leaf | varRef _ leaf | other leaf => exact leaf.typed _ _ _ h
  | arrayLiteral cachedType literal => exact literal.typed _ _ _ _ h
  | ifExpr cond thenExpr elseExpr ihthen ihelse =>
    simp only [codegen, Option.bind_eq_bind, Option.bind_eq_some_iff, Option.some.injEq,
      Prod.mk.injEq, Option.guard_eq_some'] at h
    obtain ⟨_, hmerge, ⟨boxes₁, c⟩, _, ⟨boxes₂, side⟩, hside, _, rfl⟩ := h
    rw [castToType_type]
    cases c with
    | true => rw [ihthen hside]; rfl
    | false => rw [ihelse hside, ← hmerge]; rfl

end Expr

/-! ### The checker's `return` -/

/-- `isDeclaredErrorTypeValue`. -/
def isDeclaredErrorTypeValue (lookup : String → Option TurfType) : TurfType → Bool
  | .userError _ | .anyError => true
  | .named name =>
    match lookup name with
    | some (.userError _) => true
    | _ => false
  | _ => false

/-- `arrayLiteralWidensToNullableRefs`: the literal at the type it is built at, where it widens. -/
def widenedLiteral (e : Expr lookup) (T : TurfType) : Option (Expr lookup) :=
  match e, T with
  | .arrayLiteral (.array elem (.fixed size)) literal, .array (.nullableReference p) (.fixed size') =>
    let widens := match elem with
      | .null => true
      | .reference q => p.getName = q.getName
      | _ => false
    if size' = size && widens then some (.arrayLiteral T literal) else none
  | _, _ => none

/-- `untypedLiteralAcquiresInt32`. -/
def literalAcquiresInt32 (e : Expr lookup) (T : TurfType) : Bool :=
  match T with
  | .int32 => e.foldedInt.isSome
  | _ => false

/-- Whether a number is a double, so that `convertFromAPInt` is exact. -/
def exactAsDouble (v : ℤ) : Bool :=
  v.natAbs.log2 ≤ 52 || v.natAbs % 2 ^ (v.natAbs.log2 - 52) = 0

/-- `checkLiteralRepresentable`. -/
def literalRepresentable (folded : Option ℤ) (destType : TurfType) : Bool :=
  match folded, destType with
  | some v, .int => -2 ^ 63 ≤ v && v < 2 ^ 63
  | some v, .int32 => -2 ^ 31 ≤ v && v < 2 ^ 31
  | some v, .double => -2 ^ 63 ≤ v && v < 2 ^ 63 && exactAsDouble v
  | _, _ => true

/-- `ReturnExprAST` after the checker. -/
structure ReturnExpr (lookup : String → Option TurfType) where
  val : Expr lookup
  passesThroughFallible : Bool

/-- The rules of `visitReturn` for a value of type `retTy`. A `!T` is handed on only where it is
not itself a `T`. -/
def compatibleReturn (T retTy : TurfType) (e : Expr lookup) : Option (ReturnExpr lookup) :=
  if TurfType.typesCompatible retTy T || isDeclaredErrorTypeValue lookup retTy ||
      literalAcquiresInt32 e T then
    some ⟨e, false⟩
  else
    match widenedLiteral e T with
    | some e' => some ⟨e', false⟩
    | none =>
      match retTy with
      | .errorUnion _ =>
        if TurfType.typesCompatible retTy (.errorUnion T) then some ⟨e, true⟩ else none
      | _ => none

/-- `visitReturn` in a function of return type `!T`; nothing where an error is reported. -/
def visitReturn (T : TurfType) (e : Expr lookup) : Option (ReturnExpr lookup) := do
  let retTy ← e.typeOf
  let r ← compatibleReturn T retTy e
  guard (literalRepresentable e.foldedInt T)
  some r

/-! ### The code of `return`, `recover` and `try` -/

/-- `ReturnExprAST::codegen` after the value is there and the pending defers have run. -/
def ReturnExpr.wrap (r : ReturnExpr lookup) (address : BitVec 64) (val : Value) (boxes : Boxes) :
    Option (FallibleValue × Boxes) :=
  if r.passesThroughFallible then
    match val with
    | .fallible fv => some (fv, boxes)
    | _ => none
  else wrapFallibleValue address val r.val.isErrorTagExpr boxes

/-- What a caller can see of a fallible value. -/
inductive Outcome
  | success (val : Value)
  | error (payload : BitVec 64)
  deriving DecidableEq

/-- `RecoverExprAST::codegen`: the value on the success path, the error on the failure path. -/
def recoverOutcome (lookup : String → Option TurfType) (T : TurfType) (fv : FallibleValue)
    (boxes : Boxes) : Option Outcome :=
  if fv.isOk then
    (unboxFromI64Slot fv.successBits (T.llvmTypeIn lookup) boxes).map .success
  else some (.error fv.errorPayload)

/-- What `try` goes on to do. -/
inductive TryResult
  | value (val : Value)
  | returns (fv : FallibleValue)
  deriving DecidableEq

/-- `TryExprAST::codegen`: the value, or a return of the same error. -/
def tryResult (lookup : String → Option TurfType) (T : TurfType) (fv : FallibleValue)
    (boxes : Boxes) : Option TryResult :=
  if fv.isOk then
    (unboxFromI64Slot fv.successBits (T.llvmTypeIn lookup) boxes).map .value
  else some (.returns ⟨false, 0, fv.errorPayload⟩)

end Codegen

end TurfLang
