import TurfLang.Sema.Matching

/-!
# `src/codegen/CodegenControlFlow.cpp`, `CodegenPattern.cpp`: the lowerings of `compare`

A compare with only plain value headers becomes a `switch` of LLVM, or a chain of `strcmp` calls
when the subject is a string. A compare with a destructuring pattern or a guard becomes a chain of
tests. Each lowering is the code it emits, or nothing where `codegen` raises an error or the module
that it leaves is rejected, together with what that code does with a value of the subject.
-/

namespace TurfLang

namespace Compare

/-! ### Comparisons -/

/-- `strcmp`. -/
def strcmp : List (BitVec 8) → List (BitVec 8) → ℤ
  | [], [] => 0
  | [], b :: _ => -b.toNat
  | a :: _, [] => a.toNat
  | a :: as, b :: bs => if a = b then strcmp as bs else a.toNat - b.toNat

/-- An operand of an integer comparison. The pointer of an error value is compared as it is. -/
inductive Operand
  | int (bits : BitVec 64)
  | pointer (address : ℕ)
  deriving DecidableEq

/-- `EmitCheckedFPToSI` to 64 bits, `none` for its panic. -/
def checkedFPToSI : Option ℚ → Option (BitVec 64)
  | some x =>
    if -2 ^ 63 ≤ x ∧ x < 2 ^ 63 then some (BitVec.ofInt 64 (if 0 ≤ x then ⌊x⌋ else ⌈x⌉)) else none
  | none => none

/-- `CastToType` to `int`. -/
def castToInt : Val → Option Operand
  | .i64 bits => some (.int bits)
  | .i32 bits => some (.int (bits.signExtend 64))
  | .i8 bits => some (.int (bits.setWidth 64))
  | .i1 bit => some (.int (BitVec.ofNat 64 bit.toNat))
  | .double x => (checkedFPToSI x).map .int
  | .error a _ _ _ => some (.pointer a)
  | _ => none

/-- `BuildErrorVariantTag`. -/
def errorVariantTag (errorTypeName variantName : String) : String :=
  errorTypeName ++ "::" ++ variantName

/-! ### The pattern chain -/

/-- Where a test loads from: the slot of the subject, a field of a struct, what a reference points
at, or a field of an error's payload. -/
inductive Place
  | slot
  | field (p : Place) (i : ℕ)
  | deref (p : Place)
  | payload (p : Place) (i : ℕ)

variable {T : TypeTable} {σ : Type}

/-- A load. -/
def Place.load (H : Heap T σ) (subject : Val) (s : σ) : Place → Option Val
  | slot => some subject
  | field p i =>
    match p.load H subject s with
    | some (.struct fields) => fields[i]?.map Prod.snd
    | _ => none
  | deref p =>
    match p.load H subject s with
    | some (.ref a) => some (H.load s a)
    | _ => none
  | payload p i =>
    match p.load H subject s with
    | some (.error _ _ _ values) => values[i]?
    | _ => none

/-- What `emitPatternTest` emits: a store into a binding's slot, and the tests that branch to
`FailBB` on a mismatch. -/
inductive Instr (σ : Type)
  | store (name : String) (p : Place)
  | tagTest (p : Place) (tag : String)
  | strTest (p : Place) (e : Lowered σ)
  | intTest (p : Place) (e : Lowered σ)

/-- `getFieldIndex`. -/
def StructType.fieldIndex (st : StructType) (name : String) : ℕ :=
  st.fields.findIdx (·.name = name)

def Pattern.isWildcard : Pattern T σ → Bool
  | .wildcard => true
  | _ => false

mutual

/-- `emitPatternTest`. The type of a struct pattern's fields and of a payload are the ones that the
checker has stored in the pattern. -/
def emitPatternTest : Pattern T σ → Place → TurfType → Option (List (Instr σ))
  | .wildcard, _, _ => some []
  | .binding name, p, _ => some [.store name p]
  | .struct _ fields _, p, τ =>
    match τ.pointee? with
    | some q => do emitFields (← (T.kind q).struct?) fields p.deref
    | none => do emitFields (← (T.kind τ).struct?) fields p
  | .errorVariant leftName rightName subs _ _, p, _ => do
    let needsPayload := !subs.all Pattern.isWildcard
    let variants ← T.errorVariants leftName
    let info ← variants.find? (·.name = rightName)
    let tests ← emitSubs subs info.fields p 0
    return .tagTest p (errorVariantTag leftName rightName) :: if needsPayload then tests else []
  | .value e, p, τ => some [if τ.getName = "string" then .strTest p e.codegen
      else .intTest p e.codegen]

def emitFields (st : StructType) :
    List (String × Pattern T σ) → Place → Option (List (Instr σ))
  | [], _ => some []
  | (name, sub) :: rest, p => do
    let f ← st.fields.find? (·.name = name)
    let tests ← emitPatternTest sub (p.field (st.fieldIndex name)) f.type
    return tests ++ (← emitFields st rest p)

def emitSubs : List (Pattern T σ) → List (String × TurfType) → Place → ℕ →
    Option (List (Instr σ))
  | sub :: rest, (_, τ) :: fields, p, i => do
    let tests ← emitPatternTest sub (p.payload i) τ
    return tests ++ (← emitSubs rest fields p (i + 1))
  | _, _, _, _ => some []

end

/-- The slots of the bindings of an arm. -/
abbrev Slots := String → Option Val

section

variable (H : Heap T σ) (subject : Val)

/-- One instruction: whether control goes on, the slots and the state. -/
def Instr.run : Instr σ → Slots → σ → Option (Bool × Slots × σ)
  | store name p, slots, s => do
    let v ← p.load H subject s
    return (true, Function.update slots name (some v), s)
  | tagTest p tag, slots, s => do
    match ← p.load H subject s with
    | .error _ E V _ => return (errorVariantTag E V = tag, slots, s)
    | _ => none
  | strTest p e, slots, s => do
    let l ← p.load H subject s
    let (r, s') ← e.run s
    match l, r with
    | .str a, .str b => return (strcmp a b = 0, slots, s')
    | _, _ => none
  | intTest p e, slots, s => do
    let l ← p.load H subject s
    let (r, s') ← e.run s
    match ← castToInt l, ← castToInt r with
    | .int a, .int b => return (a = b, slots, s')
    | .pointer a, .pointer b => return (a = b, slots, s')
    | _, _ => none

/-- The tests of a header, up to the first that fails. -/
def runTests : List (Instr σ) → Slots → σ → Option (Bool × Slots × σ)
  | [], slots, s => some (true, slots, s)
  | t :: rest, slots, s => do
    match ← t.run H subject slots s with
    | (true, slots', s') => runTests rest slots' s'
    | (false, slots', s') => return (false, slots', s')

/-- The tests of one header and its guard. -/
structure HeaderCode (σ : Type) where
  tests : List (Instr σ)
  guard : Option (Env → σ → Option (Bool × σ))

/-- The slots that the guards and the body of an arm can name. -/
def restrict (bindings : List String) (slots : Slots) : Env :=
  fun name => if name ∈ bindings then slots name else none

/-- The headers of an arm one after another: the slots its body sees if one of them passes. -/
def runHeaders (bindings : List String) :
    List (HeaderCode σ) → Slots → σ → Option (Option Env × σ)
  | [], _, s => some (none, s)
  | h :: rest, slots, s => do
    match ← runTests H subject h.tests slots s with
    | (false, slots', s') => runHeaders bindings rest slots' s'
    | (true, slots', s') =>
      match h.guard with
      | none => return (some (restrict bindings slots'), s')
      | some guard =>
        let (holds, s'') ← guard (restrict bindings slots') s'
        if holds then return (some (restrict bindings slots'), s'')
        else runHeaders bindings rest slots' s''

/-- The tests of one arm and the names of its slots. -/
structure ArmCode (σ : Type) where
  bindings : List String
  headers : List (HeaderCode σ)

/-- The arms of the chain from the `i`th on; `stale` is what the slots hold before. -/
def runChain (hasOtherBody : Bool) (stale : Slots) :
    ℕ → List (ArmCode σ) → σ → Option (Choice × σ)
  | _, [], s => some (if hasOtherBody then .otherBody else .noArm, s)
  | i, arm :: rest, s => do
    match ← runHeaders H subject arm.bindings arm.headers stale s with
    | (some env, s') => return (.arm i env, s')
    | (none, s') => runChain hasOtherBody stale (i + 1) rest s'

end

/-- What code that was emitted does: with what is in the slots before, a value of the subject and
the state. -/
abbrev Code (σ : Type) := Slots → Val → σ → Option (Choice × σ)

namespace CompareExpr

/-- The tests of one header. -/
def emitHeader (node : CompareExpr T σ) (h : Header T σ) : Option (HeaderCode σ) := do
  return ⟨← emitPatternTest h.pattern .slot node.subjectType, h.guard⟩

/-- The slots and the tests of one arm. -/
def emitArm (node : CompareExpr T σ) (arm : MatchesArm T σ) : Option (ArmCode σ) := do
  return ⟨arm.bindings, ← arm.headers.mapM node.emitHeader⟩

/-- `codegenPatterns`. -/
def codegenPatterns (H : Heap T σ) (node : CompareExpr T σ) : Option (Code σ) := do
  let arms ← node.arms.mapM node.emitArm
  return fun stale v s => runChain H v node.hasOtherBody stale 0 arms s

/-! ### The `switch` -/

/-- `needsPatternCodegen`. -/
def needsPatternCodegen (node : CompareExpr T σ) : Bool :=
  node.arms.any fun arm => arm.headers.any fun h =>
    h.guard.isSome ||
      match h.pattern with
      | .value _ => false
      | _ => true

/-- The headers of an arm of a compare with value headers only. -/
def values (arm : MatchesArm T σ) : List (ValueExpr T σ) :=
  arm.headers.filterMap fun h =>
    match h.pattern with
    | .value e => some e
    | _ => none

/-- The case constant of a header, at 64 bits: a bool is zero-extended, every other constant is
sign-extended. Any other value would have to be cast by code after the `switch`. -/
def caseValue : Lowered σ → Option (BitVec 64)
  | .const (.i64 bits) => some bits
  | .const (.i32 bits) => some (bits.signExtend 64)
  | .const (.i8 bits) => some (bits.signExtend 64)
  | .const (.i1 bit) => some (BitVec.ofNat 64 bit.toNat)
  | _ => none

/-- The cases of the arms from the `i`th on. -/
def addCases : ℕ → List (MatchesArm T σ) → Option (List (BitVec 64 × ℕ))
  | _, [] => some []
  | i, arm :: rest => do
    let cases ← (values arm).mapM fun e => caseValue e.codegen
    return cases.map (·, i) ++ (← addCases (i + 1) rest)

/-- No binding. -/
def noBindings : Env := fun _ => none

/-- The `switch`. -/
def runSwitch (cases : List (BitVec 64 × ℕ)) (hasOtherBody : Bool) (v : Val) (s : σ) :
    Option (Choice × σ) := do
  match ← castToInt v with
  | .int bits =>
    match cases.lookup bits with
    | some i => return (.arm i noBindings, s)
    | none => return (if hasOtherBody then .otherBody else .noArm, s)
  | .pointer _ => none

/-- The `switch` lowering. The verifier rejects a `switch` with two cases of one value. -/
def codegenSwitch (node : CompareExpr T σ) : Option (Code σ) := do
  let cases ← addCases 0 node.arms
  if (cases.map Prod.fst).Nodup then return fun _ v s => runSwitch cases node.hasOtherBody v s
  else none

/-! ### The `strcmp` chain -/

/-- Every header of an arm is evaluated and compared. -/
def anyMatch (subject : CString) : List (Lowered σ) → σ → Option (Bool × σ)
  | [], s => some (false, s)
  | e :: rest, s => do
    let (r, s') ← e.run s
    match r with
    | .str pattern =>
      let (later, s'') ← anyMatch subject rest s'
      return (strcmp subject pattern = 0 || later, s'')
    | _ => none

/-- The arms from the `i`th on. -/
def runStrings (hasOtherBody : Bool) (subject : CString) :
    ℕ → List (MatchesArm T σ) → σ → Option (Choice × σ)
  | _, [], s => some (if hasOtherBody then .otherBody else .noArm, s)
  | i, arm :: rest, s => do
    match ← anyMatch subject ((values arm).map (·.codegen)) s with
    | (true, s') => return (.arm i noBindings, s')
    | (false, s') => runStrings hasOtherBody subject (i + 1) rest s'

/-- The `strcmp` lowering. -/
def codegenStrings (node : CompareExpr T σ) : Code σ := fun _ v s =>
  match v with
  | .str subject => runStrings node.hasOtherBody subject 0 node.arms s
  | _ => none

/-- `CompareExprAST::codegen`, once the subject is evaluated. -/
def codegen (H : Heap T σ) (node : CompareExpr T σ) : Option (Code σ) :=
  if node.needsPatternCodegen then node.codegenPatterns H
  else if node.arms = [] then
    some fun _ _ s => some (if node.hasOtherBody then .otherBody else .noArm, s)
  else if node.subjectType.getName = "string" then some node.codegenStrings
  else node.codegenSwitch

end CompareExpr

end Compare

end TurfLang
