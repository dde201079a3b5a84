import Mathlib.Data.List.TakeWhile
import Mathlib.Data.Rat.Floor
import TurfLang.Sema.Compatible

/-!
# `compare`: headers, patterns and the checks they pass

`Resolver::visitCompare` fixes the names a pattern binds, `TypeChecker::checkPattern` types one
pattern against the type of what it is matched with, and `TypeChecker::visitCompare` puts the
headers of all arms together: no value twice, and whether some arm takes every value.

What a header that is an expression does at run time is part of the header: a constant, or code.
-/

namespace TurfLang

namespace Compare

/-! ### Values -/

/-- The bytes of a string up to its terminator. -/
abbrev CString := {bytes : List (BitVec 8) // 0 ∉ bytes}

/-- What a string literal's bytes are as a string: a zero byte ends it. -/
def cString (bytes : List (BitVec 8)) : CString :=
  ⟨bytes.takeWhile (· ≠ 0), fun h => by simpa using List.mem_takeWhile_imp h⟩

/-- A run-time value. A double is its exact value, `none` for a NaN or an infinity; the fields of
a struct are in the order of their declaration. -/
inductive Val
  | i64 (bits : BitVec 64)
  | i32 (bits : BitVec 32)
  | i8 (bits : BitVec 8)
  | i1 (bit : Bool)
  | double (x : Option ℚ)
  | str (s : CString)
  | struct (fields : List (String × Val))
  | ref (address : ℕ)
  | error (address : ℕ) (typeName variant : String) (payload : List Val)

/-- What `codegen` of an expression gives: a constant, or code that may change the state and may
panic. -/
inductive Lowered (σ : Type)
  | const (v : Val)
  | code (run : σ → Option (Val × σ))

/-- The value of an expression. -/
def Lowered.run {σ : Type} : Lowered σ → σ → Option (Val × σ)
  | const v, s => some (v, s)
  | code run, s => run s

/-! ### Declared types -/

structure Field where
  name : String
  type : TurfType
  isVisible : Bool

/-- `TurfStructType`, its fields instantiated at the arguments of a generic. -/
structure StructType where
  name : String
  fields : List Field

/-- `ErrorVariantInfo`. -/
structure ErrorVariant where
  name : String
  fields : List (String × TurfType)

/-- What a type is once its name is looked up. -/
inductive Kind
  | int
  | int32
  | char
  | bool
  | string
  | double
  | enum (variants : List String)
  | anyError
  | userError (variants : List ErrorVariant)
  | struct (type : StructType)
  | reference (pointee : TurfType)
  | other

namespace Kind

/-- The subjects whose headers are compared as numbers, strings or error variants. -/
def isSubject : Kind → Bool
  | int | int32 | char | bool | string | enum _ | anyError | userError _ => true
  | _ => false

/-- `isComparableFieldType`. -/
def isComparableFieldType : Kind → Bool
  | int | int32 | char | bool | string | enum _ => true
  | _ => false

def isAnyError : Kind → Bool
  | anyError => true
  | _ => false

def isUserError : Kind → Bool
  | userError _ => true
  | _ => false

/-- `dynamic_cast<const TurfStructType *>`. -/
def struct? : Kind → Option StructType
  | struct type => some type
  | _ => none

end Kind

/-- The types that are a name: the scalars and the declared types. -/
def isNominal : TurfType → Bool
  | .int | .int32 | .double | .bool | .char | .string | .anyError => true
  | .named _ | .enum _ _ | .machine _ | .userError _ => true
  | _ => false

/-- The registered types, and the types that expressions of the program have. A declared name is not
that of a built-in type, of a pointer or of a generic struct's base; an enum or a machine has no
variant twice, and the name of an error variant is an identifier. -/
structure TypeTable where
  kind : TurfType → Kind
  errorVariants : String → Option (List ErrorVariant)
  IsType : TurfType → Prop
  isType_int : IsType .int
  isType_int32 : IsType .int32
  isType_char : IsType .char
  isType_bool : IsType .bool
  isType_string : IsType .string
  isType_double : IsType .double
  isType_named : ∀ name, (kind (.named name)).isSubject = true → IsType (.named name)
  isType_field : ∀ τ st, kind τ = .struct st → ∀ f ∈ st.fields, IsType f.type
  isType_payload : ∀ E variants, errorVariants E = some variants →
    ∀ v ∈ variants, ∀ f ∈ v.fields, IsType f.2
  kind_int : kind .int = .int
  kind_int32 : kind .int32 = .int32
  kind_char : kind .char = .char
  kind_bool : kind .bool = .bool
  kind_string : kind .string = .string
  kind_double : kind .double = .double
  kind_reference : ∀ p, kind (.reference p) = .reference p
  kind_congr : ∀ A B, IsType A → IsType B → A.getName = B.getName →
    (kind A).isSubject = true → kind B = kind A
  closed : ∀ τ, IsType τ → τ.containsOpenParam = false
  nominal : ∀ τ, IsType τ → (kind τ).isSubject = true → isNominal τ = true
  not_opaque : ∀ τ, IsType τ → (kind τ).isSubject = true → τ.isOpaquePtr = false
  not_base : ∀ τ base args, IsType τ → (kind τ).isSubject = true → IsType (.generic base args) →
    τ.getName ≠ base
  string_name : ∀ τ, kind τ = .string → τ.getName = "string"
  struct_pointee : ∀ τ st, kind τ = .struct st → τ.pointee? = none
  userError_variants : ∀ τ variants, kind τ = .userError variants →
    errorVariants τ.getName = some variants
  enum_nodup : ∀ τ variants, kind τ = .enum variants → variants.Nodup
  variant_identifier : ∀ E variants, errorVariants E = some variants →
    ∀ v ∈ variants, ':' ∉ v.name.toList

/-- The values that expressions of a type have, as far as their representation goes. -/
def Kind.Fits : Kind → Val → Prop
  | .int, .i64 _ | .enum _, .i64 _ | .int32, .i32 _ | .char, .i8 _ | .bool, .i1 _ => True
  | .string, .str _ | .double, .double _ => True
  | .anyError, .error _ _ _ _ | .userError _, .error _ _ _ _ => True
  | .struct _, .struct _ | .reference _, .ref _ => True
  | .other, _ => True
  | _, _ => False

variable (T : TypeTable) (σ : Type)

/-- An expression that is no literal, by what `check` and `codegen` make of it. Its code gives
values of its type. -/
structure TypedCode where
  type : TurfType
  lowered : Lowered σ
  isType : T.IsType type
  typed : ∀ s v s', lowered.run s = some (v, s') → (T.kind type).Fits v

/-! ### Patterns -/

/-- An integer literal with any number of minus signs. The flag is `ProvenNoOverflow`. -/
inductive IntLiteral
  | digits (value : ℕ)
  | minus (provenNoOverflow : Bool) (operand : IntLiteral)

/-- `ResolverConstantSymbol`: an exported constant's type and value. -/
inductive ConstantValue
  | int (value : ℤ)
  | int32 (value : ℤ)
  | double (value : Option ℚ)
  | bool (value : Bool)
  | string (bytes : List (BitVec 8))

/-- An expression as a header or a part of a pattern: the forms that the checks tell apart. -/
inductive ValueExpr
  | int (literal : IntLiteral)
  | char (c : BitVec 8)
  | string (bytes : List (BitVec 8))
  | bool (val : Bool)
  | enumVariant (leftName rightName : String)
  | moduleConstant (rightName : String) (value : ConstantValue)
    (identifier : rightName ∉ ["true", "false"])
  | other (e : TypedCode T σ)

/-- `WildcardPatternExprAST` and the other pattern nodes; every other expression is a value
pattern. -/
inductive Pattern
  | wildcard
  | binding (name : String)
  | struct (typeSpelling : String) (fields : List (String × Pattern)) (hasRest : Bool)
  | errorVariant (leftName rightName : String) (subs : List Pattern) (hasParens hasRest : Bool)
  | value (e : ValueExpr T σ)

/-- The names of a pattern's bindings, or of a header's. -/
abbrev Env := String → Option Val

/-- One header of an arm. A guard reads the bindings and may change the state. -/
structure Header where
  pattern : Pattern T σ
  guard : Option (Env → σ → Option (Bool × σ))

/-- `MatchesArm`: its stacked headers. -/
structure MatchesArm where
  headers : List (Header T σ)

/-- `CompareExprAST`, without the bodies of its arms. -/
structure CompareExpr where
  subjectType : TurfType
  selfSubject : Bool
  arms : List (MatchesArm T σ)
  hasOtherBody : Bool

variable {T σ}

/-! ### Names -/

/-- What the checks of a compare report. -/
inductive CompareError
  | boundTwice
  | fieldListedTwice
  | differentNames
  | bindingTypes
  | nullableReference
  | rawPointer
  | notAStruct
  | anotherStruct
  | unknownField
  | privateField
  | missingFields
  | notAnError
  | unknownVariant
  | anotherError
  | payloadUnmentioned
  | emptyParentheses
  | tooManyFields
  | missingPayload
  | notAPattern
  | notComparable
  | fieldType
  | subjectType
  | duplicate
  | notExhaustive
  deriving DecidableEq

namespace Pattern

mutual

/-- The names a pattern binds, in the order of the walk. -/
def names : Pattern T σ → List String
  | wildcard => []
  | binding name => [name]
  | struct _ fields _ => namesOfFields fields
  | errorVariant _ _ subs _ _ => namesOfSubs subs
  | value _ => []

def namesOfFields : List (String × Pattern T σ) → List String
  | [] => []
  | (_, p) :: rest => p.names ++ namesOfFields rest

def namesOfSubs : List (Pattern T σ) → List String
  | [] => []
  | p :: rest => p.names ++ namesOfSubs rest

end

mutual

/-- `resolveArmPattern`, adding to the names of the header. -/
def resolveArmPattern : Pattern T σ → List String → Except CompareError (List String)
  | wildcard, headerNames => return headerNames
  | binding name, headerNames =>
    if name ∈ headerNames then throw .boundTwice else return headerNames ++ [name]
  | struct _ fields _, headerNames =>
    if (fields.map Prod.fst).Nodup then resolveFields fields headerNames
    else throw .fieldListedTwice
  | errorVariant _ _ subs _ _, headerNames => resolveSubs subs headerNames
  | value _, headerNames => return headerNames

def resolveFields : List (String × Pattern T σ) → List String → Except CompareError (List String)
  | [], headerNames => return headerNames
  | (_, p) :: rest, headerNames => do resolveFields rest (← p.resolveArmPattern headerNames)

def resolveSubs : List (Pattern T σ) → List String → Except CompareError (List String)
  | [], headerNames => return headerNames
  | p :: rest, headerNames => do resolveSubs rest (← p.resolveArmPattern headerNames)

end

end Pattern

/-- The headers after the first bind the names that the first binds. -/
def resolveHeaders (firstHeaderNames : List String) : List (Header T σ) → Except CompareError Unit
  | [] => return
  | h :: rest => do
    let headerNames ← h.pattern.resolveArmPattern []
    if headerNames.Perm firstHeaderNames then resolveHeaders firstHeaderNames rest
    else throw .differentNames

namespace MatchesArm

/-- `Arm.Bindings`: the names of the first header. -/
def bindings (arm : MatchesArm T σ) : List String :=
  match arm.headers with
  | [] => []
  | h :: _ => h.pattern.names

/-- `Resolver::visitCompare` of one arm. -/
def resolve (arm : MatchesArm T σ) : Except CompareError Unit :=
  match arm.headers with
  | [] => return
  | h :: rest => do resolveHeaders (← h.pattern.resolveArmPattern []) rest

end MatchesArm

/-! ### Expressions -/

namespace ConstantValue

/-- The declared type of an exported constant. -/
def type : ConstantValue → TurfType
  | int _ => .int
  | int32 _ => .int32
  | double _ => .double
  | bool _ => .bool
  | string _ => .string

/-- `CodegenConstantValue`. -/
def val : ConstantValue → Val
  | int value => .i64 (BitVec.ofInt 64 value)
  | int32 value => .i32 (BitVec.ofInt 32 value)
  | double value => .double value
  | bool value => .i1 value
  | string bytes => .str (cString bytes)

end ConstantValue

/-- What a duplicate header is recognised by. -/
inductive PatternKey
  | enum (variant : String)
  | int (digits : ℕ)
  | str (bytes : List (BitVec 8))
  deriving DecidableEq

namespace ValueExpr

/-- The type that `check` finds. -/
def type : ValueExpr T σ → TurfType
  | int _ => .int
  | char _ => .char
  | string _ => .string
  | bool _ => .bool
  | enumVariant leftName _ => .named leftName
  | moduleConstant _ value _ => value.type
  | other e => e.type

/-- What the Resolver asks of `E::V` as an enum variant. -/
def resolves : ValueExpr T σ → Bool
  | enumVariant leftName rightName =>
    match T.kind (.named leftName) with
    | .enum variants => rightName ∈ variants
    | _ => false
  | _ => true

/-- `isValuePatternShape`. -/
def isValuePatternShape : ValueExpr T σ → Bool
  | moduleConstant _ _ _ | other _ => false
  | _ => true

/-- `PatternKey` of `visitCompare`. -/
def patternKey : ValueExpr T σ → Option PatternKey
  | int (.digits value) => some (.int value)
  | string bytes => some (.str bytes)
  | enumVariant _ rightName | moduleConstant rightName _ _ => some (.enum rightName)
  | _ => none

/-- What the expression adds to `CoveredValues`. -/
def coveredValue : ValueExpr T σ → Option String
  | bool true => some "true"
  | bool false => some "false"
  | enumVariant _ rightName | moduleConstant rightName _ _ => some rightName
  | _ => none

end ValueExpr

/-! ### One pattern -/

/-- `ArmBindingTypes`, and an error raised. -/
abbrev Checker := StateT (List (String × TurfType)) (Except CompareError)

/-- An error raised unless a condition holds. -/
def demand (c : Prop) [Decidable c] (e : CompareError) : Checker Unit :=
  if c then return else throw e

/-- What was looked up, or an error raised. -/
def found {α : Type} (o : Option α) (e : CompareError) : Checker α :=
  match o with
  | some a => return a
  | none => throw e

/-- A struct pattern looks through a reference, and through `self`. -/
def throughReference (selfSubject : Bool) : TurfType → Checker TurfType
  | .nullableReference _ => throw .nullableReference
  | .reference p => return p
  | .pointer p => do
    demand selfSubject .rawPointer
    return p
  | τ => return τ

namespace Pattern

mutual

/-- `checkPattern`: whether the pattern matches every value. -/
def checkPattern : Pattern T σ → TurfType → Bool → Checker Bool
  | wildcard, _, _ => return true
  | binding name, τ, _ => do
    let bindingTypes ← get
    demand (bindingTypes.all fun b => b.1 ≠ name || b.2.getName = τ.getName) .bindingTypes
    set ((name, τ) :: bindingTypes)
    return true
  | struct typeSpelling fields hasRest, τ, selfSubject => do
    let valueTy ← throughReference selfSubject τ
    let st ← found (T.kind valueTy).struct? .notAStruct
    demand (st.name = typeSpelling) .anotherStruct
    let irrefutable ← checkFields st fields
    demand (hasRest || st.fields.all fun f => f.name ∈ fields.map Prod.fst) .missingFields
    return irrefutable
  | errorVariant leftName rightName subs hasParens hasRest, τ, _ => do
    let _ ← checkErrorVariant leftName rightName subs hasParens hasRest τ
    return false
  | value e, τ, _ => do
    demand e.isValuePatternShape .notAPattern
    demand e.resolves .unknownVariant
    demand (T.kind τ).isComparableFieldType .notComparable
    demand (τ.typesCompatible e.type) .fieldType
    return false

/-- The error-variant case of `checkPattern`: `FieldsIrrefutable`. -/
def checkErrorVariant (leftName rightName : String) (subs : List (Pattern T σ))
    (hasParens hasRest : Bool) (τ : TurfType) : Checker Bool := do
  demand ((T.kind τ).isAnyError || (T.kind τ).isUserError) .notAnError
  let variants ← found (T.errorVariants leftName) .unknownVariant
  let info ← found (variants.find? (·.name = rightName)) .unknownVariant
  demand ((T.kind τ).isAnyError || τ.getName = leftName) .anotherError
  demand (hasParens || info.fields.isEmpty) .payloadUnmentioned
  demand (!(hasParens && subs.isEmpty && !hasRest)) .emptyParentheses
  demand (subs.length ≤ info.fields.length) .tooManyFields
  demand (subs.length = info.fields.length ∨ !hasParens ∨ hasRest) .missingPayload
  checkSubs subs info.fields

def checkFields (st : StructType) : List (String × Pattern T σ) → Checker Bool
  | [] => return true
  | (name, p) :: rest => do
    let f ← found (st.fields.find? (·.name = name)) .unknownField
    demand f.isVisible .privateField
    let irrefutable ← p.checkPattern f.type false
    return irrefutable && (← checkFields st rest)

def checkSubs : List (Pattern T σ) → List (String × TurfType) → Checker Bool
  | p :: rest, (_, τ) :: fields => do
    let irrefutable ← p.checkPattern τ false
    return irrefutable && (← checkSubs rest fields)
  | _, _ => return true

end

end Pattern

/-! ### The compare -/

/-- What a header contributes: whether it takes every value, the value it covers, and what a
duplicate of it is recognised by. A header with a guard contributes nothing. -/
structure HeaderFacts where
  catchAll : Bool
  coveredValue : Option String
  patternKey : Option PatternKey

namespace CompareExpr

/-- One header of `TypeChecker::visitCompare`. The parser makes no binding of a whole header. -/
def checkHeader (node : CompareExpr T σ) (h : Header T σ) : Checker HeaderFacts := do
  match h.pattern with
  | .value e =>
    demand e.resolves .unknownVariant
    demand (node.subjectType.typesCompatible e.type) .subjectType
    return if h.guard.isSome then ⟨false, none, none⟩ else ⟨false, e.coveredValue, e.patternKey⟩
  | .errorVariant leftName rightName subs hasParens hasRest =>
    let fieldsIrrefutable ←
      Pattern.checkErrorVariant leftName rightName subs hasParens hasRest node.subjectType
    return ⟨false, if fieldsIrrefutable && h.guard.isNone then some rightName else none, none⟩
  | .binding _ => throw .notAPattern
  | p =>
    let irrefutable ← p.checkPattern node.subjectType node.selfSubject
    return ⟨irrefutable && h.guard.isNone, none, none⟩

/-- The headers of one arm. -/
def checkHeaders (node : CompareExpr T σ) : List (Header T σ) → Checker (List HeaderFacts)
  | [] => return []
  | h :: rest => do
    let facts ← node.checkHeader h
    return facts :: (← node.checkHeaders rest)

/-- The headers of every arm; each arm starts with no bindings. -/
def checkArms (node : CompareExpr T σ) :
    List (MatchesArm T σ) → Except CompareError (List HeaderFacts)
  | [] => return []
  | arm :: rest => do
    let (facts, _) ← (node.checkHeaders arm.headers).run []
    return facts ++ (← node.checkArms rest)

/-- `CoveredValues`. -/
def coveredValues (facts : List HeaderFacts) : List String := facts.filterMap (·.coveredValue)

/-- Step 4 of `visitCompare`: `Node.Exhaustive`. -/
def exhaustive (node : CompareExpr T σ) (facts : List HeaderFacts) : Except CompareError Bool :=
  let covered (names : List String) : Except CompareError Bool :=
    if names.all (· ∈ coveredValues facts) then return true else throw .notExhaustive
  if node.hasOtherBody then return false
  else if facts.any (·.catchAll) then return true
  else
    match T.kind node.subjectType with
    | .enum variants => covered variants
    | .bool => covered ["true", "false"]
    | .userError variants => covered (variants.map (·.name))
    | .anyError => throw .notExhaustive
    | _ => return false

/-- `TypeChecker::visitCompare`: `Node.Exhaustive`. -/
def visitCompare (node : CompareExpr T σ) : Except CompareError Bool := do
  let facts ← node.checkArms node.arms
  if (facts.filterMap (·.patternKey)).Nodup then node.exhaustive facts else throw .duplicate

end CompareExpr

end Compare

end TurfLang
