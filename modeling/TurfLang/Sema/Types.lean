import Mathlib.Tactic

/-!
# `src/sema/Types.h`: the types of the checker

The class hierarchy under `TurfType` as one inductive type, with the virtual functions that
several passes ask: the printed name, the mangled name, the kind predicates and `isEquivalent`.
A struct is the name it has everywhere (`NamedType` or the `TurfStructType` it resolves to):
no function here looks at its fields.
-/

namespace TurfLang

/-- The size of an `ArrayType`: `T[]`, `T[N]` with a number, or `T[N]` with a size parameter. -/
inductive ArraySize
  | unsized
  | fixed (size : ℕ)
  | param (name : String)
  deriving DecidableEq

/-- `TurfType` and its subclasses. -/
inductive TurfType
  | int
  | int32
  | double
  | bool
  | char
  | string
  | anyError
  | void
  | guess
  | null
  | opaquePointer
  | named (name : String)
  | array (elementType : TurfType) (size : ArraySize)
  | pointer (pointee : TurfType)
  | reference (pointee : TurfType)
  | nullableReference (pointee : TurfType)
  | genericParam (name : String)
  | sizeValue (value : ℕ)
  | generic (baseName : String) (typeArgs : List TurfType)
  | enum (name : String) (underlyingType : TurfType)
  | machine (name : String)
  | userError (name : String)
  | errorUnion (successType : TurfType)
  | func (returnType : TurfType) (paramTypes : List TurfType)

namespace TurfType

def isArray : TurfType → Bool
  | .array _ _ => true
  | _ => false

/-- True of every kind of pointer, `ptr` included. -/
def isPointer : TurfType → Bool
  | .opaquePointer | .pointer _ | .reference _ | .nullableReference _ => true
  | _ => false

def isReference : TurfType → Bool
  | .reference _ => true
  | _ => false

def isNullableReference : TurfType → Bool
  | .nullableReference _ => true
  | _ => false

def isEnum : TurfType → Bool
  | .enum _ _ | .machine _ => true
  | _ => false

def isVoid : TurfType → Bool
  | .void => true
  | .named name => name = "void"
  | _ => false

def isString : TurfType → Bool
  | .string => true
  | _ => false

def isBool : TurfType → Bool
  | .bool => true
  | _ => false

def isNull : TurfType → Bool
  | .null => true
  | _ => false

def isNumeric : TurfType → Bool
  | .int | .int32 | .double => true
  | _ => false

/-- `dynamic_cast<const TurfPointerType *>(T)`, and its pointee. -/
def pointee? : TurfType → Option TurfType
  | .pointer p | .reference p | .nullableReference p => some p
  | _ => none

end TurfType

/-- One dimension of a printed array type. -/
def ArraySize.print : ArraySize → String
  | .unsized => "[]"
  | .fixed size => "[" ++ toString size ++ "]"
  | .param name => "[" ++ name ++ "]"

/-- The dimensions a walk down from an array has collected, after the name of its base; `none`
where the walk starts. -/
def withDims (base : String) : Option String → String
  | none => base
  | some dims => base ++ dims

/-- The same for a base that is put in parentheses before dimensions. -/
def withDimsParen (base : String) : Option String → String
  | none => base
  | some dims => "(" ++ base ++ ")" ++ dims

namespace TurfType

mutual

/-- `getName`, with the loop of `ArrayType::getName` that collects the dimensions outermost
first. -/
def printFrom : TurfType → Option String → String
  | .int, dims => withDims "int" dims
  | .int32, dims => withDims "int32" dims
  | .double, dims => withDims "double" dims
  | .bool, dims => withDims "bool" dims
  | .char, dims => withDims "char" dims
  | .string, dims => withDims "string" dims
  | .anyError, dims => withDims "<error>" dims
  | .void, dims => withDims "void" dims
  | .guess, dims => withDims "guess" dims
  | .null, dims => withDims "null" dims
  | .opaquePointer, dims => withDims "ptr" dims
  | .named name, dims => withDims name dims
  | .array e size, dims => printFrom e (some (dims.getD "" ++ size.print))
  | .pointer p, dims => withDims (printFrom p none ++ "*") dims
  | .reference p, dims =>
    withDimsParen (if p.isArray then "&(" ++ printFrom p none ++ ")" else "&" ++ printFrom p none)
      dims
  | .nullableReference p, dims =>
    withDimsParen
      (if p.isArray then "&?(" ++ printFrom p none ++ ")" else "&?" ++ printFrom p none) dims
  | .genericParam name, dims => withDims name dims
  | .sizeValue value, dims => withDims (toString value) dims
  | .generic base args, dims => withDims (base ++ "<" ++ printList args ++ ">") dims
  | .enum name _, dims => withDims name dims
  | .machine name, dims => withDims name dims
  | .userError name, dims => withDims name dims
  | .errorUnion success, dims => withDims ("!" ++ printFrom success none) dims
  | .func ret params, dims =>
    withDimsParen ("fn(" ++ printList params ++ "): " ++ printFrom ret none) dims

/-- Names with a comma between them. -/
def printList : List TurfType → String
  | [] => ""
  | [t] => printFrom t none
  | t :: t' :: ts => printFrom t none ++ ", " ++ printList (t' :: ts)

end

/-- `getName`: the type as it is written in source. -/
def getName (t : TurfType) : String := t.printFrom none

mutual

/-- `getMangledName`: the type as a part of a symbol's name. -/
def getMangledName : TurfType → String
  | .array e size =>
    e.getMangledName ++ "_arr_" ++
      match size with
      | .unsized => "-1"
      | .fixed size => toString size
      | .param name => name
  | .pointer p => p.getMangledName ++ "_ptr"
  | .reference p => p.getMangledName ++ "_ref"
  | .nullableReference p => p.getMangledName ++ "_nref"
  | .sizeValue value => "n" ++ toString value
  | .generic base args => base ++ mangleList args
  | .enum name underlying => name ++ "_enum_" ++ underlying.getMangledName
  | .machine name => name ++ "_machine"
  | .userError name => name ++ "_error"
  | .errorUnion success => "errunion_" ++ success.getMangledName
  | .func ret params => "fnty" ++ mangleList params ++ "_ret_" ++ ret.getMangledName
  | t => t.getName

/-- Every type of a list after an underscore. -/
def mangleList : List TurfType → String
  | [] => ""
  | t :: ts => "_" ++ t.getMangledName ++ mangleList ts

end

mutual

/-- `isEquivalent`: structural for arrays, function types and size values, by name for the
rest. -/
def isEquivalent : TurfType → TurfType → Bool
  | .array e size, other =>
    match other with
    | .array e' size' => size = size' && e.isEquivalent e'
    | _ => false
  | .sizeValue value, other =>
    match other with
    | .sizeValue value' => value = value'
    | _ => false
  | .func ret params, other =>
    match other with
    | .func ret' params' =>
      params.length = params'.length && allEquivalent params params' && ret.isEquivalent ret'
    | _ => false
  | t, other => t.getName = other.getName

/-- `isEquivalent`, position by position. -/
def allEquivalent : List TurfType → List TurfType → Bool
  | t :: ts, t' :: ts' => t.isEquivalent t' && allEquivalent ts ts'
  | _, _ => true

end

mutual

theorem isEquivalent_refl (t : TurfType) : t.isEquivalent t = true := by
  cases t with
  | array e size => simp [isEquivalent, isEquivalent_refl e]
  | func r ps => simp [isEquivalent, isEquivalent_refl r, allEquivalent_refl ps]
  | _ => simp [isEquivalent]

theorem allEquivalent_refl (ts : List TurfType) : allEquivalent ts ts = true := by
  match ts with
  | [] => rfl
  | t :: ts => rw [allEquivalent, isEquivalent_refl t, allEquivalent_refl ts]; rfl

end

end TurfType

end TurfLang
