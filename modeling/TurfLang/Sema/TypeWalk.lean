import TurfLang.Sema.Types

/-!
# `TypeWalk.cpp`: substitution and unification

The walks over types that generic code shares: replace the parameters of a type, find the types
that make a declared type a given one, and list the parameters of a declared type.
-/

namespace TurfLang.TypeWalk

/-- `SubstMap`: a name has the type of its first entry. -/
abbrev SubstMap := List (String × TurfType)

/-- `emplace`: a name that has an entry keeps it. -/
def emplace (s : SubstMap) (name : String) (t : TurfType) : SubstMap :=
  if (s.lookup name).isSome then s else (name, t) :: s

/-- The size of an array when its size parameter is bound. -/
def substituteSize (s : SubstMap) : ArraySize → ArraySize
  | .param name =>
    match s.lookup name with
    | some (.sizeValue value) => .fixed value
    | _ => .param name
  | size => size

section

variable (isResolvedIdentity : String → Bool)

mutual

/-- `substitute`. A named type is replaced as well, unless it names a real type. -/
def substitute (s : SubstMap) : TurfType → TurfType
  | .genericParam name => (s.lookup name).getD (.genericParam name)
  | .named name =>
    if isResolvedIdentity name then .named name else (s.lookup name).getD (.named name)
  | .reference p => .reference (substitute s p)
  | .nullableReference p => .nullableReference (substitute s p)
  | .pointer p => .pointer (substitute s p)
  | .array e size => .array (substitute s e) (substituteSize s size)
  | .generic base args => .generic base (substituteList s args)
  | .errorUnion success => .errorUnion (substitute s success)
  | .func ret params => .func (substitute s ret) (substituteList s params)
  | t => t

/-- `substitute` on every type of a list. -/
def substituteList (s : SubstMap) : List TurfType → List TurfType
  | [] => []
  | t :: ts => substitute s t :: substituteList s ts

end

end

/-- What `unify` binds for the size of an array. -/
def bindSize (pattern concrete : ArraySize) (s : SubstMap) : SubstMap :=
  match pattern, concrete with
  | .param name, .fixed size => if 0 < size then emplace s name (.sizeValue size) else s
  | _, _ => s

mutual

/-- `unify`. -/
def unify : TurfType → TurfType → SubstMap → SubstMap
  | .genericParam name, concrete, s => emplace s name concrete
  | .pointer p, concrete, s | .reference p, concrete, s | .nullableReference p, concrete, s =>
    match concrete.pointee? with
    | some q => unify p q s
    | none => s
  | .array e size, concrete, s =>
    match concrete with
    | .array e' size' => unify e e' (bindSize size size' s)
    | _ => s
  | .generic _ args, concrete, s =>
    match concrete with
    | .generic _ args' => unifyList args args' s
    | _ => s
  | .func ret params, concrete, s =>
    match concrete with
    | .func ret' params' => unify ret ret' (unifyList params params' s)
    | _ => s
  | _, _, s => s

/-- `unify`, position by position. -/
def unifyList : List TurfType → List TurfType → SubstMap → SubstMap
  | t :: ts, t' :: ts', s => unifyList ts ts' (unify t t' s)
  | _, _, s => s

end

/-- Add a name at the end of the order, unless it is there. -/
def pushName (order : List String) (name : String) : List String :=
  if name ∈ order then order else order ++ [name]

mutual

/-- `collectParamOrder`. -/
def collectParamOrder : TurfType → List String → List String
  | .genericParam name, order => pushName order name
  | .pointer p, order | .reference p, order | .nullableReference p, order =>
    collectParamOrder p order
  | .array e size, order =>
    match size with
    | .param name => pushName (collectParamOrder e order) name
    | _ => collectParamOrder e order
  | .generic _ args, order => collectParamOrderList args order
  | .func ret params, order => collectParamOrder ret (collectParamOrderList params order)
  | _, order => order

/-- `collectParamOrder` on every type of a list. -/
def collectParamOrderList : List TurfType → List String → List String
  | [], order => order
  | t :: ts, order => collectParamOrderList ts (collectParamOrder t order)

end

end TurfLang.TypeWalk
