import TurfLang.Sema.Types

/-!
# `src/sema/Types.cpp`: implicit assignability

`typesCompatible From To` asks whether a value of `From` may stand where a `To` is expected, with
no cast. The rules are in the source's order: an open type parameter matches anything, then
arrays, pointers to an open parameter, generic structs, function types, equal names, null, opaque
pointers, the two reference widenings and the numeric widenings.
-/

namespace TurfLang

namespace TurfType

/-- `TypeWalk::containsOpenParam` in the scope `Bare`: the type itself is a parameter. -/
def containsOpenParam : TurfType → Bool
  | .genericParam _ => true
  | _ => false

mutual

/-- `referencePointeeGenericMatch`. -/
def referencePointeeGenericMatch (A B : TurfType) : Bool :=
  A.isEquivalent B || A.containsOpenParam || B.containsOpenParam ||
    match A, B with
    | .generic base args, .generic base' args' =>
      base = base' && args.length = args'.length && allPointeesMatch args args'
    | _, _ => false

def allPointeesMatch : List TurfType → List TurfType → Bool
  | a :: as, b :: bs => referencePointeeGenericMatch a b && allPointeesMatch as bs
  | _, _ => true

end

/-- `SizeOk`: whether an array of the first size may stand for one of the second. The sizes of
two symbolic arrays are the same number, whatever the parameters. -/
def sizeOk : ArraySize → ArraySize → Bool
  | _, .unsized => true
  | .fixed n, .fixed m => n = m
  | .fixed n, .param _ => 0 < n
  | .param _, .param _ => true
  | _, _ => false

/-- The array rule, reached when one of the two types is an array. -/
def arraysCompatible : TurfType → TurfType → Bool
  | .array fromElem fromSize, .array toElem toSize =>
    sizeOk fromSize toSize &&
      (fromElem.containsOpenParam || toElem.containsOpenParam || fromElem.isEquivalent toElem)
  | _, _ => false

/-- Two pointers, one of them to an open parameter. -/
def pointersToOpen (From To : TurfType) : Bool :=
  match From.pointee?, To.pointee? with
  | some p, some q => p.containsOpenParam || q.containsOpenParam
  | _, _ => false

/-- Type arguments position by position, an open parameter matching anything. -/
def argsCompatible : List TurfType → List TurfType → Bool
  | a :: as, b :: bs =>
    (a.containsOpenParam || b.containsOpenParam || a.isEquivalent b) && argsCompatible as bs
  | _, _ => true

/-- A generic struct and its bare name, or two instantiations of one generic struct. -/
def genericsCompatible : TurfType → TurfType → Bool
  | .generic base args, .generic base' args' =>
    base = base' && args.length = args'.length && argsCompatible args args'
  | .generic base _, To => base = To.getName
  | From, .generic base _ => base = From.getName
  | _, _ => false

/-- `isOpaquePtr`: `ptr`, or `void*` however it is built. -/
def isOpaquePtr (t : TurfType) : Bool := t.getName = "ptr" || t.getName = "void*"

/-- `isPointerLikeStrict`: what `null` may become. -/
def isPointerLikeStrict (t : TurfType) : Bool := (t.isPointer && !t.isReference) || t.isOpaquePtr

/-- Rule 2: `ptr` and `void*` become any pointer that is not a `&T`, and every pointer becomes
them. -/
def opaqueCompatible (From To : TurfType) : Bool :=
  (From.isOpaquePtr && To.isPointer && !To.isReference) || (To.isOpaquePtr && From.isPointer)

/-- Rules 2.5 and 2.6: `&T` becomes `T*` and `&?T`, and `&?T` becomes `T*`. -/
def referenceCompatible (From To : TurfType) : Bool :=
  match From, To.pointee? with
  | .reference p, some q => !To.isReference && referencePointeeGenericMatch p q
  | .nullableReference p, some q =>
    !To.isReference && !To.isNullableReference && referencePointeeGenericMatch p q
  | _, _ => false

/-- Rule 3: the numeric widenings. -/
def numericCompatible : TurfType → TurfType → Bool
  | .int, .double | .int32, .int | .int32, .double => true
  | _, _ => false

/-- The rules after the structural ones. -/
def scalarCompatible (From To : TurfType) : Bool :=
  if From.getName = To.getName then true
  else if From.isNull then To.isPointerLikeStrict
  else if To.isNull then From.isPointerLikeStrict
  else if From.opaqueCompatible To then true
  else if From.referenceCompatible To then true
  else if From.isVoid || To.isVoid then false
  else if From.isString || To.isString then false
  else if From.isEnum || To.isEnum then false
  else if From.isBool || To.isBool then false
  else From.isNumeric && To.isNumeric && From.numericCompatible To

mutual

/-- `typesCompatible`. -/
def typesCompatible (From To : TurfType) : Bool :=
  if From.containsOpenParam || To.containsOpenParam then true
  else if From.isArray || To.isArray then arraysCompatible From To
  else if pointersToOpen From To then true
  else if genericsCompatible From To then true
  else if
    (match From, To with
    | .func ret params, .func ret' params' =>
      params.length = params'.length && paramsCompatible params params' &&
        typesCompatible ret ret'
    | _, _ => false) then true
  else scalarCompatible From To

/-- The parameters of two function types, each `From`'s against `To`'s. -/
def paramsCompatible : List TurfType → List TurfType → Bool
  | p :: ps, q :: qs => typesCompatible p q && paramsCompatible ps qs
  | _, _ => true

end

end TurfType

end TurfLang
