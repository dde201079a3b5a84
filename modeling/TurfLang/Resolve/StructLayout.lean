import TurfLang.Lib.ColourSearch
import TurfLang.Sema.InstanceNames
import TurfLang.Sema.TypeWalkInverse

/-!
# `ResolverCore.cpp`, `Monomorphize.cpp`: structs that contain themselves

A struct that contains itself by value has no finite layout. The Resolver looks for such structs
among the declarations as they are written, and `drainStructRequests` once more for each clone it
makes, in the declarations and that one clone. Both follow the head a field type is written with;
what a type holds by value is what its head stands for after the arguments were put in.
-/

namespace TurfLang.StructLayout

open ColourSearch Relation TypeWalk
open Instantiate (SourceLocation instantiatedDeclName)

/-! ### The search -/

structure StructField where
  name : String
  type : TurfType
  nameLoc : SourceLocation := ⟨"", 0, 0⟩

structure StructDecl where
  name : String
  typeParams : List String := []
  fields : List StructField
  loc : SourceLocation := ⟨"", 0, 0⟩

abbrev KnownStructs := String → Option StructDecl

/-- The map from names to declarations; of two declarations of one name, the later is kept. -/
def byName (decls : List StructDecl) : KnownStructs :=
  fun name => decls.reverse.find? fun decl => decl.name = name

def byValueEdgeTarget (known : KnownStructs) : TurfType → Option String
  | .array e _ => byValueEdgeTarget known e
  | .generic base args =>
    let mangled := instantiatedDeclName base args ""
    if (known mangled).isSome then some mangled
    else if (known base).isSome then some base
    else none
  | .named name => if (known name).isSome then some name else none
  -- pointers and references among them
  | _ => none

def findField (decl : StructDecl) (fieldName : String) : Option StructField :=
  decl.fields.find? fun field => field.name = fieldName

structure StructLayoutCycleError where
  loc : SourceLocation
  structName : String
  cyclePath : List String
  related : List (SourceLocation × String)

/-- The note about one field on a cycle. -/
def fieldNote (structName : String) (field : StructField) : SourceLocation × String :=
  (field.nameLoc,
    "field '" ++ structName ++ "::" ++ field.name ++ "' has type '" ++ field.type.getName ++ "'")

/-- The error about a path that has come round. -/
def cycleError (known : KnownStructs) (round : Round String StructField) :
    StructLayoutCycleError where
  loc := ((known round.target).map (·.loc)).getD ⟨"", 0, 0⟩
  structName := round.target
  cyclePath := round.path.drop (round.path.idxOf round.target) ++ [round.target]
  related :=
    ((round.path.zip round.labels).drop (round.path.idxOf round.target)).filterMap (fun step =>
      (known step.1).bind fun decl => (findField decl step.2.name).map (fieldNote step.1)) ++
    [fieldNote (round.path.getLastD "") round.closing]

/-- The fields of a struct that are edges, with the structs they lead to. -/
def edges (known : KnownStructs) (name : String) : List (StructField × String) :=
  match known name with
  | none => []
  | some decl =>
    decl.fields.filterMap fun field => (byValueEdgeTarget known field.type).map (field, ·)

inductive LayoutStop
  | cycle (error : StructLayoutCycleError)
  | outOfFuel

/-- `detectStructLayoutCycles`; raising the error ends the compilation. -/
def detectStructLayoutCycles (decls : List StructDecl) (startNames : List String) :
    Except LayoutStop Unit :=
  match search (edges (byName decls)) decls.length startNames fun _ => none with
  | .ok _ => .ok ()
  | .error (.round round) => .error (.cycle (cycleError (byName decls) round))
  | .error .outOfFuel => .error .outOfFuel

/-! ### Declarations and clones -/

/-- The struct declarations of a program: those at file level, which are hoisted, and those in
functions. -/
structure Program where
  hoisted : List StructDecl
  locals : List StructDecl := []

def checkStructLayoutAcyclicity (p : Program) : Except LayoutStop Unit :=
  detectStructLayoutCycles p.hoisted (p.hoisted.map (·.name))

/-- No name a declaration's parameter can have is a resolved one. -/
def substituteFields (s : SubstMap) (fields : List StructField) : List StructField :=
  fields.map fun field => { field with type := substitute (fun _ => false) s field.type }

/-- `visitStructDecl`: the parameters in the field types are marked as such. -/
def StructDecl.resolve (decl : StructDecl) : StructDecl :=
  { decl with
    fields := substituteFields (decl.typeParams.map fun T => (T, .genericParam T)) decl.fields }

/-- The types for the parameters of a declaration; a later one of the same name counts. -/
def StructDecl.subst (decl : StructDecl) (typeArgs : List TurfType) : SubstMap :=
  (decl.typeParams.zip typeArgs).reverse

/-- `buildStructDeclRegistry`. -/
def Program.structDeclRegistry (p : Program) : KnownStructs :=
  byName ((p.hoisted.filter fun decl => !decl.typeParams.isEmpty).map (·.resolve))

/-- A request of the collector for an instantiation, with the template it is for. -/
structure StructRequest (p : Program) where
  declKey : String
  typeArgs : List TurfType
  template : StructDecl
  found : p.structDeclRegistry declKey = some template

variable {p : Program}

/-- The clone `drainStructRequests` makes. -/
def StructRequest.clone (r : StructRequest p) : StructDecl where
  name := instantiatedDeclName r.declKey r.typeArgs ""
  fields := substituteFields (r.template.subst r.typeArgs) r.template.fields
  loc := r.template.loc

/-- The declarations as they are after they were resolved, with one clone. -/
def Program.withClone (p : Program) (clone : StructDecl) : List StructDecl :=
  p.hoisted.map (·.resolve) ++ [clone]

def checkStructLayoutAcyclicityForClone (p : Program) (clone : StructDecl) :
    Except LayoutStop Unit :=
  detectStructLayoutCycles (p.withClone clone) [clone.name]

/-- The layout checks of `drainStructRequests`, in the order it takes the requests. -/
def drainStructRequests : List (StructRequest p) → Except LayoutStop Unit
  | [] => .ok ()
  | r :: requests => do
    checkStructLayoutAcyclicityForClone p r.clone
    drainStructRequests requests

/-- All layout checks of a compilation. -/
def layoutChecks (requests : List (StructRequest p)) : Except LayoutStop Unit := do
  checkStructLayoutAcyclicity p
  drainStructRequests requests

/-! ### What a type holds -/

/-- A declaration with arguments for its parameters, by its name. -/
abbrev Instance := String × List TurfType

/-- The struct a type is written as, or an array of. -/
def spelled : TurfType → Option Instance
  | .array e _ => spelled e
  | .generic base args => some (base, args)
  | .named name => some (name, [])
  | _ => none

def Program.declared (p : Program) : KnownStructs :=
  byName ((p.hoisted ++ p.locals).map (·.resolve))

/-- The types of the fields of an instance. -/
def Program.fieldTypes (p : Program) (x : Instance) : List TurfType :=
  match p.declared x.1 with
  | none => []
  | some decl => (substituteFields (decl.subst x.2) decl.fields).map (·.type)

/-- A field of `x` is a `y`, or an array of them. -/
def Program.Holds (p : Program) (x y : Instance) : Prop :=
  (p.declared y.1).isSome ∧ ∃ t ∈ p.fieldTypes x, spelled t = some y

/-- Whatever is held in an instance, in what that holds, and so on: it comes to an end. -/
def Program.HasLayout (p : Program) (x : Instance) : Prop := Acc (fun y x => p.Holds x y) x

/-- What has to have a layout: each struct, with its parameters left as they are, and each
instantiation. -/
def instances (requests : List (StructRequest p)) : List Instance :=
  (p.hoisted ++ p.locals).map (fun decl => (decl.name, [])) ++
    requests.map fun r => (r.declKey, r.typeArgs)

/-- Some struct or instantiation contains itself by value. -/
def Unlayoutable (requests : List (StructRequest p)) : Prop :=
  ∃ x ∈ instances requests, ¬p.HasLayout x

/-- A check raises the error. -/
def Raises (check : Except LayoutStop Unit) : Prop := ∃ error, check = .error (.cycle error)

/-- In whatever order the requests are taken, the checks end, and they raise the error exactly if
some struct or instantiation contains itself by value. -/
def ReportsExactly (requests : List (StructRequest p)) : Prop :=
  ∀ order, order.Perm requests → layoutChecks order ≠ .error .outOfFuel ∧
    (Raises (layoutChecks order) ↔ Unlayoutable requests)

end TurfLang.StructLayout
