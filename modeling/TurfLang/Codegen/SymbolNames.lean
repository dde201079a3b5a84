import TurfLang.Sema.InstanceNames

/-!
# Linker names of functions

`FuncDefExprAST::codegen` names the function it emits after the module it is in, its own name
and the mangled types of its parameters; `ResolverFunctionSymbol::mangledName` computes the name
again for a call, and a constructor call without a clone puts it together a third time. The
names index the functions of the LLVM module: a prototype is created for the first function of a
name and found for the next one, and a body can be given once.
-/

namespace TurfLang.Codegen

open TurfLang.Instantiate

/-! ### Names -/

structure Param where
  name : String
  type : TurfType

/-- `ResolverFunctionSymbol`. -/
structure FunctionSymbol where
  baseName : String
  sourceModule : String
  params : List Param
  isExtern : Bool := false

def modulePrefix (module : String) : String := if module = "" then "" else module ++ "_"

def mangledParams (params : List Param) : String := TurfType.mangleList (params.map Param.type)

def FunctionSymbol.mangledName (s : FunctionSymbol) : String :=
  if s.baseName = "main" then "main"
  else if s.isExtern then s.baseName
  else
    "turf_" ++ modulePrefix s.sourceModule ++ sanitizeSymbolName s.baseName ++
      mangledParams s.params

/-- The name `FuncDefExprAST::codegen` gives to a function, in a module or, without one, at the
top level. -/
def definitionName (currentModule name : String) (params : List Param) : String :=
  if name ≠ "main" then
    "turf_" ++ modulePrefix currentModule ++ sanitizeSymbolName name ++ mangledParams params
  else modulePrefix currentModule ++ name

/-- `CtorMangledName` of a call `structName::new(...)`: the symbol of a clone has the parameter
`self`, that of a declared constructor has lost it. -/
def constructorName (structName : String) (target : FunctionSymbol) : String :=
  if target.params.head?.any (·.name = "self") then target.mangledName
  else
    "turf_" ++ modulePrefix target.sourceModule ++ target.baseName ++ ("_" ++ structName ++ "_ptr") ++
      mangledParams target.params

/-! ### Functions -/

/-- A function that is not generic. The receiver of a method is the identity of its struct; an
instance method cannot have a second parameter `self`. -/
structure Declaration where
  sourceModule : String
  receiver : Option String
  spelling : String
  isStatic : Bool
  written : List Param
  self_unique : receiver.isSome = true → isStatic = false → ∀ p ∈ written, p.name ≠ "self"

def Declaration.name (d : Declaration) : String :=
  match d.receiver with
  | none => d.spelling
  | some structName => structName ++ "." ++ d.spelling

def Declaration.params (d : Declaration) : List Param :=
  match d.receiver, d.isStatic with
  | some structName, false => ⟨"self", .pointer (.named structName)⟩ :: d.written
  | _, _ => d.written

/-- A clone of a generic function, method or constructor. -/
structure Clone where
  request : InstantiationRequest
  params : List Param

/-- A function that is given a body. -/
inductive TurfFunction
  | declared (d : Declaration)
  | clone (c : Clone)

namespace TurfFunction

def name : TurfFunction → String
  | .declared d => d.name
  | .clone c => c.request.cloneName

def params : TurfFunction → List Param
  | .declared d => d.params
  | .clone c => c.params

/-- The module whose body is being emitted when the function is: a clone stands at the top level,
and its symbol's module is cleared. -/
def module : TurfFunction → String
  | .declared d => d.sourceModule
  | .clone _ => ""

/-- `buildFunctionSymbol`. -/
def symbol (f : TurfFunction) : FunctionSymbol where
  baseName := f.name
  sourceModule := f.module
  params := f.params

def linkName (f : TurfFunction) : String := definitionName f.module f.name f.params

def IsConstructor (structName : String) : TurfFunction → Prop
  | .declared d => d.receiver = some structName ∧ d.spelling = "new" ∧ d.isStatic = false
  | .clone c =>
    c.request.declKey = structName ++ ".new" ∧ ∃ type rest, c.params = ⟨"self", type⟩ :: rest

/-- The target of a constructor call: `stripSelf` of a declared constructor, the clone's own
symbol otherwise. -/
def constructorTarget (f : TurfFunction) : FunctionSymbol :=
  match f with
  | .declared _ => { f.symbol with params := f.params.tail }
  | .clone _ => f.symbol

end TurfFunction

/-! ### The names that are computed twice -/

theorem mangledName_symbol {f : TurfFunction} (h : f.name = "main" → f.module = "") :
    f.symbol.mangledName = f.linkName := by
  unfold FunctionSymbol.mangledName TurfFunction.linkName definitionName TurfFunction.symbol
  by_cases hmain : f.name = "main"
  · simp [hmain, h hmain, modulePrefix]
  · simp [hmain]

theorem mangledName_symbol_ne {f : TurfFunction} (hname : f.name = "main") (h : f.module ≠ "") :
    f.symbol.mangledName ≠ f.linkName := by
  intro heq
  have hlength := congrArg String.length heq
  simp [FunctionSymbol.mangledName, TurfFunction.linkName, definitionName, TurfFunction.symbol,
    hname, modulePrefix, h] at hlength

theorem sanitizeSymbolName_of_dot {name : String} (h : '.' ∈ name.toList) :
    sanitizeSymbolName name = name := by
  have hno : operatorSymbols.all (fun entry => !entry.1.toList.contains '.') = true := by decide
  unfold sanitizeSymbolName
  rw [List.lookup_eq_none_iff.mpr, Option.getD_none]
  intro entry hentry
  have hentry := List.all_eq_true.mp hno entry hentry
  rw [bne_iff_ne]
  rintro rfl
  simp [h] at hentry

/-- A constructor call computes the name of the constructor. -/
theorem constructorName_eq {structName : String} {f : TurfFunction}
    (hctor : f.IsConstructor structName) (h : f.name = "main" → f.module = "") :
    constructorName structName f.constructorTarget = f.linkName := by
  cases f with
  | clone c =>
    obtain ⟨-, type, rest, hparams⟩ := hctor
    rw [← mangledName_symbol h]
    unfold constructorName
    rw [if_pos]
    · rfl
    · simp [TurfFunction.constructorTarget, TurfFunction.symbol, TurfFunction.params, hparams]
  | declared d =>
    obtain ⟨hreceiver, hspelling, hstatic⟩ := hctor
    have hparams : d.params = ⟨"self", .pointer (.named structName)⟩ :: d.written := by
      unfold Declaration.params
      rw [hreceiver, hstatic]
    have hdot : '.' ∈ d.name.toList := by
      simp [Declaration.name, hreceiver]
    have hmain : d.name ≠ "main" := by
      intro heq
      rw [heq] at hdot
      exact absurd hdot (by decide)
    have hself : ¬(d.written.head?.any (fun p => decide (p.name = "self"))) = true := by
      cases hwritten : d.written with
      | nil => simp
      | cons p rest =>
        have hp := d.self_unique (by rw [hreceiver]; rfl) hstatic p (by simp [hwritten])
        simp [hp]
    unfold constructorName TurfFunction.linkName definitionName TurfFunction.constructorTarget
      TurfFunction.symbol TurfFunction.params TurfFunction.name TurfFunction.module
    simp only [hparams, List.tail_cons, hself, hmain, ne_eq, not_false_eq_true, if_true,
      sanitizeSymbolName_of_dot hdot, Bool.false_eq_true, if_false]
    simp [mangledParams, TurfType.mangleList, TurfType.getMangledName, TurfType.getName,
      TurfType.printFrom, withDims, String.append_assoc]

end TurfLang.Codegen
