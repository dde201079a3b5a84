import TurfLang.Codegen.SymbolNames

/-!
# The functions of the LLVM module

The code generator walks the declarations twice, once for the prototypes and once for the bodies.
Which programs get through without a duplicate definition, with every symbol naming the function
it was computed for, is read off the words of the names.
-/

namespace TurfLang.Codegen

open TurfLang.Instantiate

variable {τ : Type*}

/-! ### Programs -/

/-- The functions of the runtime library that the code generator looks up. -/
def runtimeEntryPoints : List String :=
  ["turf_rt_abi_2_0", "turf_rt_alloc", "turf_rt_alloc_zeroed", "turf_rt_checked_free",
    "turf_rt_collect", "turf_rt_init", "turf_rt_is_gc_pointer", "turf_rt_panic", "turf_rt_pin",
    "turf_rt_realloc", "turf_rt_shutdown", "turf_rt_str_to_double", "turf_rt_str_to_int",
    "turf_rt_string_capacity", "turf_rt_unpin"]

/-- A lookup of an entry point, with the type it is created with if it is not there yet. -/
structure RuntimeLookup (τ : Type*) where
  name : String
  type : τ
  mem : name ∈ runtimeEntryPoints

/-- `extern fn`; the target of a forwarding wrapper, where there is one, is another name. -/
structure ExternDecl (τ : Type*) where
  name : String
  type : τ
  forwardTo : Option String

def ExternDecl.cNames (e : ExternDecl τ) : List String := e.name :: e.forwardTo.toList

/-- What the code generator walks: `τ` are the LLVM function types. -/
inductive Item (τ : Type*)
  | function (f : TurfFunction) (type : τ) (lookups : List (RuntimeLookup τ))
  | external (e : ExternDecl τ)

def Item.function? : Item τ → Option TurfFunction
  | .function f _ _ => some f
  | .external _ => none

def Item.cNames : Item τ → List String
  | .function _ _ _ => []
  | .external e => e.cNames

/-- The declarations of the main file and of its modules, in the order of the walk. -/
abbrev Program (τ : Type*) := List (Item τ)

/-- The function of a program at a position. -/
def Program.function? (p : Program τ) (i : ℕ) : Option TurfFunction := p[i]?.bind Item.function?

def Program.cNames (p : Program τ) : List String := p.flatMap Item.cNames

/-! ### The LLVM module -/

/-- A body: that of the function at a position, or a wrapper that forwards to a C function. -/
inductive Body
  | function (i : ℕ)
  | forwarder
  deriving DecidableEq

structure Entry (τ : Type*) where
  type : τ
  body : Option Body

abbrev LlvmModule (τ : Type*) := String → Option (Entry τ)

namespace LlvmModule

def body? (M : LlvmModule τ) (name : String) : Option Body := (M name).bind Entry.body

/-- `getFunction`, and `Function::Create` where that finds nothing. -/
def getOrCreate (M : LlvmModule τ) (name : String) (type : τ) : LlvmModule τ :=
  if (M name).isSome then M else Function.update M name (some ⟨type, none⟩)

def setBody (M : LlvmModule τ) (name : String) (b : Body) : LlvmModule τ :=
  Function.update M name ((M name).map fun entry => { entry with body := some b })

end LlvmModule

inductive CodegenError
  | duplicateDefinition (name : String)
  | conflictingExtern (name : String)
  deriving DecidableEq

/-- `FuncDefExprAST::codegen`. -/
def codegenFunction (protoOnly : Bool) (i : ℕ) (f : TurfFunction) (type : τ)
    (lookups : List (RuntimeLookup τ)) (M : LlvmModule τ) :
    Except CodegenError (LlvmModule τ) :=
  if (M.body? f.linkName).isSome then .error (.duplicateDefinition f.name)
  else if protoOnly then .ok (M.getOrCreate f.linkName type)
  else
    .ok (lookups.foldl (fun M l => M.getOrCreate l.name l.type)
      ((M.getOrCreate f.linkName type).setBody f.linkName (.function i)))

def ExternDecl.defineForwarder (e : ExternDecl τ) (M : LlvmModule τ) : LlvmModule τ :=
  match e.forwardTo with
  | none => M
  | some target => (M.getOrCreate target e.type).setBody e.name .forwarder

/-- `ExternFuncDeclExprAST::codegen`. -/
def codegenExtern [DecidableEq τ] (e : ExternDecl τ) (M : LlvmModule τ) :
    Except CodegenError (LlvmModule τ) :=
  match M e.name with
  | some entry =>
    if entry.type ≠ e.type then .error (.conflictingExtern e.name)
    else if entry.body.isNone then .ok (e.defineForwarder M)
    else .ok M
  | none => .ok (e.defineForwarder (M.getOrCreate e.name e.type))

def Item.codegen [DecidableEq τ] (protoOnly : Bool) (i : ℕ) (item : Item τ) (M : LlvmModule τ) :
    Except CodegenError (LlvmModule τ) :=
  match item with
  | .function f type lookups => codegenFunction protoOnly i f type lookups M
  | .external e => codegenExtern e M

/-- One walk over the declarations from a position on. -/
def pass [DecidableEq τ] (protoOnly : Bool) (i : ℕ) (items : List (Item τ)) (M : LlvmModule τ) :
    Except CodegenError (LlvmModule τ) :=
  match items with
  | [] => .ok M
  | item :: rest =>
    match item.codegen protoOnly i M with
    | .error e => .error e
    | .ok M' => pass protoOnly (i + 1) rest M'

/-- The prototypes, then the bodies. -/
def Program.codegen [DecidableEq τ] (p : Program τ) : Except CodegenError (LlvmModule τ) :=
  match pass true 0 p fun _ => none with
  | .error e => .error e
  | .ok M => pass false 0 p M

/-! ### What the operations do to the bodies -/

namespace LlvmModule

variable {M : LlvmModule τ}

@[simp] theorem body?_getOrCreate (name : String) (type : τ) :
    (M.getOrCreate name type).body? = M.body? := by
  funext other
  unfold getOrCreate body?
  split
  · rfl
  · rename_i hnone
    by_cases hother : other = name
    · subst hother
      rw [Function.update_self]
      simp only [Option.not_isSome_iff_eq_none] at hnone
      rw [hnone]
      rfl
    · rw [Function.update_of_ne hother]

theorem isSome_getOrCreate (name : String) (type : τ) :
    ((M.getOrCreate name type) name).isSome = true := by
  unfold getOrCreate
  split
  · assumption
  · rw [Function.update_self]
    rfl

theorem isSome_getOrCreate_of_isSome {name : String} (h : (M name).isSome = true) (other : String)
    (type : τ) : ((M.getOrCreate other type) name).isSome = true := by
  unfold getOrCreate
  split
  · exact h
  · by_cases hname : name = other
    · rw [hname, Function.update_self]
      rfl
    · rwa [Function.update_of_ne hname]

theorem body?_setBody {name : String} (h : (M name).isSome = true) (b : Body) :
    (M.setBody name b).body? = Function.update M.body? name (some b) := by
  funext other
  unfold setBody body?
  obtain ⟨entry, hentry⟩ := Option.isSome_iff_exists.mp h
  by_cases hother : other = name
  · subst hother
    rw [Function.update_self, Function.update_self, hentry]
    rfl
  · rw [Function.update_of_ne hother, Function.update_of_ne hother]

theorem body?_foldl_getOrCreate (lookups : List (RuntimeLookup τ)) (M : LlvmModule τ) :
    (lookups.foldl (fun M l => M.getOrCreate l.name l.type) M).body? = M.body? := by
  induction lookups generalizing M with
  | nil => rfl
  | cons l lookups ih => rw [List.foldl_cons, ih, body?_getOrCreate]

end LlvmModule

theorem body?_defineForwarder {e : ExternDecl τ} {M : LlvmModule τ}
    (h : (M e.name).isSome = true) :
    (e.defineForwarder M).body? = M.body? ∨
      (e.defineForwarder M).body? = Function.update M.body? e.name (some .forwarder) := by
  unfold ExternDecl.defineForwarder
  split
  · exact .inl rfl
  · rw [LlvmModule.body?_setBody (LlvmModule.isSome_getOrCreate_of_isSome h _ _),
      LlvmModule.body?_getOrCreate]
    exact .inr rfl

/-- An extern declaration gives at most its own name a body, and only one that has none. -/
theorem codegenExtern_ok [DecidableEq τ] {e : ExternDecl τ} {M M' : LlvmModule τ}
    (h : codegenExtern e M = .ok M') :
    M'.body? = M.body? ∨
      M.body? e.name = none ∧ M'.body? = Function.update M.body? e.name (some .forwarder) := by
  unfold codegenExtern at h
  cases hentry : M e.name with
  | none =>
    have hbody : M.body? e.name = none := by
      unfold LlvmModule.body?
      rw [hentry]
      rfl
    simp only [hentry, Except.ok.injEq] at h
    have hcases := body?_defineForwarder (LlvmModule.isSome_getOrCreate (M := M) e.name e.type)
    rw [h, LlvmModule.body?_getOrCreate] at hcases
    exact hcases.imp id fun hupdate => ⟨hbody, hupdate⟩
  | some entry =>
    simp only [hentry] at h
    split at h
    · cases h
    · split at h
      · rename_i hnone
        have hbody : M.body? e.name = none := by
          unfold LlvmModule.body?
          rw [hentry]
          exact Option.isNone_iff_eq_none.mp hnone
        have hcases := body?_defineForwarder (e := e) (M := M) (by rw [hentry]; rfl)
        rw [Except.ok.inj h] at hcases
        exact hcases.imp id fun hupdate => ⟨hbody, hupdate⟩
      · rw [Except.ok.inj h]
        exact .inl rfl

theorem codegenExtern_error [DecidableEq τ] {e : ExternDecl τ} {M : LlvmModule τ}
    {name : String} : codegenExtern e M ≠ .error (.duplicateDefinition name) := by
  unfold codegenExtern
  split
  · split
    · simp
    · split <;> simp
  · simp

theorem codegenFunction_prototype {i : ℕ} {f : TurfFunction} {type : τ}
    {lookups : List (RuntimeLookup τ)} {M : LlvmModule τ} (h : M.body? f.linkName = none) :
    codegenFunction true i f type lookups M = .ok (M.getOrCreate f.linkName type) := by
  simp [codegenFunction, h]

theorem codegenFunction_body {i : ℕ} {f : TurfFunction} {type : τ}
    {lookups : List (RuntimeLookup τ)} {M : LlvmModule τ} (h : M.body? f.linkName = none) :
    ∃ M', codegenFunction false i f type lookups M = .ok M' ∧
      M'.body? = Function.update M.body? f.linkName (some (.function i)) := by
  refine ⟨_, by simp only [codegenFunction, h, Option.isSome_none, Bool.false_eq_true, if_false]; rfl,
    ?_⟩
  rw [LlvmModule.body?_foldl_getOrCreate,
    LlvmModule.body?_setBody (LlvmModule.isSome_getOrCreate _ _), LlvmModule.body?_getOrCreate]

end TurfLang.Codegen
