import TurfLang.Lib.Descent
import Mathlib.Tactic

/-!
# `src/codegen/CodegenCore.cpp`: default values

`EmitDefaultValue` builds the default value of a type field by field and gives every `&` an
allocation of its own. The structs that are being built through `&` are on a stack, and an `&` to
one of them is error E147. The recursion has no bound in the source: here it has a depth, and
`none` is a recursion that is deeper.
-/

namespace TurfLang.DefaultValue

open Relation

variable {n : ℕ}

/-- A type, over `n` struct declarations. `named` is a `NamedType` or a `GenericType` under the
name of its instance; every other type that is no array, reference or struct is such a name. -/
inductive Ty (n : ℕ)
  | named (name : String)
  | struct (decl : Fin n)
  | reference (pointee : Ty n)
  | nullableReference (pointee : Ty n)
  | pointer (pointee : Ty n)
  | array (element : Ty n) (size : ℤ)
  deriving DecidableEq

/-- The registered structs. -/
structure Decls (n : ℕ) where
  name : Fin n → String
  fields : Fin n → List (Ty n)
  lookupType : String → Option (Fin n)

/-- A value: a constant of `GetDefaultValue`, an LLVM aggregate, or the address of an allocation
with the value that was stored there. -/
inductive Value (n : ℕ)
  | constant (type : Ty n)
  | aggregate (elements : List (Value n))
  | heap (site : ℕ) (stored : Value n)

/-- The report E147: the struct that has no default, and the one that reaches itself. -/
structure DefaultThroughReferenceCycle where
  defaulted : String
  reached : String

/-- `InProgress`, and the number of allocations so far. -/
structure Emitter (n : ℕ) where
  inProgress : List (Fin n)
  allocations : ℕ

/-- What a call gives, if the recursion ends. -/
abbrev Outcome (n : ℕ) (α : Type) :=
  Option (Except DefaultThroughReferenceCycle (α × Emitter n))

/-- Go on with the result, if there is one. -/
def Outcome.andThen {α β : Type} (r : Outcome n α) (f : α → Emitter n → Outcome n β) :
    Outcome n β :=
  match r with
  | none => none
  | some (.error e) => some (.error e)
  | some (.ok (a, s)) => f a s

namespace Decls

variable (d : Decls n)

/-- `defaultStructOf`. -/
def defaultStructOf : Ty n → Option (Fin n)
  | .struct i => some i
  | .named name => d.lookupType name
  | _ => none

end Decls

/-- Emit the parts of an aggregate one after the other. -/
def emitParts (emit : Ty n → Emitter n → Outcome n (Value n)) :
    List (Ty n) → Emitter n → Outcome n (List (Value n))
  | [], s => some (.ok ([], s))
  | T :: Ts, s =>
    (emit T s).andThen fun v s =>
      (emitParts emit Ts s).andThen fun vs s => some (.ok (v :: vs, s))

/-- `emitDefaultValueRec`, to a depth. -/
def emitDefaultValueRec (d : Decls n) : ℕ → Ty n → Emitter n → Outcome n (Value n)
  | 0, _, _ => none
  | depth + 1, .reference pointee, s =>
    match d.defaultStructOf pointee with
    | some i =>
      if i ∈ s.inProgress then
        some (.error ⟨(s.inProgress.head?.map d.name).getD "", d.name i⟩)
      else
        (emitDefaultValueRec d depth (.struct i)
          { s with inProgress := s.inProgress ++ [i] }).andThen fun v s =>
            some (.ok (.heap s.allocations v, ⟨s.inProgress.dropLast, s.allocations + 1⟩))
    | none =>
      (emitDefaultValueRec d depth pointee s).andThen fun v s =>
        some (.ok (.heap s.allocations v, { s with allocations := s.allocations + 1 }))
  | depth + 1, .array element size, s =>
    if size ≤ 0 then some (.ok (.constant (.array element size), s))
    else
      (emitParts (emitDefaultValueRec d depth) (List.replicate size.toNat element) s).andThen
        fun vs s => some (.ok (.aggregate vs, s))
  | depth + 1, T, s =>
    match d.defaultStructOf T with
    | some i =>
      let s := if s.inProgress = [] then { s with inProgress := [i] } else s
      (emitParts (emitDefaultValueRec d depth) (d.fields i) s).andThen
        fun vs s => some (.ok (.aggregate vs, s))
    | none => some (.ok (.constant T, s))

/-- `EmitDefaultValue`. -/
def emitDefaultValue (d : Decls n) (depth : ℕ) (T : Ty n) : Outcome n (Value n) :=
  emitDefaultValueRec d depth T ⟨[], 0⟩

/-! ### The graph of types -/

namespace Decls

variable (d : Decls n)

/-- The types whose defaults the default of a type is made of. -/
def parts : Ty n → List (Ty n)
  | .reference pointee => [pointee]
  | .array element size => if size ≤ 0 then [] else List.replicate size.toNat element
  | T => (d.defaultStructOf T).elim [] d.fields

/-- The default of `T` is made of one of `U`, at some depth. -/
def Reaches (T U : Ty n) : Prop := ReflTransGen (fun T U => U ∈ d.parts T) T U

/-- `U` lies in `T` itself, not behind an `&`. -/
def ByValue (T U : Ty n) : Prop := U ∈ d.parts T ∧ ∀ pointee, T ≠ .reference pointee

/-- No struct contains itself by value. -/
def NoValueCycle : Prop := ∀ T U i, d.defaultStructOf T = some i → d.defaultStructOf U = some i →
  ¬ TransGen d.ByValue T U

/-- `T` reaches a struct that reaches itself through an `&`. -/
def Cyclic (T : Ty n) : Prop := ∃ U pointee V i, d.Reaches T U ∧ d.defaultStructOf U = some i ∧
  d.Reaches U (.reference pointee) ∧ d.Reaches (.reference pointee) V ∧
  d.defaultStructOf V = some i

/-- An `&` whose pointee is a struct, and not an array, a pointer or another `&`. -/
def StructReference (T : Ty n) : Prop :=
  ∃ pointee i, T = .reference pointee ∧ d.defaultStructOf pointee = some i

open Classical in
/-- The first part of a type that reaches a struct which reaches itself through an `&`. -/
noncomputable def firstCyclic (T : Ty n) : Ty n :=
  ((d.parts T).find? fun U => d.Cyclic U).getD T

/-- The walk into the first cyclic part of a type, the first cyclic part of that, and so on comes
by an `&` to a struct again and again. -/
def Guarded (T : Ty n) : Prop :=
  d.Cyclic T → ∀ k, ∃ j, k ≤ j ∧ d.StructReference (d.firstCyclic^[j] T)

end Decls

/-- A type with parts of its own. -/
def Decls.IsAggregate (d : Decls n) (T : Ty n) : Prop :=
  (∃ i, d.defaultStructOf T = some i) ∨ ∃ element size, T = .array element size ∧ 0 < size

/-- The value is the default of the type, with an allocation for every `&`. -/
inductive Built (d : Decls n) : Ty n → Value n → Prop
  | reference {pointee : Ty n} {v : Value n} {site : ℕ} (h : Built d pointee v) :
      Built d (.reference pointee) (.heap site v)
  | aggregate {T : Ty n} {vs : List (Value n)} (hT : d.IsAggregate T)
      (h : List.Forall₂ (Built d) (d.parts T) vs) : Built d T (.aggregate vs)
  | constant {T : Ty n} (hT : ¬ d.IsAggregate T) (href : ∀ pointee, T ≠ .reference pointee) :
      Built d T (.constant T)

mutual
/-- The allocations of a value. -/
def Value.sites : Value n → List ℕ
  | .constant _ => []
  | .aggregate vs => Value.sitesAll vs
  | .heap site v => site :: v.sites
/-- The allocations of some values. -/
def Value.sitesAll : List (Value n) → List ℕ
  | [] => []
  | v :: vs => v.sites ++ Value.sitesAll vs
end

/-- Emission ends; it reports a cycle exactly when there is one, and otherwise every `&` has its
own allocation. -/
def Faithful (d : Decls n) (T : Ty n) : Prop :=
  ∃ depth r, emitDefaultValue d depth T = some r ∧
    ((∃ e, r = .error e) ↔ d.Cyclic T) ∧
    ∀ v s, r = .ok (v, s) → Built d T v ∧ v.sites.Nodup

end TurfLang.DefaultValue
