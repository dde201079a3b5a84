import TurfLang.Sema.Patterns

/-!
# `compare`: which arm a value selects

The meaning of a compare in the order of its source: the headers of the arms one after another,
each with its guard, up to the first that matches and whose guard holds. A header that is an
expression is evaluated when its turn comes. When the checker has recorded the compare as
exhaustive, some arm is selected for every value of the subject's type.
-/

namespace TurfLang

namespace Compare

/-! ### What an expression is at run time -/

/-- Unary minus on a number, `none` for the panic of `EmitCheckedIntNegate`. -/
def negate (provenNoOverflow : Bool) : Val → Option Val
  | .i64 bits =>
    if !provenNoOverflow && bits = BitVec.intMin 64 then none else some (.i64 (-bits))
  | _ => none

/-- `UnaryExprAST::codegen` on a number. The check is a branch, so it is code. -/
def Lowered.negate {σ : Type} (provenNoOverflow : Bool) : Lowered σ → Lowered σ
  | const (.i64 bits) => if provenNoOverflow then const (.i64 (-bits)) else
      code fun s => (Compare.negate provenNoOverflow (.i64 bits)).map (·, s)
  | operand => code fun s => do
      let (v, s') ← operand.run s
      return (← Compare.negate provenNoOverflow v, s')

/-- `codegen` of an integer literal: a minus folds into the digits it stands before. -/
def IntLiteral.codegen {σ : Type} : IntLiteral → Lowered σ
  | digits value => .const (.i64 (BitVec.ofNat 64 value))
  | minus _ (digits value) => .const (.i64 (BitVec.ofInt 64 (-value)))
  | minus provenNoOverflow operand => operand.codegen.negate provenNoOverflow

variable {T : TypeTable} {σ : Type}

/-- `codegen` of an expression; the value of an enum variant is its position. -/
def ValueExpr.codegen : ValueExpr T σ → Lowered σ
  | int literal => literal.codegen
  | char c => .const (.i8 c)
  | string bytes => .const (.str (cString bytes))
  | bool val => .const (.i1 val)
  | enumVariant leftName rightName =>
    match T.kind (.named leftName) with
    | .enum variants => .const (.i64 (BitVec.ofNat 64 (variants.idxOf rightName)))
    | _ => .code fun _ => none
  | moduleConstant _ value _ => .const value.val
  | other e => e.lowered

/-! ### Typed values -/

/-- The values of a type. An error value is a variant of a declared error type with the payload it
declares; a reference leads to a value of the type it names. -/
inductive HasType (T : TypeTable) (typeAt : ℕ → TurfType) : Val → TurfType → Prop
  | int {τ bits} (h : T.kind τ = .int) : HasType T typeAt (.i64 bits) τ
  | int32 {τ bits} (h : T.kind τ = .int32) : HasType T typeAt (.i32 bits) τ
  | char {τ bits} (h : T.kind τ = .char) : HasType T typeAt (.i8 bits) τ
  | bool {τ bit} (h : T.kind τ = .bool) : HasType T typeAt (.i1 bit) τ
  | string {τ s} (h : T.kind τ = .string) : HasType T typeAt (.str s) τ
  | double {τ x} (h : T.kind τ = .double) : HasType T typeAt (.double x) τ
  | enum {τ bits variants} (h : T.kind τ = .enum variants) (hbits : bits.toNat < variants.length) :
    HasType T typeAt (.i64 bits) τ
  | error {τ a E V variants info payload} (h : T.kind τ = .anyError ∨ T.kind τ = .userError variants ∧ τ.getName = E)
    (hE : T.errorVariants E = some variants) (hV : variants.find? (·.name = V) = some info)
    (hlen : payload.length = info.fields.length)
    (hfields : ∀ p ∈ info.fields.zip payload, HasType T typeAt p.2 p.1.2) :
    HasType T typeAt (.error a E V payload) τ
  | struct {τ st fields} (h : T.kind τ = .struct st) (hlen : fields.length = st.fields.length)
    (hnames : ∀ p ∈ st.fields.zip fields, p.1.name = p.2.1)
    (hfields : ∀ p ∈ st.fields.zip fields, HasType T typeAt p.2.2 p.1.type) :
    HasType T typeAt (.struct fields) τ
  | reference {τ a p} (h : T.kind τ = .reference p) (ha : typeAt a = p) :
    HasType T typeAt (.ref a) τ
  | other {τ v} (h : T.kind τ = .other) : HasType T typeAt v τ

/-- The memory in each state of the program: what is at an address has the address's type. -/
structure Heap (T : TypeTable) (σ : Type) where
  load : σ → ℕ → Val
  typeAt : ℕ → TurfType
  typed : ∀ s a, HasType T typeAt (load s a) (typeAt a)

/-! ### Matching -/

namespace Val

/-- The number that a value is. A char is its byte. -/
def number : Val → Option ℚ
  | i64 bits => some bits.toInt
  | i32 bits => some bits.toInt
  | i8 bits => some bits.toNat
  | i1 bit => some bit.toNat
  | double x => x
  | _ => none

/-- Equality: strings by their bytes, errors by their variant, the rest as numbers. -/
def sameAs : Val → Val → Bool
  | str s, str t => s = t
  | error _ E V _, error _ E' V' _ => E = E' && V = V'
  | v, w =>
    match v.number, w.number with
    | some m, some n => m = n
    | _, _ => false

/-- A field by its name. -/
def field : Val → String → Option Val
  | struct fields, name => fields.lookup name
  | _, _ => none

end Val

/-- What a struct pattern looks at: the struct behind a reference. -/
def Heap.deref (H : Heap T σ) (s : σ) : Val → Val
  | .ref a => H.load s a
  | v => v

section

variable (H : Heap T σ)

mutual

/-- Whether a pattern matches a value, with its bindings; `none` if a literal in it panics. The
expressions inside a pattern are literals and do not change the state. -/
def matchPattern (s : σ) : Pattern T σ → Val → Option (Option (List (String × Val)))
  | .wildcard, _ => some (some [])
  | .binding name, v => some (some [(name, v)])
  | .struct _ fields _, v => matchFields s fields (H.deref s v)
  | .errorVariant leftName rightName subs _ _, v =>
    match v with
    | .error _ E V payload =>
      if E = leftName ∧ V = rightName then matchSubs s subs payload else some none
    | _ => some none
  | .value e, v => do
    let (w, _) ← e.codegen.run s
    return if v.sameAs w then some [] else none

def matchFields (s : σ) : List (String × Pattern T σ) → Val → Option (Option (List (String × Val)))
  | [], _ => some (some [])
  | (name, p) :: rest, v =>
    match v.field name with
    | none => some none
    | some w => do
      match ← matchPattern s p w with
      | none => return none
      | some bindings => return (← matchFields s rest v).map (bindings ++ ·)

def matchSubs (s : σ) : List (Pattern T σ) → List Val → Option (Option (List (String × Val)))
  | p :: rest, v :: vs => do
    match ← matchPattern s p v with
    | none => return none
    | some bindings => return (← matchSubs s rest vs).map (bindings ++ ·)
  | [], _ => some (some [])
  | _ :: _, [] => some none

end

/-- The pattern of a header; an expression is evaluated, and may change the state. -/
def matchHeaderPattern (p : Pattern T σ) (v : Val) (s : σ) :
    Option (Option (List (String × Val)) × σ) :=
  match p with
  | .value e => do
    let (w, s') ← e.codegen.run s
    return (if v.sameAs w then some [] else none, s')
  | p => (matchPattern H s p v).map (·, s)

/-- The bindings by name. -/
def envOf (bindings : List (String × Val)) : Env := fun name => bindings.lookup name

/-- A header: its pattern, then its guard. -/
def tryHeader (h : Header T σ) (v : Val) (s : σ) : Option (Option Env × σ) := do
  match ← matchHeaderPattern H h.pattern v s with
  | (none, s') => return (none, s')
  | (some bindings, s') =>
    match h.guard with
    | none => return (some (envOf bindings), s')
    | some guard =>
      let (holds, s'') ← guard (envOf bindings) s'
      return (if holds then some (envOf bindings) else none, s'')

/-- The headers of one arm. -/
def tryHeaders : List (Header T σ) → Val → σ → Option (Option Env × σ)
  | [], _, s => some (none, s)
  | h :: rest, v, s => do
    match ← tryHeader H h v s with
    | (some env, s') => return (some env, s')
    | (none, s') => tryHeaders rest v s'

end

/-- The body that runs, with the bindings it sees. -/
inductive Choice
  | arm (i : ℕ) (env : Env)
  | otherBody
  | noArm

/-- The arms from the `i`th on. -/
def selectFrom (H : Heap T σ) (hasOtherBody : Bool) :
    ℕ → List (MatchesArm T σ) → Val → σ → Option (Choice × σ)
  | _, [], _, s => some (if hasOtherBody then .otherBody else .noArm, s)
  | i, arm :: rest, v, s => do
    match ← tryHeaders H arm.headers v s with
    | (some env, s') => return (.arm i env, s')
    | (none, s') => selectFrom H hasOtherBody (i + 1) rest v s'

/-- The first arm in source order that a value selects. -/
def CompareExpr.select (H : Heap T σ) (node : CompareExpr T σ) (v : Val) (s : σ) :
    Option (Choice × σ) :=
  selectFrom H node.hasOtherBody 0 node.arms v s

end Compare

end TurfLang
