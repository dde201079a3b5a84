import TurfLang.Analysis.Fingerprint

/-!
# `Lint.cpp`: comparisons with oneself

`LintBinaryExpr` reports a comparison whose operands have one fingerprint, and says what its result
always is. The warning excepts NaN from `==` and `!=`; `<=` and `>=` are said to be true.
-/

namespace TurfLang

namespace Fingerprint

/-! ### The lint -/

inductive CompareOp
  | eq
  | ne
  | lt
  | gt
  | le
  | ge
  deriving DecidableEq

namespace CompareOp

/-- The token of an operator. -/
def code : CompareOp → ℤ
  | eq => -9
  | ne => -10
  | le => -11
  | ge => -12
  | lt => '<'.toNat
  | gt => '>'.toNat

def ofCode (op : ℤ) : Option CompareOp :=
  [eq, ne, lt, gt, le, ge].find? fun c => c.code = op

@[simp] theorem ofCode_code (c : CompareOp) : ofCode c.code = some c := by
  cases c <;> rfl

/-- The result that the warning states. -/
def stated : CompareOp → Bool
  | eq | le | ge => true
  | ne | lt | gt => false

/-- Whether the warning excepts NaN. -/
def exceptsNaN : CompareOp → Bool
  | eq | ne => true
  | lt | gt | le | ge => false

end CompareOp

def Expr.isBool : Expr → Bool
  | .bool _ => true
  | _ => false

/-- A `SelfComparisonWarning`: what is compared, and the stated result. -/
structure SelfComparisonWarning where
  readableName : Text
  result : String
  deriving DecidableEq

/-- The name that is read off a fingerprint. -/
def readableName (fp : Text) : Text :=
  if fp.take 4 ∈ ["var:".toList, "int:".toList, "dbl:".toList, "str:".toList] then fp.drop 4
  else if fp.take 5 = "bool:".toList then fp.drop 5
  else fp

/-- What `LintBinaryExpr` says of a comparison with oneself. A comparison with `true` or `false` has
already been reported. -/
def lintSelfComparison (op : ℤ) (lhs rhs : Expr) : Option SelfComparisonWarning :=
  match CompareOp.ofCode op with
  | none => none
  | some c =>
    if lhs.fingerprint = rhs.fingerprint ∧ ¬ (c.exceptsNaN && (lhs.isBool || rhs.isBool)) then
      some {
        readableName := readableName lhs.fingerprint
        result := (if c.stated then "true" else "false") ++
          if c.exceptsNaN then " (unless the value can be NaN)" else "" }
    else none

/-! ### Comparing values -/

/-- The values that built-in comparisons take. An enum is an `int`; an error is the text of its
tag. -/
inductive Val
  | int (bits : BitVec 64)
  | int32 (bits : BitVec 32)
  | char (bits : BitVec 8)
  | bool (bit : Bool)
  | double (x : Double)
  | text (s : Text)
  | address (a : BitVec 64)
  deriving DecidableEq

namespace Double

/-- `fcmp oeq`. -/
def oeq : Double → Double → Bool
  | finite x, finite y => x = y
  | infinite a, infinite b => a = b
  | _, _ => false

/-- `fcmp olt`. -/
def olt : Double → Double → Bool
  | finite x, finite y => x < y
  | finite _, infinite negative => !negative
  | infinite negative, finite _ => negative
  | infinite a, infinite b => a && !b
  | _, _ => false

end Double

/-- A comparison, given those of one order. `!=` is the negation of `==`. -/
def CompareOp.decideBy {α : Type} (eq lt : α → α → Bool) (a b : α) : CompareOp → Bool
  | .eq => eq a b
  | .ne => !eq a b
  | .lt => lt a b
  | .gt => lt b a
  | .le => lt a b || eq a b
  | .ge => lt b a || eq a b

/-- What the rest of the language gives: the operators that are no comparisons, the comparisons of
values of two kinds, and what a block is worth. -/
structure Ops where
  binop : ℤ → Val → Val → Option Val
  mixed : CompareOp → Val → Val → Option Bool
  block : List Val → Option Val

/-- `BinaryExprAST::codegen` on the operands of a comparison. A char is an unsigned byte. -/
def Ops.compare (o : Ops) (c : CompareOp) : Val → Val → Option Bool
  | .int a, .int b => some (c.decideBy (· == ·) BitVec.slt a b)
  | .int32 a, .int32 b => some (c.decideBy (· == ·) BitVec.slt a b)
  | .char a, .char b => some (c.decideBy (· == ·) BitVec.ult a b)
  | .bool a, .bool b => some (c.decideBy (· == ·) (fun a b => !a && b) a b)
  | .double x, .double y => some (c.decideBy Double.oeq Double.olt x y)
  | .text s, .text t =>
    if c.exceptsNaN then some (c.decideBy (· == ·) (fun _ _ => false) s t) else none
  | .address a, .address b =>
    if c.exceptsNaN then some (c.decideBy (· == ·) (fun _ _ => false) a b) else none
  | v, w => o.mixed c v w

/-- The values of the variables and of the other nodes. -/
structure Valuation where
  var : Name → Option Val
  other : ℕ → Option Val

section

variable (o : Ops) (ρ : Valuation)

mutual

/-- The value of an expression, `none` where it panics. -/
def Expr.eval : Expr → Option Val
  | .int value => some (.int (BitVec.ofInt 64 value))
  | .double value => some (.double value)
  | .bool val => some (.bool val)
  | .string bytes => some (.text bytes)
  | .var name => ρ.var name
  | .block exprs => do o.block (← evalAll exprs)
  | .binop op lhs rhs => do
    let v ← lhs.eval
    -- the right side of `&&` and `||` is not always evaluated
    if op = -20 ∧ v = .bool false then return .bool false
    if op = -21 ∧ v = .bool true then return .bool true
    let w ← rhs.eval
    match CompareOp.ofCode op with
    | some c => (o.compare c v w).map .bool
    | none => o.binop op v w
  | .other address => ρ.other address

def evalAll : List Expr → Option (List Val)
  | [] => some []
  | e :: es => do
    let v ← e.eval
    let vs ← evalAll es
    return v :: vs

end

end

/-! ### What a warning says is so -/

/-- Equal fingerprints are of equal trees, and the comparison has the result that a warning states,
unless the value is NaN and the warning excepts it. -/
structure TellsTheTruth (o : Ops) (c : CompareOp) (lhs rhs : Expr) : Prop where
  same : lhs.fingerprint = rhs.fingerprint → lhs = rhs
  result : (lintSelfComparison c.code lhs rhs).isSome = true →
    ∀ ρ v, (Expr.binop c.code lhs rhs).eval o ρ = some v →
      v = .bool c.stated ∨ c.exceptsNaN = true ∧ lhs.eval o ρ = some (.double .nan)

/-- Whether a warning is given. -/
theorem isSome_lintSelfComparison {c : CompareOp} {lhs rhs : Expr} :
    (lintSelfComparison c.code lhs rhs).isSome = true ↔ lhs.fingerprint = rhs.fingerprint ∧
      ¬ (c.exceptsNaN && (lhs.isBool || rhs.isBool)) = true := by
  rw [lintSelfComparison, CompareOp.ofCode_code]
  dsimp only
  by_cases h : lhs.fingerprint = rhs.fingerprint ∧
      ¬ (c.exceptsNaN && (lhs.isBool || rhs.isBool)) = true
  · rw [if_pos h]
    exact iff_of_true rfl h
  · rw [if_neg h]
    exact iff_of_false Bool.false_ne_true h

theorem Double.oeq_self {x : Double} (hx : x ≠ .nan) : x.oeq x = true := by
  cases x with
  | nan => exact absurd rfl hx
  | _ => simp [oeq]

theorem Double.olt_self (x : Double) : x.olt x = false := by
  cases x with
  | infinite negative => cases negative <;> rfl
  | _ => simp [olt]

/-- A comparison of a value with itself, where the order is one. -/
theorem CompareOp.decideBy_self {α : Type} {eq lt : α → α → Bool} {a : α} (heq : eq a a = true)
    (hlt : lt a a = false) (c : CompareOp) : c.decideBy eq lt a a = c.stated := by
  cases c <;> simp [decideBy, stated, heq, hlt]

/-- A value that is not NaN compares with itself as the warning says. -/
theorem Ops.compare_self {o : Ops} {c : CompareOp} {v : Val} {b : Bool} (hv : v ≠ .double .nan)
    (h : o.compare c v v = some b) : b = c.stated := by
  cases v with
  | int a | int32 a | char a =>
    rw [compare, Option.some.injEq] at h
    rw [← h]
    exact c.decideBy_self (by simp) (by simp [BitVec.slt, BitVec.ult])
  | bool a =>
    rw [compare, Option.some.injEq] at h
    rw [← h]
    exact c.decideBy_self (by simp) (by simp)
  | double x =>
    rw [compare, Option.some.injEq] at h
    rw [← h]
    exact c.decideBy_self (Double.oeq_self fun hx => hv (by rw [hx])) (Double.olt_self x)
  | text s | address s =>
    rw [compare] at h
    split_ifs at h
    rw [← Option.some.inj h]
    exact c.decideBy_self (by simp) rfl

theorem Ops.compare_nan (o : Ops) (c : CompareOp) :
    o.compare c (.double .nan) (.double .nan) = some (decide (c = .ne)) := by
  cases c <;> rfl

/-- The value of a comparison of an expression with itself. -/
theorem Expr.eval_compare {o : Ops} {ρ : Valuation} {c : CompareOp} {e : Expr} {v : Val}
    (h : (Expr.binop c.code e e).eval o ρ = some v) :
    ∃ w b, e.eval o ρ = some w ∧ o.compare c w w = some b ∧ v = .bool b := by
  have hcode : ¬ c.code = -20 ∧ ¬ c.code = -21 := by cases c <;> decide
  rw [Expr.eval] at h
  cases hw : e.eval o ρ with
  | none => simp [hw] at h
  | some w =>
    simp only [hw, hcode.1, hcode.2, false_and, if_false, CompareOp.ofCode_code, Option.bind_eq_bind,
      Option.bind_some, Option.map_eq_some_iff] at h
    obtain ⟨b, hb, rfl⟩ := h
    exact ⟨w, b, rfl, hb, rfl⟩

theorem Expr.eval_compare_of {o : Ops} {ρ : Valuation} {c : CompareOp} {e : Expr} {w : Val}
    {b : Bool} (hw : e.eval o ρ = some w) (hb : o.compare c w w = some b) :
    (Expr.binop c.code e e).eval o ρ = some (.bool b) := by
  have hcode : ¬ c.code = -20 ∧ ¬ c.code = -21 := by cases c <;> decide
  rw [Expr.eval]
  simp [hw, hcode.1, hcode.2, hb]

/-- Where the texts can be read back, a warning is true exactly where it is not on a `<=` or `>=` of
an expression with itself that may be NaN. -/
theorem tellsTheTruth_iff {o : Ops} {c : CompareOp} {lhs rhs : Expr} (hl : lhs.Clean)
    (hr : rhs.Clean) (htell : SixDigitsTell lhs.doubles rhs.doubles) :
    TellsTheTruth o c lhs rhs ↔
      (c = .le ∨ c = .ge → lhs = rhs → ∀ ρ, lhs.eval o ρ ≠ some (.double .nan)) := by
  have hsame : lhs.fingerprint = rhs.fingerprint → lhs = rhs := Expr.eq_of_fingerprint_eq hl hr htell
  constructor
  · rintro h hc rfl ρ hnan
    have hexcepts : c.exceptsNaN = false := by obtain rfl | rfl := hc <;> rfl
    have hwarn : (lintSelfComparison c.code lhs lhs).isSome = true :=
      isSome_lintSelfComparison.mpr ⟨rfl, by simp [hexcepts]⟩
    obtain hv | ⟨hv, -⟩ :=
      h.result hwarn ρ _ (Expr.eval_compare_of hnan (o.compare_nan c))
    · obtain rfl | rfl := hc <;> simp [CompareOp.stated] at hv
    · rw [hexcepts] at hv
      cases hv
  · intro h
    refine ⟨hsame, fun hwarn ρ v hv => ?_⟩
    obtain rfl := hsame (isSome_lintSelfComparison.mp hwarn).1
    obtain ⟨w, b, hw, hb, rfl⟩ := Expr.eval_compare hv
    by_cases hnan : w = .double .nan
    · subst hnan
      rw [Ops.compare_nan, Option.some.injEq] at hb
      cases c with
      | eq | ne => exact .inr ⟨rfl, hw⟩
      | lt | gt => exact .inl (by rw [← hb]; rfl)
      | le => exact absurd hw (h (.inl rfl) rfl ρ)
      | ge => exact absurd hw (h (.inr rfl) rfl ρ)
    · exact .inl (by rw [Ops.compare_self hnan hb])

/-- A language whose only other operator joins strings. -/
def joins : Ops where
  binop op v w :=
    match v, w with
    | .text s, .text t => if op = '+'.toNat then some (.text (s ++ t)) else none
    | _, _ => none
  mixed _ _ _ := none
  block _ := none

def variableX : Expr := .var ⟨['x'], List.forall_mem_singleton.mpr (by decide)⟩

/-- `x + ","` -/
def commaLast : Expr := .binop '+'.toNat variableX (.string [','])

theorem commaLast_clean : commaLast.Clean := by
  refine ⟨trivial, ?_⟩
  show ')' ∉ [',']
  decide

theorem tellsTheTruth_commaLast : TellsTheTruth joins .eq commaLast commaLast :=
  (tellsTheTruth_iff commaLast_clean commaLast_clean nofun).mpr
    (by rintro (h | h) <;> cases h)

/-! ### What the warning gets wrong -/

/-- `"a,str:b" + "c"`, and `"a" + "b,str:c"`. -/
def joinedLeft : Expr := .binop '+'.toNat (.string "a,str:b".toList) (.string "c".toList)

def joinedRight : Expr := .binop '+'.toNat (.string "a".toList) (.string "b,str:c".toList)

theorem roundHalfEven_of_lt {x : ℚ} (h : x < 1 / 2) : roundHalfEven x = 0 := by
  have hfloor : ⌊x⌋₊ = 0 := Nat.floor_eq_zero.mpr (by linarith)
  simp only [roundHalfEven, hfloor, Nat.cast_zero, sub_zero]
  exact if_pos (.inl (by linarith))

/-- What is small is printed as zero. -/
theorem toText_of_small {x : ℚ} (h₀ : 0 ≤ x) (h : x * 10 ^ 6 < 1 / 2) :
    (Double.finite x).toText = "0.000000".toList := by
  rw [Double.toText, if_neg (by linarith), fixedSix, roundHalfEven_of_lt h]
  decide

/-- Two strings that differ, two doubles that are printed alike, and a NaN. -/
theorem not_tellsTheTruth : ¬ TellsTheTruth joins .eq joinedLeft joinedRight ∧
    ¬ TellsTheTruth joins .eq (.double (.finite (1 / 2 ^ 30))) (.double (.finite (1 / 2 ^ 31))) ∧
    ¬ TellsTheTruth joins .le variableX variableX := by
  refine ⟨fun h => ?_, fun h => ?_, fun h => ?_⟩
  · have hsame := h.same (by decide)
    simp [joinedLeft, joinedRight] at hsame
  · have htext : ∀ x : ℚ, 0 ≤ x → x * 10 ^ 6 < 1 / 2 →
        (Expr.double (.finite x)).fingerprint = "dbl:0.000000".toList := fun x h₀ hx => by
      rw [Expr.fingerprint, toText_of_small h₀ hx]
      rfl
    have hsame := h.same (by rw [htext _ (by norm_num) (by norm_num),
      htext _ (by norm_num) (by norm_num)])
    norm_num at hsame
  · obtain hv | ⟨hexcepts, -⟩ := h.result (by decide)
      ⟨fun _ => some (.double .nan), fun _ => none⟩ (.bool false) rfl
    · cases hv
    · cases hexcepts

end Fingerprint

end TurfLang
