import Mathlib.Order.Filter.AtTopBot.Basic
import TurfLang.Frontend.PrecedenceSound
import TurfLang.Lib.Raising

/-!
# The tree of precedence climbing is the only one

The converse of `PrecedenceSound`: with enough fuel the parser reads the items of a grouped tree
back as that tree, whatever follows that is no part of it. Two grouped trees with the same items are
then both what the parser returns for them.
-/

namespace TurfLang

namespace Precedence

open Lexer Filter Raising

variable {α τ : Type} {n : ℕ} {k : Kind} {s r : Items α τ} {t base lhs rhs e : Expr α τ} {p : ℤ}
  {op : Token} {x : Option (Expr α τ × Items α τ)}

/-- What holds from some fuel on with one call more, holds from some fuel on. -/
theorem eventually_of_succ {P : ℕ → Prop} (h : ∀ᶠ n in atTop, P (n + 1)) : ∀ᶠ n in atTop, P n := by
  rw [← map_add_atTop_eq_nat 1]
  exact h

/-! ### What follows a tree -/

/-- A postfix operator comes next, or the type arguments of a method. -/
def startsPostfix : Items α τ → Bool
  | .member _ :: _ => true
  | .sym t :: s =>
    t = .char 91 ∨ t = .char 40 ∨ isStep t ∨ t = .tokScope ∧ curTok s = some (.char 60)
  | _ => false

/-- Nothing comes next that an expression would go on with. -/
structure EndsExpression (r : Items α τ) : Prop where
  noPostfix : startsPostfix r = false
  noOperator : getTokPrecedence r < 0
  noGive : curTok r ≠ some .tokGive
  noRecover : curTok r ≠ some .tokRecover

theorem EndsExpression.of_sym {u : Token}
    (hu : u ∈ [.char 41, .char 93, .char 44, .tokRange, .tokOtherwise]) :
    EndsExpression (.sym u :: r) := by
  simp only [List.mem_cons, List.not_mem_nil, or_false] at hu
  obtain rfl | rfl | rfl | rfl | rfl := hu <;>
  · constructor
    · simp [startsPostfix, isStep]
    · rw [getTokPrecedence_of_curTok rfl]
      decide
    · simp
    · simp

theorem startsPostfix_operator (hop : 0 ≤ precedenceOf op) :
    startsPostfix (.sym op :: r) = false := by
  have htable : ∀ e ∈ binopPrecedence, e.1 ≠ .char 91 ∧ e.1 ≠ .char 40 ∧ isStep e.1 = false ∧
      e.1 ≠ .tokScope := by decide
  obtain ⟨hbracket, hparen, hstep, hscope⟩ := htable _ (mem_binopPrecedence hop)
  simp [startsPostfix, hbracket, hparen, hstep, hscope]

theorem parsePostfixExpression_stop (h : startsPostfix r = false) :
    parsePostfixExpression (n + 1) t r = some (t, r) := by
  unfold parsePostfixExpression
  split
  case h_1 => simp [startsPostfix] at h
  case h_2 u s =>
    simp only [startsPostfix, decide_eq_false_iff_not, not_or] at h
    simp [h.1, h.2.1, h.2.2.1]
  case h_3 => rfl

/-! ### What a tree begins with -/

/-- A tree of an operand begins with the operand or a parenthesis, any other may begin with a prefix
operator. -/
def BeginsWell {k : Kind} (t : Tree α τ k) : Prop :=
  k = .expr → ∀ (r : Items α τ) (op : Token), curTok (t.yield ++ r) = some op →
    op = .char 40 ∨ t.strength < primaryStrength ∧ (isPrefixOperator op ∨ isStep op)

/-- A tree that begins with its base begins as that does. -/
theorem BeginsWell.of_base {s : Items α τ} (hbase : BeginsWell base) (hyield : t.yield = base.yield ++ s)
    (h : t.strength < primaryStrength ∨ primaryStrength ≤ base.strength) : BeginsWell t := by
  intro _ r op hop
  rw [hyield, List.append_assoc] at hop
  obtain hparen | ⟨hlt, hunaryOp⟩ := hbase rfl _ op hop
  · exact .inl hparen
  · exact .inr ⟨h.resolve_right hlt.not_ge, hunaryOp⟩

theorem beginsWell (t : Tree α τ k) (ht : t.Grouped) : BeginsWell t := by
  have hunary := prefixStrength_lt
  induction t with
  | operand a =>
    intro _ r op hop
    simp [Tree.yield] at hop
  | paren e ih =>
    intro _ r op hop
    simp only [Tree.yield, List.cons_append, curTok_sym, Option.some.injEq] at hop
    exact .inl hop.symm
  | arrayAccess base index ihb _ => exact (ihb ht.2.1).of_base rfl (.inr ht.1)
  | slice base start stop ihb _ _ => exact (ihb ht.2.1).of_base rfl (.inr ht.1)
  | call base args ihb _ => exact (ihb ht.2.2.1).of_base rfl (.inr ht.1)
  | methodCall base name args ihb _ => exact (ihb ht.2.2.1).of_base rfl (.inr ht.1)
  | fieldAccess base name ihb => exact (ihb ht.2).of_base rfl (.inr ht.1)
  | postfixStep op base ihb => exact (ihb ht.2.2).of_base rfl (.inr ht.2.1)
  | unary op e ih =>
    intro _ r op' hop
    simp only [Tree.yield, List.cons_append, curTok_sym, Option.some.injEq] at hop
    subst hop
    exact .inr ⟨hunary, ht.1.imp And.left And.left⟩
  | binary op lhs rhs ihl _ =>
    exact (ihl ht.2.2.2.1).of_base rfl (.inl ((precedenceOf_lt_prefixStrength op).trans hunary))
  | cast e T ih =>
    exact (ih ht.2).of_base rfl (.inl ((precedenceOf_lt_prefixStrength .tokTo).trans hunary))
  | give cond thenExpr elseExpr ihc _ _ =>
    exact (ihc ht.2.1).of_base rfl (.inl (show (-1 : ℤ) < primaryStrength by decide))
  | omitted => rintro ⟨⟩
  | given e _ => rintro ⟨⟩
  | noArgs => rintro ⟨⟩
  | lastArg e _ => rintro ⟨⟩
  | nextArg e args _ _ => rintro ⟨⟩

/-- No tree begins with a token that closes or separates. -/
theorem curTok_yield_ne (ht : t.Grouped) {u : Token} (hu : u ≠ .char 40)
    (hunaryOp : isPrefixOperator u = false) (hstep : isStep u = false) :
    curTok (t.yield ++ r) ≠ some u := by
  intro hcur
  obtain hparen | ⟨-, hop⟩ := beginsWell t ht rfl r u hcur
  · exact hu hparen
  · simp [hunaryOp, hstep] at hop

/-! ### Reading back -/

/-- A tree of an operand is read up to where the loop over postfix operators has it as its base. -/
def ReadsPrimary (t : Expr α τ) : Prop :=
  ∀ ⦃r : Items α τ⦄ ⦃x : Option (Expr α τ × Items α τ)⦄,
    (t.isFieldAccess → curTok r ≠ some (.char 40) ∧
      ¬ (curTok r = some .tokScope ∧ curTok r.tail = some (.char 60))) →
    (∀ᶠ n in atTop, parsePostfixExpression n t r = x) →
    ∀ᶠ n in atTop, parsePrimary n (t.yield ++ r) = x

def ReadsUnary (t : Expr α τ) : Prop :=
  ∀ ⦃r : Items α τ⦄, startsPostfix r = false →
    ∀ᶠ n in atTop, parseUnary n (t.yield ++ r) = some (t, r)

/-- A tree is read up to where the loop of `ParseBinOpRHS` has it as its left side. -/
def ReadsClimb (t : Expr α τ) : Prop :=
  ∀ ⦃p : ℤ⦄ ⦃r : Items α τ⦄ ⦃x : Option (Expr α τ × Items α τ)⦄, startsPostfix r = false →
    t.LeftOpenAbove p → t.EndsBefore (getTokPrecedence r) →
    (∀ᶠ n in atTop, parseBinOpRHS n p t r = x) → ∀ᶠ n in atTop, climb n p (t.yield ++ r) = x

def ReadsExpression (t : Expr α τ) : Prop :=
  ∀ ⦃r : Items α τ⦄, EndsExpression r →
    ∀ᶠ n in atTop, parseExpression n (t.yield ++ r) = some (t, r)

def ReadsArgs (as : Tree α τ .args) : Prop :=
  ∀ ⦃r : Items α τ⦄ ⦃trailing mayClose : Bool⦄,
    (trailing = false → as.hasTrailingComma = false) → (mayClose = false → as.isNoArgs = false) →
    ∀ᶠ n in atTop, parseArgs n trailing mayClose (as.yield ++ r) = some (as, r)

/-! ### Operands and postfix operators -/

theorem readsPrimary_operand (a : α) : ReadsPrimary (.operand a : Expr α τ) := by
  intro r x _ h
  apply eventually_of_succ
  filter_upwards [h] with n hn
  simpa [Tree.yield, parsePrimary] using hn

theorem readsPrimary_paren (he : ReadsExpression e) : ReadsPrimary (.paren e) := by
  intro r x _ h
  apply eventually_of_succ
  filter_upwards [h, he (EndsExpression.of_sym (r := r) (u := .char 41) (by simp))] with n hn hen
  simpa [Tree.yield, parsePrimary, hen] using hn

theorem readsPrimary_arrayAccess {index : Expr α τ} (hbase : ReadsPrimary base)
    (hindex : ReadsExpression index) (hgrouped : index.Grouped) :
    ReadsPrimary (.arrayAccess base index) := by
  intro r x _ h
  have hrange : curTok (index.yield ++ .sym (.char 93) :: r) ≠ some .tokRange :=
    curTok_yield_ne hgrouped (by decide) (by decide) (by decide)
  have hinner : ∀ᶠ n in atTop, parseIndex n base (index.yield ++ .sym (.char 93) :: r) =
      some (.arrayAccess base index, r) := by
    apply eventually_of_succ
    filter_upwards [hindex (EndsExpression.of_sym (r := r) (u := .char 93) (by simp))] with n hn
    simp [parseIndex, hrange, hn]
  simp only [Tree.yield, List.append_assoc, List.cons_append, List.nil_append]
  refine hbase (fun _ => by simp) (eventually_of_succ ?_)
  filter_upwards [h, hinner] with n hn hin
  simpa [parsePostfixExpression, hin] using hn

/-- The rest of a slice. -/
theorem eventually_parseSliceStop {start stop : Tree α τ .bound}
    (hstop : ∀ e, stop = .given e → ReadsExpression e ∧ e.Grouped) :
    ∀ᶠ n in atTop, parseSliceStop n base start (stop.yield ++ .sym (.char 93) :: r) =
      some (.slice base start stop, r) := by
  apply eventually_of_succ
  cases stop with
  | omitted => exact .of_forall fun n => by simp [parseSliceStop, Tree.yield]
  | given e =>
    obtain ⟨he, hgrouped⟩ := hstop e rfl
    have hclose : curTok (e.yield ++ .sym (.char 93) :: r) ≠ some (.char 93) :=
      curTok_yield_ne hgrouped (by decide) (by decide) (by decide)
    filter_upwards [he (EndsExpression.of_sym (r := r) (u := .char 93) (by simp))] with n hn
    simp [parseSliceStop, Tree.yield, hclose, hn]

theorem readsPrimary_slice {start stop : Tree α τ .bound} (hbase : ReadsPrimary base)
    (hstart : ∀ e, start = .given e → ReadsExpression e ∧ e.Grouped)
    (hstop : ∀ e, stop = .given e → ReadsExpression e ∧ e.Grouped) :
    ReadsPrimary (.slice base start stop) := by
  intro r x _ h
  set s := stop.yield ++ .sym (.char 93) :: r with hs
  have hrest : ∀ᶠ n in atTop, parseSliceStop n base start s = some (.slice base start stop, r) :=
    eventually_parseSliceStop hstop
  have hinner : ∀ᶠ n in atTop, parseIndex n base (start.yield ++ .sym .tokRange :: s) =
      some (.slice base start stop, r) := by
    apply eventually_of_succ
    cases start with
    | omitted =>
      filter_upwards [hrest] with n hn
      simpa [parseIndex, Tree.yield] using hn
    | given e =>
      obtain ⟨he, hgrouped⟩ := hstart e rfl
      have hrange : curTok (e.yield ++ .sym .tokRange :: s) ≠ some .tokRange :=
        curTok_yield_ne hgrouped (by decide) (by decide) (by decide)
      filter_upwards [hrest, he (EndsExpression.of_sym (r := s) (u := .tokRange) (by simp))]
        with n hn hen
      simpa [parseIndex, Tree.yield, hrange, hen] using hn
  simp only [Tree.yield, List.append_assoc, List.cons_append, List.nil_append, ← hs]
  refine hbase (fun _ => by simp) (eventually_of_succ ?_)
  filter_upwards [h, hinner] with n hn hin
  simpa [parsePostfixExpression, hin] using hn

theorem readsPrimary_call {args : Tree α τ .args} (hbase : ReadsPrimary base)
    (hfield : base.isFieldAccess = false) (hargs : ReadsArgs args) :
    ReadsPrimary (.call base args) := by
  intro r x _ h
  simp only [Tree.yield, List.append_assoc, List.cons_append]
  refine hbase (fun htrue => by simp [hfield] at htrue) (eventually_of_succ ?_)
  have hinner : ∀ᶠ n in atTop, parseArgs n true true (args.yield ++ r) = some (args, r) :=
    hargs (by simp) (by simp)
  filter_upwards [h, hinner] with n hn hin
  simpa [parsePostfixExpression, hin] using hn

theorem readsPrimary_methodCall {name : Bytes} {args : Tree α τ .args} (hbase : ReadsPrimary base)
    (hcomma : args.hasTrailingComma = false) (hargs : ReadsArgs args) :
    ReadsPrimary (.methodCall base name args) := by
  intro r x _ h
  simp only [Tree.yield, List.append_assoc, List.cons_append]
  refine hbase (fun _ => by simp) (eventually_of_succ ?_)
  have hinner : ∀ᶠ n in atTop, parseArgs n false true (args.yield ++ r) = some (args, r) :=
    hargs (fun _ => hcomma) (by simp)
  filter_upwards [h, hinner] with n hn hin
  simpa [parsePostfixExpression, hin] using hn

theorem readsPrimary_fieldAccess {name : Bytes} (hbase : ReadsPrimary base) :
    ReadsPrimary (.fieldAccess base name) := by
  intro r x hfollow h
  obtain ⟨hparen, hscope⟩ := hfollow rfl
  simp only [Tree.yield, List.append_assoc, List.cons_append, List.nil_append]
  refine hbase (fun _ => by simp) (eventually_of_succ ?_)
  filter_upwards [h] with n hn
  simpa [parsePostfixExpression, hparen, hscope] using hn

theorem readsPrimary_postfixStep (hbase : ReadsPrimary base) (hop : isStep op) :
    ReadsPrimary (.postfixStep op base) := by
  intro r x _ h
  have hne : op ≠ .char 91 ∧ op ≠ .char 40 ∧ op ≠ .tokScope := by
    refine ⟨?_, ?_, ?_⟩ <;>
    · rintro rfl
      revert hop
      decide
  simp only [Tree.yield, List.append_assoc, List.cons_append, List.nil_append]
  refine hbase (fun _ => by simp [hne]) (eventually_of_succ ?_)
  filter_upwards [h] with n hn
  simpa [parsePostfixExpression, hne, hop] using hn

/-! ### Arguments -/

theorem readsArgs_noArgs : ReadsArgs (.noArgs : Tree α τ .args) := by
  intro r trailing mayClose _ hmay
  have hclose : mayClose = true := by
    by_contra hfalse
    exact absurd (hmay (by simpa using hfalse)) (by simp [Tree.isNoArgs])
  refine eventually_of_succ (.of_forall fun n => ?_)
  simp [parseArgs, Tree.yield, hclose]

theorem readsArgs_lastArg (he : ReadsExpression e) (hgrouped : e.Grouped) :
    ReadsArgs (.lastArg e) := by
  intro r trailing mayClose _ _
  have hclose : curTok (e.yield ++ .sym (.char 41) :: r) ≠ some (.char 41) :=
    curTok_yield_ne hgrouped (by decide) (by decide) (by decide)
  apply eventually_of_succ
  filter_upwards [he (EndsExpression.of_sym (r := r) (u := .char 41) (by simp))] with n hn
  simp [parseArgs, Tree.yield, hclose, hn]

theorem readsArgs_nextArg {args : Tree α τ .args} (he : ReadsExpression e)
    (hgrouped : e.Grouped) (hargs : ReadsArgs args) : ReadsArgs (.nextArg e args) := by
  intro r trailing mayClose hcomma _
  have hclose : curTok (e.yield ++ .sym (.char 44) :: (args.yield ++ r)) ≠ some (.char 41) :=
    curTok_yield_ne hgrouped (by decide) (by decide) (by decide)
  simp only [Tree.hasTrailingComma, Bool.or_eq_false_iff] at hcomma
  have hrest : ∀ᶠ n in atTop, parseArgs n trailing trailing (args.yield ++ r) = some (args, r) :=
    hargs (fun h => (hcomma h).2) (fun h => (hcomma h).1)
  apply eventually_of_succ
  filter_upwards [hrest,
    he (EndsExpression.of_sym (r := args.yield ++ r) (u := .char 44) (by simp))] with n hn hen
  simp [parseArgs, Tree.yield, hclose, hen, hn]

/-! ### Operators -/

theorem ReadsPrimary.eventually (h : ReadsPrimary t) (hr : startsPostfix r = false) :
    ∀ᶠ n in atTop, parsePrimary n (t.yield ++ r) = some (t, r) := by
  refine h (fun _ => ⟨?_, ?_⟩)
    (eventually_of_succ (.of_forall fun n => parsePostfixExpression_stop hr))
  · intro hparen
    rw [eq_cons_of_curTok hparen] at hr
    simp [startsPostfix] at hr
  · rintro ⟨hscope, hless⟩
    rw [eq_cons_of_curTok hscope] at hr
    simp [startsPostfix, hless] at hr

/-- An operand is read as one without a prefix operator. -/
theorem ReadsPrimary.unary (h : ReadsPrimary t) (ht : t.Grouped)
    (hstrong : primaryStrength ≤ t.strength) : ReadsUnary t := by
  intro r hr
  apply eventually_of_succ
  filter_upwards [h.eventually hr] with n hn
  unfold parseUnary
  split
  case h_1 op hop =>
    have hparen : op = .char 40 :=
      (beginsWell t ht rfl r op hop).resolve_right fun hlt => hlt.1.not_ge hstrong
    subst hparen
    simpa [isPrefixOperator, isStep] using hn
  case h_2 => exact hn

theorem readsUnary_operator (he : ReadsUnary e) (hop : isPrefixOperator op) :
    ReadsUnary (.unary op e) := by
  intro r hr
  apply eventually_of_succ
  filter_upwards [he hr] with n hn
  simp [Tree.yield, parseUnary, hop, hn]

theorem readsUnary_step (he : ReadsPrimary e) (hop : isStep op) : ReadsUnary (.unary op e) := by
  intro r hr
  have hno : isPrefixOperator op = false := by
    simp only [isStep, decide_eq_true_eq] at hop
    obtain rfl | rfl := hop <;> decide
  apply eventually_of_succ
  filter_upwards [he.eventually hr] with n hn
  simp [Tree.yield, parseUnary, hop, hno, hn]

theorem ReadsUnary.climb (h : ReadsUnary t) : ReadsClimb t := by
  intro p r x hr _ _ hx
  filter_upwards [h hr, hx] with n hn hxn
  simp [Precedence.climb, hn, hxn]

/-- The left operand is climbed first; the loop then has the operator before it, and climbs the
right operand from the bound of the operator on. -/
theorem readsClimb_binary (hlhs : ReadsClimb lhs) (hrhs : ReadsClimb rhs)
    (ht : (Tree.binary op lhs rhs).Grouped) : ReadsClimb (.binary op lhs rhs) := by
  intro p r x hr hopen hends hx
  obtain ⟨⟨hop, hto, hplain⟩, hfits, hrestOpen, hleft, hright⟩ := ht
  have hendsLeft : lhs.EndsBefore (precedenceOf op) :=
    (Tree.fits_iff hop hplain hleft (Tree.strength_nonneg_of_fits hop hfits)).mp hfits
  have hstop : ∀ᶠ n in atTop, parseBinOpRHS n (rightBound op) rhs r = some (rhs, r) :=
    eventually_of_succ (.of_forall fun n => parseBinOpRHS_stop hends)
  have hclimb : ∀ᶠ n in atTop, climb n (rightBound op) (rhs.yield ++ r) = some (rhs, r) :=
    hrhs hr hrestOpen (hrestOpen.endsBefore hends) hstop
  simp only [Tree.yield, List.append_assoc, List.cons_append]
  refine hlhs (startsPostfix_operator hop) hopen.2
    (by rwa [getTokPrecedence_of_curTok (curTok_sym _ _)]) (eventually_of_succ ?_)
  filter_upwards [hclimb, hx] with n hn hxn
  rw [parseBinOpRHS_operator (curTok_sym _ _) hto hopen.1, List.tail_cons, hn]
  exact hxn

theorem readsClimb_cast {T : τ} (he : ReadsClimb e) (ht : (Tree.cast e T).Grouped) :
    ReadsClimb (.cast e T) := by
  intro p r x hr hopen _ hx
  have hto : 0 ≤ precedenceOf .tokTo := by decide
  have hends : e.EndsBefore (precedenceOf .tokTo) :=
    (Tree.fits_iff hto (by decide) ht.2 (hto.trans ht.1)).mp (.inr ht.1)
  simp only [Tree.yield, List.append_assoc, List.cons_append, List.nil_append]
  refine he (startsPostfix_operator hto) hopen.2
    (by rwa [getTokPrecedence_of_curTok (curTok_sym _ _)]) (eventually_of_succ ?_)
  filter_upwards [hx] with n hxn
  rw [parseBinOpRHS_to (curTok_sym _ _) hopen.1]
  exact hxn

/-! ### Expressions -/

theorem parseExpression_climb (n : ℕ) (s : Items α τ) :
    parseExpression (n + 1) s = (climb n 0 s).bind fun x =>
      if curTok x.2 = some .tokGive then
        (parseExpression n x.2.tail).bind fun a =>
          (expect .tokOtherwise a.2).bind fun s =>
            (parseExpression n s).bind fun b => some (.give x.1 a.1 b.1, b.2)
      else if curTok x.2 = some .tokRecover then none else some x := by
  rw [parseExpression, climb]
  simp [Option.bind_assoc]

theorem ReadsClimb.expression (h : ReadsClimb t) (ht : t.Grouped) (hstrength : 0 ≤ t.strength) :
    ReadsExpression t := by
  intro r hr
  have hends : t.EndsBefore (getTokPrecedence r) :=
    (ht.leftOpenAbove hstrength).endsBefore hr.noOperator
  have hstop : ∀ᶠ n in atTop, parseBinOpRHS n 0 t r = some (t, r) :=
    eventually_of_succ (.of_forall fun n => parseBinOpRHS_stop hr.noOperator)
  apply eventually_of_succ
  filter_upwards [h hr.noPostfix (ht.leftOpenAbove hstrength) hends hstop] with n hn
  rw [parseExpression_climb, hn]
  simp [hr.noGive, hr.noRecover]

theorem readsExpression_give {cond thenExpr elseExpr : Expr α τ} (hcond : ReadsClimb cond)
    (hgrouped : cond.Grouped) (hstrength : 0 ≤ cond.strength) (hthen : ReadsExpression thenExpr)
    (helse : ReadsExpression elseExpr) : ReadsExpression (.give cond thenExpr elseExpr) := by
  intro r hr
  set s := thenExpr.yield ++ .sym .tokOtherwise :: (elseExpr.yield ++ r) with hs
  have hno : getTokPrecedence (.sym .tokGive :: s) < 0 := by
    rw [getTokPrecedence_of_curTok (curTok_sym _ _)]
    decide
  have hstop : ∀ᶠ n in atTop, parseBinOpRHS n 0 cond (.sym .tokGive :: s) =
      some (cond, .sym .tokGive :: s) :=
    eventually_of_succ (.of_forall fun n => parseBinOpRHS_stop hno)
  have hclimb := hcond (by simp [startsPostfix, isStep]) (hgrouped.leftOpenAbove hstrength)
    ((hgrouped.leftOpenAbove hstrength).endsBefore hno) hstop
  have hthen' := hthen (EndsExpression.of_sym (r := elseExpr.yield ++ r) (u := .tokOtherwise)
    (by simp))
  simp only [Tree.yield, List.append_assoc, List.cons_append, ← hs]
  apply eventually_of_succ
  filter_upwards [hclimb, hthen', helse hr] with n hn ha hb
  rw [parseExpression_climb, hn]
  simp [hs, ha, hb]

/-! ### Every tree -/

/-- What each kind of tree is read by. -/
def ReadBack : {k : Kind} → Tree α τ k → Prop
  | .expr, t => (primaryStrength ≤ t.strength → ReadsPrimary t) ∧
      (prefixStrength ≤ t.strength → ReadsUnary t) ∧ (0 ≤ t.strength → ReadsClimb t) ∧
      ReadsExpression t
  | .bound, t => ∀ e, t = .given e → ReadsExpression e ∧ e.Grouped
  | .args, t => ReadsArgs t

theorem ReadsClimb.readBack (h : ReadsClimb t) (ht : t.Grouped) (hstrength : 0 ≤ t.strength)
    (hunaryOp : t.strength < prefixStrength) : ReadBack t :=
  ⟨fun hp => absurd (prefixStrength_lt.le.trans hp) hunaryOp.not_ge, fun hp => absurd hp hunaryOp.not_ge,
    fun _ => h, h.expression ht hstrength⟩

theorem ReadsUnary.readBack (h : ReadsUnary t) (ht : t.Grouped)
    (hstrength : prefixStrength ≤ t.strength) (hprimary : t.strength < primaryStrength) :
    ReadBack t :=
  ⟨fun hp => absurd hp hprimary.not_ge, fun _ => h, fun _ => h.climb,
    h.climb.expression ht (le_trans (by decide) hstrength)⟩

theorem ReadsPrimary.readBack (h : ReadsPrimary t) (ht : t.Grouped)
    (hstrength : primaryStrength ≤ t.strength) : ReadBack t :=
  ⟨fun _ => h, fun _ => h.unary ht hstrength, fun _ => (h.unary ht hstrength).climb,
    (h.unary ht hstrength).climb.expression ht (le_trans (by decide) hstrength)⟩

theorem readBack (t : Tree α τ k) (ht : t.Grouped) : ReadBack t := by
  induction t with
  | operand a => exact (readsPrimary_operand a).readBack ht le_rfl
  | paren e ih => exact (readsPrimary_paren (ih ht).2.2.2).readBack ht le_rfl
  | arrayAccess base index ihb ihi =>
    obtain ⟨hstrong, hbase, hindex⟩ := id ht
    exact (readsPrimary_arrayAccess ((ihb hbase).1 hstrong) (ihi hindex).2.2.2 hindex).readBack ht
      le_rfl
  | slice base start stop ihb ihstart ihstop =>
    obtain ⟨hstrong, hbase, hstart, hstop⟩ := id ht
    exact (readsPrimary_slice ((ihb hbase).1 hstrong) (ihstart hstart) (ihstop hstop)).readBack ht
      le_rfl
  | call base args ihb iha =>
    obtain ⟨hstrong, hfield, hbase, hargs⟩ := id ht
    exact (readsPrimary_call ((ihb hbase).1 hstrong) hfield (iha hargs)).readBack ht le_rfl
  | methodCall base name args ihb iha =>
    obtain ⟨hstrong, hcomma, hbase, hargs⟩ := id ht
    exact (readsPrimary_methodCall ((ihb hbase).1 hstrong) hcomma (iha hargs)).readBack ht le_rfl
  | fieldAccess base name ihb =>
    exact (readsPrimary_fieldAccess ((ihb ht.2).1 ht.1)).readBack ht le_rfl
  | postfixStep op base ihb =>
    exact (readsPrimary_postfixStep ((ihb ht.2.2).1 ht.2.1) ht.1).readBack ht le_rfl
  | unary op e ih =>
    obtain ⟨⟨hop, hstrong⟩ | ⟨hop, hstrong⟩, he⟩ := id ht
    · exact (readsUnary_operator ((ih he).2.1 hstrong) hop).readBack ht le_rfl prefixStrength_lt
    · exact (readsUnary_step ((ih he).1 hstrong) hop).readBack ht le_rfl prefixStrength_lt
  | binary op lhs rhs ihl ihr =>
    obtain ⟨⟨hop, -⟩, hfits, hopen, hlhs, hrhs⟩ := id ht
    have hl := (ihl hlhs).2.2.1 (Tree.strength_nonneg_of_fits hop hfits)
    have hr := (ihr hrhs).2.2.1 (hopen.strength_nonneg (hop.trans (le_rightBound op)))
    exact (readsClimb_binary hl hr ht).readBack ht hop (precedenceOf_lt_prefixStrength op)
  | cast e T ih =>
    have hto : 0 ≤ precedenceOf .tokTo := by decide
    have he := (ih ht.2).2.2.1 (hto.trans ht.1)
    exact (readsClimb_cast he ht).readBack ht hto (precedenceOf_lt_prefixStrength .tokTo)
  | give cond thenExpr elseExpr ihc iht ihe =>
    obtain ⟨hstrength, hcond, hthen, helse⟩ := id ht
    have hneg : ∀ {b : ℤ}, 0 ≤ b → ¬ b ≤ -1 := fun hb => by omega
    exact ⟨fun h => absurd h (hneg (by decide)), fun h => absurd h (hneg (by decide)),
      fun h => absurd h (hneg le_rfl), readsExpression_give ((ihc hcond).2.2.1 hstrength) hcond
        hstrength (iht hthen).2.2.2 (ihe helse).2.2.2⟩
  | omitted => rintro e ⟨⟩
  | given e ih =>
    rintro e' ⟨⟩
    exact ⟨(ih ht).2.2.2, ht⟩
  | noArgs => exact readsArgs_noArgs
  | lastArg e ih => exact readsArgs_lastArg (ih ht).2.2.2 ht
  | nextArg e args ihe iha => exact readsArgs_nextArg (ihe ht.1).2.2.2 ht.1 (iha ht.2)

/-- The items of a grouped tree are accepted as that tree, before anything that ends it. -/
theorem eventually_parseExpression (ht : t.Grouped) (hr : EndsExpression r) :
    ∀ᶠ n in atTop, parseExpression n (t.yield ++ r) = some (t, r) :=
  (readBack t ht).2.2.2 hr

/-- The items of a tree determine it. -/
theorem yield_injective {t' : Expr α τ} (ht : t.Grouped) (ht' : t'.Grouped)
    (h : t.yield = t'.yield) : t = t' := by
  have hend : EndsExpression ([] : Items α τ) := 
    ⟨rfl, by simp [getTokPrecedence], by simp, by simp⟩
  have hread := eventually_parseExpression ht hend
  rw [h] at hread
  obtain ⟨n, hn, hn'⟩ := (hread.and (eventually_parseExpression ht' hend)).exists
  simpa using hn.symm.trans hn'

/-! ### The lexer -/

/-- The tokens that `gettok` returns. -/
def IsLexed (u : Token) : Prop := ∃ L L' : LexerState, gettok L = .ok u L'

theorem scanOperator_ne {u v : Token} {longer : List (UInt8 × (LexerState → Token × LexerState))}
    (hv : v ≠ u) (hlonger : ∀ op ∈ longer, ∀ L, (op.2 L).1 ≠ u) (L : LexerState) :
    (scanOperator v longer L).1 ≠ u := by
  unfold scanOperator
  dsimp only
  split
  case h_1 op hfind => exact hlonger op (List.mem_of_find?_eq_some hfind) _
  case h_2 => exact hv

theorem operators_ne : ∀ op ∈ operators, ∀ L, (op.2 L).1 ≠ .char 61 := by
  have hleaf : ∀ {v : Token}, v ≠ .char 61 → ∀ L, (scanOperator v [] L).1 ≠ .char 61 :=
    fun hv => scanOperator_ne hv (by simp)
  simp only [operators, scanGreater, List.forall_mem_cons, List.not_mem_nil, false_implies,
    implies_true, and_true]
  refine ⟨?_, ?_, ?_, ?_, ?_, ?_, ?_, ?_, ?_, ?_, ?_, ?_⟩ <;>
  · refine scanOperator_ne (by decide) ?_
    simp only [List.forall_mem_cons, List.not_mem_nil, false_implies, implies_true, and_true]
    repeat' apply And.intro
    all_goals first
      | exact hleaf (by decide)
      | exact scanOperator_ne (by decide)
          (by simp only [List.forall_mem_singleton]; exact hleaf (by decide))

theorem keywords_ne_char : ∀ k ∈ keywords, k.2 ≠ .char 61 := by decide

theorem scanIdentifier_ne (L : LexerState) : (scanIdentifier L).1 ≠ .char 61 := by
  unfold scanIdentifier
  dsimp only
  split
  · simp
  · split
    case h_1 => simp
    case h_2 k v _ hfind => exact keywords_ne_char (k, v) (List.mem_of_find?_eq_some hfind)
    case h_3 => simp

/-- A scan that raises, or returns another token than a plain `=`. -/
def NoPlain (x : NumberM Token) : Prop :=
  ∀ s, Meets x s (fun u _ => u ≠ .char 61) fun _ => True

theorem noPlain_bind {β : Type} {y : NumberM β} {f : β → NumberM Token} (h : ∀ b, NoPlain (f b)) :
    NoPlain (y >>= f) :=
  fun _ => meets_bind.mpr (.of_forall (fun b s => h b s) fun _ => trivial)

theorem noPlain_ite {q : Prop} [Decidable q] {y z : NumberM Token} (hy : NoPlain y)
    (hz : NoPlain z) : NoPlain (if q then y else z) :=
  fun s => meets_ite.mpr ⟨fun _ => hy s, fun _ => hz s⟩

theorem noPlain_finishNumber {v : Token} (hv : v ≠ .char 61) : NoPlain (finishNumber v) :=
  noPlain_bind fun _ _ => meets_pure.mpr hv

theorem noPlain_scanRadixNumber (radix : ℕ) : NoPlain (scanRadixNumber radix) := by
  have hend : ∀ b : Unit, NoPlain (rejectStrayPoint true false >>= fun _ =>
      finishNumber .tokIntLiteral) :=
    fun _ => noPlain_bind fun _ => noPlain_finishNumber (by decide)
  unfold scanRadixNumber
  refine noPlain_bind fun _ => noPlain_bind fun _ => noPlain_bind fun _ => noPlain_bind fun _ =>
    noPlain_bind fun _ => noPlain_ite (noPlain_bind hend) (noPlain_ite (noPlain_bind hend) ?_)
  exact hend ()

theorem noPlain_scanDecimalNumber : NoPlain scanDecimalNumber := by
  unfold scanDecimalNumber
  refine noPlain_bind fun _ => noPlain_bind fun _ => noPlain_bind fun _ => noPlain_bind fun _ =>
    noPlain_bind fun _ => noPlain_finishNumber ?_
  split <;> simp

theorem noPlain_scanNumber : NoPlain scanNumber := by
  refine noPlain_bind fun s => ?_
  split
  · exact noPlain_scanRadixNumber _
  · exact noPlain_scanDecimalNumber

theorem gettokScan_ne (fuel : ℕ) {L L' : LexerState} {u : Token}
    (h : gettokScan fuel L = .ok u L') : u ≠ .char 61 := by
  have hreturns : ∀ {r : Token × LexerState}, r.1 ≠ .char 61 → returns r = .ok u L' →
      u ≠ .char 61 := by
    intro r hr heq
    injection heq with heq
    exact heq ▸ hr
  induction fuel generalizing L with
  | zero =>
    rw [gettokScan] at h
    injection h with heq
    simp [← heq]
  | succ n ih =>
    unfold gettokScan at h
    dsimp only at h
    split at h
    · exact hreturns (scanIdentifier_ne _) h
    split at h
    · refine hreturns ?_ h
      unfold scanString
      dsimp only
      split
      · simp
      · split <;> simp
    split at h
    · refine hreturns ?_ h
      unfold scanChar
      dsimp only
      split
      · simp
      split
      · dsimp only
        split <;> simp
      · simp
    split at h
    · refine hreturns ?_ h
      unfold scanDots
      dsimp only
      split <;> simp
    split at h
    · unfold runNumber at h
      split at h
      case h_1 v s heq =>
        injection h with hv
        exact hv ▸ (noPlain_scanNumber _).ok heq
      case h_2 => cases h
    split at h
    case h_1 op hfind => exact hreturns (operators_ne op (List.mem_of_find?_eq_some hfind) _) h
    case h_2 hfind =>
      have hother : ∀ L₁ : LexerState, L₁.lastChar ≠ some 61 → (scanOther L₁).1 ≠ .char 61 := by
        intro L₁ hL₁
        unfold scanOther
        split
        case h_1 => simp
        case h_2 c _ hc =>
          intro heq
          exact hL₁ (hc.trans (by simpa using heq))
        case h_3 => simp
      split at h
      · split at h
        case isTrue => exact ih h
        case isFalse hend =>
          rw [not_not] at hend
          exact hreturns (hother _ (by simp [hend])) h
      split at h
      · exact hreturns (by simp) h
      · refine hreturns (hother _ fun hlast => ?_) h
        simp [operators, hlast] at hfind

/-- The lexer never returns an `=` that stands for itself. -/
theorem IsLexed.ne {u : Token} (h : IsLexed u) : u ≠ .char 61 := by
  obtain ⟨L, L', h⟩ := h
  unfold gettok at h
  dsimp only at h
  split at h
  case h_1 v L₁ heq =>
    injection h with hv
    exact hv ▸ gettokScan_ne _ heq
  case h_2 => cases h

/-! ### Precedence climbing -/

/-- What the parser accepts it gives the one tree that yields what it has read and whose operators
have the operands that the table gives them. -/
theorem parseExpression_groups {s r : Items α τ} (hs : ∀ u, Item.sym u ∈ s → IsLexed u)
    (h : parseExpression n s = some (t, r)) :
    s = t.yield ++ r ∧ t.Grouped ∧ ∀ t' : Expr α τ, t'.Grouped → t'.yield = t.yield → t' = t := by
  have hplain : NoPlainEquals s := fun hmem => (hs _ hmem).ne rfl
  have hread := (sound n).expression hplain h
  exact ⟨hread.eq, hread.grouped, fun t' ht' hyield => yield_injective ht' hread.grouped hyield⟩

/-- `-a ** b + c to T < d`, where the minus is on `a` alone and the cast on the sum. -/
def sample : Items ℕ Unit :=
  [.sym (.char 45), .operand 0, .sym .tokPower, .operand 1, .sym (.char 43), .operand 2,
    .sym .tokTo, .ofType (), .sym (.char 60), .operand 3]

def sampleTree : Expr ℕ Unit :=
  .binary (.char 60)
    (.cast (.binary (.char 43)
      (.binary .tokPower (.unary (.char 45) (.operand 0)) (.operand 1)) (.operand 2)) ())
    (.operand 3)

theorem isLexed_sample : ∀ u, Item.sym u ∈ sample → IsLexed u := by
  have hminus : IsLexed (.char 45) := ⟨openLexer [45] "", _, rfl⟩
  have hpower : IsLexed .tokPower := ⟨openLexer [42, 42] "", _, rfl⟩
  have hplus : IsLexed (.char 43) := ⟨openLexer [43] "", _, rfl⟩
  have hto : IsLexed .tokTo := ⟨openLexer [116, 111] "", _, rfl⟩
  have hless : IsLexed (.char 60) := ⟨openLexer [60] "", _, rfl⟩
  intro u hu
  simp only [sample, List.mem_cons, Item.sym.injEq, List.not_mem_nil, reduceCtorEq, or_false,
    false_or] at hu
  obtain rfl | rfl | rfl | rfl | rfl := hu <;> assumption

theorem parseExpression_groups_sample :
    parseExpression 9 sample = some (sampleTree, []) ∧ sample = sampleTree.yield ++ [] ∧
      sampleTree.Grouped ∧
      ∀ t' : Expr ℕ Unit, t'.Grouped → t'.yield = sampleTree.yield → t' = sampleTree :=
  ⟨rfl, parseExpression_groups (n := 9) isLexed_sample rfl⟩

end Precedence

end TurfLang
