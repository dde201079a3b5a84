import TurfLang.Frontend.Precedence

/-!
# What precedence climbing returns

Whatever the parser accepts, the tree yields the items that it has read, and it is grouped. One
lemma a function says this of a round from the same of the calls it makes.
-/

namespace TurfLang

namespace Precedence

open Lexer

variable {α τ : Type} {n : ℕ} {k : Kind} {s r lead : Items α τ}

/-! ### Items -/

/-- The items hold no `=` that stands for itself: the lexer makes `TOK_ASSIGN` of that. -/
def NoPlainEquals (s : Items α τ) : Prop := .sym (.char 61) ∉ s

theorem NoPlainEquals.of_suffix (h : NoPlainEquals s) (hr : r <:+ s) : NoPlainEquals r :=
  fun hmem => h (hr.subset hmem)

theorem NoPlainEquals.tail (h : NoPlainEquals s) : NoPlainEquals s.tail :=
  h.of_suffix s.tail_suffix

theorem eq_cons_of_curTok {t : Token} (h : curTok s = some t) : s = .sym t :: s.tail := by
  unfold curTok at h
  split at h
  case h_1 t' s' => rw [← Option.some.inj h, List.tail_cons]
  case h_2 => cases h

theorem expect_eq_some {t : Token} (h : expect t s = some r) : s = .sym t :: r := by
  unfold expect at h
  split at h
  case isTrue hcur =>
    cases h
    exact eq_cons_of_curTok hcur
  case isFalse => cases h

theorem parseType_eq_some {T : τ} (h : parseType s = some (T, r)) : s = .ofType T :: r := by
  unfold parseType at h
  split at h
  case h_1 T' s' =>
    cases h
    rfl
  case h_2 => cases h

/-! ### Reading -/

/-- After `lead` has been read, `t` has been read from `s` up to `r`. -/
structure Reads (lead s : Items α τ) (t : Tree α τ k) (r : Items α τ) : Prop where
  yield : lead ++ s = t.yield ++ r
  suffix : r <:+ s
  grouped : t.Grouped

theorem Reads.eq {t : Tree α τ k} (h : Reads [] s t r) : s = t.yield ++ r := h.yield

theorem Reads.start {t : Tree α τ k} (h : s = t.yield ++ r) (ht : t.Grouped) : Reads [] s t r :=
  ⟨h, ⟨t.yield, h.symm⟩, ht⟩

/-- What the functions of the parser return within `n` calls. -/
structure Sound (α τ : Type) (n : ℕ) : Prop where
  expression : ∀ {s r : Items α τ} {t : Expr α τ}, NoPlainEquals s →
    parseExpression n s = some (t, r) → Reads [] s t r
  unary : ∀ {s r : Items α τ} {t : Expr α τ}, NoPlainEquals s →
    parseUnary n s = some (t, r) → Reads [] s t r ∧ prefixStrength ≤ t.strength
  primary : ∀ {s r : Items α τ} {t : Expr α τ}, NoPlainEquals s →
    parsePrimary n s = some (t, r) → Reads [] s t r ∧ primaryStrength ≤ t.strength
  postfixExpression : ∀ {s r : Items α τ} {base t : Expr α τ}, NoPlainEquals s →
    parsePostfixExpression n base s = some (t, r) → base.Grouped →
    primaryStrength ≤ base.strength → (base.isFieldAccess → curTok s ≠ some (.char 40)) →
    Reads base.yield s t r ∧ primaryStrength ≤ t.strength
  index : ∀ {s r : Items α τ} {base t : Expr α τ}, NoPlainEquals s →
    parseIndex n base s = some (t, r) → base.Grouped → primaryStrength ≤ base.strength →
    Reads (base.yield ++ [.sym (.char 91)]) s t r ∧ primaryStrength ≤ t.strength ∧
      t.isFieldAccess = false
  sliceStop : ∀ {s r : Items α τ} {base t : Expr α τ} {start : Tree α τ .bound}, NoPlainEquals s →
    parseSliceStop n base start s = some (t, r) → base.Grouped →
    primaryStrength ≤ base.strength → start.Grouped →
    Reads (base.yield ++ .sym (.char 91) :: (start.yield ++ [.sym .tokRange])) s t r ∧
      primaryStrength ≤ t.strength ∧ t.isFieldAccess = false
  args : ∀ {s r : Items α τ} {as : Tree α τ .args} {trailing mayClose : Bool}, NoPlainEquals s →
    parseArgs n trailing mayClose s = some (as, r) →
    Reads [] s as r ∧ (trailing = false → as.hasTrailingComma = false) ∧
      (mayClose = false → as.isNoArgs = false)
  binOpRHS : ∀ {s r : Items α τ} {p : ℤ} {lhs t : Expr α τ}, NoPlainEquals s →
    parseBinOpRHS n p lhs s = some (t, r) → 0 ≤ p → lhs.Grouped → lhs.LeftOpenAbove p →
    lhs.EndsBefore (getTokPrecedence s) →
    Reads lhs.yield s t r ∧ t.LeftOpenAbove p ∧ getTokPrecedence r < p

namespace Sound

variable {t base lhs : Expr α τ} {p : ℤ}

theorem expression_succ (ih : Sound α τ n) (hs : NoPlainEquals s)
    (h : parseExpression (n + 1) s = some (t, r)) : Reads [] s t r := by
  simp only [parseExpression, Option.bind_eq_bind, Option.bind_eq_some_iff, Prod.exists] at h
  obtain ⟨u, s₁, hunary, e, s₂, hclimb, h⟩ := h
  obtain ⟨hu, hstrength⟩ := ih.unary hs hunary
  have hs₁ := hs.of_suffix hu.suffix
  obtain ⟨hc, hopen, -⟩ := ih.binOpRHS hs₁ hclimb le_rfl hu.grouped
    (Tree.leftOpenAbove_of_strength hstrength) (Tree.endsBefore_of_strength hstrength)
  have hyield : s = e.yield ++ s₂ := hu.yield.trans hc.yield
  have hs₂ := hs₁.of_suffix hc.suffix
  split at h
  case isTrue hgive =>
    simp only [Option.bind_eq_some_iff, Prod.exists] at h
    obtain ⟨a, s₃, hthen, s₄, hotherwise, b, s₅, helse, h⟩ := h
    cases h
    have ha := ih.expression hs₂.tail hthen
    have hs₃ := expect_eq_some hotherwise
    have hb := ih.expression ((hs₂.tail.of_suffix ha.suffix).of_suffix ⟨[_], hs₃.symm⟩) helse
    refine .start ?_ ⟨hopen.strength_nonneg le_rfl, hc.grouped, ha.grouped, hb.grouped⟩
    calc s = e.yield ++ .sym .tokGive :: s₂.tail := by rw [← eq_cons_of_curTok hgive, hyield]
      _ = e.yield ++ .sym .tokGive :: (a.yield ++ .sym .tokOtherwise :: (b.yield ++ r)) := by
        rw [ha.eq, hs₃, hb.eq]
      _ = _ := by simp [Tree.yield]
  case isFalse =>
    split at h
    case isTrue => cases h
    case isFalse =>
      cases h
      exact .start hyield hc.grouped

theorem unary_succ (ih : Sound α τ n) (hs : NoPlainEquals s)
    (h : parseUnary (n + 1) s = some (t, r)) : Reads [] s t r ∧ prefixStrength ≤ t.strength := by
  have hprimary (h : parsePrimary n s = some (t, r)) :
      Reads [] s t r ∧ prefixStrength ≤ t.strength := by
    obtain ⟨ht, hstrength⟩ := ih.primary hs h
    exact ⟨ht, prefixStrength_lt.le.trans hstrength⟩
  unfold parseUnary at h
  split at h
  case h_1 op hop =>
    split at h
    case isTrue hunaryOp =>
      simp only [Option.bind_eq_bind, Option.bind_eq_some_iff, Prod.exists] at h
      obtain ⟨e, s₁, hunary, h⟩ := h
      cases h
      obtain ⟨he, hstrength⟩ := ih.unary hs.tail hunary
      refine ⟨.start ?_ ⟨.inl ⟨hunaryOp, hstrength⟩, he.grouped⟩, le_rfl⟩
      rw [eq_cons_of_curTok hop, he.eq]
      rfl
    case isFalse =>
      split at h
      case isTrue hstep =>
        simp only [Option.bind_eq_bind, Option.bind_eq_some_iff, Prod.exists] at h
        obtain ⟨e, s₁, hbase, h⟩ := h
        cases h
        obtain ⟨he, hstrength⟩ := ih.primary hs.tail hbase
        refine ⟨.start ?_ ⟨.inr ⟨hstep, hstrength⟩, he.grouped⟩, le_rfl⟩
        rw [eq_cons_of_curTok hop, he.eq]
        rfl
      case isFalse => exact hprimary h
  case h_2 => exact hprimary h

theorem primary_succ (ih : Sound α τ n) (hs : NoPlainEquals s)
    (h : parsePrimary (n + 1) s = some (t, r)) :
    Reads [] s t r ∧ primaryStrength ≤ t.strength := by
  unfold parsePrimary at h
  split at h
  case h_1 a s₁ =>
    have hs₁ : NoPlainEquals s₁ := hs.tail
    obtain ⟨ht, hstrength⟩ := ih.postfixExpression hs₁ h trivial le_rfl
      (by simp [Tree.isFieldAccess])
    exact ⟨.start ht.yield ht.grouped, hstrength⟩
  case h_2 op s₁ =>
    have hs₁ : NoPlainEquals s₁ := hs.tail
    split at h
    case isTrue hopen =>
      simp only [Option.bind_eq_bind, Option.bind_eq_some_iff, Prod.exists] at h
      obtain ⟨e, s₂, hinner, s₃, hclose, h⟩ := h
      have he := ih.expression hs₁ hinner
      have hs₂ := expect_eq_some hclose
      obtain ⟨ht, hstrength⟩ := ih.postfixExpression
        ((hs₁.of_suffix he.suffix).of_suffix ⟨[_], hs₂.symm⟩) h he.grouped le_rfl
        (by simp [Tree.isFieldAccess])
      refine ⟨.start ?_ ht.grouped, hstrength⟩
      rw [← ht.yield, he.eq, hs₂, hopen]
      simp [Tree.yield]
    case isFalse => cases h
  case h_3 => cases h

theorem postfixExpression_succ (ih : Sound α τ n) (hs : NoPlainEquals s)
    (h : parsePostfixExpression (n + 1) base s = some (t, r)) (hbase : base.Grouped)
    (hstrong : primaryStrength ≤ base.strength)
    (hfield : base.isFieldAccess → curTok s ≠ some (.char 40)) :
    Reads base.yield s t r ∧ primaryStrength ≤ t.strength := by
  unfold parsePostfixExpression at h
  split at h
  case h_1 name s₁ =>
    have hs₁ : NoPlainEquals s₁ := hs.tail
    split at h
    case isTrue hopen =>
      simp only [Option.bind_eq_bind, Option.bind_eq_some_iff, Prod.exists] at h
      obtain ⟨as, s₂, hargs, h⟩ := h
      obtain ⟨has, hcomma, -⟩ := ih.args hs₁.tail hargs
      obtain ⟨ht, hstrength⟩ := ih.postfixExpression (hs₁.tail.of_suffix has.suffix) h
        ⟨hstrong, hcomma rfl, hbase, has.grouped⟩ le_rfl (by simp [Tree.isFieldAccess])
      have hsuffix : s₂ <:+ .member name :: s₁ :=
        (has.suffix.trans s₁.tail_suffix).trans (List.suffix_cons _ _)
      refine ⟨⟨?_, ht.suffix.trans hsuffix, ht.grouped⟩, hstrength⟩
      rw [← ht.yield, eq_cons_of_curTok hopen, has.eq]
      simp [Tree.yield]
    case isFalse hopen =>
      split at h
      case isTrue => cases h
      case isFalse =>
        obtain ⟨ht, hstrength⟩ := ih.postfixExpression hs₁ h ⟨hstrong, hbase⟩ le_rfl
          fun _ => hopen
        refine ⟨⟨?_, ht.suffix.trans (List.suffix_cons _ _), ht.grouped⟩, hstrength⟩
        rw [← ht.yield]
        simp [Tree.yield]
  case h_2 op s₁ =>
    have hs₁ : NoPlainEquals s₁ := hs.tail
    split at h
    case isTrue hopen =>
      simp only [Option.bind_eq_bind, Option.bind_eq_some_iff, Prod.exists] at h
      obtain ⟨u, s₂, hindex, h⟩ := h
      obtain ⟨hu, hustrong, hufield⟩ := ih.index hs₁ hindex hbase hstrong
      obtain ⟨ht, hstrength⟩ := ih.postfixExpression (hs₁.of_suffix hu.suffix) h hu.grouped
        hustrong (by simp [hufield])
      refine ⟨⟨?_, (ht.suffix.trans hu.suffix).trans (List.suffix_cons _ _), ht.grouped⟩,
        hstrength⟩
      rw [← ht.yield, ← hu.yield, hopen]
      simp
    case isFalse =>
      split at h
      case isTrue hopen =>
        simp only [Option.bind_eq_bind, Option.bind_eq_some_iff, Prod.exists] at h
        obtain ⟨as, s₂, hargs, h⟩ := h
        obtain ⟨has, -, -⟩ := ih.args hs₁ hargs
        have hnofield : base.isFieldAccess = false := by
          by_contra htrue
          exact hfield (by simpa using htrue) (by simp [curTok, hopen])
        obtain ⟨ht, hstrength⟩ := ih.postfixExpression (hs₁.of_suffix has.suffix) h
          ⟨hstrong, hnofield, hbase, has.grouped⟩ le_rfl (by simp [Tree.isFieldAccess])
        refine ⟨⟨?_, (ht.suffix.trans has.suffix).trans (List.suffix_cons _ _), ht.grouped⟩,
          hstrength⟩
        rw [← ht.yield, has.eq, hopen]
        simp [Tree.yield]
      case isFalse =>
        split at h
        case isTrue hstep =>
          obtain ⟨ht, hstrength⟩ := ih.postfixExpression hs₁ h ⟨hstep, hstrong, hbase⟩ le_rfl
            (by simp [Tree.isFieldAccess])
          refine ⟨⟨?_, ht.suffix.trans (List.suffix_cons _ _), ht.grouped⟩, hstrength⟩
          rw [← ht.yield]
          simp [Tree.yield]
        case isFalse =>
          cases h
          exact ⟨⟨rfl, List.suffix_rfl, hbase⟩, hstrong⟩
  case h_3 =>
    cases h
    exact ⟨⟨rfl, List.suffix_rfl, hbase⟩, hstrong⟩

theorem index_succ (ih : Sound α τ n) (hs : NoPlainEquals s)
    (h : parseIndex (n + 1) base s = some (t, r)) (hbase : base.Grouped)
    (hstrong : primaryStrength ≤ base.strength) :
    Reads (base.yield ++ [.sym (.char 91)]) s t r ∧ primaryStrength ≤ t.strength ∧
      t.isFieldAccess = false := by
  unfold parseIndex at h
  split at h
  case isTrue hrange =>
    obtain ⟨ht, hstrength⟩ := ih.sliceStop hs.tail h hbase hstrong trivial
    refine ⟨⟨?_, ht.suffix.trans s.tail_suffix, ht.grouped⟩, hstrength⟩
    rw [← ht.yield, eq_cons_of_curTok hrange]
    simp [Tree.yield]
  case isFalse =>
    simp only [Option.bind_eq_bind, Option.bind_eq_some_iff, Prod.exists] at h
    obtain ⟨e, s₁, hindex, h⟩ := h
    have he := ih.expression hs hindex
    have hs₁ := hs.of_suffix he.suffix
    split at h
    case isTrue hrange =>
      obtain ⟨ht, hstrength⟩ := ih.sliceStop hs₁.tail h hbase hstrong he.grouped
      refine ⟨⟨?_, (ht.suffix.trans s₁.tail_suffix).trans he.suffix, ht.grouped⟩, hstrength⟩
      rw [← ht.yield, he.eq, eq_cons_of_curTok hrange]
      simp [Tree.yield]
    case isFalse =>
      simp only [Option.bind_eq_some_iff] at h
      obtain ⟨s₂, hclose, h⟩ := h
      cases h
      have hs₂ := expect_eq_some hclose
      refine ⟨⟨?_, .trans ⟨[_], hs₂.symm⟩ he.suffix, hstrong, hbase, he.grouped⟩, le_rfl, rfl⟩
      rw [he.eq, hs₂]
      simp [Tree.yield]

theorem sliceStop_succ {start : Tree α τ .bound} (ih : Sound α τ n) (hs : NoPlainEquals s)
    (h : parseSliceStop (n + 1) base start s = some (t, r)) (hbase : base.Grouped)
    (hstrong : primaryStrength ≤ base.strength) (hstart : start.Grouped) :
    Reads (base.yield ++ .sym (.char 91) :: (start.yield ++ [.sym .tokRange])) s t r ∧
      primaryStrength ≤ t.strength ∧ t.isFieldAccess = false := by
  unfold parseSliceStop at h
  split at h
  case isTrue hclose =>
    cases h
    refine ⟨⟨?_, s.tail_suffix, hstrong, hbase, hstart, trivial⟩, le_rfl, rfl⟩
    rw [eq_cons_of_curTok hclose]
    simp [Tree.yield]
  case isFalse =>
    simp only [Option.bind_eq_bind, Option.bind_eq_some_iff, Prod.exists] at h
    obtain ⟨e, s₁, hstop, s₂, hclose, h⟩ := h
    cases h
    have he := ih.expression hs hstop
    have hs₁ := expect_eq_some hclose
    refine ⟨⟨?_, .trans ⟨[_], hs₁.symm⟩ he.suffix, hstrong, hbase, hstart, he.grouped⟩, le_rfl,
      rfl⟩
    rw [he.eq, hs₁]
    simp [Tree.yield]

theorem args_succ {as : Tree α τ .args} {trailing mayClose : Bool} (ih : Sound α τ n)
    (hs : NoPlainEquals s) (h : parseArgs (n + 1) trailing mayClose s = some (as, r)) :
    Reads [] s as r ∧ (trailing = false → as.hasTrailingComma = false) ∧
      (mayClose = false → as.isNoArgs = false) := by
  unfold parseArgs at h
  split at h
  case isTrue hclose =>
    cases h
    refine ⟨.start (eq_cons_of_curTok hclose.2) trivial, fun _ => rfl, fun hmay => ?_⟩
    simp [hmay] at hclose
  case isFalse =>
    simp only [Option.bind_eq_bind, Option.bind_eq_some_iff, Prod.exists] at h
    obtain ⟨e, s₁, harg, h⟩ := h
    have he := ih.expression hs harg
    split at h
    case isTrue hcomma =>
      simp only [Option.bind_eq_some_iff, Prod.exists] at h
      obtain ⟨rest, s₂, hrest, h⟩ := h
      cases h
      obtain ⟨hr, hrcomma, hrclose⟩ := ih.args (hs.of_suffix he.suffix).tail hrest
      refine ⟨.start ?_ ⟨he.grouped, hr.grouped⟩, fun htrailing => ?_, fun _ => rfl⟩
      · rw [he.eq, eq_cons_of_curTok hcomma, hr.eq]
        simp [Tree.yield]
      · simp [Tree.hasTrailingComma, hrcomma htrailing, hrclose htrailing]
    case isFalse =>
      simp only [Option.bind_eq_some_iff] at h
      obtain ⟨s₂, hclose, h⟩ := h
      cases h
      refine ⟨.start ?_ he.grouped, fun _ => rfl, fun _ => rfl⟩
      rw [he.eq, expect_eq_some hclose]
      simp [Tree.yield]

theorem binOpRHS_succ (ih : Sound α τ n) (hs : NoPlainEquals s)
    (h : parseBinOpRHS (n + 1) p lhs s = some (t, r)) (hp : 0 ≤ p) (hlhs : lhs.Grouped)
    (hopen : lhs.LeftOpenAbove p) (hends : lhs.EndsBefore (getTokPrecedence s)) :
    Reads lhs.yield s t r ∧ t.LeftOpenAbove p ∧ getTokPrecedence r < p := by
  by_cases hstop : getTokPrecedence s < p
  · rw [parseBinOpRHS_stop hstop] at h
    cases h
    exact ⟨⟨rfl, List.suffix_rfl, hlhs⟩, hopen, hstop⟩
  obtain ⟨op, hop⟩ := exists_curTok (hp.trans (not_lt.mp hstop))
  rw [getTokPrecedence_of_curTok hop] at hends hstop
  rw [not_lt] at hstop
  have hs₁ := eq_cons_of_curTok hop
  have hplain : op ≠ .char 61 := by
    rintro rfl
    exact hs (by rw [hs₁]; exact List.mem_cons_self)
  have hfits : lhs.isCast ∨ leftBound op ≤ lhs.strength :=
    (Tree.fits_iff (hp.trans hstop) hplain hlhs (hopen.strength_nonneg hp)).mpr hends
  by_cases hto : op = .tokTo
  · subst hto
    rw [parseBinOpRHS_to hop hstop] at h
    simp only [Option.bind_eq_some_iff, Prod.exists] at h
    obtain ⟨T, s₂, htype, h⟩ := h
    have hs₂ := parseType_eq_some htype
    have hsuffix : s₂ <:+ s.tail := ⟨[_], hs₂.symm⟩
    have hlevel : precedenceOf .tokTo ≤ lhs.strength := by
      obtain hcast | hbound := hfits
      · cases lhs <;> simp [Tree.isCast] at hcast
        exact le_rfl
      · exact hbound
    obtain ⟨ht, htopen, hnext⟩ := ih.binOpRHS (hs.tail.of_suffix hsuffix) h hp ⟨hlevel, hlhs⟩
      ⟨hstop, hopen⟩ trivial
    refine ⟨⟨?_, (ht.suffix.trans hsuffix).trans s.tail_suffix, ht.grouped⟩, htopen, hnext⟩
    rw [← ht.yield, hs₁, hs₂]
    simp [Tree.yield]
  · rw [parseBinOpRHS_operator hop hto hstop] at h
    simp only [climb, Option.bind_eq_some_iff, Prod.exists] at h
    obtain ⟨rhs, s₃, ⟨u, s₂, hunary, hclimb⟩, h⟩ := h
    obtain ⟨hu, hustrong⟩ := ih.unary hs.tail hunary
    have hbound : 0 ≤ rightBound op := (hp.trans hstop).trans (le_rightBound op)
    have hs₂ := hs.tail.of_suffix hu.suffix
    obtain ⟨hr, hropen, hrnext⟩ := ih.binOpRHS hs₂ hclimb hbound hu.grouped
      (Tree.leftOpenAbove_of_strength hustrong) (Tree.endsBefore_of_strength hustrong)
    obtain ⟨ht, htopen, hnext⟩ := ih.binOpRHS (hs₂.of_suffix hr.suffix) h hp
      ⟨⟨hp.trans hstop, hto, hplain⟩, hfits, hropen, hlhs, hr.grouped⟩ ⟨hstop, hopen⟩ hrnext
    have hsuffix : r <:+ s.tail := (ht.suffix.trans hr.suffix).trans hu.suffix
    refine ⟨⟨?_, hsuffix.trans s.tail_suffix, ht.grouped⟩, htopen, hnext⟩
    rw [← ht.yield, hs₁, hu.eq, hr.yield]
    simp [Tree.yield]

end Sound

/-- Whatever the fuel is. -/
theorem sound (n : ℕ) : Sound α τ n := by
  induction n with
  | zero =>
    constructor <;>
    · intros
      contradiction
  | succ n ih =>
    exact {
      expression := ih.expression_succ
      unary := ih.unary_succ
      primary := ih.primary_succ
      postfixExpression := ih.postfixExpression_succ
      index := ih.index_succ
      sliceStop := ih.sliceStop_succ
      args := ih.args_succ
      binOpRHS := ih.binOpRHS_succ }

end Precedence

end TurfLang
