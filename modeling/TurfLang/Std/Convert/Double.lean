import TurfLang.Std.Convert.Int

/-!
# The scanners of a `double`, and the three places compared

`scanNumber` (the C pointer) passes over exactly a text of the grammar `NumberText`, and the
scanners over positions stop where it does. `conversionsAgree_iff` says when cast, parse
function and compile-time check agree.
-/

namespace TurfLang

namespace Convert

open Strings

variable {D : Type}

/-! ### The texts of a `double` -/

/-- Digits with at most one point, at least one digit on either side of it. -/
inductive Mantissa : Bytes → Prop
  | whole {ds : Bytes} (hds : Digits ds) (hne : ds ≠ []) : Mantissa ds
  | point {ds frac : Bytes} (hds : Digits ds) (hfrac : Digits frac) (hne : ds ≠ [] ∨ frac ≠ []) :
      Mantissa (ds ++ 46 :: frac)

/-- The text of a `double`: `-?(D+(.D*)?|.D+)([eE][+-]?D+)?`. -/
inductive NumberText : Bytes → Prop
  | intro {sign m exp : Bytes} (hsign : sign = [] ∨ sign = [45]) (hm : Mantissa m)
      (hexp : Exponent exp) : NumberText (sign ++ (m ++ exp))

theorem digitsLoop_append {ds rest : Bytes} {n : ℕ} (hds : Digits ds)
    (hrest : isDigit (deref rest) = false) : digitsLoop (ds ++ rest) n = (rest, n + ds.length) := by
  induction ds generalizing n with
  | nil =>
    cases rest with
    | nil => rfl
    | cons c rest => rw [List.nil_append, digitsLoop, if_neg (by simpa [deref] using hrest)]; rfl
  | cons c ds ih =>
    rw [List.cons_append, digitsLoop, if_pos (hds c (by simp)),
      ih fun d hd => hds d (by simp [hd]), List.length_cons]
    congr 1
    omega

/-- A loop over digits stops after a run of them, at a byte that is none. -/
theorem digitsLoop_spec {p p' : Bytes} {n m : ℕ} (h : digitsLoop p n = (p', m)) :
    ∃ ds, p = ds ++ p' ∧ Digits ds ∧ m = n + ds.length ∧ isDigit (deref p') = false := by
  induction p generalizing n with
  | nil =>
    obtain ⟨rfl, rfl⟩ := Prod.mk.inj h
    exact ⟨[], rfl, by simp [Digits], rfl, rfl⟩
  | cons c p ih =>
    rw [digitsLoop] at h
    by_cases hc : isDigit c = true
    · rw [if_pos hc] at h
      obtain ⟨ds, rfl, hds, rfl, hstop⟩ := ih h
      refine ⟨c :: ds, rfl, ?_, by rw [List.length_cons]; omega, hstop⟩
      simpa [Digits, hc] using hds
    · rw [if_neg hc] at h
      obtain ⟨rfl, rfl⟩ := Prod.mk.inj h
      exact ⟨[], rfl, by simp [Digits], rfl, by simpa [deref] using hc⟩

theorem stepOver_of_ne {a b : UInt8} {p : Bytes} (ha : deref p ≠ a) (hb : deref p ≠ b) :
    stepOver a b p = p :=
  if_neg (by tauto)

theorem deref_append {t rest : Bytes} (h : t ≠ []) : deref (t ++ rest) = deref t := by
  obtain ⟨c, t, rfl⟩ := List.exists_cons_of_ne_nil h
  rfl

theorem isDigit_deref {ds : Bytes} (hds : Digits ds) (hne : ds ≠ []) :
    isDigit (deref ds) = true := by
  obtain ⟨c, ds, rfl⟩ := List.exists_cons_of_ne_nil hne
  exact hds c (by simp)

theorem ne_of_isDigit {c d : UInt8} (hc : isDigit c = true) (hd : isDigit d = false) : c ≠ d := by
  rintro rfl
  rw [hc] at hd
  exact absurd hd (by decide)

/-- Where an exponent starts, or a number ends, there is no digit and no point. -/
theorem deref_exponent {exp rest : Bytes} (hexp : Exponent exp) (hrest : deref rest = 0) :
    isDigit (deref (exp ++ rest)) = false ∧ deref (exp ++ rest) ≠ 46 := by
  cases hexp with
  | none => rw [List.nil_append, hrest]; decide
  | some he => rcases he with rfl | rfl <;> exact ⟨rfl, by simp [deref]⟩

/-- The steps over an exponent, or over nothing at the end of a number. -/
theorem exponent_append {exp rest : Bytes} (hexp : Exponent exp) (hrest : deref rest = 0) :
    (if deref (exp ++ rest) = 101 ∨ deref (exp ++ rest) = 69 then
      let (p, expDigits) := digitsLoop (stepOver 43 45 (exp ++ rest).tail) 0
      if expDigits = 0 then none else some p
    else some (exp ++ rest)) = some rest := by
  cases hexp with
  | none => rw [List.nil_append, hrest, if_neg (by decide)]
  | @some e sign ds he hsign hds hne =>
    have hdigit := isDigit_deref hds hne
    have hstep : stepOver 43 45 (sign ++ (ds ++ rest)) = ds ++ rest := by
      rcases hsign with rfl | rfl | rfl
      · rw [List.nil_append]
        refine stepOver_of_ne ?_ ?_ <;> rw [deref_append hne]
        · exact ne_of_isDigit hdigit rfl
        · exact ne_of_isDigit hdigit rfl
      · rfl
      · rfl
    rw [List.cons_append, if_pos (by exact he), List.tail_cons, List.append_assoc, hstep,
      digitsLoop_append hds (by rw [hrest]; rfl)]
    exact if_neg (by simpa using hne)

/-- The C scanner passes over a number that ends at a terminator. -/
theorem scanNumber_append {t rest : Bytes} (ht : NumberText t) (hrest : deref rest = 0) :
    scanNumber (t ++ rest) = some rest := by
  obtain @⟨sign, m, exp, hsign, hm, hexp⟩ := ht
  obtain ⟨hdigit, hpoint⟩ := deref_exponent hexp hrest
  rw [List.append_assoc, List.append_assoc]
  have hsigned : ∀ q, deref q ≠ 45 → stepOver 45 45 (sign ++ q) = q := by
    intro q hq
    rcases hsign with rfl | rfl
    · exact stepOver_of_ne hq hq
    · rfl
  cases hm with
  | whole hds hne =>
    have hhead : deref (m ++ (exp ++ rest)) ≠ 45 := by
      rw [deref_append hne]
      exact ne_of_isDigit (isDigit_deref hds hne) rfl
    simp only [scanNumber, hsigned _ hhead, digitsLoop_append hds hdigit, if_neg hpoint]
    rw [if_neg (by simpa using hne)]
    exact exponent_append hexp hrest
  | @point ds frac hds hfrac hne =>
    have hlen : ¬ (0 + ds.length + frac.length = 0) := by
      rcases hne with hne | hne <;> have := List.length_pos_iff.2 hne <;> omega
    have hhead : deref (ds ++ (46 :: frac ++ (exp ++ rest))) ≠ 45 := by
      cases ds with
      | nil => exact (by decide : (46 : UInt8) ≠ 45)
      | cons c ds => exact ne_of_isDigit (hds c (by simp)) rfl
    rw [List.append_assoc]
    simp only [scanNumber, hsigned _ hhead]
    rw [digitsLoop_append hds (by rfl)]
    simp only [List.cons_append, deref, List.headD_cons, if_true, List.tail_cons]
    rw [digitsLoop_append hfrac hdigit]
    simp only [if_neg hlen]
    exact exponent_append hexp hrest

theorem stepOver_spec (a b : UInt8) (p : Bytes) :
    ∃ sign, p = sign ++ stepOver a b p ∧ (sign = [] ∨ sign = [a] ∨ sign = [b]) := by
  unfold stepOver
  by_cases h : deref p = a ∨ deref p = b
  · rw [if_pos h]
    cases p with
    | nil => exact ⟨[], rfl, .inl rfl⟩
    | cons c p =>
      refine ⟨[c], rfl, ?_⟩
      rcases h with h | h
      · obtain rfl : c = a := h
        exact .inr (.inl rfl)
      · obtain rfl : c = b := h
        exact .inr (.inr rfl)
  · rw [if_neg h]
    exact ⟨[], rfl, .inl rfl⟩

theorem cons_of_deref {p : Bytes} {c : UInt8} (hc : c ≠ 0) (h : deref p = c) :
    p = c :: p.tail := by
  cases p with
  | nil => exact absurd h.symm hc
  | cons d p =>
    obtain rfl : d = c := h
    rfl

/-- The steps after the mantissa pass over an exponent, or over nothing. -/
theorem of_exponent {q p : Bytes}
    (h : (if deref q = 101 ∨ deref q = 69 then
      let (p, expDigits) := digitsLoop (stepOver 43 45 q.tail) 0
      if expDigits = 0 then none else some p
    else some q) = some p) : ∃ exp, Exponent exp ∧ q = exp ++ p := by
  by_cases he : deref q = 101 ∨ deref q = 69
  · rw [if_pos he] at h
    obtain ⟨sign, hsign, hcases⟩ := stepOver_spec 43 45 q.tail
    cases hloop : digitsLoop (stepOver 43 45 q.tail) 0 with
    | mk p' n =>
      obtain ⟨ds, hds, hdigits, rfl, -⟩ := digitsLoop_spec hloop
      simp only [hloop] at h
      have hne : ds ≠ [] := by
        rintro rfl
        exact nomatch h
      have hlen : ¬ (0 + ds.length = 0) := by simpa using hne
      rw [if_neg hlen, Option.some.injEq] at h
      subst h
      refine ⟨deref q :: (sign ++ ds), .some he hcases hdigits hne, ?_⟩
      have hq : q = deref q :: q.tail := by
        rcases he with he | he
        · rw [he]; exact cons_of_deref (by decide) he
        · rw [he]; exact cons_of_deref (by decide) he
      rw [List.cons_append, List.append_assoc, ← hds, ← hsign]
      exact hq
  · rw [if_neg he, Option.some.injEq] at h
    exact ⟨[], .none, h⟩

/-- What the C scanner passes over is a number. -/
theorem of_scanNumber {s p : Bytes} (h : scanNumber s = some p) : ∃ t, NumberText t ∧ s = t ++ p := by
  obtain ⟨sign, hs, hsign⟩ := stepOver_spec 45 45 s
  have hsign : sign = [] ∨ sign = [45] := by tauto
  unfold scanNumber at h
  cases hloop : digitsLoop (stepOver 45 45 s) 0 with
  | mk q n =>
    obtain ⟨ds, hds, hdigits, rfl, -⟩ := digitsLoop_spec hloop
    simp only [hloop] at h
    by_cases hpoint : deref q = 46
    · have hq := cons_of_deref (by decide) hpoint
      cases hloop' : digitsLoop q.tail (0 + ds.length) with
      | mk r m =>
        obtain ⟨frac, hfrac, hfdigits, rfl, -⟩ := digitsLoop_spec hloop'
        simp only [if_pos hpoint, hloop'] at h
        have hne : ds ≠ [] ∨ frac ≠ [] := by
          by_contra hnil
          rw [not_or, not_not, not_not] at hnil
          obtain ⟨rfl, rfl⟩ := hnil
          exact nomatch h
        have hlen : ¬ (0 + ds.length + frac.length = 0) := by
          rcases hne with hne | hne <;> have := List.length_pos_iff.2 hne <;> omega
        rw [if_neg hlen] at h
        obtain ⟨exp, hexp, rfl⟩ := of_exponent h
        refine ⟨_, .intro hsign (.point hdigits hfdigits hne) hexp, ?_⟩
        rw [hs, hds, hq, hfrac]
        simp
    · simp only [if_neg hpoint] at h
      have hne : ds ≠ [] := by
        rintro rfl
        exact nomatch h
      have hlen : ¬ (0 + ds.length = 0) := by simpa using hne
      rw [if_neg hlen] at h
      obtain ⟨exp, hexp, rfl⟩ := of_exponent h
      refine ⟨_, .intro hsign (.whole hdigits hne) hexp, ?_⟩
      rw [hs, hds]
      simp

theorem NumberText.noNul {t : Bytes} (h : NumberText t) : 0 ∉ t := by
  have hdigits : ∀ {ds : Bytes}, Digits ds → (0 : UInt8) ∉ ds := fun hds h0 =>
    absurd (hds 0 h0) (by decide)
  obtain @⟨sign, m, exp, hsign, hm, hexp⟩ := h
  simp only [List.mem_append, not_or]
  refine ⟨?_, ?_, ?_⟩
  · rcases hsign with rfl | rfl <;> decide
  · cases hm with
    | whole hds => exact hdigits hds
    | point hds hfrac => simp [hdigits hds, hdigits hfrac]
  · cases hexp with
    | none => simp
    | some he hsign hds =>
      rcases he with rfl | rfl <;> rcases hsign with rfl | rfl | rfl <;> simp [hdigits hds]

/-- A string in memory is its bytes, and then the terminator or the end of what is listed. -/
theorem exists_cString (s : Bytes) : ∃ rest, s = cString s ++ rest ∧ deref rest = 0 := by
  refine ⟨s.dropWhile (· ≠ 0), (List.takeWhile_append_dropWhile).symm, ?_⟩
  induction s with
  | nil => rfl
  | cons c s ih =>
    by_cases hc : c = 0
    · simp [hc, deref]
    · simpa [hc] using ih

theorem cString_append {t r : Bytes} (h : 0 ∉ t) (hr : deref r = 0) :
    cString (t ++ r) = t := by
  have hnil : cString r = [] := by
    cases r with
    | nil => rfl
    | cons c r =>
      obtain rfl : c = 0 := hr
      rfl
  unfold cString at hnil ⊢
  rw [List.takeWhile_append_of_pos, hnil, List.append_nil]
  intro c hc
  simpa using fun h0 : c = 0 => h (h0 ▸ hc)

theorem cString_of_noNul {t : Bytes} (h : 0 ∉ t) : cString t = t := by
  have happ := cString_append (r := []) h rfl
  rwa [List.append_nil] at happ

/-- `turf_rt_str_to_double` accepts the texts of a `double`. -/
theorem strToDouble_eq_ok_iff {strtod : Bytes → D} {s : Bytes} {d : D} :
    strToDouble strtod (some s) = .ok d ↔ NumberText (cString s) ∧ d = strtod (cString s) := by
  unfold strToDouble
  constructor
  · intro h
    cases hscan : scanNumber s with
    | none => simp [hscan] at h
    | some p =>
      by_cases hp : deref p = 0
      · obtain ⟨t, ht, rfl⟩ := of_scanNumber hscan
        simp only [hscan, hp, ne_eq, not_true, if_false, Except.ok.injEq] at h
        rw [cString_append ht.noNul hp] at h ⊢
        exact ⟨ht, h.symm⟩
      · simp [hscan, hp] at h
  · rintro ⟨ht, rfl⟩
    obtain ⟨rest, hs, hrest⟩ := exists_cString s
    have hscan : scanNumber s = some rest := by
      rw [hs]
      exact scanNumber_append ht hrest
    simp [hscan, hrest]

section Positions

variable {S : Bytes} {i : ℕ}

theorem byteAtUnchecked_eq_deref (S : Bytes) (i : ℕ) : byteAtUnchecked S i = deref (S.drop i) := by
  rw [byteAtUnchecked, deref, List.headD_eq_head?_getD, List.head?_drop,
    List.getD_eq_getElem?_getD]

theorem lt_length_of_deref {c : UInt8} (hc : c ≠ 0) (h : deref (S.drop i) = c) : i < S.length := by
  by_contra hge
  rw [List.drop_eq_nil_of_le (by omega)] at h
  exact hc h.symm

/-- Comparing the code of a byte below the length is comparing what the pointer stands at. -/
theorem charToInt_byteAt_iff {c : UInt8} (hc : c.toNat < 128) :
    charToInt (byteAtUnchecked S i) = c.toNat ↔ deref (S.drop i) = c := by
  rw [charToInt_eq_iff hc, UInt8.ofNat_toNat, byteAtUnchecked_eq_deref]

theorem drop_skipOneOf {a b : UInt8} (ha : a ≠ 0) (hb : b ≠ 0) (ha' : a.toNat < 128)
    (hb' : b.toNat < 128) :
    S.drop (skipOneOf S S.length a.toNat b.toNat i) = stepOver a b (S.drop i) := by
  rw [skipOneOf, stepOver]
  by_cases h : deref (S.drop i) = a ∨ deref (S.drop i) = b
  · have hlt : i < S.length := h.elim (lt_length_of_deref ha) (lt_length_of_deref hb)
    rw [if_pos h, if_pos ⟨hlt, by rwa [charToInt_byteAt_iff ha', charToInt_byteAt_iff hb']⟩,
      List.tail_drop]
  · rw [if_neg h, if_neg]
    rintro ⟨-, hc⟩
    rw [charToInt_byteAt_iff ha', charToInt_byteAt_iff hb'] at hc
    exact h hc

/-- The loop over positions stops where the pointer does, after as many digits. -/
theorem digitsLoop_drop (S : Bytes) (i n : ℕ) :
    digitsLoop (S.drop i) n =
      (S.drop (skipDigits S S.length i), n + (skipDigits S S.length i - i)) := by
  cases hloop : digitsLoop (S.drop i) n with
  | mk p m =>
    obtain ⟨ds, hds, hdigits, rfl, hstop⟩ := digitsLoop_spec hloop
    have hrest : ∀ c ∈ p.head?, isDigit c = false := by
      intro c hc
      cases p with
      | nil => cases hc
      | cons d p =>
        obtain rfl : d = c := by simpa using hc
        exact hstop
    rw [skipDigits_of_drop hds hdigits hrest, drop_add_of_drop hds, Nat.add_sub_cancel_left]

theorem atPoint_iff :
    i < S.length ∧ charToInt (byteAtUnchecked S i) = 46 ↔ deref (S.drop i) = 46 := by
  have h46 := charToInt_byteAt_iff (S := S) (i := i) (c := 46) (by decide)
  exact ⟨fun h => h46.1 h.2, fun h => ⟨lt_length_of_deref (by decide) h, h46.2 h⟩⟩

theorem atExponent_iff :
    AtExponent S S.length i ↔ deref (S.drop i) = 101 ∨ deref (S.drop i) = 69 := by
  have h101 := charToInt_byteAt_iff (S := S) (i := i) (c := 101) (by decide)
  have h69 := charToInt_byteAt_iff (S := S) (i := i) (c := 69) (by decide)
  refine ⟨fun h => h.2.imp h101.1 h69.1, fun h => ⟨?_, h.imp h101.2 h69.2⟩⟩
  rcases h with h | h <;> exact lt_length_of_deref (by decide) h

/-- The scanner over positions ends where the C scanner's pointer does. -/
theorem scanNumber_eq_positions (S : Bytes) :
    let i₁ := skipOneOf S S.length 45 45 0
    let i₂ := skipDigits S S.length i₁
    let i₃ := skipFraction S S.length i₂
    let start := skipOneOf S S.length 43 45 (i₃ + 1)
    let i₄ := skipDigits S S.length start
    scanNumber S =
      if (i₂ - i₁) + (i₃ - (i₂ + 1)) = 0 then none
      else if AtExponent S S.length i₃ then
        if i₄ - start = 0 then none else some (S.drop i₄)
      else some (S.drop i₃) := by
  intro i₁ i₂ i₃ start i₄
  have h₁ : stepOver 45 45 S = S.drop i₁ :=
    (drop_skipOneOf (i := 0) (by decide) (by decide) (by decide) (by decide)).symm
  have h₂ : digitsLoop (S.drop i₁) 0 = (S.drop i₂, i₂ - i₁) := by
    rw [digitsLoop_drop, Nat.zero_add]
  have h₃ : (if deref (S.drop i₂) = 46 then digitsLoop (S.drop i₂).tail (i₂ - i₁)
      else (S.drop i₂, i₂ - i₁)) = (S.drop i₃, (i₂ - i₁) + (i₃ - (i₂ + 1))) := by
    by_cases hpoint : deref (S.drop i₂) = 46
    · have hi₃ : i₃ = skipDigits S S.length (i₂ + 1) := if_pos (atPoint_iff.2 hpoint)
      rw [if_pos hpoint, List.tail_drop, digitsLoop_drop, ← hi₃]
    · have hi₃ : i₃ = i₂ := if_neg (mt atPoint_iff.1 hpoint)
      rw [if_neg hpoint, hi₃, Nat.sub_eq_zero_of_le (Nat.le_succ i₂), Nat.add_zero]
  have h₄ : stepOver 43 45 (S.drop i₃).tail = S.drop start := by
    rw [List.tail_drop]
    exact (drop_skipOneOf (by decide) (by decide) (by decide) (by decide)).symm
  have h₅ : digitsLoop (S.drop start) 0 = (S.drop i₄, i₄ - start) := by
    rw [digitsLoop_drop, Nat.zero_add]
  simp only [scanNumber, h₁, h₂, h₃, h₄, h₅, atExponent_iff]

theorem drop_eq_nil_iff_of_le {n : ℕ} (h : n ≤ S.length) : S.drop n = [] ↔ n = S.length := by
  rw [List.drop_eq_nil_iff]
  omega

theorem skipOneOf_le {a b : ℤ} {n : ℕ} (h : i ≤ n) : skipOneOf S n a b i ≤ n := by
  unfold skipOneOf
  split_ifs with hlt
  · exact hlt.1
  · exact h

theorem skipDigits_le {n : ℕ} (h : i ≤ n) : skipDigits S n i ≤ n := Loop.scan_le h

theorem skipFraction_le {n : ℕ} (h : i ≤ n) : skipFraction S n i ≤ n := by
  unfold skipFraction
  split_ifs with hlt
  · exact skipDigits_le hlt.1
  · exact h

theorem numberText_iff_scanNumber : NumberText S ↔ scanNumber S = some [] := by
  constructor
  · intro h
    rw [← S.append_nil]
    exact scanNumber_append h rfl
  · intro h
    obtain ⟨t, ht, hS⟩ := of_scanNumber h
    rwa [hS, List.append_nil]

end Positions

/-- `literalConvertsToDouble` accepts the texts of a `double`, all decoded bytes counted. -/
theorem literalConvertsToDouble_iff {S : Bytes} :
    literalConvertsToDouble S = true ↔ NumberText S := by
  have hscan := scanNumber_eq_positions S
  have hle₃ := skipFraction_le (S := S) (skipDigits_le (skipOneOf_le (Nat.zero_le S.length)
    (a := 45) (b := 45) (S := S)) (S := S))
  simp only [numberText_iff_scanNumber, literalConvertsToDouble] at hscan ⊢
  generalize skipOneOf S S.length 45 45 0 = i₁ at *
  generalize skipDigits S S.length i₁ = i₂ at *
  generalize skipFraction S S.length i₂ = i₃ at *
  rw [hscan]
  by_cases hdigits : (i₂ - i₁) + (i₃ - (i₂ + 1)) = 0
  · simp [hdigits]
  by_cases hexp : AtExponent S S.length i₃
  · have hle₄ := skipDigits_le (S := S) (skipOneOf_le (show i₃ + 1 ≤ S.length from hexp.1)
      (a := 43) (b := 45) (S := S))
    generalize skipOneOf S S.length 43 45 (i₃ + 1) = start at *
    generalize skipDigits S S.length start = i₄ at *
    by_cases hexpDigits : i₄ - start = 0
    · simp [hexp, hexpDigits]
    · rw [if_neg hdigits, if_pos hexp, if_neg hexpDigits, if_neg hdigits, if_pos hexp,
        if_neg hexpDigits, Option.some.injEq, drop_eq_nil_iff_of_le hle₄, decide_eq_true_eq]
  · rw [if_neg hdigits, if_neg hexp, if_neg hdigits, if_neg hexp, Option.some.injEq,
      drop_eq_nil_iff_of_le hle₃, decide_eq_true_eq]

/-- `parse_double` scans as the check of literals does. -/
theorem parseDouble_eq {t : Bytes} (h : 0 ∉ t) (toDouble : Bytes → D) :
    parseDouble toDouble t =
      if literalConvertsToDouble t then .ok (toDouble t) else .error (notADouble t) := by
  simp only [parseDouble, strlen_of_noNul h, literalConvertsToDouble]
  generalize skipOneOf t t.length 45 45 0 = i₁
  generalize skipDigits t t.length i₁ = i₂
  generalize skipFraction t t.length i₂ = i₃
  generalize skipOneOf t t.length 43 45 (i₃ + 1) = start
  generalize skipDigits t t.length start = i₄
  by_cases hdigits : (i₂ - i₁) + (i₃ - (i₂ + 1)) = 0
  · simp [hdigits]
  by_cases hexp : AtExponent t t.length i₃
  · by_cases hexpDigits : i₄ - start = 0
    · simp [hexp, hexpDigits]
    · simp only [if_neg hdigits, if_pos hexp, if_neg hexpDigits, ne_eq, ite_not, decide_eq_true_eq]
  · simp only [if_neg hdigits, if_neg hexp, ne_eq, ite_not, decide_eq_true_eq]

/-- Every text of an `int` is one of a `double`. -/
theorem IntText.numberText {t : Bytes} {v : ℤ} (h : IntText t v) : NumberText t := by
  cases h.1 with
  | nonneg hds hne => simpa using NumberText.intro (.inl rfl) (.whole hds hne) .none
  | neg hds hne => simpa using NumberText.intro (.inr rfl) (.whole hds hne) .none

/-! ### The three agree -/

/-- Cast, parse function and compile-time check agree about the literal of the bytes `S` and
about the string it is at run time, `cString S`: the same grammar, the same value. -/
structure ConversionsAgree (strtod : Bytes → D) (S : Bytes) : Prop where
  strToInt : ∀ v, strToInt (some (cString S)) = .ok v ↔ IntText (cString S) v
  parseInt : ∀ v, parseInt (cString S) = .ok v ↔ IntText (cString S) v
  noOverflow : Convert.strToInt (some (cString S)) ≠ .error .overflow ∧
    Convert.parseInt (cString S) ≠ .error .overflow
  strToDouble : ∀ d, strToDouble strtod (some (cString S)) = .ok d ↔
    NumberText (cString S) ∧ d = strtod (cString S)
  parseDouble : ∀ r, parseDouble (fun s => Convert.strToDouble strtod (some s)) (cString S) = .ok r ↔
    NumberText (cString S) ∧ r = .ok (strtod (cString S))
  literalInt : literalCastError .int S = none ↔ ∃ v, Convert.strToInt (some S) = .ok v
  literalDouble : literalCastError .double S = none ↔
    ∃ d, Convert.strToDouble strtod (some S) = .ok d

theorem noNul_cString (S : Bytes) : 0 ∉ cString S := fun h => by
  simpa using List.mem_takeWhile_imp h

theorem strToInt_eq_ok_iff {s : Bytes} {v : ℤ} :
    strToInt (some s) = .ok v ↔ IntText (cString s) v := by
  rw [strToInt_eq, readInt_eq_ok_iff]

/-- The casts and the parse functions agree on every string. The compile-time check agrees with
them on a literal unless it has a NUL after the text of a number: the check reads on, and the
program does not. -/
theorem conversionsAgree_iff (strtod : Bytes → D) (S : Bytes) :
    ConversionsAgree strtod S ↔ (0 ∈ S → ¬ NumberText (cString S)) := by
  have hnul := noNul_cString S
  have hcstr : cString (cString S) = cString S := cString_of_noNul hnul
  constructor
  · intro h hmem hnum
    have hlit := h.literalDouble.2 ⟨_, strToDouble_eq_ok_iff.2 ⟨hnum, rfl⟩⟩
    rw [literalCastError_double, literalConvertsToDouble_iff] at hlit
    exact hlit.noNul hmem
  · intro h
    refine ⟨fun v => ?_, fun v => ?_, ⟨?_, ?_⟩, fun d => ?_, fun r => ?_, ?_, ?_⟩
    · rw [strToInt_eq_ok_iff, hcstr]
    · rw [parseInt_eq hnul, readInt_eq_ok_iff]
    · rw [strToInt_eq]
      exact readInt_ne_overflow
    · rw [parseInt_eq hnul]
      exact readInt_ne_overflow
    · rw [strToDouble_eq_ok_iff, hcstr]
    · rw [parseDouble_eq hnul]
      by_cases hnum : NumberText (cString S)
      · have hcast : Convert.strToDouble strtod (some (cString S)) =
            .ok (strtod (cString (cString S))) :=
          strToDouble_eq_ok_iff.2 ⟨by rwa [hcstr], rfl⟩
        rw [if_pos (literalConvertsToDouble_iff.2 hnum), hcast, hcstr, Except.ok.injEq]
        exact ⟨fun heq => ⟨hnum, heq.symm⟩, fun heq => heq.2.symm⟩
      · rw [if_neg (mt literalConvertsToDouble_iff.1 hnum)]
        exact ⟨fun heq => (nomatch heq), fun heq => (hnum heq.1).elim⟩
    · rw [literalCastError_int, literalConvertsToInt_iff]
      simp only [strToInt_eq_ok_iff]
      by_cases hmem : 0 ∈ S
      · constructor
        · rintro ⟨v, hv⟩
          exact (hv.numberText.noNul hmem).elim
        · rintro ⟨v, hv⟩
          exact (h hmem hv.numberText).elim
      · rw [cString_of_noNul hmem]
    · rw [literalCastError_double, literalConvertsToDouble_iff]
      simp only [strToDouble_eq_ok_iff]
      by_cases hmem : 0 ∈ S
      · constructor
        · intro hnum
          exact (hnum.noNul hmem).elim
        · rintro ⟨d, hnum, -⟩
          exact (h hmem hnum).elim
      · rw [cString_of_noNul hmem]
        exact ⟨fun hnum => ⟨_, hnum, rfl⟩, fun hnum => hnum.elim fun _ => And.left⟩

/-- The literal `"12\0"` is the string `12` at run time, which both casts convert. -/
theorem not_conversionsAgree_nulLiteral : ¬ ConversionsAgree (fun _ => (12 : ℚ)) [49, 50, 0] := by
  intro h
  have hlit := h.literalInt.2 ⟨12, by decide⟩
  exact absurd hlit (by decide)

end Convert

end TurfLang
