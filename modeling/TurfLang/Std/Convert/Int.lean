import TurfLang.Std.Convert.Scanners

/-!
# The integer scanners

All three compute `readInt`: the value is kept negative while the digits are read, since the
range reaches one further below zero. They accept the texts `IntText`, with their values, and
never overflow.
-/

namespace TurfLang

namespace Convert

open Strings

variable {ε : Type}

/-! ### The texts of an `int` -/

/-- The number a run of digits continues `n` to. -/
def decimalFrom (n : ℕ) (ds : Bytes) : ℕ := ds.foldl (fun n c => n * 10 + (c.toNat - 48)) n

/-- An optional `-` and one or more digits, with the integer they denote. -/
inductive Numeral : Bytes → ℤ → Prop
  | nonneg {ds : Bytes} (hds : Digits ds) (hne : ds ≠ []) : Numeral ds (decimalFrom 0 ds)
  | neg {ds : Bytes} (hds : Digits ds) (hne : ds ≠ []) : Numeral (45 :: ds) (-decimalFrom 0 ds)

/-- The text of an `int`: a numeral whose value a 64-bit integer has. -/
def IntText (t : Bytes) (v : ℤ) : Prop := Numeral t v ∧ -2 ^ 63 ≤ v ∧ v ≤ 2 ^ 63 - 1

theorem le_decimalFrom (n : ℕ) (ds : Bytes) : n ≤ decimalFrom n ds := by
  induction ds generalizing n with
  | nil => exact le_rfl
  | cons c ds ih => exact le_trans (by omega) (ih (n * 10 + (c.toNat - 48)))

theorem int64_of_mem {v : ℤ} (h : -2 ^ 63 ≤ v ∧ v < 2 ^ 63) : (int64 v : Except (Stop ε) ℤ) = .ok v :=
  if_pos h

/-- One turn of the loop: the digit is appended, or the value leaves the range. -/
theorem digitStep_digit {n : ℕ} {c : UInt8} (e : ε) (hn : n ≤ 2 ^ 63) (hc : isDigit c = true) :
    digitStep (-922337203685477580) 8 e (-(n : ℤ)) c =
      if n * 10 + (c.toNat - 48) ≤ 2 ^ 63 then .ok (-((n * 10 + (c.toNat - 48) : ℕ) : ℤ))
      else .error (.refused e) := by
  have hrange := isDigit_iff.1 hc
  have hd : charToInt c - 48 = ((c.toNat - 48 : ℕ) : ℤ) := by
    rw [charToInt, if_pos (by omega)]
    omega
  have hd9 : c.toNat - 48 ≤ 9 := by omega
  rw [digitStep, if_neg (by simp [hc]), hd]
  generalize c.toNat - 48 = d at *
  by_cases hle : n * 10 + d ≤ 2 ^ 63
  · have hsafe : ¬ (-(n : ℤ) < -922337203685477580 ∨ (-(n : ℤ) = -922337203685477580 ∧ (d : ℤ) > 8)) := by
      omega
    rw [if_pos hle, if_neg hsafe, int64_of_mem (by omega)]
    show int64 _ = _
    rw [int64_of_mem (by omega)]
    congr 1
    push_cast
    ring
  · rw [if_neg hle, if_pos (by omega)]

/-- The digit loop, from `-n` on: it has a value when it meets digits only and the number they
continue `n` to is in range; it never overflows. -/
theorem foldlM_digitStep {n : ℕ} (e : ε) (hn : n ≤ 2 ^ 63) (cs : Bytes) :
    (Digits cs ∧ decimalFrom n cs ≤ 2 ^ 63 ∧
      cs.foldlM (digitStep (-922337203685477580) 8 e) (-(n : ℤ)) = .ok (-decimalFrom n cs)) ∨
    (¬ (Digits cs ∧ decimalFrom n cs ≤ 2 ^ 63) ∧
      cs.foldlM (digitStep (-922337203685477580) 8 e) (-(n : ℤ)) = .error (.refused e)) := by
  induction cs generalizing n with
  | nil => exact .inl ⟨by simp [Digits], hn, rfl⟩
  | cons c cs ih =>
    rw [List.foldlM_cons]
    by_cases hc : isDigit c = true
    · rw [digitStep_digit e hn hc]
      by_cases hle : n * 10 + (c.toNat - 48) ≤ 2 ^ 63
      · rw [if_pos hle]
        have hdigits : Digits (c :: cs) ↔ Digits cs := by simp [Digits, hc]
        rw [hdigits]
        exact ih hle
      · rw [if_neg hle]
        refine .inr ⟨fun h => hle ?_, rfl⟩
        exact le_trans (le_decimalFrom _ cs) h.2
    · rw [digitStep, if_pos (by simpa using hc)]
      exact .inr ⟨fun h => hc (h.1 c (by simp)), rfl⟩

/-- The digits after an optional `-`. -/
def magnitude (t : Bytes) : Bytes := if deref t = 45 then t.tail else t

/-- What the integer scanners compute: the digit loop over the magnitude, then the sign. -/
def readInt (e : ε) (t : Bytes) : Except (Stop ε) ℤ :=
  if magnitude t = [] then .error (.refused e)
  else do
    let r ← (magnitude t).foldlM (digitStep (-922337203685477580) 8 e) 0
    if deref t = 45 then .ok r
    else if r = int64Min then .error (.refused e)
    else int64 (-r)

theorem intText_iff {t : Bytes} {v : ℤ} :
    IntText t v ↔ magnitude t ≠ [] ∧ Digits (magnitude t) ∧
      v = (if deref t = 45 then -(decimalFrom 0 (magnitude t) : ℤ) else decimalFrom 0 (magnitude t)) ∧
      -2 ^ 63 ≤ v ∧ v ≤ 2 ^ 63 - 1 := by
  constructor
  · rintro ⟨hnum, hrange⟩
    cases hnum with
    | nonneg hds hne =>
      have h45 : deref t ≠ 45 := by
        obtain ⟨c, t, rfl⟩ := List.exists_cons_of_ne_nil hne
        rintro rfl
        exact absurd (hds 45 (by simp)) (by decide)
      rw [magnitude, if_neg h45, if_neg h45]
      exact ⟨hne, hds, rfl, hrange⟩
    | neg hds hne => exact ⟨hne, hds, rfl, hrange⟩
  · rintro ⟨hne, hds, rfl, hrange⟩
    refine ⟨?_, hrange⟩
    by_cases h45 : deref t = 45
    · cases t with
      | nil => exact absurd h45 (by decide)
      | cons c t =>
        obtain rfl : c = 45 := h45
        exact .neg hds hne
    · rw [magnitude, if_neg h45] at hne hds ⊢
      rw [if_neg h45]
      exact .nonneg hds hne

/-- The integer scanners accept the texts of an `int`, with their values, and never overflow. -/
theorem readInt_cases (e : ε) (t : Bytes) :
    (∃ v, IntText t v ∧ readInt e t = .ok v) ∨
      ((∀ v, ¬ IntText t v) ∧ readInt e t = .error (.refused e)) := by
  simp only [intText_iff]
  by_cases hne : magnitude t = []
  · exact .inr ⟨fun v h => h.1 hne, if_pos hne⟩
  rw [readInt, if_neg hne]
  have hloop := foldlM_digitStep (n := 0) e (by omega) (magnitude t)
  rw [Nat.cast_zero, neg_zero] at hloop
  generalize decimalFrom 0 (magnitude t) = n at *
  rcases hloop with ⟨hds, hle, hloop⟩ | ⟨hbad, hloop⟩
  · simp only [hloop, bind, Except.bind]
    by_cases h45 : deref t = 45
    · simp only [if_pos h45]
      exact .inl ⟨_, ⟨hne, hds, rfl, by omega, by omega⟩, rfl⟩
    · simp only [if_neg h45]
      by_cases hmin : -(n : ℤ) = int64Min
      · rw [if_pos hmin]
        refine .inr ⟨?_, rfl⟩
        rintro v ⟨-, -, rfl, -, hlt⟩
        rw [int64Min] at hmin
        omega
      · rw [if_neg hmin, int64_of_mem (by rw [int64Min] at hmin; omega), neg_neg]
        rw [int64Min] at hmin
        exact .inl ⟨_, ⟨hne, hds, rfl, by omega, by omega⟩, rfl⟩
  · rw [hloop]
    refine .inr ⟨?_, rfl⟩
    rintro v ⟨-, hds, rfl, hlo, hhi⟩
    refine hbad ⟨hds, ?_⟩
    split_ifs at hlo hhi <;> omega

theorem readInt_eq_ok_iff {e : ε} {t : Bytes} {v : ℤ} : readInt e t = .ok v ↔ IntText t v := by
  rcases readInt_cases e t with ⟨w, hw, heq⟩ | ⟨hno, heq⟩
  · rw [heq, Except.ok.injEq]
    constructor
    · rintro rfl
      exact hw
    · intro hv
      rw [intText_iff] at hw hv
      rw [hw.2.2.1, hv.2.2.1]
  · rw [heq]
    exact ⟨fun h => (nomatch h), fun h => (hno v h).elim⟩

theorem readInt_ne_overflow {e : ε} {t : Bytes} : readInt e t ≠ .error .overflow := by
  rcases readInt_cases e t with ⟨w, -, heq⟩ | ⟨-, heq⟩ <;> simp [heq]

theorem readInt_of_head {e : ε} {t : Bytes} (h : isDigit (deref (magnitude t)) = false) :
    readInt e t = .error (.refused e) := by
  refine (readInt_cases e t).elim ?_ And.right
  rintro ⟨v, hv, -⟩
  obtain ⟨hne, hds, -⟩ := intText_iff.1 hv
  obtain ⟨c, cs, hcs⟩ := List.exists_cons_of_ne_nil hne
  rw [hcs] at h hds
  exact absurd (hds c (by simp)) (by simpa [deref] using h)

theorem deref_cString (s : Bytes) : deref (cString s) = deref s := by
  cases s with
  | nil => rfl
  | cons c s =>
    by_cases hc : c = 0
    · simp [cString, deref, hc]
    · simp [cString, deref, hc]

theorem magnitude_cString (s : Bytes) :
    magnitude (cString s) = cString (if deref s = 45 then s.tail else s) := by
  rw [magnitude, deref_cString]
  by_cases h45 : deref s = 45
  · rw [if_pos h45, if_pos h45]
    cases s with
    | nil => rfl
    | cons c s =>
      obtain rfl : c = 45 := h45
      rfl
  · rw [if_neg h45, if_neg h45]

/-- `turf_rt_str_to_int` reads the bytes up to the terminator. -/
theorem strToInt_eq (s : Bytes) : strToInt (some s) = readInt () (cString s) := by
  simp only [strToInt]
  by_cases hdigit : isDigit (deref (if deref s = 45 then s.tail else s)) = false
  · rw [if_pos hdigit, readInt_of_head]
    rwa [magnitude_cString, deref_cString]
  · have hne : cString (if deref s = 45 then s.tail else s) ≠ [] := by
      intro hnil
      rw [← deref_cString, hnil] at hdigit
      exact hdigit rfl
    rw [if_neg hdigit, readInt, magnitude_cString, deref_cString, if_neg hne]
    rfl

theorem magnitude_eq_drop (t : Bytes) : magnitude t = t.drop (if deref t = 45 then 1 else 0) := by
  rw [magnitude]
  split_ifs <;> simp

theorem byteAtUnchecked_zero (s : Bytes) : byteAtUnchecked s 0 = deref s := by
  cases s <;> rfl

theorem charToInt_deref_iff (s : Bytes) : charToInt (byteAtUnchecked s 0) = 45 ↔ deref s = 45 := by
  rw [byteAtUnchecked_zero]
  exact charToInt_eq_iff (by decide)

/-- `parse_int` reads the whole string. -/
theorem parseInt_eq {t : Bytes} (h : 0 ∉ t) : parseInt t = readInt (notAnInt t) t := by
  have hlen := strlen_of_noNul h
  have hmag : ∀ i, i = (if deref t = 45 then 1 else 0) → (i ≥ t.length ↔ magnitude t = []) := by
    rintro i rfl
    rw [magnitude_eq_drop, List.drop_eq_nil_iff]
  simp only [parseInt, hlen, charToInt_deref_iff, readInt]
  by_cases hn : t.length = 0
  · obtain rfl := List.length_eq_zero_iff.1 hn
    rfl
  · rw [if_neg hn]
    simp only [hmag _ rfl]
    by_cases hnil : magnitude t = []
    · rw [if_pos hnil, if_pos hnil]
    · rw [if_neg hnil, if_neg hnil, magnitude_eq_drop]
      unfold byteAtUnchecked
      rw [Loop.foldlM_positions]
      refine bind_congr fun r => ?_
      by_cases h45 : deref t = 45
      · rw [if_pos h45, if_pos h45]
      · rw [if_neg h45, if_neg h45, zero_sub]
        rfl

/-- `literalConvertsToInt` reads all the decoded bytes: what it accumulates is the value, but for
the sign. -/
theorem literalInt_map (S : Bytes) :
    (literalInt S).map (fun R => if deref S = 45 then R else -R) = readInt () S := by
  have hneg : (0 < S.length ∧ byteAtUnchecked S 0 = 45) ↔ deref S = 45 := by
    rw [byteAtUnchecked_zero]
    refine ⟨And.right, fun h => ⟨?_, h⟩⟩
    cases S with
    | nil => exact absurd h (by decide)
    | cons c S => simp
  have hnil : (if deref S = 45 then 1 else 0) = S.length ↔ magnitude S = [] := by
    rw [magnitude_eq_drop, List.drop_eq_nil_iff]
    cases S with
    | nil => simp [deref]
    | cons c S => split_ifs <;> simp
  simp only [literalInt, hneg, hnil, readInt]
  by_cases hmag : magnitude S = []
  · rw [if_pos hmag, if_pos hmag]
    rfl
  · rw [if_neg hmag, if_neg hmag]
    unfold byteAtUnchecked
    rw [Loop.foldlM_positions, ← magnitude_eq_drop]
    have hloop := foldlM_digitStep (n := 0) () (by omega) (magnitude S)
    rw [Nat.cast_zero, neg_zero] at hloop
    rw [show int64Min.tdiv 10 = -922337203685477580 from rfl,
      show -(int64Min.tmod 10) = 8 from rfl]
    rcases hloop with ⟨-, hle, hloop⟩ | ⟨-, hloop⟩
    · simp only [hloop, bind, Except.bind]
      by_cases h45 : deref S = 45
      · simp [h45, Except.map]
      · by_cases hmin : -(decimalFrom 0 (magnitude S) : ℤ) = int64Min
        · simp [h45, hmin, Except.map]
        · have hlt : -(-(decimalFrom 0 (magnitude S) : ℤ)) < 2 ^ 63 := by
            rw [int64Min] at hmin
            omega
          simp only [h45, hmin, ne_eq, not_false_eq_true, or_true, if_true, if_false, Except.map]
          rw [int64_of_mem ⟨by omega, hlt⟩]
    · rw [hloop]
      rfl

/-- `literalConvertsToInt` accepts the texts of an `int`, all decoded bytes counted. -/
theorem literalConvertsToInt_iff {S : Bytes} :
    literalConvertsToInt S = true ↔ ∃ v, IntText S v := by
  have hmap := literalInt_map S
  simp only [literalConvertsToInt, ← readInt_eq_ok_iff (e := ())]
  cases hR : literalInt S with
  | ok R =>
    rw [hR] at hmap
    exact ⟨fun _ => ⟨_, hmap.symm⟩, fun _ => rfl⟩
  | error e =>
    rw [hR] at hmap
    refine ⟨fun h => (nomatch h), ?_⟩
    rintro ⟨v, hv⟩
    rw [← hmap] at hv
    exact nomatch hv

theorem literalInt_ne_overflow {S : Bytes} : literalInt S ≠ .error .overflow := by
  intro h
  have hmap := literalInt_map S
  rw [h] at hmap
  exact readInt_ne_overflow hmap.symm

end Convert

end TurfLang
