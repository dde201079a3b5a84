import TurfLang.Std.Convert.Double
import TurfLang.Std.Json.RoundTrip

/-!
# What `parse` accepts

The texts that the parser takes, as a grammar that says of each text what value it denotes: the
grammar of JSON, but that an escape may have any letter and a number need not have digits on both
sides of its point. Every accepting run has a derivation in the grammar behind it, and a run ends
with a value or with an error at an offset inside the text. Neither depends on what stands after
the text's terminator.
-/

namespace TurfLang.Json

open Strings

/-! ### The grammar -/

def White (ws : Bytes) : Prop := ∀ c ∈ ws, c = 32 ∨ c = 9 ∨ c = 10 ∨ c = 13

/-- What comes after a number does not go on with it. -/
def NumberEnds (t r : Bytes) : Prop :=
  ∀ c ∈ r.head?, isDigit c = false ∧ ((c = 101 ∨ c = 69) → 101 ∈ t ∨ 69 ∈ t) ∧
    (c = 46 → 46 ∈ t ∨ 101 ∈ t ∨ 69 ∈ t)

/-- The byte that an escape stands for: a letter with no meaning stands for itself. -/
def escapeMeaning (c : UInt8) : UInt8 :=
  if c = 110 then 10 else if c = 116 then 9 else if c = 114 then 13 else c

/-- What stands between the quotes of a string, and the string. -/
inductive StringBody : Bytes → Bytes → Prop
  | nil : StringBody [] []
  | plain {c : UInt8} {t s : Bytes} (hquote : c ≠ 34) (hesc : c ≠ 92) (h : StringBody t s) :
      StringBody (c :: t) (c :: s)
  | escape {c : UInt8} {t s : Bytes} (h : StringBody t s) :
      StringBody (92 :: c :: t) (escapeMeaning c :: s)

inductive StringText : Bytes → Bytes → Prop
  | intro {t s : Bytes} (h : StringBody t s) : StringText (34 :: (t ++ [34])) s

section Grammar

variable {D : Type}

/-- The object that setting some members leaves, one after the other. -/
def setAll (obj : JsonValue D) (members : List (Bytes × JsonValue D)) : Option (JsonValue D) :=
  members.foldlM (fun obj m => obj.set m.1 m.2) obj

variable (ops : Doubles D)

mutual

/-- A text and the value it denotes. -/
inductive Denotes : Bytes → JsonValue D → Prop
  | null : Denotes (bytes "null") (.nullValue ops)
  | true : Denotes (bytes "true") (.fromBool ops true)
  | false : Denotes (bytes "false") (.fromBool ops false)
  | number {t : Bytes} (h : Convert.NumberText t) : Denotes t (.fromNumber ops (ops.toDouble t))
  | string {t s : Bytes} (h : StringText t s) : Denotes t (.fromString ops s)
  | emptyArray {ws : Bytes} (hws : White ws) : Denotes (91 :: (ws ++ [93])) (.newArray ops)
  | array {t : Bytes} {vs : List (JsonValue D)} (h : Items t vs) :
      Denotes (91 :: t) { JsonValue.newArray ops with arrVal := vs }
  | emptyObject {ws : Bytes} (hws : White ws) : Denotes (123 :: (ws ++ [125])) (.newObject ops)
  | object {t : Bytes} {members : List (Bytes × JsonValue D)} {obj : JsonValue D}
      (h : Members t members) (hset : setAll (.newObject ops) members = some obj) :
      Denotes (123 :: t) obj

/-- A value between white space. -/
inductive Padded : Bytes → JsonValue D → Prop
  | intro {ws t ws' : Bytes} {v : JsonValue D} (hws : White ws) (h : Denotes t v)
      (hws' : White ws') : Padded (ws ++ (t ++ ws')) v

/-- The elements of an array, with its closing bracket. -/
inductive Items : Bytes → List (JsonValue D) → Prop
  | last {t : Bytes} {v : JsonValue D} (h : Padded t v) : Items (t ++ [93]) [v]
  | more {t t' : Bytes} {v : JsonValue D} {vs : List (JsonValue D)} (h : Padded t v)
      (hs : Items t' vs) : Items (t ++ 44 :: t') (v :: vs)

/-- A key and its value. -/
inductive Member : Bytes → Bytes × JsonValue D → Prop
  | intro {ws k key ws' t : Bytes} {v : JsonValue D} (hws : White ws) (hk : StringText k key)
      (hws' : White ws') (h : Padded t v) : Member (ws ++ (k ++ (ws' ++ 58 :: t))) (key, v)

/-- The members of an object, with its closing brace. -/
inductive Members : Bytes → List (Bytes × JsonValue D) → Prop
  | last {t : Bytes} {m : Bytes × JsonValue D} (h : Member t m) : Members (t ++ [125]) [m]
  | more {t t' : Bytes} {m : Bytes × JsonValue D} {ms : List (Bytes × JsonValue D)}
      (h : Member t m) (hs : Members t' ms) : Members (t ++ 44 :: t') (m :: ms)

end

end Grammar

/-! ### What a routine does -/

/-- Where the parser gave up. -/
def JsonError.offset : JsonError → ℕ
  | .unexpectedEnd n | .unexpectedChar n | .invalidNumber n | .invalidLiteral n
  | .unterminatedString n | .expectedColon n | .expectedComma n => n

/-- The parser stands before `s`, which is all that is left. -/
structure Before (p : Parser) (s : Bytes) : Prop extends Sees p s where
  within : p.pos ≤ p.len
  noNul : 0 ∉ p.s

/-- A routine at `s` has gone on past a text `t` with a result that is good for it, or it has
given up inside of `s`. -/
def Reads {α : Type} (p : Parser) (s : Bytes) (good : Bytes → Bytes → α → Prop) :
    Except Stop (α × Parser) → Prop
  | .ok (v, q) => ∃ t r, s = t ++ r ∧ q = p.advance t.length ∧ good t r v
  | .error (.raised err _) => p.pos ≤ err.offset ∧ err.offset ≤ p.len
  | .error _ => False

section Reads

variable {α β : Type} {p : Parser} {s t r : Bytes} {c : UInt8}
  {good good' : Bytes → Bytes → α → Prop} {x : Except Stop (α × Parser)}

theorem Before.advance (h : Before p (t ++ r)) : Before (p.advance t.length) r where
  toSees := h.toSees.advance
  within := by
    have hlen := congrArg List.length h.drop_eq
    rw [List.length_drop, List.length_append] at hlen
    have hle := h.within
    have heq := h.len_eq
    simp only [Parser.advance_pos, Parser.advance_len]
    omega
  noNul := h.noNul

theorem Before.tail (h : Before p (c :: r)) : Before (p.advance 1) r := h.advance (t := [c])

/-- Nothing is left at the end of the text only. -/
theorem Before.len_le (h : Before p []) : p.len ≤ p.pos := by
  have hlen := congrArg List.length h.drop_eq
  rw [List.length_drop, List.length_nil] at hlen
  have heq := h.len_eq
  omega

theorem reads_failAt {err : ℕ → JsonError} {what : String} {n : ℕ}
    (herr : ∀ n, (err n).offset = n) (hle : p.pos ≤ n) (hlen : n ≤ p.len) :
    Reads p s good (failAt err what n) := by
  show p.pos ≤ (err n).offset ∧ (err n).offset ≤ p.len
  rw [herr]
  exact ⟨hle, hlen⟩

theorem Reads.mono (h : Reads p s good x) (hgood : ∀ t r v, s = t ++ r → good t r v → good' t r v) :
    Reads p s good' x := by
  match x, h with
  | .ok (v, q), ⟨t, r, hs, hq, hv⟩ => exact ⟨t, r, hs, hq, hgood t r v hs hv⟩
  | .error (.raised err _), h => exact h

/-- What a routine does after some text has been passed over. -/
theorem Reads.after (h : Reads (p.advance t.length) r good x) :
    Reads p (t ++ r) (fun t' r' v => ∃ u, t' = t ++ u ∧ good u r' v) x := by
  match x, h with
  | .ok (v, q), ⟨u, r', hr, hq, hv⟩ =>
    refine ⟨t ++ u, r', by rw [hr, List.append_assoc], ?_, u, rfl, hv⟩
    rw [hq, Parser.advance_advance, List.length_append]
  | .error (.raised err _), ⟨hle, hlen⟩ =>
    exact ⟨le_trans (by simp) hle, hlen⟩

/-- One routine after another. -/
theorem Reads.bind {f : α × Parser → Except Stop (β × Parser)} {good₂ : Bytes → Bytes → β → Prop}
    (h : Reads p s good x)
    (hf : ∀ t r v, s = t ++ r → good t r v →
      Reads (p.advance t.length) r (fun u r' w => good₂ (t ++ u) r' w)
        (f (v, p.advance t.length))) :
    Reads p s good₂ (x >>= f) := by
  match x, h with
  | .ok (v, q), ⟨t, r, hs, hq, hv⟩ =>
    subst hs hq
    refine (hf t r v rfl hv).after.mono ?_
    rintro _ r' w - ⟨u, rfl, hw⟩
    exact hw
  | .error (.raised err _), h => exact h

end Reads

/-! ### White space and literals -/

section Leaves

variable {p : Parser} {s t r : Bytes} {c : UInt8}

theorem charToInt_inj {c d : UInt8} (h : charToInt c = charToInt d) : c = d := by
  have hc := c.toNat_lt
  have hd := d.toNat_lt
  unfold charToInt at h
  rw [← UInt8.toNat_inj]
  split_ifs at h <;> omega

theorem isWs_iff : Parser.isWs c = true ↔ c = 32 ∨ c = 9 ∨ c = 10 ∨ c = 13 := by
  have heq : ∀ n < 128, charToInt c = (n : ℕ) ↔ c = UInt8.ofNat n := fun n hn => charToInt_eq_iff hn
  rw [Parser.isWs, decide_eq_true_eq]
  exact or_congr (heq 32 (by decide)) (or_congr (heq 9 (by decide))
    (or_congr (heq 10 (by decide)) (heq 13 (by decide))))

/-- `skip_ws` passes over the white space that comes next. -/
theorem Before.skipWs (h : Before p s) :
    ∃ ws r, s = ws ++ r ∧ White ws ∧ p.skipWs = p.advance ws.length ∧
      Before (p.advance ws.length) r ∧ ∀ c ∈ r.head?, Parser.isWs c = false := by
  have hsplit := List.takeWhile_append_dropWhile (p := Parser.isWs) (l := s)
  have hws : ∀ c ∈ s.takeWhile Parser.isWs, Parser.isWs c = true := fun c hc =>
    List.mem_takeWhile_imp hc
  have hrest : ∀ c ∈ (s.dropWhile Parser.isWs).head?, Parser.isWs c = false := by
    intro c hc
    have hhead := List.head?_dropWhile_not Parser.isWs s
    rw [Option.mem_def.mp hc] at hhead
    exact hhead
  have hscan : Loop.scan (fun i => Parser.isWs (byteAtUnchecked p.s i)) p.len p.pos =
      p.pos + (s.takeWhile Parser.isWs).length := by
    rw [h.len_eq]
    exact Loop.scan_drop (h.drop_eq.trans hsplit.symm) hws hrest
  refine ⟨_, _, hsplit.symm, fun c hc => isWs_iff.mp (hws c hc), ?_, ?_, hrest⟩
  · rw [Parser.skipWs, hscan]
    rfl
  · exact (hsplit ▸ h).advance

theorem Before.peek_nil (h : Before p []) : p.peek = -1 := by
  rw [Parser.peek, if_pos h.len_le]

theorem reads_parseLiteral {α : Type} (lit : Bytes) (value : α) (h : Before p s) :
    Reads p s (fun t _ v => t = lit ∧ v = value) (p.parseLiteral lit value) := by
  induction lit generalizing p s with
  | nil => exact ⟨[], s, rfl, rfl, rfl, rfl⟩
  | cons c lit ih =>
    rw [Parser.parseLiteral]
    split
    · exact reads_failAt (fun _ => rfl) le_rfl h.within
    case isFalse hgo =>
      obtain ⟨hlt, hat⟩ := not_or.mp hgo
      cases s with
      | nil => exact absurd h.len_le hlt
      | cons d s =>
        have hd : charToInt d = charToInt c := (h.at_eq).symm.trans (not_not.mp hat)
        refine ((ih h.tail).after (t := [d])).mono ?_
        rintro t r v - ⟨u, rfl, rfl, rfl⟩
        exact ⟨by rw [charToInt_inj hd]; rfl, rfl⟩

/-! ### Strings -/

theorem unescape_eq (c : UInt8) : Parser.unescape c = escapeMeaning c := by
  have heq : ∀ n < 128, charToInt c = (n : ℕ) ↔ c = UInt8.ofNat n := fun n hn => charToInt_eq_iff hn
  have h34 := heq 34 (by decide)
  have h92 := heq 92 (by decide)
  have h47 := heq 47 (by decide)
  have h110 := heq 110 (by decide)
  have h116 := heq 116 (by decide)
  have h114 := heq 114 (by decide)
  norm_num at h34 h92 h47 h110 h116 h114
  unfold Parser.unescape escapeMeaning
  simp only [h34, h92, h47, h110, h116, h114]
  split_ifs <;> simp_all

/-- The loop of `parse_string`, with the run of plain bytes since `seg` still to be copied. -/
theorem reads_stringLoop (h : Before p s) (sb : StringBuilder) (seg : ℕ)
    (hseg : seg ≤ p.pos) :
    Reads p s (fun t _ v => ∃ b w, t = b ++ [34] ∧ StringBody b w ∧
      v = (p.copyInto sb seg p.pos).text ++ w) (p.stringLoop sb seg) := by
  induction hn : s.length using Nat.strong_induction_on generalizing p s sb seg with
  | _ n ih =>
    subst hn
    rw [Parser.stringLoop]
    cases s with
    | nil =>
      rw [dif_neg (not_lt.mpr h.len_le)]
      exact reads_failAt (fun _ => rfl) le_rfl h.within
    | cons c s =>
      rw [dif_pos h.pos_lt]
      simp only [h.at_eq]
      split
      case isTrue hquote =>
        obtain rfl : c = 34 := (charToInt_eq_iff (by decide)).mp hquote
        exact ⟨[34], s, rfl, rfl, [], [], rfl, .nil, by simp⟩
      case isFalse hquote =>
        split
        case isTrue hesc =>
          obtain rfl : c = 92 := (charToInt_eq_iff (by decide)).mp hesc
          split
          case isTrue hend => exact reads_failAt (fun _ => rfl) (by omega) h.pos_lt
          case isFalse hend =>
            cases s with
            | nil => exact absurd h.tail.len_le hend
            | cons d s =>
              have hbyte : byteAtUnchecked p.s (p.pos + 1) = d := h.tail.byte_eq
              have hrest : Before (p.advance 2) s := h.advance (t := [92, d])
              have hround := ih s.length (by simp) hrest
                ((p.copyInto sb seg p.pos).appendChar (Parser.unescape d)) (p.pos + 2) le_rfl rfl
              rw [hbyte]
              refine (hround.after (t := [92, d])).mono ?_
              rintro t r v - ⟨u, rfl, b, w, rfl, hb, rfl⟩
              refine ⟨92 :: d :: b, escapeMeaning d :: w, rfl, .escape hb, ?_⟩
              simp [unescape_eq]
        case isFalse hesc =>
          have hround := ih s.length (by simp) h.tail sb seg (by simp; omega) rfl
          refine (hround.after (t := [c])).mono ?_
          rintro t r v - ⟨u, rfl, b, w, rfl, hb, rfl⟩
          refine ⟨c :: b, c :: w, rfl, .plain ?_ ?_ hb, ?_⟩
          · rintro rfl
            exact hquote rfl
          · rintro rfl
            exact hesc rfl
          · simp [Parser.copyInto_succ p sb hseg, h.byte_eq]

theorem reads_parseString (h : Before p (34 :: s)) :
    Reads p (34 :: s) (fun t _ v => StringText t v) p.parseString := by
  have hloop := (reads_stringLoop h.tail ⟨[]⟩ (p.pos + 1) le_rfl).after (t := [34])
  refine hloop.mono ?_
  rintro t r v - ⟨u, rfl, b, w, rfl, hb, rfl⟩
  simpa using StringText.intro hb

end Leaves

/-! ### Numbers -/

section Numbers

variable {s : Bytes} {n i : ℕ}

theorem le_skipOneOf (s : Bytes) (n : ℕ) (a b : ℤ) (i : ℕ) : i ≤ skipOneOf s n a b i := by
  unfold skipOneOf
  split <;> omega

theorem le_skipDigits (s : Bytes) (n i : ℕ) : i ≤ skipDigits s n i := Loop.le_scan _ _ _

theorem le_skipFraction (s : Bytes) (n i : ℕ) : i ≤ skipFraction s n i := by
  unfold skipFraction
  split
  · exact le_trans (Nat.le_succ i) (le_skipDigits s n (i + 1))
  · exact le_rfl

/-- A loop over digits stops before something else. -/
theorem isDigit_skipDigits (h : skipDigits s n i < n) :
    isDigit (byteAtUnchecked s (skipDigits s n i)) = false := by
  unfold skipDigits at h ⊢
  fun_induction Loop.scan (isDigitAt s) n i with
  | case1 i hi ih => exact ih h
  | case2 i hi =>
    rw [not_and] at hi
    exact Bool.eq_false_iff.mpr (hi h)

theorem parseDouble_eq_ok {D : Type} {toDouble : Bytes → D} {t : Bytes} {d : D} (ht : 0 ∉ t)
    (h : parseDouble toDouble t = .ok d) : Convert.NumberText t ∧ d = toDouble t := by
  rw [Convert.parseDouble_eq ht] at h
  split at h
  case isTrue hnumber =>
    exact ⟨Convert.literalConvertsToDouble_iff.mp hnumber, (Except.ok.inj h).symm⟩
  case isFalse => cases h

/-- Where `parse_number` stops. -/
def numberEnd (p : Parser) : ℕ :=
  let i₃ := skipFraction p.s p.len (skipDigits p.s p.len (skipOneOf p.s p.len 45 45 p.pos))
  if AtExponent p.s p.len i₃ then
    skipDigits p.s p.len (skipOneOf p.s p.len 43 45 (i₃ + 1)) else i₃

theorem le_numberEnd (p : Parser) : p.pos ≤ numberEnd p := by
  have hle₁ := le_skipOneOf p.s p.len 45 45 p.pos
  have hle₂ := le_skipDigits p.s p.len (skipOneOf p.s p.len 45 45 p.pos)
  have hle₃ := le_skipFraction p.s p.len
    (skipDigits p.s p.len (skipOneOf p.s p.len 45 45 p.pos))
  unfold numberEnd
  dsimp only
  split
  · refine le_trans ?_ (le_skipDigits _ _ _)
    exact le_trans (by omega) (le_skipOneOf _ _ _ _ _)
  · omega

theorem numberEnd_le {p : Parser} (h : p.pos ≤ p.len) : numberEnd p ≤ p.len := by
  unfold numberEnd
  dsimp only
  split
  case isTrue hexp => exact Loop.scan_le (Convert.skipOneOf_le hexp.1)
  case isFalse => exact Convert.skipFraction_le (Loop.scan_le (Convert.skipOneOf_le h))

/-- The byte after a number is no digit; it is no exponent letter and no point either, unless one
has been passed over. -/
theorem numberEnd_stops {p : Parser} (hlt : numberEnd p < p.len) :
    isDigit (byteAtUnchecked p.s (numberEnd p)) = false ∧
    (byteAtUnchecked p.s (numberEnd p) = 101 ∨ byteAtUnchecked p.s (numberEnd p) = 69 →
      ∃ i, p.pos ≤ i ∧ i < numberEnd p ∧
        (byteAtUnchecked p.s i = 101 ∨ byteAtUnchecked p.s i = 69)) ∧
    (byteAtUnchecked p.s (numberEnd p) = 46 → ∃ i, p.pos ≤ i ∧ i < numberEnd p ∧
        (byteAtUnchecked p.s i = 46 ∨ byteAtUnchecked p.s i = 101 ∨
          byteAtUnchecked p.s i = 69)) := by
  have hle₂ := le_trans (le_skipOneOf p.s p.len 45 45 p.pos)
    (le_skipDigits p.s p.len (skipOneOf p.s p.len 45 45 p.pos))
  have hle₃ := le_skipFraction p.s p.len
    (skipDigits p.s p.len (skipOneOf p.s p.len 45 45 p.pos))
  unfold numberEnd at *
  dsimp only at *
  generalize hi₂ : skipDigits p.s p.len (skipOneOf p.s p.len 45 45 p.pos) = i₂ at *
  generalize hi₃ : skipFraction p.s p.len i₂ = i₃ at *
  by_cases hexp : AtExponent p.s p.len i₃
  · -- the letter of the exponent has been passed over
    simp only [if_pos hexp] at hlt ⊢
    have hletter : byteAtUnchecked p.s i₃ = 101 ∨ byteAtUnchecked p.s i₃ = 69 :=
      hexp.2.imp (charToInt_eq_iff (by decide)).mp (charToInt_eq_iff (by decide)).mp
    have hlt₃ : i₃ < skipDigits p.s p.len (skipOneOf p.s p.len 43 45 (i₃ + 1)) :=
      le_trans (le_skipOneOf _ _ _ _ _) (le_skipDigits _ _ _)
    exact ⟨isDigit_skipDigits hlt, fun _ => ⟨i₃, by omega, hlt₃, hletter⟩,
      fun _ => ⟨i₃, by omega, hlt₃, .inr hletter⟩⟩
  · simp only [if_neg hexp] at hlt ⊢
    have hno : ¬(byteAtUnchecked p.s i₃ = 101 ∨ byteAtUnchecked p.s i₃ = 69) := fun hletter =>
      hexp ⟨hlt, hletter.imp (charToInt_eq_iff (by decide)).mpr (charToInt_eq_iff (by decide)).mpr⟩
    unfold skipFraction at hi₃
    split at hi₃
    case isTrue hpoint =>
      subst hi₃
      have hbyte : byteAtUnchecked p.s i₂ = 46 := (charToInt_eq_iff (by decide)).mp hpoint.2
      exact ⟨isDigit_skipDigits hlt, fun hletter => absurd hletter hno,
        fun _ => ⟨i₂, hle₂, le_skipDigits _ _ _, .inl hbyte⟩⟩
    case isFalse hpoint =>
      subst hi₃
      refine ⟨?_, fun hletter => absurd hletter hno, fun hbyte => absurd ⟨hlt, ?_⟩ hpoint⟩
      · subst hi₂
        exact isDigit_skipDigits hlt
      · exact (charToInt_eq_iff (by decide)).mpr hbyte

theorem parseNumber_eq {D : Type} (ops : Doubles D) (p : Parser) : p.parseNumber ops =
    let i₁ := skipOneOf p.s p.len 45 45 p.pos
    let i₂ := skipDigits p.s p.len i₁
    if ¬(i₁ < i₂ ∨ i₂ + 1 < skipFraction p.s p.len i₂) then
      failAt .invalidNumber "invalid number" p.pos
    else
      match parseDouble ops.toDouble (p.copyInto ⟨[]⟩ p.pos (numberEnd p)).toString with
      | .ok n => .ok (.fromNumber ops n, { p with pos := numberEnd p })
      | .error _ => failAt .invalidNumber "invalid number" p.pos := rfl

theorem reads_parseNumber {D : Type} (ops : Doubles D) {p : Parser} (h : Before p s) :
    Reads p s (fun t r v => Convert.NumberText t ∧ NumberEnds t r ∧
      v = .fromNumber ops (ops.toDouble t)) (p.parseNumber ops) := by
  have hlen : p.pos + s.length = p.len := by
    have hdrop := congrArg List.length h.drop_eq
    rw [List.length_drop, ← h.len_eq] at hdrop
    have hle := h.within
    omega
  have hend := numberEnd_le h.within
  have hstart := le_numberEnd p
  obtain ⟨t, r, rfl, htlen⟩ : ∃ t r, s = t ++ r ∧ numberEnd p = p.pos + t.length :=
    ⟨s.take (numberEnd p - p.pos), s.drop (numberEnd p - p.pos),
      (List.take_append_drop _ _).symm, by rw [List.length_take]; omega⟩
  have htext := h.copyInto_eq ⟨[]⟩
  have hmem : ∀ i c, p.pos ≤ i → i < numberEnd p → byteAtUnchecked p.s i = c → c ∈ t := by
    rintro i _ hi hlt rfl
    have hcopy : t = (List.range' p.pos t.length).map (byteAtUnchecked p.s) := by
      simpa [Parser.copyInto] using (congrArg StringBuilder.text htext).symm
    rw [hcopy]
    exact List.mem_map_of_mem (List.mem_range'_1.mpr ⟨hi, by omega⟩)
  have hnul : 0 ∉ t := fun h0 => h.noNul
    (List.mem_of_mem_drop (h.drop_eq ▸ List.mem_append_left r h0))
  have hends : NumberEnds t r := by
    intro c hc
    obtain ⟨r, rfl⟩ := List.head?_eq_some_iff.mp hc
    have hafter := h.advance
    have hbyte : byteAtUnchecked p.s (numberEnd p) = c := htlen ▸ hafter.byte_eq
    have hlt : numberEnd p < p.len := htlen ▸ hafter.pos_lt
    obtain ⟨hdigit, hletter, hpoint⟩ := numberEnd_stops hlt
    rw [hbyte] at hdigit hletter hpoint
    refine ⟨hdigit, fun hc => ?_, fun hc => ?_⟩
    · obtain ⟨i, hi, hilt, hbyte⟩ := hletter hc
      exact hbyte.imp (hmem i _ hi hilt) (hmem i _ hi hilt)
    · obtain ⟨i, hi, hilt, hbyte⟩ := hpoint hc
      exact hbyte.imp (hmem i _ hi hilt) (Or.imp (hmem i _ hi hilt) (hmem i _ hi hilt))
  rw [parseNumber_eq]
  dsimp only
  split
  · exact reads_failAt (fun _ => rfl) le_rfl h.within
  · rw [htlen, htext, StringBuilder.toString_eq, List.nil_append]
    split
    case h_1 d hparse =>
      obtain ⟨hnumber, rfl⟩ := parseDouble_eq_ok hnul hparse
      exact ⟨t, r, rfl, rfl, hnumber, hends, rfl⟩
    case h_2 => exact reads_failAt (fun _ => rfl) le_rfl h.within

end Numbers

/-! ### Values -/

section Values

variable {D : Type} {ops : Doubles D}

theorem White.append {ws ws' : Bytes} (h : White ws) (h' : White ws') : White (ws ++ ws') := by
  intro c hc
  rcases List.mem_append.mp hc with hc | hc
  · exact h c hc
  · exact h' c hc

theorem Padded.white {ws t : Bytes} {v : JsonValue D} (hws : White ws) (h : Padded ops t v) :
    Padded ops (ws ++ t) v := by
  obtain ⟨hws₁, hv, hws₂⟩ := h
  rw [← List.append_assoc]
  exact .intro (hws.append hws₁) hv hws₂

theorem Items.white {ws t : Bytes} {vs : List (JsonValue D)} (hws : White ws)
    (h : Items ops t vs) : Items ops (ws ++ t) vs := by
  cases h with
  | last h =>
    rw [← List.append_assoc]
    exact .last (h.white hws)
  | more h hs =>
    rw [← List.append_assoc]
    exact .more (h.white hws) hs

theorem Member.white {ws t : Bytes} {m : Bytes × JsonValue D} (hws : White ws)
    (h : Member ops t m) : Member ops (ws ++ t) m := by
  obtain ⟨hws₁, hk, hws₂, hv⟩ := h
  rw [← List.append_assoc]
  exact .intro (hws.append hws₁) hk hws₂ hv

theorem Members.white {ws t : Bytes} {ms : List (Bytes × JsonValue D)} (hws : White ws)
    (h : Members ops t ms) : Members ops (ws ++ t) ms := by
  cases h with
  | last h =>
    rw [← List.append_assoc]
    exact .last (h.white hws)
  | more h hs =>
    rw [← List.append_assoc]
    exact .more (h.white hws) hs

/-- The index that `set` finds is one of the keys. -/
theorem setIndex_lt {key : Bytes} {ks : List Bytes} {i j : ℕ} {idx : Option ℕ}
    (hidx : ∀ j ∈ idx, j < i) (h : JsonValue.setIndex key i idx ks = some j) :
    j < i + ks.length := by
  induction ks generalizing i idx with
  | nil => exact hidx j h
  | cons k ks ih =>
    have hnext : ∀ j ∈ (if streq k key then some i else idx), j < i + 1 := by
      intro j hj
      split at hj
      · obtain rfl : i = j := Option.some.inj hj
        omega
      · exact Nat.lt_succ_of_lt (hidx j hj)
    have hlt := ih hnext h
    rw [List.length_cons]
    omega

/-- An object with a value for each key takes another member. -/
theorem set_eq_some {obj : JsonValue D} (hlen : obj.objKeys.length = obj.objVals.length)
    (key : Bytes) (value : JsonValue D) :
    ∃ obj', obj.set key value = some obj' ∧ obj'.objKeys.length = obj'.objVals.length ∧
      obj'.kind = obj.kind := by
  unfold JsonValue.set
  split
  case h_1 idx hidx =>
    have hlt := setIndex_lt (by simp) hidx
    rw [if_pos (by omega)]
    exact ⟨_, rfl, by simpa using hlen, rfl⟩
  case h_2 => exact ⟨_, rfl, by simp [hlen], rfl⟩

/-- What `parse_value` passes over and returns. -/
def ValueAfter (ops : Doubles D) (t r : Bytes) (v : JsonValue D) : Prop :=
  ∃ ws u, t = ws ++ u ∧ White ws ∧ Denotes ops u v ∧ (v.kind = .number → NumberEnds u r)

/-- What the routines do that call one another, with enough fuel. -/
structure ReadAll (ops : Doubles D) (fuel : ℕ) : Prop where
  value : ∀ {p s}, Before p s → 3 * s.length + 1 ≤ fuel →
    Reads p s (ValueAfter ops) (parseValue ops fuel p)
  array : ∀ {p s}, Before p (91 :: s) → 3 * s.length + 3 ≤ fuel →
    Reads p (91 :: s) (fun t _ v => Denotes ops t v ∧ v.kind = .array) (parseArray ops fuel p)
  items : ∀ {p s} (arr : JsonValue D), Before p s → 3 * s.length + 2 ≤ fuel →
    Reads p s (fun t _ v => ∃ vs, Items ops t vs ∧ v = { arr with arrVal := arr.arrVal ++ vs })
      (parseItems ops fuel p arr)
  object : ∀ {p s}, Before p (123 :: s) → 3 * s.length + 3 ≤ fuel →
    Reads p (123 :: s) (fun t _ v => Denotes ops t v ∧ v.kind = .object) (parseObject ops fuel p)
  members : ∀ {p s} (obj : JsonValue D), Before p s → 3 * s.length + 2 ≤ fuel →
    obj.objKeys.length = obj.objVals.length →
    Reads p s (fun t _ v => ∃ ms, Members ops t ms ∧ setAll obj ms = some v ∧ v.kind = obj.kind)
      (parseMembers ops fuel p obj)

section Step

variable {fuel : ℕ} {p : Parser} {s : Bytes} (ih : ReadAll ops fuel)

include ih

theorem reads_parseValue (h : Before p s) (hfuel : 3 * s.length + 1 ≤ fuel + 1) :
    Reads p s (ValueAfter ops) (parseValue ops (fuel + 1) p) := by
  obtain ⟨ws, r, rfl, hws, hskip, hp, -⟩ := h.skipWs
  rw [List.length_append] at hfuel
  rw [parseValue]
  simp only [hskip]
  suffices hvalue : Reads (p.advance ws.length) r
      (fun u r' v => Denotes ops u v ∧ (v.kind = .number → NumberEnds u r')) _ by
    refine hvalue.after.mono ?_
    rintro t r' v - ⟨u, rfl, hv⟩
    exact ⟨ws, u, rfl, hws, hv⟩
  cases r with
  | nil =>
    rw [if_pos hp.peek_nil]
    exact reads_failAt (fun _ => rfl) le_rfl hp.within
  | cons c r =>
    rw [List.length_cons] at hfuel
    simp only [hp.peek_eq]
    split
    · exact reads_failAt (fun _ => rfl) le_rfl hp.within
    split
    case isTrue hc =>
      obtain rfl : c = 123 := (charToInt_eq_iff (by decide)).mp hc
      refine (ih.object hp (by omega)).mono ?_
      rintro t r' v - ⟨hv, hkind⟩
      exact ⟨hv, fun hnumber => by rw [hkind] at hnumber; cases hnumber⟩
    split
    case isTrue hc =>
      obtain rfl : c = 91 := (charToInt_eq_iff (by decide)).mp hc
      refine (ih.array hp (by omega)).mono ?_
      rintro t r' v - ⟨hv, hkind⟩
      exact ⟨hv, fun hnumber => by rw [hkind] at hnumber; cases hnumber⟩
    split
    case isTrue hc =>
      obtain rfl : c = 34 := (charToInt_eq_iff (by decide)).mp hc
      refine (reads_parseString hp).bind ?_
      intro t r' v _ hv
      exact ⟨[], r', rfl, rfl, by simpa using .string hv, fun hkind => by cases hkind⟩
    split
    · refine (reads_parseLiteral (bytes "true") _ hp).mono ?_
      rintro t r' v - ⟨rfl, rfl⟩
      exact ⟨.true, fun hkind => by cases hkind⟩
    split
    · refine (reads_parseLiteral (bytes "false") _ hp).mono ?_
      rintro t r' v - ⟨rfl, rfl⟩
      exact ⟨.false, fun hkind => by cases hkind⟩
    split
    · refine (reads_parseLiteral (bytes "null") _ hp).mono ?_
      rintro t r' v - ⟨rfl, rfl⟩
      exact ⟨.null, fun hkind => by cases hkind⟩
    split
    · refine (reads_parseNumber ops hp).mono ?_
      rintro t r' v - ⟨hnumber, hends, rfl⟩
      exact ⟨.number hnumber, fun _ => hends⟩
    · exact reads_failAt (fun _ => rfl) le_rfl hp.within

theorem reads_parseArray (h : Before p (91 :: s)) (hfuel : 3 * s.length + 3 ≤ fuel + 1) :
    Reads p (91 :: s) (fun t _ v => Denotes ops t v ∧ v.kind = .array)
      (parseArray ops (fuel + 1) p) := by
  obtain ⟨ws, r, rfl, hws, hskip, hp, -⟩ := h.tail.skipWs
  rw [List.length_append] at hfuel
  rw [parseArray]
  simp only [hskip]
  suffices hbody : Reads ((p.advance 1).advance ws.length) r
      (fun t _ v => Denotes ops (91 :: (ws ++ t)) v ∧ v.kind = .array) _ by
    refine (hbody.after.after (t := [91])).mono ?_
    rintro t r' v - ⟨_, rfl, t, rfl, hv⟩
    exact hv
  split
  case isTrue hclose =>
    cases r with
    | nil =>
      rw [hp.peek_nil] at hclose
      cases hclose
    | cons c r =>
      rw [hp.peek_eq] at hclose
      obtain rfl : c = 93 := (charToInt_eq_iff (by decide)).mp hclose
      exact ⟨[93], r, rfl, rfl, .emptyArray hws, rfl⟩
  case isFalse =>
    refine (ih.items (.newArray ops) hp (by omega)).mono ?_
    rintro t r' v - ⟨vs, hitems, rfl⟩
    exact ⟨.array (hitems.white hws), rfl⟩

theorem reads_parseItems (arr : JsonValue D) (h : Before p s)
    (hfuel : 3 * s.length + 2 ≤ fuel + 1) :
    Reads p s (fun t _ v => ∃ vs, Items ops t vs ∧ v = { arr with arrVal := arr.arrVal ++ vs })
      (parseItems ops (fuel + 1) p arr) := by
  rw [parseItems]
  refine (ih.value h (by omega)).bind ?_
  rintro _ r item rfl ⟨ws, u, rfl, hws, hv, -⟩
  obtain ⟨ws', r, rfl, hws', hskip, hp, -⟩ := (h.advance).skipWs
  simp only [hskip]
  have hpadded : Padded ops (ws ++ (u ++ ws')) item := .intro hws hv hws'
  suffices hrest : Reads ((p.advance (ws ++ u).length).advance ws'.length) r
      (fun t _ v => ∃ vs, Items ops (ws ++ (u ++ ws') ++ t) vs ∧
        v = { arr with arrVal := arr.arrVal ++ vs }) _ by
    refine hrest.after.mono ?_
    rintro t r' v - ⟨t, rfl, vs, hitems, rfl⟩
    exact ⟨vs, by simpa using hitems, rfl⟩
  cases r with
  | nil =>
    rw [hp.peek_nil]
    exact reads_failAt (fun _ => rfl) le_rfl hp.within
  | cons c r =>
    simp only [hp.peek_eq]
    split
    case isTrue hc =>
      obtain rfl : c = 44 := (charToInt_eq_iff (by decide)).mp hc
      obtain ⟨ws₁, r, rfl, hws₁, hskip₁, hp₁, -⟩ := hp.tail.skipWs
      simp only [List.length_append, List.length_cons] at hfuel
      rw [hskip₁]
      have hmore := ih.items (arr.push item) hp₁ (by omega)
      refine (hmore.after.after (t := [44])).mono ?_
      rintro t r' v - ⟨_, rfl, t, rfl, vs, hitems, rfl⟩
      have hall : Items ops (ws ++ (u ++ ws') ++ 44 :: (ws₁ ++ t)) (item :: vs) :=
        .more hpadded (hitems.white hws₁)
      exact ⟨item :: vs, hall, by simp [JsonValue.push]⟩
    split
    case isTrue hc =>
      obtain rfl : c = 93 := (charToInt_eq_iff (by decide)).mp hc
      exact ⟨[93], r, rfl, rfl, [item], .last hpadded, rfl⟩
    case isFalse => exact reads_failAt (fun _ => rfl) le_rfl hp.within

theorem reads_parseObject (h : Before p (123 :: s)) (hfuel : 3 * s.length + 3 ≤ fuel + 1) :
    Reads p (123 :: s) (fun t _ v => Denotes ops t v ∧ v.kind = .object)
      (parseObject ops (fuel + 1) p) := by
  obtain ⟨ws, r, rfl, hws, hskip, hp, -⟩ := h.tail.skipWs
  rw [List.length_append] at hfuel
  rw [parseObject]
  simp only [hskip]
  suffices hbody : Reads ((p.advance 1).advance ws.length) r
      (fun t _ v => Denotes ops (123 :: (ws ++ t)) v ∧ v.kind = .object) _ by
    refine (hbody.after.after (t := [123])).mono ?_
    rintro t r' v - ⟨_, rfl, t, rfl, hv⟩
    exact hv
  split
  case isTrue hclose =>
    cases r with
    | nil =>
      rw [hp.peek_nil] at hclose
      cases hclose
    | cons c r =>
      rw [hp.peek_eq] at hclose
      obtain rfl : c = 125 := (charToInt_eq_iff (by decide)).mp hclose
      exact ⟨[125], r, rfl, rfl, .emptyObject hws, rfl⟩
  case isFalse =>
    refine (ih.members (.newObject ops) hp (by omega) rfl).mono ?_
    rintro t r' v - ⟨ms, hmembers, hset, hkind⟩
    exact ⟨.object (hmembers.white hws) hset, hkind⟩

omit ih in
/-- One member, with its errors as the ends of the branches. -/
theorem parseMembers_succ (ops : Doubles D) (fuel : ℕ) (p : Parser) (obj : JsonValue D) :
    parseMembers ops (fuel + 1) p obj =
      let p := p.skipWs
      if p.peek ≠ 34 then failAt .unexpectedChar "unexpected character" p.pos
      else p.parseString >>= fun (key, p) =>
        let p := p.skipWs
        if p.peek ≠ 58 then failAt .expectedColon "expected ':'" p.pos
        else parseValue ops fuel (p.advance 1).skipWs >>= fun (value, p) =>
          match obj.set key value with
          | none => .error .panicked
          | some obj =>
            let p := p.skipWs
            if p.peek = 44 then parseMembers ops fuel (p.advance 1) obj
            else if p.peek = 125 then .ok (obj, p.advance 1)
            else failAt .expectedComma "expected ','" p.pos := by
  rw [parseMembers]
  dsimp only
  split
  · rfl
  refine bind_congr fun key => ?_
  split
  · rfl
  refine bind_congr fun value => ?_
  cases obj.set key.1 value.1 <;> rfl

/-- The value of a member and what comes after it. -/
theorem reads_memberValue (obj : JsonValue D) (key : Bytes) (h : Before p s)
    (hfuel : 3 * s.length + 3 ≤ fuel) (hlen : obj.objKeys.length = obj.objVals.length) :
    Reads p s (fun t _ v => ∃ u value t' ms, Padded ops u value ∧ t = u ++ t' ∧
        (t' = [125] ∧ ms = [] ∨ ∃ t₁, t' = 44 :: t₁ ∧ Members ops t₁ ms) ∧
        setAll obj ((key, value) :: ms) = some v ∧ v.kind = obj.kind)
      (parseValue ops fuel p.skipWs >>= fun (value, p) =>
        match obj.set key value with
        | none => .error .panicked
        | some obj =>
          let p := p.skipWs
          if p.peek = 44 then parseMembers ops fuel (p.advance 1) obj
          else if p.peek = 125 then .ok (obj, p.advance 1)
          else failAt .expectedComma "expected ','" p.pos) := by
  obtain ⟨ws, r, rfl, hws, hskip, hp, -⟩ := h.skipWs
  rw [List.length_append] at hfuel
  rw [hskip]
  suffices hvalue : Reads (p.advance ws.length) r (fun t _ v => ∃ u value t' ms,
      Padded ops (ws ++ u) value ∧ t = u ++ t' ∧
      (t' = [125] ∧ ms = [] ∨ ∃ t₁, t' = 44 :: t₁ ∧ Members ops t₁ ms) ∧
      setAll obj ((key, value) :: ms) = some v ∧ v.kind = obj.kind) _ by
    refine hvalue.after.mono ?_
    rintro t r' v - ⟨t, rfl, u, value, t', ms, hpadded, rfl, hrest⟩
    exact ⟨_, value, t', ms, hpadded, (List.append_assoc ..).symm, hrest⟩
  refine (ih.value hp (by omega)).bind ?_
  rintro _ r value rfl ⟨ws₁, u, rfl, hws₁, hv, -⟩
  obtain ⟨ws₂, r, rfl, hws₂, hskip₂, hp₂, -⟩ := hp.advance.skipWs
  have hpadded : Padded ops (ws ++ (ws₁ ++ u ++ ws₂)) value := by
    simpa using Padded.white hws (.intro hws₁ hv hws₂)
  obtain ⟨obj', hset, hlen', hkind⟩ := set_eq_some hlen key value
  have hsetAll : ∀ ms, setAll obj ((key, value) :: ms) = setAll obj' ms := by
    intro ms
    simp [setAll, hset]
  simp only [hset, hskip₂]
  simp only [List.length_append] at hfuel
  suffices hrest : Reads (((p.advance ws.length).advance (ws₁ ++ u).length).advance ws₂.length) r
      (fun t _ v => ∃ ms, (t = [125] ∧ ms = [] ∨ ∃ t₁, t = 44 :: t₁ ∧ Members ops t₁ ms) ∧
        setAll obj' ms = some v ∧ v.kind = obj'.kind) _ by
    refine hrest.after.mono ?_
    rintro t r' v - ⟨t, rfl, ms, hms, hall, hkind'⟩
    exact ⟨ws₁ ++ u ++ ws₂, value, t, ms, hpadded, by simp, hms, (hsetAll ms).trans hall,
      hkind'.trans hkind⟩
  cases r with
  | nil =>
    rw [hp₂.peek_nil]
    exact reads_failAt (fun _ => rfl) le_rfl hp₂.within
  | cons c r =>
    rw [List.length_cons] at hfuel
    simp only [hp₂.peek_eq]
    split
    case isTrue hc =>
      obtain rfl : c = 44 := (charToInt_eq_iff (by decide)).mp hc
      refine ((ih.members obj' hp₂.tail (by omega) hlen').after (t := [44])).mono ?_
      rintro t r' v - ⟨t, rfl, ms, hmembers, hall, hkind'⟩
      exact ⟨ms, .inr ⟨t, rfl, hmembers⟩, hall, hkind'⟩
    split
    case isTrue hc =>
      obtain rfl : c = 125 := (charToInt_eq_iff (by decide)).mp hc
      exact ⟨[125], r, rfl, rfl, [], .inl ⟨rfl, rfl⟩, rfl, rfl⟩
    case isFalse => exact reads_failAt (fun _ => rfl) le_rfl hp₂.within

theorem reads_parseMembers (obj : JsonValue D) (h : Before p s)
    (hfuel : 3 * s.length + 2 ≤ fuel + 1) (hlen : obj.objKeys.length = obj.objVals.length) :
    Reads p s (fun t _ v => ∃ ms, Members ops t ms ∧ setAll obj ms = some v ∧ v.kind = obj.kind)
      (parseMembers ops (fuel + 1) p obj) := by
  obtain ⟨ws, r, rfl, hws, hskip, hp, -⟩ := h.skipWs
  rw [parseMembers_succ]
  simp only [hskip]
  suffices hmember : Reads (p.advance ws.length) r (fun t _ v =>
      ∃ ms, Members ops (ws ++ t) ms ∧ setAll obj ms = some v ∧ v.kind = obj.kind) _ by
    refine hmember.after.mono ?_
    rintro t r' v - ⟨t, rfl, hv⟩
    exact hv
  split
  case isTrue => exact reads_failAt (fun _ => rfl) le_rfl hp.within
  case isFalse hquote =>
    cases r with
    | nil => exact absurd hp.peek_nil (by rw [not_not.mp hquote]; decide)
    | cons c r =>
      obtain rfl : c = 34 := (charToInt_eq_iff (by decide)).mp (hp.peek_eq.symm.trans
        (not_not.mp hquote))
      refine (reads_parseString hp).bind ?_
      rintro k r' key hk' hk
      have hp₁ := (hk' ▸ hp).advance
      obtain ⟨ws₁, r₁, rfl, hws₁, hskip₁, hp₁, -⟩ := hp₁.skipWs
      simp only [hskip₁]
      suffices hvalue : Reads (((p.advance ws.length).advance k.length).advance ws₁.length) r₁
          (fun t _ v => ∃ ms, Members ops (ws ++ (k ++ (ws₁ ++ t))) ms ∧
            setAll obj ms = some v ∧ v.kind = obj.kind) _ by
        refine hvalue.after.mono ?_
        rintro t r' v - ⟨t, rfl, hv⟩
        exact hv
      split
      case isTrue => exact reads_failAt (fun _ => rfl) le_rfl hp₁.within
      case isFalse hcolon =>
        cases r₁ with
        | nil => exact absurd hp₁.peek_nil (by rw [not_not.mp hcolon]; decide)
        | cons c r₁ =>
          obtain rfl : c = 58 := (charToInt_eq_iff (by decide)).mp (hp₁.peek_eq.symm.trans
            (not_not.mp hcolon))
          have hlenr := congrArg List.length hk'
          simp only [List.length_append, List.length_cons] at hlenr hfuel
          refine ((reads_memberValue ih obj key hp₁.tail (by omega) hlen).after
            (t := [58])).mono ?_
          rintro t r' v - ⟨_, rfl, u, value, t', ms, hpadded, rfl, hms, hall⟩
          have hone : Member ops (ws ++ (k ++ (ws₁ ++ 58 :: u))) (key, value) :=
            .intro hws hk hws₁ hpadded
          refine ⟨(key, value) :: ms, ?_, hall⟩
          rcases hms with ⟨rfl, rfl⟩ | ⟨t₁, rfl, hmembers⟩
          · simpa using Members.last hone
          · simpa using Members.more hone hmembers

end Step

/-- With enough fuel every routine reads a text of its own. -/
theorem readAll (ops : Doubles D) (fuel : ℕ) : ReadAll ops fuel := by
  induction fuel with
  | zero => exact ⟨nofun, nofun, nofun, nofun, nofun⟩
  | succ fuel ih =>
    exact ⟨reads_parseValue ih, reads_parseArray ih, reads_parseItems ih, reads_parseObject ih,
      reads_parseMembers ih⟩

end Values

/-! ### What stands after the terminator -/

/-- Two parsers at the same place of texts that agree before their end. -/
structure Alike (p q : Parser) : Prop where
  pos : p.pos = q.pos
  len : p.len = q.len
  bytes : ∀ i < p.len, byteAtUnchecked p.s i = byteAtUnchecked q.s i

/-- The same value, or the same error. -/
inductive SameResult {α : Type} : Except Stop (α × Parser) → Except Stop (α × Parser) → Prop
  | ok (v : α) {p q : Parser} (h : Alike p q) : SameResult (.ok (v, p)) (.ok (v, q))
  | error (e : Stop) : SameResult (.error e) (.error e)

section Alike

variable {α β : Type} {p q : Parser}

theorem SameResult.bind {x y : Except Stop (α × Parser)}
    {f g : α × Parser → Except Stop (β × Parser)} (h : SameResult x y)
    (hf : ∀ v {p q}, Alike p q → SameResult (f (v, p)) (g (v, q))) :
    SameResult (x >>= f) (y >>= g) := by
  cases h with
  | ok v h => exact hf v h
  | error e => exact .error e

theorem Alike.advance (h : Alike p q) (n : ℕ) : Alike (p.advance n) (q.advance n) where
  pos := congrArg (· + n) h.pos
  len := h.len
  bytes := h.bytes

theorem Alike.at_eq (h : Alike p q) (hlt : p.pos < p.len) : p.at' = q.at' := by
  rw [Parser.at', Parser.at', h.bytes _ hlt, h.pos]

theorem Alike.peek_eq (h : Alike p q) : p.peek = q.peek := by
  rw [Parser.peek, Parser.peek, h.pos, h.len]
  split
  · rfl
  case isFalse hlt => exact h.at_eq (by rw [h.pos, h.len]; omega)

theorem Alike.skipWs (h : Alike p q) : Alike p.skipWs q.skipWs where
  pos := by
    show Loop.scan _ p.len p.pos = Loop.scan _ q.len q.pos
    rw [← h.pos, ← h.len]
    exact Loop.scan_congr (fun i hi => by rw [h.bytes i hi]) _
  len := h.len
  bytes := h.bytes

theorem Alike.copyInto_eq (h : Alike p q) (sb : StringBuilder) (a : ℕ) {b : ℕ} (hb : b ≤ p.len) :
    p.copyInto sb a b = q.copyInto sb a b := by
  have hmap : (List.range' a (b - a)).map (byteAtUnchecked p.s) =
      (List.range' a (b - a)).map (byteAtUnchecked q.s) :=
    List.map_congr_left fun i hi => h.bytes i (by rw [List.mem_range'_1] at hi; omega)
  rw [Parser.copyInto, Parser.copyInto, hmap]

theorem Alike.parseLiteral (h : Alike p q) (lit : Bytes) (value : α) :
    SameResult (p.parseLiteral lit value) (q.parseLiteral lit value) := by
  induction lit generalizing p q with
  | nil => exact .ok value h
  | cons c lit ih =>
    have hcond : (p.pos ≥ p.len ∨ p.at' ≠ charToInt c) ↔
        (q.pos ≥ q.len ∨ q.at' ≠ charToInt c) := by
      rw [← h.pos, ← h.len]
      refine or_congr_right' fun hlt => ?_
      rw [h.at_eq (by omega)]
    rw [Parser.parseLiteral, Parser.parseLiteral]
    by_cases hend : p.pos ≥ p.len ∨ p.at' ≠ charToInt c
    · rw [if_pos hend, if_pos (hcond.mp hend), h.pos]
      exact .error _
    · rw [if_neg hend, if_neg fun hq => hend (hcond.mpr hq)]
      exact ih (h.advance 1)

theorem Alike.stringLoop (h : Alike p q) (sb : StringBuilder) (seg : ℕ) :
    SameResult (p.stringLoop sb seg) (q.stringLoop sb seg) := by
  induction hn : p.len - p.pos using Nat.strong_induction_on generalizing p q sb seg with
  | _ n ih =>
    subst hn
    rw [Parser.stringLoop.eq_def p, Parser.stringLoop.eq_def q]
    by_cases hlt : p.pos < p.len
    · have hq : q.pos < q.len := by rw [← h.pos, ← h.len]; exact hlt
      rw [dif_pos hlt, dif_pos hq]
      simp only [← h.at_eq hlt, ← h.copyInto_eq sb seg hlt.le, ← h.pos, ← h.len]
      split
      · exact .ok _ (h.advance 1)
      · split
        · split
          · exact .error _
          · next hend =>
            rw [← h.bytes _ (not_le.mp hend)]
            exact ih _ (by simp only [Parser.advance_len, Parser.advance_pos]; omega)
              (h.advance 2) _ _ rfl
        · exact ih _ (by simp only [Parser.advance_len, Parser.advance_pos]; omega)
            (h.advance 1) _ _ rfl
    · have hq : ¬q.pos < q.len := by rw [← h.pos, ← h.len]; exact hlt
      rw [dif_neg hlt, dif_neg hq, h.pos]
      exact .error _

theorem Alike.parseString (h : Alike p q) : SameResult p.parseString q.parseString := by
  rw [Parser.parseString, Parser.parseString, h.pos]
  exact (h.advance 1).stringLoop _ _

/-- The scans over a number look at the positions before the end only. -/
theorem Alike.numberSteps (h : Alike p q) :
    (∀ a b i, skipOneOf p.s p.len a b i = skipOneOf q.s q.len a b i) ∧
      (∀ i, skipDigits p.s p.len i = skipDigits q.s q.len i) ∧
      (∀ i, skipFraction p.s p.len i = skipFraction q.s q.len i) ∧
      ∀ i, AtExponent p.s p.len i ↔ AtExponent q.s q.len i := by
  have hdigits : ∀ i, skipDigits p.s p.len i = skipDigits q.s q.len i := by
    intro i
    unfold skipDigits
    rw [← h.len]
    exact Loop.scan_congr (fun i hi => by rw [isDigitAt, isDigitAt, h.bytes i hi]) i
  refine ⟨fun a b i => ?_, hdigits, fun i => ?_, fun i => ?_⟩
  · unfold skipOneOf
    rw [← h.len]
    refine if_congr (and_congr_right fun hi => ?_) rfl rfl
    rw [h.bytes i hi]
  · unfold skipFraction
    rw [← h.len]
    refine if_congr (and_congr_right fun hi => ?_) (h.len ▸ hdigits (i + 1)) rfl
    rw [h.bytes i hi]
  · unfold AtExponent
    rw [← h.len]
    refine and_congr_right fun hi => ?_
    rw [h.bytes i hi]

theorem Alike.parseNumber {D : Type} (ops : Doubles D) (h : Alike p q) :
    SameResult (p.parseNumber ops) (q.parseNumber ops) := by
  obtain ⟨hone, hdigits, hfraction, hexp⟩ := h.numberSteps
  have hend : numberEnd p = numberEnd q := by
    unfold numberEnd
    simp only [hone, hdigits, hfraction, hexp, h.pos]
  have hcopy : p.copyInto ⟨[]⟩ p.pos (numberEnd p) = q.copyInto ⟨[]⟩ q.pos (numberEnd q) := by
    rw [← h.pos, ← hend]
    by_cases hle : p.pos ≤ p.len
    · exact h.copyInto_eq _ _ (numberEnd_le hle)
    · -- past the end no scan moves
      have hsame : numberEnd p = p.pos := by
        have hstop : ∀ i, p.len < i → skipOneOf p.s p.len 45 45 i = i ∧
            skipDigits p.s p.len i = i ∧ skipFraction p.s p.len i = i ∧
              ¬AtExponent p.s p.len i := by
          intro i hi
          refine ⟨if_neg fun hc => ?_, Loop.scan_stop fun hlt => ?_, if_neg fun hc => ?_,
            fun hc => ?_⟩
          · exact absurd hc.1 (by omega)
          · exact absurd hlt (by omega)
          · exact absurd hc.1 (by omega)
          · exact absurd hc.1 (by omega)
        obtain ⟨h₁, h₂, h₃, h₄⟩ := hstop p.pos (by omega)
        unfold numberEnd
        dsimp only
        rw [h₁, h₂, h₃, if_neg h₄]
      rw [hsame, Parser.copyInto_self, Parser.copyInto_self]
  rw [h.pos, hend] at hcopy
  rw [parseNumber_eq, parseNumber_eq]
  simp only [hone, hdigits, hfraction, hend, h.pos, hcopy]
  split
  · exact .error _
  · cases parseDouble ops.toDouble (q.copyInto ⟨[]⟩ q.pos (numberEnd q)).toString with
    | ok n => exact .ok (JsonValue.fromNumber ops n) ⟨rfl, h.len, h.bytes⟩
    | error e => exact .error _

end Alike

section Alike

variable {D : Type} (ops : Doubles D)

/-- The routines that call one another do the same for both. -/
structure AlikeAll (fuel : ℕ) : Prop where
  value : ∀ {p q}, Alike p q → SameResult (parseValue ops fuel p) (parseValue ops fuel q)
  array : ∀ {p q}, Alike p q → SameResult (parseArray ops fuel p) (parseArray ops fuel q)
  items : ∀ arr {p q}, Alike p q →
    SameResult (parseItems ops fuel p arr) (parseItems ops fuel q arr)
  object : ∀ {p q}, Alike p q → SameResult (parseObject ops fuel p) (parseObject ops fuel q)
  members : ∀ obj {p q}, Alike p q →
    SameResult (parseMembers ops fuel p obj) (parseMembers ops fuel q obj)

theorem alikeAll (fuel : ℕ) : AlikeAll ops fuel := by
  induction fuel with
  | zero => exact ⟨fun _ => .error _, fun _ => .error _, fun _ _ _ _ => .error _, fun _ => .error _,
      fun _ _ _ _ => .error _⟩
  | succ fuel ih =>
    constructor
    case value =>
      intro p q h
      have hws := h.skipWs
      rw [parseValue, parseValue]
      simp only [hws.peek_eq, hws.pos]
      split
      · exact .error _
      split
      · exact ih.object hws
      split
      · exact ih.array hws
      split
      · exact hws.parseString.bind fun v p q h => .ok _ h
      split
      · exact hws.parseLiteral _ _
      split
      · exact hws.parseLiteral _ _
      split
      · exact hws.parseLiteral _ _
      split
      · exact hws.parseNumber ops
      · exact .error _
    case array =>
      intro p q h
      have hws := (h.advance 1).skipWs
      rw [parseArray, parseArray]
      simp only [hws.peek_eq]
      split
      · exact .ok _ (hws.advance 1)
      · exact ih.items _ hws
    case items =>
      intro arr p q h
      rw [parseItems, parseItems]
      refine (ih.value h).bind fun item p q h => ?_
      have hws := h.skipWs
      simp only [hws.peek_eq, hws.pos]
      split
      · exact ih.items _ (hws.advance 1).skipWs
      split
      · exact .ok _ (hws.advance 1)
      · exact .error _
    case object =>
      intro p q h
      have hws := (h.advance 1).skipWs
      rw [parseObject, parseObject]
      simp only [hws.peek_eq]
      split
      · exact .ok _ (hws.advance 1)
      · exact ih.members _ hws
    case members =>
      intro obj p q h
      have hws := h.skipWs
      rw [parseMembers_succ, parseMembers_succ]
      simp only [hws.peek_eq, hws.pos]
      split
      · exact .error _
      refine hws.parseString.bind fun key p q h => ?_
      have hws := h.skipWs
      simp only [hws.peek_eq, hws.pos]
      split
      · exact .error _
      refine (ih.value (hws.advance 1).skipWs).bind fun value p q h => ?_
      have hws := h.skipWs
      simp only [hws.peek_eq, hws.pos]
      cases obj.set key value with
      | none => exact .error _
      | some obj =>
        dsimp only
        split
        · exact ih.members _ (hws.advance 1)
        split
        · exact .ok _ (hws.advance 1)
        · exact .error _

end Alike

/-! ### Every text -/

section Forward

variable {α : Type} {p q : Parser} {s : Bytes} {good : Bytes → Bytes → α → Prop}
  {x y : Except Stop (α × Parser)}

/-- A routine goes on from `p`, or gives up at a place from `p` on; the end is not passed. -/
def Forward {α : Type} (p : Parser) : Except Stop (α × Parser) → Prop
  | .ok (_, q) => p.pos ≤ q.pos ∧ q.pos ≤ p.len ∧ q.len = p.len
  | .error (.raised err _) => p.pos ≤ err.offset ∧ err.offset ≤ p.len
  | .error _ => False

theorem Before.length_eq (h : Before p s) : s.length = p.len - p.pos := by
  rw [← h.drop_eq, List.length_drop, h.len_eq]

theorem Reads.forward (h : Before p s) (hx : Reads p s good x) : Forward p x := by
  match x, hx with
  | .ok (v, q), ⟨t, r, hs, hq, _⟩ =>
    have hlen := h.length_eq
    rw [hs, List.length_append] at hlen
    have := h.within
    subst hq
    exact ⟨Nat.le_add_right _ _, by simp only [Parser.advance_pos]; omega, rfl⟩
  | .error (.raised err _), hx => exact hx

theorem SameResult.forward (h : Alike p q) (hx : SameResult x y) (hy : Forward q y) :
    Forward p x := by
  cases hx with
  | ok v hpq =>
    obtain ⟨hpos, hend, hlen⟩ := hy
    exact ⟨h.pos ▸ hpq.pos ▸ hpos, h.len ▸ hpq.pos ▸ hend, by rw [hpq.len, h.len, hlen]⟩
  | error e =>
    cases e with
    | raised err message => exact ⟨h.pos ▸ hy.1, h.len ▸ hy.2⟩
    | panicked => exact hy
    | outOfFuel => exact hy

end Forward

section Parse

variable {D : Type} (ops : Doubles D) (s : Bytes)

theorem noNul_take_strlen : 0 ∉ s.take (strlen s) := by
  rw [strlen, ← List.prefix_iff_eq_take.mp (List.takeWhile_prefix _)]
  intro h
  simpa using List.mem_takeWhile_imp h

theorem strlen_le : strlen s ≤ s.length := (List.takeWhile_prefix _).length_le

variable {s} {p : Parser}

/-- The parser of the text without what stands after its terminator. -/
theorem alike_take (p : Parser) : Alike p { p with s := p.s.take p.len } where
  pos := rfl
  len := rfl
  bytes i hi := by
    simp only [byteAtUnchecked]
    rw [List.getD_eq_getElem?_getD, List.getD_eq_getElem?_getD, List.getElem?_take_of_lt hi]

theorem before_take (hlen : p.len = strlen p.s) (hpos : p.pos ≤ p.len) :
    Before { p with s := p.s.take p.len } ((p.s.take p.len).drop p.pos) where
  len_eq := by
    have := strlen_le p.s
    simp only [List.length_take]
    omega
  drop_eq := rfl
  within := hpos
  noNul := hlen ▸ noNul_take_strlen p.s

/-- Every routine, called at any place of a text, with fuel for the rest of it. -/
structure ForwardAll (fuel : ℕ) (p : Parser) : Prop where
  value : Forward p (parseValue ops fuel p)
  array : p.peek = 91 → Forward p (parseArray ops fuel p)
  items : ∀ arr, Forward p (parseItems ops fuel p arr)
  object : p.peek = 123 → Forward p (parseObject ops fuel p)
  members : ∀ obj : JsonValue D, obj.objKeys.length = obj.objVals.length →
    Forward p (parseMembers ops fuel p obj)
  string : p.peek = 34 → Forward p p.parseString
  number : Forward p (p.parseNumber ops)
  literal : ∀ lit (v : JsonValue D), Forward p (p.parseLiteral lit v)

theorem Before.eq_cons {s : Bytes} {c : UInt8} (h : Before p s) (hc : p.peek = charToInt c)
    (hascii : 0 ≤ charToInt c) : ∃ r, s = c :: r := by
  cases s with
  | nil =>
    rw [h.peek_nil] at hc
    omega
  | cons d r => exact ⟨r, by rw [charToInt_inj ((h.peek_eq).symm.trans hc)]⟩

theorem forwardAll {fuel : ℕ} (hlen : p.len = strlen p.s) (hpos : p.pos ≤ p.len)
    (hfuel : 3 * (p.len - p.pos) + 3 ≤ fuel) : ForwardAll ops fuel p := by
  have halike := alike_take p
  have hbefore := before_take hlen hpos
  have hlength := hbefore.length_eq
  have hread := readAll ops fuel
  have hsame := alikeAll ops fuel
  dsimp only at hlength
  constructor
  case value =>
    exact (hsame.value halike).forward halike ((hread.value hbefore (by omega)).forward hbefore)
  case array =>
    intro hpeek
    obtain ⟨r, hr⟩ := hbefore.eq_cons (c := 91) (halike.peek_eq ▸ hpeek) (by decide)
    rw [hr] at hbefore hlength
    exact (hsame.array halike).forward halike
      ((hread.array hbefore (by simp only [List.length_cons] at hlength; omega)).forward hbefore)
  case items =>
    intro arr
    exact (hsame.items arr halike).forward halike
      ((hread.items arr hbefore (by omega)).forward hbefore)
  case object =>
    intro hpeek
    obtain ⟨r, hr⟩ := hbefore.eq_cons (c := 123) (halike.peek_eq ▸ hpeek) (by decide)
    rw [hr] at hbefore hlength
    exact (hsame.object halike).forward halike
      ((hread.object hbefore (by simp only [List.length_cons] at hlength; omega)).forward hbefore)
  case members =>
    intro obj hobj
    exact (hsame.members obj halike).forward halike
      ((hread.members obj hbefore (by omega) hobj).forward hbefore)
  case string =>
    intro hpeek
    obtain ⟨r, hr⟩ := hbefore.eq_cons (c := 34) (halike.peek_eq ▸ hpeek) (by decide)
    rw [hr] at hbefore
    exact halike.parseString.forward halike ((reads_parseString hbefore).forward hbefore)
  case number =>
    exact (halike.parseNumber ops).forward halike ((reads_parseNumber ops hbefore).forward hbefore)
  case literal =>
    intro lit v
    exact (halike.parseLiteral lit v).forward halike
      ((reads_parseLiteral lit v hbefore).forward hbefore)

/-- What `parse` promises for every text, with its terminator or without. -/
structure SafeParse (s : Bytes) : Prop where
  ends : parse ops s ≠ .error .outOfFuel ∧ parse ops s ≠ .error .panicked
  bounded : ∀ junk, parse ops (s.take (strlen s) ++ 0 :: junk) = parse ops s
  forward : ∀ pos ≤ strlen s, ForwardAll ops (3 * strlen s + 3) ⟨s, pos, strlen s⟩
  accepts : ∀ v, parse ops s = .ok v → ∃ ws t rest, s.take (strlen s) = ws ++ (t ++ rest) ∧
    White ws ∧ Denotes ops t v ∧ (v.kind = .number → NumberEnds t rest)

theorem parse_eq_take (s : Bytes) : SameResult
    (parseValue ops (3 * strlen s + 3) ⟨s, 0, strlen s⟩)
    (parseValue ops (3 * strlen s + 3) ⟨s.take (strlen s), 0, strlen s⟩) :=
  (alikeAll ops _).value (alike_take ⟨s, 0, strlen s⟩)

theorem SameResult.fst_eq {x y : Except Stop (JsonValue D × Parser)} (h : SameResult x y) :
    (x >>= fun r => pure r.1) = (y >>= fun r => pure r.1) := by
  cases h with
  | ok v h => rfl
  | error e => rfl

theorem parse_bounded (s junk : Bytes) :
    parse ops (s.take (strlen s) ++ 0 :: junk) = parse ops s := by
  have hlen : strlen (s.take (strlen s) ++ 0 :: junk) = strlen s := by
    have hall : ∀ a ∈ s.take (strlen s), decide (a ≠ 0) = true := by
      intro a ha
      exact decide_eq_true fun h0 => noNul_take_strlen s (h0 ▸ ha)
    have hle := strlen_le s
    rw [strlen, List.takeWhile_append_of_pos hall]
    simp only [ne_eq, not_true_eq_false, decide_false, Bool.false_eq_true, not_false_eq_true,
      List.takeWhile_cons_of_neg, List.append_nil, List.length_take]
    omega
  have hcut := (parse_eq_take ops (s.take (strlen s) ++ 0 :: junk)).fst_eq
  rw [hlen] at hcut
  have htake : (s.take (strlen s) ++ 0 :: junk).take (strlen s) = s.take (strlen s) := by
    rw [List.take_append_of_le_length (by simp [strlen_le]), List.take_take, min_self]
  rw [htake] at hcut
  simp only [parse, hlen]
  exact hcut.trans (parse_eq_take ops s).fst_eq.symm

/-- `parse` ends on every text without a panic, looks at no byte behind the terminator, never goes
back, and what it accepts starts with a text of the grammar that denotes the value. -/
theorem parse_safe (s : Bytes) : SafeParse ops s := by
  have hbefore := before_take (p := ⟨s, 0, strlen s⟩) rfl (Nat.zero_le _)
  have hlength := hbefore.length_eq
  dsimp only at hbefore hlength
  rw [List.drop_zero] at hbefore hlength
  have hread := (readAll ops (3 * strlen s + 3)).value hbefore (by omega)
  have hcut := (parse_eq_take ops s).fst_eq
  have hparse : parse ops s = parseValue ops (3 * strlen s + 3) ⟨s.take (strlen s), 0, strlen s⟩ >>=
      fun r => pure r.1 := hcut
  constructor
  case ends =>
    constructor
    all_goals
      intro hstop
      rw [hparse] at hstop
      revert hread hstop
      cases parseValue ops (3 * strlen s + 3) ⟨s.take (strlen s), 0, strlen s⟩ with
      | ok r => exact fun _ h => nomatch h
      | error e =>
        intro hread hstop
        obtain rfl : e = _ := Except.error.inj hstop
        exact hread
  case bounded => exact parse_bounded ops s
  case forward =>
    intro pos hpos
    exact forwardAll ops rfl hpos (by simp only; omega)
  case accepts =>
    intro v hv
    rw [hparse] at hv
    revert hread hv
    cases parseValue ops (3 * strlen s + 3) ⟨s.take (strlen s), 0, strlen s⟩ with
    | error e => exact fun _ h => nomatch h
    | ok r =>
      obtain ⟨w, q⟩ := r
      rintro ⟨t, rest, hs, -, ws, u, rfl, hws, hu, hnum⟩ hv
      obtain rfl : w = v := Except.ok.inj hv
      exact ⟨ws, u, rest, by rw [hs, List.append_assoc], hws, hu, hnum⟩

/-- A text is accepted only when all of it is a value between white space. -/
def AcceptsWhole (s : Bytes) : Prop :=
  ∀ v, parse ops s = .ok v → Padded ops (s.take (strlen s)) v

theorem parse_null_garbage :
    parse digitDoubles (bytes "null x") = .ok (.nullValue digitDoubles) := by
  have hsees : Sees ⟨bytes "null x", 0, 6⟩ (bytes "null" ++ bytes " x") := ⟨rfl, rfl⟩
  have hfirst : Sees ⟨bytes "null x", 0, 6⟩ (110 :: bytes "ull x") := hsees
  have hvalue : parseValue digitDoubles 21 ⟨bytes "null x", 0, 6⟩ =
      .ok (.nullValue digitDoubles, Parser.advance ⟨bytes "null x", 0, 6⟩ 4) := by
    rw [parseValue, hfirst.skipWs_eq (by decide), hfirst.peek_eq]
    exact parseLiteral_of_sees hsees _
  show (parseValue digitDoubles 21 ⟨bytes "null x", 0, 6⟩ >>= fun r => pure r.1) = _
  rw [hvalue]
  rfl

theorem kind_setAll {obj v : JsonValue D} {members : List (Bytes × JsonValue D)}
    (h : setAll obj members = some v) : v.kind = obj.kind := by
  induction members generalizing obj with
  | nil => exact congrArg JsonValue.kind (Option.some.inj h).symm
  | cons m ms ih =>
    obtain ⟨obj', hset, hms⟩ := Option.bind_eq_some_iff.mp h
    refine (ih hms).trans ?_
    unfold JsonValue.set at hset
    dsimp only at hset
    split at hset
    · split at hset
      · rw [← Option.some.inj hset]
      · cases hset
    · rw [← Option.some.inj hset]

theorem Denotes.eq_null {t : Bytes} {v : JsonValue D} (h : Denotes ops t v)
    (hv : v = .nullValue ops) : t = bytes "null" := by
  have hkind : v.kind = .null := hv ▸ rfl
  cases h with
  | null => rfl
  | object h hset =>
    have : JsonType.object = JsonType.null := (kind_setAll hset).symm.trans hkind
    cases this
  | _ => cases hkind

/-- The garbage after the value is accepted with it. -/
theorem not_acceptsWhole_garbage : ¬ ∀ s, AcceptsWhole digitDoubles s := by
  intro h
  have hpad := h _ _ parse_null_garbage
  have htake : (bytes "null x").take (strlen (bytes "null x")) = bytes "null x" := by decide
  rw [htake] at hpad
  generalize ht : bytes "null x" = t at hpad
  generalize hv : JsonValue.nullValue digitDoubles = v at hpad
  obtain ⟨hws, hu, hws'⟩ := hpad
  next ws u ws' =>
    have hx : (120 : UInt8) ∈ ws ++ (u ++ ws') := ht ▸ (by decide : 120 ∈ bytes "null x")
    rw [hu.eq_null _ hv.symm, List.mem_append, List.mem_append] at hx
    obtain hx | hx | hx := hx
    · exact absurd (hws _ hx) (by decide)
    · exact absurd hx (by decide)
    · exact absurd (hws' _ hx) (by decide)

end Parse

end TurfLang.Json
