import Mathlib.Data.Rat.Floor
import TurfLang.Lib.Pieces

/-!
# `Lint.cpp`: fingerprints

`Fingerprint` prints a tree so that equal texts should mean equal trees. A string literal stands in
the text as it is, and a double with six digits after the point. The text can be read back where no
string holds the byte that ends its place, and where doubles that are printed alike are the same.
-/

namespace TurfLang

namespace Fingerprint

/-- Bytes, each as the character with its number. -/
abbrev Text := List Char

/-! ### Numbers -/

/-- A double, by its exact value. -/
inductive Double
  | nan
  | infinite (negative : Bool)
  | finite (x : ℚ)
  deriving DecidableEq

/-- To the nearest whole number, and between two to the even one. -/
def roundHalfEven (x : ℚ) : ℕ :=
  let n := ⌊x⌋₊
  if 2 * (x - n) < 1 ∨ 2 * (x - n) = 1 ∧ n % 2 = 0 then n else n + 1

/-- Six digits after the point. -/
def fixedSix (x : ℚ) : Text :=
  let n := roundHalfEven (x * 10 ^ 6)
  let digits := Nat.toDigits 10 (n % 10 ^ 6)
  Nat.toDigits 10 (n / 10 ^ 6) ++ '.' :: (List.replicate (6 - digits.length) '0' ++ digits)

/-- `std::to_string` of a double. -/
def Double.toText : Double → Text
  | .nan => "nan".toList
  | .infinite negative => if negative then "-inf".toList else "inf".toList
  | .finite x => if x < 0 then '-' :: fixedSix (-x) else fixedSix x

/-- An integer in base ten. -/
def intText : ℤ → Text
  | .ofNat n => Nat.toDigits 10 n
  | .negSucc n => '-' :: Nat.toDigits 10 (n + 1)

/-! ### Trees -/

/-- The bytes that end a place in the text. -/
def separators : List Char := [',', ';', ')', '(', '}']

/-- A name, which the lexer has read. -/
abbrev Name := {name : Text // ∀ c ∈ name, c ∉ separators}

/-- The expressions that are told apart; any other node is the address it has. -/
inductive Expr
  | int (value : ℤ)
  | double (value : Double)
  | bool (val : Bool)
  | string (bytes : Text)
  | var (name : Name)
  | block (exprs : List Expr)
  | binop (op : ℤ) (lhs rhs : Expr)
  | other (address : ℕ)

mutual

/-- `Fingerprint`. -/
def Expr.fingerprint : Expr → Text
  | .int value => ['i', 'n', 't', ':'] ++ intText value
  | .double value => ['d', 'b', 'l', ':'] ++ value.toText
  | .bool val =>
    ['b', 'o', 'o', 'l', ':'] ++ if val then ['t', 'r', 'u', 'e'] else ['f', 'a', 'l', 's', 'e']
  | .string bytes => ['s', 't', 'r', ':'] ++ bytes
  | .var name => ['v', 'a', 'r', ':'] ++ name
  | .block exprs => ['b', 'l', 'o', 'c', 'k', '{'] ++ (fingerprintAll exprs ++ ['}'])
  | .binop op lhs rhs =>
    ['b', 'i', 'n', 'o', 'p', ':'] ++ (intText op ++
      '(' :: (lhs.fingerprint ++ ',' :: (rhs.fingerprint ++ [')'])))
  | .other address => ['<', 'u', 'n', 'i', 'q', 'u', 'e', '@'] ++ (Nat.toDigits 10 address ++ ['>'])

def fingerprintAll : List Expr → Text
  | [] => []
  | e :: es => e.fingerprint ++ ';' :: fingerprintAll es

end

/-! ### Where the text can be read back -/

mutual

/-- No string literal holds the byte that ends its place; at the top no byte ends it. -/
def Expr.Clean : Expr → Prop
  | .block exprs => CleanAll exprs
  | .binop _ lhs rhs => lhs.CleanBefore ',' ∧ rhs.CleanBefore ')'
  | _ => True

/-- The same for a place that a byte ends. -/
def Expr.CleanBefore (t : Char) : Expr → Prop
  | .string bytes => t ∉ bytes
  | .block exprs => CleanAll exprs
  | .binop _ lhs rhs => lhs.CleanBefore ',' ∧ rhs.CleanBefore ')'
  | _ => True

def CleanAll : List Expr → Prop
  | [] => True
  | e :: es => e.CleanBefore ';' ∧ CleanAll es

end

mutual

/-- The double literals of a tree. -/
def Expr.doubles : Expr → List Double
  | .double value => [value]
  | .block exprs => doublesAll exprs
  | .binop _ lhs rhs => lhs.doubles ++ rhs.doubles
  | _ => []

def doublesAll : List Expr → List Double
  | [] => []
  | e :: es => e.doubles ++ doublesAll es

end

/-- The doubles of two trees that are printed alike are the same. -/
def SixDigitsTell (xs ys : List Double) : Prop := ∀ x ∈ xs, ∀ y ∈ ys, x.toText = y.toText → x = y

theorem SixDigitsTell.mono {xs xs' ys ys' : List Double} (h : SixDigitsTell xs ys)
    (hx : xs' ⊆ xs) (hy : ys' ⊆ ys) : SixDigitsTell xs' ys' :=
  fun x hxs y hys => h x (hx hxs) y (hy hys)

/-! ### The texts of numbers -/

theorem isDigit_not_separator {c : Char} (h : c.isDigit = true) : c ∉ separators := by
  intro hc
  simp only [separators, List.mem_cons, List.not_mem_nil, or_false] at hc
  obtain rfl | rfl | rfl | rfl | rfl := hc <;> exact absurd h (by decide)

theorem toDigits_plain {n : ℕ} {c : Char} (h : c ∈ Nat.toDigits 10 n) : c ∉ separators :=
  isDigit_not_separator (Nat.isDigit_of_mem_toDigits (by decide) (by decide) h)

theorem toDigits_injective {m n : ℕ} (h : Nat.toDigits 10 m = Nat.toDigits 10 n) : m = n := by
  rw [← Nat.ofDigitChars_ten_toDigits (n := m), h, Nat.ofDigitChars_ten_toDigits]

theorem intText_plain {i : ℤ} {c : Char} (h : c ∈ intText i) : c ∉ separators := by
  cases i with
  | ofNat n => exact toDigits_plain h
  | negSucc n =>
    obtain rfl | h := List.mem_cons.mp h
    · decide
    · exact toDigits_plain h

theorem intText_injective {i j : ℤ} (h : intText i = intText j) : i = j := by
  have hsign : ∀ {m n : ℕ}, Nat.toDigits 10 m ≠ '-' :: Nat.toDigits 10 n := fun {m n} heq => by
    have hd := Nat.isDigit_of_mem_toDigits (b := 10) (n := m) (c := '-') (by decide) (by decide)
      (by rw [heq]; exact List.mem_cons_self)
    exact absurd hd (by decide)
  cases i with
  | ofNat m =>
    cases j with
    | ofNat n =>
      have hdigits : Nat.toDigits 10 m = Nat.toDigits 10 n := h
      rw [toDigits_injective hdigits]
    | negSucc n => exact absurd h hsign
  | negSucc m =>
    cases j with
    | ofNat n => exact absurd h.symm hsign
    | negSucc n =>
      have hdigits : '-' :: Nat.toDigits 10 (m + 1) = '-' :: Nat.toDigits 10 (n + 1) := h
      rw [Nat.succ_injective (toDigits_injective (List.cons.inj hdigits).2)]

theorem fixedSix_plain {x : ℚ} {c : Char} (h : c ∈ fixedSix x) : c ∉ separators := by
  simp only [fixedSix, List.mem_append, List.mem_cons] at h
  obtain h | rfl | h | h := h
  · exact toDigits_plain h
  · decide
  · rw [List.eq_of_mem_replicate h]
    decide
  · exact toDigits_plain h

theorem Double.toText_plain {x : Double} {c : Char} (h : c ∈ x.toText) : c ∉ separators := by
  cases x with
  | nan =>
    have hall : ∀ c ∈ "nan".toList, c ∉ separators := by simp [separators]
    exact hall c h
  | infinite negative =>
    have hall : ∀ c ∈ "-inf".toList, c ∉ separators := by simp [separators]
    cases negative with
    | true => exact hall c h
    | false => exact hall c (List.mem_cons_of_mem _ h)
  | finite x =>
    simp only [Double.toText] at h
    split_ifs at h
    · obtain rfl | h := List.mem_cons.mp h
      · decide
      · exact fixedSix_plain h
    · exact fixedSix_plain h

/-! ### Reading a text back -/

/-- A text that holds none of the separators, up to the next of them. -/
theorem plain_append_inj {t : Char} (ht : t ∈ separators) {x y k l : Text}
    (hx : ∀ c ∈ x, c ∉ separators) (hy : ∀ c ∈ y, c ∉ separators)
    (h : x ++ t :: k = y ++ t :: l) : x = y ∧ k = l :=
  Pieces.append_cons_inj (fun hmem => hx t hmem ht) (fun hmem => hy t hmem ht) h

theorem separator_comma : ',' ∈ separators := by decide

theorem separator_semicolon : ';' ∈ separators := by decide

theorem separator_paren : ')' ∈ separators := by decide

theorem separator_open : '(' ∈ separators := by decide

theorem Expr.fingerprint_eq_cons (e : Expr) : ∃ c l, e.fingerprint = c :: l ∧ c ≠ '}' := by
  cases e with
  | bool val => cases val <;> exact ⟨_, _, rfl, by decide⟩
  | _ => exact ⟨_, _, rfl, by decide⟩

/-- The three letters that tell the kind of a node. -/
def Expr.letters : Expr → Text
  | .int _ => ['i', 'n', 't']
  | .double _ => ['d', 'b', 'l']
  | .bool _ => ['b', 'o', 'o']
  | .string _ => ['s', 't', 'r']
  | .var _ => ['v', 'a', 'r']
  | .block _ => ['b', 'l', 'o']
  | .binop _ _ _ => ['b', 'i', 'n']
  | .other _ => ['<', 'u', 'n']

theorem Expr.take_fingerprint (e : Expr) (k : Text) : (e.fingerprint ++ k).take 3 = e.letters := by
  cases e with
  | bool val => cases val <;> rfl
  | _ => rfl

theorem Expr.letters_eq {a b : Expr} {k l : Text} (h : a.fingerprint ++ k = b.fingerprint ++ l) :
    a.letters = b.letters := by
  rw [← a.take_fingerprint k, h, b.take_fingerprint]

mutual

/-- A clean tree, up to the byte that ends its place, and what stands behind it. -/
theorem Expr.fingerprint_inj {t : Char} (ht : t ∈ separators) : ∀ (a b : Expr) {k l : Text},
    a.CleanBefore t → b.CleanBefore t → SixDigitsTell a.doubles b.doubles →
    a.fingerprint ++ t :: k = b.fingerprint ++ t :: l → a = b ∧ k = l
  | .int i, b, _, _, _, _, _, h => by
    cases b with
    | int j =>
      rw [Expr.fingerprint, Expr.fingerprint, List.append_assoc, List.append_assoc] at h
      obtain ⟨hij, hk⟩ := plain_append_inj ht (fun _ => intText_plain (i := i))
        (fun _ => intText_plain (i := j)) (List.append_cancel_left h)
      exact ⟨by rw [intText_injective hij], hk⟩
    | _ => exact absurd (Expr.letters_eq h) (by simp [Expr.letters])
  | .double x, b, _, _, _, _, htell, h => by
    cases b with
    | double y =>
      obtain ⟨hxy, hk⟩ := plain_append_inj ht (fun _ => Double.toText_plain)
        (fun _ => Double.toText_plain) (by simpa [Expr.fingerprint] using h)
      exact ⟨by rw [htell x (by simp [Expr.doubles]) y (by simp [Expr.doubles]) hxy], hk⟩
    | _ => exact absurd (Expr.letters_eq h) (by simp [Expr.letters])
  | .bool val, b, _, _, _, _, _, h => by
    cases b with
    | bool val' => cases val <;> cases val' <;> simp_all [Expr.fingerprint]
    | _ => exact absurd (Expr.letters_eq h) (by simp [Expr.letters])
  | .string x, b, _, _, ha, hb, _, h => by
    cases b with
    | string y =>
      obtain ⟨hxy, hk⟩ := Pieces.append_cons_inj ha hb (by simpa [Expr.fingerprint] using h)
      exact ⟨by rw [hxy], hk⟩
    | _ => exact absurd (Expr.letters_eq h) (by simp [Expr.letters])
  | .var x, b, _, _, _, _, _, h => by
    cases b with
    | var y =>
      obtain ⟨hxy, hk⟩ := plain_append_inj ht x.2 y.2 (by simpa [Expr.fingerprint] using h)
      exact ⟨by rw [Subtype.ext hxy], hk⟩
    | _ => exact absurd (Expr.letters_eq h) (by simp [Expr.letters])
  | .block as, b, _, _, ha, hb, htell, h => by
    cases b with
    | block bs =>
      obtain ⟨has, hk⟩ := fingerprintAll_inj as bs ha hb htell
        (by simpa [Expr.fingerprint] using h)
      exact ⟨by rw [has], (List.cons.inj hk).2⟩
    | _ => exact absurd (Expr.letters_eq h) (by simp [Expr.letters])
  | .binop op lhs rhs, b, _, _, ha, hb, htell, h => by
    cases b with
    | binop op' lhs' rhs' =>
      simp only [Expr.fingerprint, List.append_assoc, List.cons_append, List.nil_append,
        List.cons.injEq, true_and] at h
      obtain ⟨hop, h⟩ := plain_append_inj separator_open (fun _ => intText_plain (i := op))
        (fun _ => intText_plain (i := op')) h
      obtain ⟨hl, h⟩ := Expr.fingerprint_inj separator_comma lhs lhs' ha.1 hb.1
        (htell.mono (List.subset_append_left _ _) (List.subset_append_left _ _)) h
      obtain ⟨hr, h⟩ := Expr.fingerprint_inj separator_paren rhs rhs' ha.2 hb.2
        (htell.mono (List.subset_append_right _ _) (List.subset_append_right _ _)) h
      exact ⟨by rw [intText_injective hop, hl, hr], (List.cons.inj h).2⟩
    | _ => exact absurd (Expr.letters_eq h) (by simp [Expr.letters])
  | .other x, b, _, _, _, _, _, h => by
    cases b with
    | other y =>
      have hend : '>' ∉ Nat.toDigits 10 x ∧ '>' ∉ Nat.toDigits 10 y := by
        constructor <;> exact fun hmem => absurd
          (Nat.isDigit_of_mem_toDigits (by decide) (by decide) hmem) (by decide)
      obtain ⟨hxy, hk⟩ := Pieces.append_cons_inj hend.1 hend.2 (by simpa [Expr.fingerprint] using h)
      exact ⟨by rw [toDigits_injective hxy], (List.cons.inj hk).2⟩
    | _ => exact absurd (Expr.letters_eq h) (by simp [Expr.letters])

theorem fingerprintAll_inj : ∀ (as bs : List Expr) {k l : Text}, CleanAll as → CleanAll bs →
    SixDigitsTell (doublesAll as) (doublesAll bs) →
    fingerprintAll as ++ '}' :: k = fingerprintAll bs ++ '}' :: l → as = bs ∧ k = l
  | [], [], _, _, _, _, _, h => ⟨rfl, (List.cons.inj h).2⟩
  | [], b :: bs, _, _, _, _, _, h => by
    obtain ⟨c, r, hb, hc⟩ := b.fingerprint_eq_cons
    simp only [fingerprintAll, hb, List.nil_append, List.cons_append, List.cons.injEq] at h
    exact absurd h.1.symm hc
  | a :: as, [], _, _, _, _, _, h => by
    obtain ⟨c, r, ha, hc⟩ := a.fingerprint_eq_cons
    simp only [fingerprintAll, ha, List.nil_append, List.cons_append, List.cons.injEq] at h
    exact absurd h.1 hc
  | a :: as, b :: bs, _, _, ha, hb, htell, h => by
    simp only [fingerprintAll, List.append_assoc, List.cons_append] at h
    obtain ⟨hab, h⟩ := Expr.fingerprint_inj separator_semicolon a b ha.1 hb.1
      (htell.mono (List.subset_append_left _ _) (List.subset_append_left _ _)) h
    obtain ⟨hrest, hk⟩ := fingerprintAll_inj as bs ha.2 hb.2
      (htell.mono (List.subset_append_right _ _) (List.subset_append_right _ _)) h
    exact ⟨by rw [hab, hrest], hk⟩

end

theorem Expr.Clean.before {e : Expr} (h : e.Clean) (t : Char) (hstring : ∀ s, e ≠ .string s) :
    e.CleanBefore t := by
  cases e with
  | string s => exact absurd rfl (hstring s)
  | _ => exact h

/-- Clean trees whose doubles the six digits tell apart have different fingerprints if they
differ. -/
theorem Expr.eq_of_fingerprint_eq {a b : Expr} (ha : a.Clean) (hb : b.Clean)
    (htell : SixDigitsTell a.doubles b.doubles) (h : a.fingerprint = b.fingerprint) : a = b := by
  have hletters : a.letters = b.letters :=
    Expr.letters_eq (k := []) (l := []) (congrArg (· ++ []) h)
  by_cases hstring : ∃ s, a = .string s
  · obtain ⟨s, rfl⟩ := hstring
    cases b with
    | string s' => rw [List.append_cancel_left (h : ['s', 't', 'r', ':'] ++ s = _ ++ s')]
    | _ => exact absurd hletters (by simp [Expr.letters])
  · have hb' : ∀ s, b ≠ .string s := by
      rintro s rfl
      cases a with
      | string s' => exact hstring ⟨s', rfl⟩
      | _ => exact absurd hletters (by simp [Expr.letters])
    push Not at hstring
    exact (Expr.fingerprint_inj separator_comma a b (k := []) (l := []) (ha.before _ hstring)
      (hb.before _ hb') htell (by rw [h])).1

end Fingerprint

end TurfLang
