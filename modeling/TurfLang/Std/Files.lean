import TurfLang.Codegen.IntOperators
import TurfLang.Std.Http.RequestCorrect

/-!
# `lib/std/core/io.tr`: files

What the C library does in one call of a function is given: whether the file opens, what `ftell`
says, how many of the bytes asked for are transferred, and whether `fclose` writes out what was
still buffered. A file may be a pipe or a device, so `ftell` need not say how long its content is.
-/

namespace TurfLang

namespace Files

open Codegen Codegen.IntOperators Strings

inductive FileError
  | notFound (path : String)
  | readFailed (path : String)
  | writeFailed (path : String)
  deriving DecidableEq, Repr

/-- An error and its message. -/
structure Raised where
  error : FileError
  message : String
  deriving DecidableEq, Repr

def notFound (path : String) : Raised := ⟨.notFound path, "file not found: '" ++ path ++ "'"⟩

def readFailed (path : String) : Raised := ⟨.readFailed path, "could not read '" ++ path ++ "'"⟩

def writeFailed (path : String) : Raised := ⟨.writeFailed path, "could not write '" ++ path ++ "'"⟩

/-- What the C library does in one call. -/
structure Answers where
  opens : Bool
  /-- `ftell`: -1, or a size. -/
  position : BitVec 64
  position_ge : -1 ≤ position.toInt
  /-- Whether there is memory for the buffer. -/
  allocates : Bool
  /-- How many bytes `fread` and `fwrite` transfer of so many. -/
  count : ℕ → ℕ
  count_le : ∀ n, count n ≤ n
  flushes : Bool

/-- How a call ends. An overrun is a write behind the end of the buffer. -/
inductive Outcome (α : Type)
  | returns (r : Except Raised α)
  | panics
  | outOfMemory
  | overruns

/-- A C string ends at its first NUL. -/
def cString (s : Bytes) : Bytes := s.take (strlen s)

/-- `read_to_string`, of a file with this content. -/
def readToString (path : String) (content : Bytes) (r : Answers) : Outcome Bytes :=
  if !r.opens then .returns (.error (notFound path))
  else
    let size := r.position
    match ofChecked (emitCheckedIntArith .add size 1) with
    | .error _ => .panics
    | .ok bytes =>
      if !r.allocates then .outOfMemory
      else
        let buf := content.take (r.count size.toNat)
        if bytes.toNat < buf.length then .overruns
        else if BitVec.ofNat 64 buf.length ≠ size then .returns (.error (readFailed path))
        else .returns (.ok (cString buf))

/-- `read_lines`, where a failed split is a panic. -/
def readLines (path : String) (content : Bytes) (r : Answers) : Outcome (List Bytes) :=
  match readToString path content r with
  | .panics => .panics
  | .outOfMemory => .outOfMemory
  | .overruns => .overruns
  | .returns (.error _) => .returns (.error (notFound path))
  | .returns (.ok content) =>
    match split content [10] with
    | none => .panics
    | some lines =>
      if lines.getLast? = some [] then .returns (.ok lines.dropLast)
      else .returns (.ok lines)

/-- `write_string`, and the content of the file after it. What is buffered is lost if `fclose`
fails; `kept` tells how much has been written before. -/
def writeString (path : String) (old content : Bytes) (kept : ℕ) (r : Answers) :
    Outcome Unit × Bytes :=
  if !r.opens then (.returns (.error (writeFailed path)), old)
  else
    let n := strlen content
    let written := r.count n
    let file := content.take (if r.flushes then written else min kept written)
    if written ≠ n then (.returns (.error (writeFailed path)), file)
    else (.returns (.ok ()), file)

/-! ### Reading -/

variable {path : String} {content s : Bytes} {r : Answers}

theorem toNat_eq (x : BitVec 64) :
    (x.toNat : ℤ) = if 0 ≤ x.toInt then x.toInt else x.toInt + 2 ^ 64 := by
  have hx := BitVec.toInt_eq_toNat_cond x
  have hlt := x.isLt
  split_ifs at hx ⊢ <;> omega

theorem add_one_cases (x : BitVec 64) :
    (x.toInt = 2 ^ 63 - 1 ∧ ∃ e, ofChecked (emitCheckedIntArith .add x 1) = .error e) ∨
      (x.toInt ≠ 2 ^ 63 - 1 ∧ ∃ v : BitVec 64, v.toInt = x.toInt + 1 ∧
        ofChecked (emitCheckedIntArith .add x 1) = .ok v) := by
  have hfits := FitsSigned.toInt (by decide) x
  simp only [FitsSigned] at hfits
  have hone : (1 : BitVec 64).toInt = 1 := by decide
  cases hadd : emitCheckedIntArith .add x 1 with
  | error text =>
    have hno := (emitCheckedIntArith_eq_error.mp hadd).2
    simp only [ArithOp.exact, FitsSigned, hone] at hno
    exact .inl ⟨by omega, _, rfl⟩
  | ok v =>
    have hv := emitCheckedIntArith_eq_ok.mp hadd
    simp only [ArithOp.exact, hone] at hv
    have hlt := FitsSigned.toInt (by decide) v
    simp only [FitsSigned] at hlt
    exact .inr ⟨by omega, v, hv, rfl⟩

/-- A size that fits: no more is transferred than there is room for before the last byte. -/
theorem readToString_of_nonneg (hopens : r.opens = true) (hsize : 0 ≤ r.position.toInt)
    (hmax : r.position.toInt ≠ 2 ^ 63 - 1) (halloc : r.allocates = true) :
    readToString path content r =
      if (content.take (r.count r.position.toNat)).length = r.position.toNat then
        .returns (.ok (cString (content.take r.position.toNat)))
      else .returns (.error (readFailed path)) := by
  obtain ⟨hx, -⟩ | ⟨-, v, hv, hadd⟩ := add_one_cases r.position
  · exact absurd hx hmax
  have hnat := toNat_eq r.position
  have hvnat := toNat_eq v
  rw [if_pos hsize] at hnat
  rw [if_pos (by omega)] at hvnat
  have hcount := r.count_le r.position.toNat
  have hlen : (content.take (r.count r.position.toNat)).length ≤ r.position.toNat :=
    Nat.le_trans (List.length_take_le _ _) hcount
  have hroom : ¬v.toNat < (content.take (r.count r.position.toNat)).length := by omega
  have hlt := r.position.isLt
  have hsame : BitVec.ofNat 64 (content.take (r.count r.position.toNat)).length = r.position ↔
      (content.take (r.count r.position.toNat)).length = r.position.toNat := by
    rw [← BitVec.toNat_inj, BitVec.toNat_ofNat, Nat.mod_eq_of_lt (by omega)]
  simp only [readToString, hopens, halloc, hadd, Bool.not_true, Bool.false_eq_true, if_false,
    if_neg hroom, ne_eq, hsame]
  by_cases heq : (content.take (r.count r.position.toNat)).length = r.position.toNat
  · have hall : r.count r.position.toNat = r.position.toNat := by
      have := List.length_take_le (r.count r.position.toNat) content
      omega
    rw [if_neg (not_not.mpr heq), if_pos heq, hall]
  · rw [if_pos heq, if_neg heq]

/-- Where `ftell` fails, the buffer has no byte. -/
theorem readToString_of_neg (hopens : r.opens = true) (hsize : r.position.toInt = -1)
    (halloc : r.allocates = true) :
    readToString path content r =
      if content.take (r.count (2 ^ 64 - 1)) = [] then .returns (.error (readFailed path))
      else .overruns := by
  obtain ⟨hx, -⟩ | ⟨-, v, hv, hadd⟩ := add_one_cases r.position
  · omega
  have hnat := toNat_eq r.position
  have hvnat := toNat_eq v
  rw [if_neg (by omega)] at hnat
  rw [if_pos (by omega)] at hvnat
  have hasked : r.position.toNat = 2 ^ 64 - 1 := by omega
  have hv0 : v.toNat = 0 := by omega
  have hne : ¬BitVec.ofNat 64 0 = r.position := by
    rw [← BitVec.toNat_inj, hasked]
    decide
  simp only [readToString, hopens, halloc, hadd, Bool.not_true, Bool.false_eq_true, if_false,
    hasked, hv0, List.length_pos_iff, ne_eq]
  by_cases hnil : content.take (r.count (2 ^ 64 - 1)) = []
  · rw [if_neg (not_not.mpr hnil), if_pos hnil, hnil, List.length_nil, if_pos hne]
  · rw [if_pos hnil, if_neg hnil]

/-- When a read succeeds, and with what; when it panics; and when it writes behind its buffer. -/
theorem readToString_spec (path : String) (content : Bytes) (r : Answers) :
    (∀ s, readToString path content r = .returns (.ok s) ↔
      r.opens = true ∧ 0 ≤ r.position.toInt ∧ r.position.toInt ≠ 2 ^ 63 - 1 ∧
        r.allocates = true ∧
        (content.take (r.count r.position.toNat)).length = r.position.toNat ∧
        s = cString (content.take r.position.toNat)) ∧
    (readToString path content r = .panics ↔
      r.opens = true ∧ r.position.toInt = 2 ^ 63 - 1) ∧
    (readToString path content r = .overruns ↔
      r.opens = true ∧ r.position.toInt = -1 ∧ r.allocates = true ∧
        content.take (r.count (2 ^ 64 - 1)) ≠ []) := by
  have hge := r.position_ge
  cases hopens : r.opens with
  | false =>
    have hrun : readToString path content r = .returns (.error (notFound path)) := by
      simp only [readToString, hopens, Bool.not_false, if_true]
    simp only [hrun, Outcome.returns.injEq, reduceCtorEq, Bool.false_eq_true, false_and,
      implies_true, and_self]
  | true =>
    obtain ⟨hmax, e, hadd⟩ | ⟨hmax, v, -, hadd⟩ := add_one_cases r.position
    · have hrun : readToString path content r = .panics := by
        simp only [readToString, hopens, hadd, Bool.not_true, Bool.false_eq_true, if_false]
      have hnotneg : ¬((2 : ℤ) ^ 63 - 1 = -1) := by decide
      simp only [hrun, reduceCtorEq, hmax, hnotneg, ne_eq, not_true_eq_false, false_and, and_false,
        implies_true, and_self]
    cases halloc : r.allocates with
    | false =>
      have hrun : readToString path content r = .outOfMemory := by
        simp only [readToString, hopens, hadd, halloc, Bool.not_true, Bool.not_false,
          Bool.false_eq_true, if_false, if_true]
      simp only [hrun, reduceCtorEq, hmax, Bool.false_eq_true, false_and, and_false,
        implies_true, and_self]
    | true =>
      by_cases hsize : 0 ≤ r.position.toInt
      · have hnotneg : r.position.toInt ≠ -1 := by omega
        rw [readToString_of_nonneg hopens hsize hmax halloc]
        split_ifs with heq
        · simp only [Outcome.returns.injEq, Except.ok.injEq, hsize, hmax, hnotneg, heq, ne_eq,
            not_false_eq_true, true_and, false_and, and_false, and_true]
          exact fun s => eq_comm
        · simp only [Outcome.returns.injEq, reduceCtorEq, hmax, hnotneg, heq, false_and, and_false,
            implies_true, and_self]
      · have hneg : r.position.toInt = -1 := by omega
        have hnotmax : ¬((-1 : ℤ) = 2 ^ 63 - 1) := by decide
        have hnotsize : ¬((0 : ℤ) ≤ -1) := by decide
        rw [readToString_of_neg hopens hneg halloc]
        split_ifs with hnil
        · simp only [Outcome.returns.injEq, reduceCtorEq, hnotsize, hneg, hnotmax, hnil, ne_eq,
            not_true_eq_false, false_and, and_false, implies_true, and_self]
        · simp only [hnotsize, hneg, hnotmax, hnil, ne_eq, not_false_eq_true, false_and,
            and_false, implies_true, and_self]

/-! ### Writing -/

/-- A write succeeds if `fwrite` has taken every byte, whatever `fclose` does with them. -/
theorem writeString_ok {old : Bytes} {kept : ℕ} :
    (writeString path old content kept r).1 = .returns (.ok ()) ↔
      r.opens = true ∧ r.count (strlen content) = strlen content := by
  cases hopens : r.opens with
  | false => simp [writeString, hopens]
  | true =>
    by_cases hcount : r.count (strlen content) = strlen content
    · simp [writeString, hopens, hcount]
    · simp [writeString, hopens, hcount]

theorem strlen_le (s : Bytes) : strlen s ≤ s.length := (List.takeWhile_sublist _).length_le

/-- After a write that succeeds the file is the text, or what had been written out of it before a
`fclose` that fails. -/
theorem writeString_file {old : Bytes} {kept : ℕ}
    (h : (writeString path old content kept r).1 = .returns (.ok ())) :
    (writeString path old content kept r).2 =
      if r.flushes then cString content else (cString content).take kept := by
  obtain ⟨hopens, hcount⟩ := writeString_ok.mp h
  have hle := strlen_le content
  cases hflushes : r.flushes with
  | true => simp [writeString, hopens, hcount, hflushes, cString]
  | false => simp [writeString, hopens, hcount, hflushes, cString, List.take_take]

/-! ### Round trips -/

theorem cString_of_noNul (h : 0 ∉ s) : cString s = s := by
  rw [cString, strlen_of_noNul h, List.take_length]

theorem noNul_cString (s : Bytes) : 0 ∉ cString s := by
  have htake : cString s = s.takeWhile (· ≠ 0) :=
    (List.prefix_iff_eq_take.mp (List.takeWhile_prefix _)).symm
  rw [htake]
  intro h
  simpa using List.mem_takeWhile_imp h

/-- What is written and read again is the same up to its first NUL: if the write succeeded and
`fclose` wrote everything out, each read of the file that succeeds and is told its length. -/
theorem readToString_writeString {old : Bytes} {kept : ℕ} {w : Answers}
    (hwrite : (writeString path old content kept w).1 = .returns (.ok ()))
    (hflushes : w.flushes = true)
    (hread : readToString path (writeString path old content kept w).2 r = .returns (.ok s))
    (hsize : r.position.toNat = (writeString path old content kept w).2.length) :
    s = cString content := by
  obtain ⟨-, -, -, -, -, rfl⟩ := ((readToString_spec _ _ r).1 s).mp hread
  rw [writeString_file hwrite, if_pos hflushes] at hsize ⊢
  rw [hsize, List.take_length, cString_of_noNul (noNul_cString content)]

/-- The lines of a text. -/
def linesOf (text : Bytes) : List Bytes :=
  if (Pieces.pieces [10] text).getLast? = some [] then (Pieces.pieces [10] text).dropLast
  else Pieces.pieces [10] text

/-- `read_lines` gives the lines of what `read_to_string` gives, and fails otherwise as it does, but
for the name of the error. -/
theorem readLines_eq (path : String) (content : Bytes) (r : Answers) :
    readLines path content r = match readToString path content r with
      | .returns (.ok s) => .returns (.ok (linesOf s))
      | .returns (.error _) => .returns (.error (notFound path))
      | .panics => .panics
      | .outOfMemory => .outOfMemory
      | .overruns => .overruns := by
  rw [readLines]
  cases hread : readToString path content r with
  | returns res =>
    cases res with
    | error e => rfl
    | ok s =>
      obtain ⟨-, -, -, -, -, hs⟩ := ((readToString_spec path content r).1 s).mp hread
      have hno : 0 ∉ s := hs ▸ noNul_cString _
      have hsplit : split s [10] = some (Pieces.pieces [10] s) :=
        split_eq hno (by decide) (by decide)
      simp only [hsplit, linesOf]
      split_ifs <;> rfl
  | panics => rfl
  | outOfMemory => rfl
  | overruns => rfl

theorem pieces_unlines {ls : List Bytes} (h : ∀ l ∈ ls, 10 ∉ l) :
    Pieces.pieces [10] (ls.flatMap (· ++ [10])) = ls ++ [[]] := by
  induction ls with
  | nil => exact Http.pieces_of_notMem (by decide)
  | cons l ls ih =>
    have hl := h l List.mem_cons_self
    have hrest := ih fun l' hl' => h l' (List.mem_cons_of_mem l hl')
    rw [List.flatMap_cons, List.append_assoc, List.singleton_append, Http.pieces_append hl, hrest,
      List.cons_append]

theorem linesOf_unlines {ls : List Bytes} (h : ∀ l ∈ ls, 10 ∉ l) :
    linesOf (ls.flatMap (· ++ [10])) = ls := by
  rw [linesOf, pieces_unlines h, if_pos List.getLast?_concat, List.dropLast_concat]

/-- Lines that are written, each with its newline, are read again. -/
theorem readLines_writeString {old : Bytes} {kept : ℕ} {w : Answers} {ls ls' : List Bytes}
    (hno : ∀ l ∈ ls, 10 ∉ l ∧ 0 ∉ l)
    (hwrite : (writeString path old (ls.flatMap (· ++ [10])) kept w).1 = .returns (.ok ()))
    (hflushes : w.flushes = true)
    (hread : readLines path (writeString path old (ls.flatMap (· ++ [10])) kept w).2 r =
      .returns (.ok ls'))
    (hsize : r.position.toNat =
      (writeString path old (ls.flatMap (· ++ [10])) kept w).2.length) :
    ls' = ls := by
  rw [readLines_eq] at hread
  cases hr : readToString path (writeString path old (ls.flatMap (· ++ [10])) kept w).2 r with
  | returns res =>
    rw [hr] at hread
    cases res with
    | error e => cases hread
    | ok s =>
      have hs := readToString_writeString hwrite hflushes hr hsize
      have hnul : 0 ∉ ls.flatMap (· ++ [10]) := by
        intro h0
        obtain ⟨l, hl, h0⟩ := List.mem_flatMap.mp h0
        obtain h0 | h0 := List.mem_append.mp h0
        · exact (hno l hl).2 h0
        · exact absurd h0 (by decide)
      rw [cString_of_noNul hnul] at hs
      simp only [Outcome.returns.injEq, Except.ok.injEq] at hread
      rw [← hread, hs]
      exact linesOf_unlines fun l hl => (hno l hl).1
  | panics =>
    rw [hr] at hread
    cases hread
  | outOfMemory =>
    rw [hr] at hread
    cases hread
  | overruns =>
    rw [hr] at hread
    cases hread

/-- A file of this length, with which all goes well. -/
def goodAnswers (size : BitVec 64) (h : -1 ≤ size.toInt) : Answers where
  opens := true
  position := size
  position_ge := h
  allocates := true
  count n := n
  count_le _ := Nat.le_refl _
  flushes := true

theorem readLines_writeString_twoLines :
    readLines "f" [97, 10, 98, 10] (goodAnswers 4 (by decide)) = .returns (.ok [[97], [98]]) := by
  have hread : readLines "f" [97, 10, 98, 10] (goodAnswers 4 (by decide)) =
      .returns (.ok (linesOf [97, 10, 98, 10])) := by
    rw [readLines_eq]
    rfl
  have hlines : ∀ l ∈ ([[97], [98]] : List Bytes), 10 ∉ l ∧ 0 ∉ l := by decide
  have h := readLines_writeString hlines (show (writeString "f" [] _ 0
    (goodAnswers 4 (by decide))).1 = .returns (.ok ()) from rfl) rfl hread rfl
  rw [hread, h]

/-- When the file functions succeed, and with what: a read that panics or writes behind its buffer,
and a write that is reported as a success while bytes are lost, are told apart by what the C library
does. -/
theorem files_exact (path : String) (content old : Bytes) (kept : ℕ) (r : Answers) :
    ((∀ s, readToString path content r = .returns (.ok s) ↔
      r.opens = true ∧ 0 ≤ r.position.toInt ∧ r.position.toInt ≠ 2 ^ 63 - 1 ∧
        r.allocates = true ∧
        (content.take (r.count r.position.toNat)).length = r.position.toNat ∧
        s = cString (content.take r.position.toNat)) ∧
    (readToString path content r = .panics ↔
      r.opens = true ∧ r.position.toInt = 2 ^ 63 - 1) ∧
    (readToString path content r = .overruns ↔
      r.opens = true ∧ r.position.toInt = -1 ∧ r.allocates = true ∧
        content.take (r.count (2 ^ 64 - 1)) ≠ [])) ∧
    ((writeString path old content kept r).1 = .returns (.ok ()) ↔
      r.opens = true ∧ r.count (strlen content) = strlen content) ∧
    ((writeString path old content kept r).1 = .returns (.ok ()) →
      (writeString path old content kept r).2 =
        if r.flushes then cString content else (cString content).take kept) :=
  ⟨readToString_spec path content r, writeString_ok, writeString_file⟩

theorem files_exact_pipe : readToString "f" [97] (goodAnswers (-1) (by decide)) = .overruns :=
  (files_exact "f" [97] [] 0 (goodAnswers (-1) (by decide))).1.2.2.mpr
    ⟨rfl, by decide, rfl, by simp [goodAnswers]⟩

end Files

end TurfLang
