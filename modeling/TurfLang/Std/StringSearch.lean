import TurfLang.Lib.Pieces
import TurfLang.Std.StringBuilder

/-!
# `lib/std/core/strings.tr`: searching, `split`, `join` and `replace`

Each function scans for occurrences on its own. A result of `none` is a panic, or a byte read or
written out of bounds.
-/

namespace TurfLang.Strings

/-! ### The functions -/

/-- `s[i]`, which panics unless `i` comes before the terminator. -/
def indexed (s : Bytes) (i : ℕ) : Option UInt8 := if i < strlen s then s[i]? else none

/-- C's `strstr`: where the needle stands first. -/
def strstr (haystack needle : Bytes) : Option ℕ :=
  (List.range (strlen haystack + 1)).find? fun i =>
    needle.take (strlen needle) <+: (haystack.take (strlen haystack)).drop i

/-- `contains`. -/
def contains (s needle : Bytes) : Bool := (strstr s needle).isSome

/-- The loop of `index_of` and `split` that compares all of `needle`. -/
def matchesAll (s needle : Bytes) (i nlen j : ℕ) (isMatch : Bool) : Option Bool :=
  if j < nlen then do
    let x ← indexed s (i + j)
    let y ← indexed needle j
    matchesAll s needle i nlen (j + 1) (if x ≠ y then false else isMatch)
  else some isMatch
termination_by nlen - j

/-- The loop of `last_index_of` and `replace` that stops at a difference. -/
def matchesUntil (s needle : Bytes) (i nlen j : ℕ) (isMatch : Bool) : Option Bool :=
  if isMatch ∧ j < nlen then do
    let x ← byteAt s (i + j)
    let y ← byteAt needle j
    matchesUntil s needle i nlen (j + 1) (if x ≠ y then false else isMatch)
  else some isMatch
termination_by nlen - j

/-- The outer loop of `index_of`. -/
def indexOfFrom (s needle : Bytes) (n nlen i : ℕ) : Option ℤ :=
  if (i : ℤ) ≤ n - nlen then do
    let isMatch ← matchesAll s needle i nlen 0 true
    if isMatch then some i else indexOfFrom s needle n nlen (i + 1)
  else some (-1)
termination_by n + 1 - i

/-- `index_of`. -/
def indexOf (s needle : Bytes) : Option ℤ :=
  match strstr s needle with
  | none => some (-1)
  | some _ => indexOfFrom s needle (strlen s) (strlen needle) 0

/-- The outer loop of `last_index_of`. -/
def lastIndexOfFrom (s needle : Bytes) (nlen : ℕ) (i : ℤ) : Option ℤ :=
  if 0 ≤ i then do
    let isMatch ← matchesUntil s needle i.toNat nlen 0 true
    if isMatch then some i else lastIndexOfFrom s needle nlen (i - 1)
  else some (-1)
termination_by (i + 1).toNat

/-- `last_index_of`. -/
def lastIndexOf (s needle : Bytes) : Option ℤ :=
  lastIndexOfFrom s needle (strlen needle) (strlen s - strlen needle)

/-- `substring`. -/
def substring (s : Bytes) (start stop : ℤ) : Option Bytes :=
  if start < 0 ∨ stop < start ∨ stop > strlen s then none
  else do
    let len := (stop - start).toNat
    let buf ← copyBytes (fun i => byteAt s (start + i).toNat) 0 len (gcAlloc (len + 1)) 0
    let buf ← store buf len 0
    cString buf

/-- The loop of `split`, and the last piece. -/
def splitFrom (s delimiter : Bytes) (slen dlen : ℕ) (h : dlen ≠ 0) (start i : ℕ)
    (result : List Bytes) : Option (List Bytes) :=
  if (i : ℤ) ≤ slen - dlen then do
    let isMatch ← matchesAll s delimiter i dlen 0 true
    if isMatch then do
      let piece ← substring s start i
      splitFrom s delimiter slen dlen h (i + dlen) (i + dlen) (result ++ [piece])
    else splitFrom s delimiter slen dlen h start (i + 1) result
  else do
    let piece ← substring s start slen
    some (result ++ [piece])
termination_by slen + 1 - i

/-- `split`. -/
def split (s delimiter : Bytes) : Option (List Bytes) :=
  if h : strlen delimiter = 0 then some [s]
  else splitFrom s delimiter (strlen s) (strlen delimiter) h 0 0 []

/-- The loop of `join`. -/
def joinFrom (items : List Bytes) (sep : Bytes) (sb : BuilderBuffer) (i : ℕ) :
    Option BuilderBuffer :=
  if i < items.length then do
    let sb ← (if i > 0 then sb.append sep else some sb)
    let item ← items[i]?
    let sb ← sb.append item
    joinFrom items sep sb (i + 1)
  else some sb
termination_by items.length - i

/-- `join`. -/
def join (items : List Bytes) (sep : Bytes) : Option Bytes := do
  let sb ← joinFrom items sep {} 0
  sb.toString

/-- The loop of `replace`. -/
def replaceFrom (s old newStr : Bytes) (slen oldlen : ℕ) (h : oldlen ≠ 0) (sb : BuilderBuffer)
    (i : ℕ) : Option BuilderBuffer :=
  if i < slen then do
    let isMatch ← matchesUntil s old i oldlen 0 (i + oldlen ≤ slen)
    if isMatch then do
      let sb ← sb.append newStr
      replaceFrom s old newStr slen oldlen h sb (i + oldlen)
    else do
      let c ← byteAt s i
      let sb ← sb.appendChar c
      replaceFrom s old newStr slen oldlen h sb (i + 1)
  else some sb
termination_by slen - i

/-- `replace`. -/
def replace (s old newStr : Bytes) : Option Bytes :=
  if h : strlen old = 0 then some s
  else do
    let sb ← BuilderBuffer.reserve {} (strlen s)
    let sb ← replaceFrom s old newStr (strlen s) (strlen old) h sb 0
    sb.toString

/-! ### One comparison -/

variable {s d r : Bytes}

theorem indexed_of_noNul (hs : 0 ∉ s) {i : ℕ} (hi : i < s.length) : indexed s i = some s[i] := by
  rw [indexed, strlen_of_noNul hs, if_pos hi, List.getElem?_eq_getElem hi]

theorem byteAt_of_lt {i : ℕ} (hi : i < s.length) : byteAt s i = some s[i] :=
  byteAt_of_getElem? (List.getElem?_eq_getElem hi)

/-- The rest of the needle stands at `i + j` iff its next byte does, and what follows behind. -/
theorem drop_prefix_iff {i j : ℕ} (hj : j < d.length) (hi : i + j < s.length) :
    d.drop j <+: s.drop (i + j) ↔ s[i + j] = d[j] ∧ d.drop (j + 1) <+: s.drop (i + (j + 1)) := by
  rw [List.drop_eq_getElem_cons hj, List.drop_eq_getElem_cons hi, List.cons_prefix_cons,
    eq_comm (a := d[j]), Nat.add_assoc]

theorem matchesAll_eq (hs : 0 ∉ s) (hd : 0 ∉ d) {i : ℕ} (hi : i + d.length ≤ s.length) (j : ℕ)
    (hj : j ≤ d.length) (isMatch : Bool) :
    matchesAll s d i d.length j isMatch =
      some (isMatch && decide (d.drop j <+: s.drop (i + j))) := by
  induction hn : d.length - j generalizing j isMatch with
  | zero =>
    rw [matchesAll, if_neg (by omega), List.drop_of_length_le (by omega)]
    simp
  | succ n ih =>
    have hjlt : j < d.length := by omega
    have hilt : i + j < s.length := by omega
    rw [matchesAll, if_pos hjlt, indexed_of_noNul hs hilt, indexed_of_noNul hd hjlt]
    simp only [Option.bind_eq_bind, Option.bind_some]
    rw [ih (j + 1) (by omega) _ (by omega)]
    simp only [drop_prefix_iff hjlt hilt]
    by_cases hc : s[i + j] = d[j]
    · simp [hc]
    · simp [hc]

theorem matchesUntil_eq {i : ℕ} (isMatch : Bool) (hi : isMatch = true → i + d.length ≤ s.length)
    (j : ℕ) (hj : j ≤ d.length) :
    matchesUntil s d i d.length j isMatch =
      some (isMatch && decide (d.drop j <+: s.drop (i + j))) := by
  induction hn : d.length - j generalizing j isMatch with
  | zero =>
    rw [matchesUntil, if_neg (by omega), List.drop_of_length_le (by omega)]
    simp
  | succ n ih =>
    cases isMatch with
    | false =>
      rw [matchesUntil, if_neg (by simp)]
      simp
    | true =>
      have hroom := hi rfl
      have hjlt : j < d.length := by omega
      have hilt : i + j < s.length := by omega
      rw [matchesUntil, if_pos ⟨rfl, hjlt⟩, byteAt_of_lt hilt, byteAt_of_lt hjlt]
      simp only [Option.bind_eq_bind, Option.bind_some]
      rw [ih _ (fun _ => hroom) (j + 1) (by omega) (by omega)]
      simp only [drop_prefix_iff hjlt hilt]
      by_cases hc : s[i + j] = d[j]
      · simp [hc]
      · simp [hc]

/-- What stands at a position ends before the string does. -/
theorem add_length_le_of_prefix (hne : d ≠ []) {i : ℕ} (h : d <+: s.drop i) :
    i + d.length ≤ s.length := by
  have hlen := h.length_le
  have hpos := List.length_pos_iff.mpr hne
  rw [List.length_drop] at hlen
  omega

/-! ### Searching -/

theorem strstr_cases (hs : 0 ∉ s) (hd : 0 ∉ d) (hne : d ≠ []) :
    (strstr s d = none ∧ ∀ i, ¬ d <+: s.drop i) ∨
      ∃ k, strstr s d = some k ∧ d <+: s.drop k ∧ ∀ i < k, ¬ d <+: s.drop i := by
  unfold strstr
  simp only [strlen_of_noNul hs, strlen_of_noNul hd, List.take_length]
  cases hfind : (List.range (s.length + 1)).find? fun i => decide (d <+: s.drop i) with
  | none =>
    refine .inl ⟨rfl, fun i hi => ?_⟩
    have hlt := add_length_le_of_prefix hne hi
    have hno := List.find?_eq_none.mp hfind i (List.mem_range.mpr (by omega))
    exact hno (by simpa using hi)
  | some k =>
    obtain ⟨hk, -, hbefore⟩ := List.find?_range_eq_some.mp hfind
    exact .inr ⟨k, rfl, by simpa using hk, fun i hi => by simpa using hbefore i hi⟩

theorem indexOfFrom_eq (hs : 0 ∉ s) (hd : 0 ∉ d) (hne : d ≠ []) {k : ℕ} (hk : d <+: s.drop k)
    (hfirst : ∀ i < k, ¬ d <+: s.drop i) (i : ℕ) (hi : i ≤ k) :
    indexOfFrom s d s.length d.length i = some (k : ℤ) := by
  have hroom := add_length_le_of_prefix hne hk
  induction hn : k - i generalizing i with
  | zero =>
    obtain rfl : i = k := by omega
    rw [indexOfFrom, if_pos (by omega), matchesAll_eq hs hd hroom 0 (Nat.zero_le _) true]
    simp [hk]
  | succ n ih =>
    rw [indexOfFrom, if_pos (by omega), matchesAll_eq hs hd (by omega) 0 (Nat.zero_le _) true]
    have hno := hfirst i (by omega)
    simp only [List.drop_zero, Nat.add_zero, Bool.true_and, hno, decide_false, Option.bind_eq_bind,
      Option.bind_some]
    exact ih (i + 1) (by omega) (by omega)

theorem lastIndexOfFrom_cases (n : ℕ) : ∀ i : ℤ, (i + 1).toNat = n →
    i + d.length ≤ s.length →
    (lastIndexOfFrom s d d.length i = some (-1) ∧ ∀ k : ℕ, (k : ℤ) ≤ i → ¬ d <+: s.drop k) ∨
      ∃ k : ℕ, lastIndexOfFrom s d d.length i = some (k : ℤ) ∧ d <+: s.drop k ∧
        ∀ j : ℕ, k < j → (j : ℤ) ≤ i → ¬ d <+: s.drop j := by
  induction n with
  | zero =>
    intro i hn _
    left
    rw [lastIndexOfFrom, if_neg (by omega)]
    exact ⟨rfl, fun k hk => by omega⟩
  | succ n ih =>
    intro i hn hroom
    obtain ⟨p, rfl⟩ : ∃ p : ℕ, i = p := Int.eq_ofNat_of_zero_le (by omega)
    rw [lastIndexOfFrom, if_pos (by omega), Int.toNat_natCast,
      matchesUntil_eq true (fun _ => by omega) 0 (Nat.zero_le _)]
    simp only [List.drop_zero, Nat.add_zero, Bool.true_and, Option.bind_eq_bind, Option.bind_some]
    by_cases hmatch : d <+: s.drop p
    · right
      rw [if_pos (by simpa using hmatch)]
      exact ⟨p, rfl, hmatch, fun j hj hj' => by omega⟩
    · rw [if_neg (by simpa using hmatch)]
      obtain ⟨hrun, hnone⟩ | ⟨k, hrun, hk, hlast⟩ := ih (p - 1) (by omega) (by omega)
      · refine .inl ⟨hrun, fun k hk => ?_⟩
        rcases eq_or_ne k p with rfl | hkp
        · exact hmatch
        · exact hnone k (by omega)
      · refine .inr ⟨k, hrun, hk, fun j hj hj' => ?_⟩
        rcases eq_or_ne j p with rfl | hjp
        · exact hmatch
        · exact hlast j hj (by omega)

/-! ### Splitting, joining and replacing -/

/-- The bytes between two positions. -/
theorem substring_eq (hs : 0 ∉ s) {start stop : ℕ} (hle : start ≤ stop) (hstop : stop ≤ s.length) :
    substring s start stop = some ((s.take stop).drop start) := by
  have hsub : 0 ∉ (s.take stop).drop start := fun h =>
    hs (List.mem_of_mem_take (List.mem_of_mem_drop h))
  have hlen : ((s.take stop).drop start).length = stop - start := by
    simp
    omega
  have hcopy := @copyBytes_spec (fun i => byteAt s ((start : ℤ) + i).toNat) 0
    ((s.take stop).drop start) 0 [] (gcAlloc (stop - start)) [none] (fun j c hj => by
      refine byteAt_of_getElem? ?_
      rw [List.getElem?_drop, List.getElem?_take] at hj
      have hpos : ((start : ℤ) + ((0 + j : ℕ) : ℤ)).toNat = start + j := by omega
      rw [hpos, ← hj, if_pos]
      by_contra hno
      rw [if_neg hno] at hj
      cases hj) rfl (by simp [gcAlloc, hlen])
  have halloc : gcAlloc (stop - start + 1) = gcAlloc (stop - start) ++ [none] := by
    simp [gcAlloc, List.replicate_succ']
  have hend : store (((s.take stop).drop start).map some ++ [none]) (stop - start) 0 =
      some (((s.take stop).drop start).map some ++ [some 0]) :=
    store_append _ none [] (by rw [List.length_map, hlen]) 0
  simp only [List.nil_append, Nat.zero_add, hlen] at hcopy
  have hnat : ((stop : ℤ) - start).toNat = stop - start := by omega
  rw [substring, strlen_of_noNul hs, if_neg (by omega)]
  simp only [hnat, halloc, hcopy, hend, Option.bind_eq_bind, Option.bind_some]
  exact cString_eq hsub []

/-- The loop of `split` cuts off the pieces from `start` on. -/
theorem splitFrom_eq (hs : 0 ∉ s) (hd : 0 ∉ d) (hne : d ≠ []) (h : d.length ≠ 0) (n : ℕ) :
    ∀ (start i : ℕ) (result : List Bytes), s.length - i = n → start ≤ i → i ≤ s.length →
      splitFrom s d s.length d.length h start i result =
        some (result ++ Pieces.cut d ((s.take i).drop start) (s.drop i)) := by
  induction n using Nat.strong_induction_on with
  | _ n ih =>
    intro start i result hn hstart hi
    by_cases hroom : i + d.length ≤ s.length
    · rw [splitFrom, if_pos (by omega), matchesAll_eq hs hd hroom 0 (Nat.zero_le _) true]
      simp only [List.drop_zero, Nat.add_zero, Bool.true_and, Option.bind_eq_bind, Option.bind_some]
      by_cases hmatch : d <+: s.drop i
      · rw [if_pos (by simpa using hmatch), substring_eq hs hstart hi, Option.bind_some,
          ih _ (by omega) _ _ _ rfl le_rfl hroom, Pieces.cut_of_isPrefix hne hmatch]
        have hnil : (s.take (i + d.length)).drop (i + d.length) = [] :=
          List.drop_of_length_le (by simp)
        rw [hnil, List.drop_drop]
        simp
      · have hlt : i < s.length := by omega
        have hacc : (s.take (i + 1)).drop start = (s.take i).drop start ++ [s[i]] := by
          rw [List.take_succ_eq_append_getElem hlt, List.drop_append_of_le_length (by simp; omega)]
        rw [if_neg (by simpa using hmatch), ih _ (by omega) _ _ _ rfl (by omega) (by omega), hacc]
        rw [List.drop_eq_getElem_cons hlt] at hmatch ⊢
        rw [Pieces.cut_cons hmatch]
    · have hnone : ∀ k, ¬ d <+: (s.drop i).drop k := by
        intro k hk
        have := hk.length_le
        simp only [List.length_drop] at this
        omega
      rw [splitFrom, if_neg (by omega), substring_eq hs (by omega) le_rfl, Option.bind_eq_bind,
        Option.bind_some, Pieces.cut_of_none hne hnone, List.take_length,
        ← List.drop_append_of_le_length (by simp; omega), List.take_append_drop]

theorem split_eq (hs : 0 ∉ s) (hd : 0 ∉ d) (hne : d ≠ []) : split s d = some (Pieces.pieces d s) := by
  have hlen : strlen d ≠ 0 := by
    rw [strlen_of_noNul hd]
    exact List.length_eq_zero_iff.not.mpr hne
  rw [split, dif_neg hlen]
  have h := splitFrom_eq hs hd hne (by rwa [strlen_of_noNul hd] at hlen) _ 0 0 [] rfl le_rfl
    (Nat.zero_le _)
  simp only [strlen_of_noNul hs, strlen_of_noNul hd]
  rw [h]
  rfl

/-- The loop of `join` appends the items that are left, each behind a separator but the first. -/
theorem joinFrom_spec {sep : Bytes} (hsep : 0 ∉ sep) (todo : List Bytes) : ∀ (done : List Bytes)
    (sb : BuilderBuffer), (∀ p ∈ todo, 0 ∉ p) → sb.Holds (sep.intercalate done) →
    ∃ sb', joinFrom (done ++ todo) sep sb done.length = some sb' ∧
      sb'.Holds (sep.intercalate (done ++ todo)) := by
  induction todo with
  | nil =>
    intro done sb _ hsb
    rw [joinFrom, if_neg (by simp)]
    exact ⟨sb, rfl, by simpa using hsb⟩
  | cons item todo ih =>
    intro done sb hitems hsb
    have hget : (done ++ item :: todo)[done.length]? = some item := by simp
    obtain ⟨sb₁, hrun₁, hsb₁⟩ : ∃ sb₁,
        (if done.length > 0 then sb.append sep else some sb) = some sb₁ ∧
          sb₁.Holds (sep.intercalate done ++ if done = [] then [] else sep) := by
      by_cases hdone : done = []
      · exact ⟨sb, by simp [hdone], by simpa [hdone] using hsb⟩
      · rw [if_pos (List.length_pos_iff.mpr hdone), if_neg hdone]
        exact hsb.append hsep
    obtain ⟨sb₂, hrun₂, hsb₂⟩ := hsb₁.append (hitems item List.mem_cons_self)
    rw [← Pieces.intercalate_concat] at hsb₂
    obtain ⟨sb', hrun, hsb'⟩ := ih (done ++ [item]) sb₂
      (fun p hp => hitems p (List.mem_cons_of_mem _ hp)) hsb₂
    simp only [List.append_assoc, List.singleton_append, List.length_append,
      List.length_singleton] at hrun hsb'
    refine ⟨sb', ?_, hsb'⟩
    rw [joinFrom, if_pos (by simp)]
    simp only [hrun₁, hget, hrun₂, Option.bind_eq_bind, Option.bind_some]
    exact hrun

theorem join_eq {items : List Bytes} {sep : Bytes} (hitems : ∀ p ∈ items, 0 ∉ p) (hsep : 0 ∉ sep)
    (hjoined : 0 ∉ sep.intercalate items) : join items sep = some (sep.intercalate items) := by
  obtain ⟨sb, hrun, hsb⟩ := joinFrom_spec hsep items [] {} hitems BuilderBuffer.holds_empty
  simp only [List.nil_append, List.length_nil] at hrun hsb
  rw [join, hrun]
  exact hsb.toString hjoined

/-- The loop of `replace` appends what is left of the string, with its occurrences replaced. -/
theorem replaceFrom_spec (hr : 0 ∉ r) (hne : d ≠ []) (h : d.length ≠ 0) (n : ℕ) :
    ∀ (i : ℕ) (sb : BuilderBuffer) (text : Bytes), s.length - i = n → sb.Holds text →
      ∃ sb', replaceFrom s d r s.length d.length h sb i = some sb' ∧
        sb'.Holds (text ++ Pieces.replaced d r (s.drop i)) := by
  induction n using Nat.strong_induction_on with
  | _ n ih =>
    intro i sb text hn hsb
    by_cases hi : i < s.length
    · have hscan := matchesUntil_eq (s := s) (d := d) (i := i) (i + d.length ≤ s.length)
        (by simp) 0 (Nat.zero_le _)
      have hiff : (decide (i + d.length ≤ s.length) && decide (d <+: s.drop i)) =
          decide (d <+: s.drop i) := by
        by_cases hmatch : d <+: s.drop i
        · simp [hmatch, add_length_le_of_prefix hne hmatch]
        · simp [hmatch]
      rw [List.drop_zero, Nat.add_zero, hiff] at hscan
      rw [replaceFrom, if_pos hi]
      simp only [hscan, Option.bind_eq_bind, Option.bind_some]
      by_cases hmatch : d <+: s.drop i
      · obtain ⟨sb₁, hrun₁, hsb₁⟩ := hsb.append hr
        obtain ⟨sb', hrun, hsb'⟩ := ih (s.length - (i + d.length)) (by omega) (i + d.length) sb₁ _
          rfl hsb₁
        refine ⟨sb', ?_, ?_⟩
        · simp only [hmatch, decide_true, if_true, hrun₁, Option.bind_some]
          exact hrun
        · rwa [List.append_assoc, ← List.drop_drop, ← Pieces.replaced_of_isPrefix hne hmatch] at hsb'
      · obtain ⟨sb₁, hrun₁, hsb₁⟩ := hsb.appendChar s[i]
        obtain ⟨sb', hrun, hsb'⟩ := ih (s.length - (i + 1)) (by omega) (i + 1) sb₁ _ rfl hsb₁
        refine ⟨sb', ?_, ?_⟩
        · simp only [hmatch, decide_false, byteAt_of_lt hi, hrun₁, Option.bind_some]
          exact hrun
        · rw [List.drop_eq_getElem_cons hi] at hmatch ⊢
          rwa [List.append_assoc, List.singleton_append, ← Pieces.replaced_cons hmatch] at hsb'
    · rw [replaceFrom, if_neg hi, List.drop_of_length_le (by omega), Pieces.replaced_nil hne,
        List.append_nil]
      exact ⟨sb, rfl, hsb⟩

theorem replace_eq (hs : 0 ∉ s) (hd : 0 ∉ d) (hr : 0 ∉ r) (hne : d ≠ []) :
    replace s d r = some (Pieces.replaced d r s) := by
  have hlen : strlen d ≠ 0 := by
    rw [strlen_of_noNul hd]
    exact List.length_eq_zero_iff.not.mpr hne
  have hnoNul : 0 ∉ Pieces.replaced d r s := fun h =>
    (Pieces.mem_replaced hne h).elim hr hs
  obtain ⟨sb, hreserve, hsblen, hsbcap, rest, hbuf, -⟩ :=
    BuilderBuffer.holds_empty.reserve s.length
  have hsb : sb.Holds [] := ⟨hsblen, hsbcap, .inr ⟨rest, hbuf⟩⟩
  have hpos : d.length ≠ 0 := by rwa [strlen_of_noNul hd] at hlen
  obtain ⟨sb', hrun, hsb'⟩ := replaceFrom_spec hr hne hpos (s.length - 0) 0 sb [] rfl hsb
  rw [replace, dif_neg hlen]
  simp only [strlen_of_noNul hs, strlen_of_noNul hd, hreserve, Option.bind_eq_bind,
    Option.bind_some]
  rw [hrun]
  exact hsb'.toString hnoNul

/-- Splitting, joining, replacing and searching agree, and none of them reads or writes out of
bounds. The pieces joined by the separator are the string, and by another string what `replace`
gives; no piece contains the separator; there are several exactly when the string contains it, and
then the first one is as long as what stands before its first occurrence. -/
theorem split_join_replace_search_agree (s d r : Bytes) (hs : 0 ∉ s) (hd : 0 ∉ d) (hr : 0 ∉ r)
    (hne : d ≠ []) :
    ∃ pieces, split s d = some pieces ∧ join pieces d = some s ∧ (∀ p ∈ pieces, ¬ d <:+: p) ∧
      (∃ out, join pieces r = some out ∧ replace s d r = some out) ∧
      (contains s d = true ↔ 1 < pieces.length) ∧
      (∃ i, indexOf s d = some i ∧
        (1 < pieces.length → ∃ p ∈ pieces.head?, i = p.length) ∧
        (¬ 1 < pieces.length → i = -1)) ∧
      ∃ i, lastIndexOf s d = some i ∧
        ((∃ k : ℕ, i = k ∧ d <+: s.drop k ∧ ∀ j > k, ¬ d <+: s.drop j) ∨
          i = -1 ∧ ∀ k, ¬ d <+: s.drop k) := by
  have hpieces : ∀ p ∈ Pieces.pieces d s, 0 ∉ p := fun p hp h0 =>
    hs (by simpa using Pieces.mem_of_mem_cut hne hp h0)
  have hjoin : ∀ sep : Bytes, 0 ∉ sep →
      join (Pieces.pieces d s) sep = some (Pieces.replaced d sep s) := by
    intro sep hsep
    have heq : sep.intercalate (Pieces.pieces d s) = Pieces.replaced d sep s :=
      Pieces.intercalate_cut hne sep [] s
    rw [← heq]
    refine join_eq hpieces hsep ?_
    rw [heq]
    exact fun h => (Pieces.mem_replaced hne h).elim hsep hs
  refine ⟨_, split_eq hs hd hne, ?_, Pieces.not_isInfix_of_mem_cut hne [] s (by simp),
    ⟨_, hjoin r hr, replace_eq hs hd hr hne⟩, ?_⟩
  · rw [hjoin d hd, Pieces.replaced_self hne]
  have hlast : ∃ i, lastIndexOf s d = some i ∧
      ((∃ k : ℕ, i = k ∧ d <+: s.drop k ∧ ∀ j > k, ¬ d <+: s.drop j) ∨
        i = -1 ∧ ∀ k, ¬ d <+: s.drop k) := by
    rw [lastIndexOf, strlen_of_noNul hs, strlen_of_noNul hd]
    obtain ⟨hrun, hnone⟩ | ⟨k, hrun, hk, hafter⟩ :=
      lastIndexOfFrom_cases (s := s) (d := d) _ (s.length - d.length) rfl (by omega)
    · refine ⟨_, hrun, .inr ⟨rfl, fun k hk => hnone k ?_ hk⟩⟩
      have := add_length_le_of_prefix hne hk
      omega
    · refine ⟨_, hrun, .inl ⟨k, rfl, hk, fun j hj hmatch => hafter j hj ?_ hmatch⟩⟩
      have := add_length_le_of_prefix hne hmatch
      omega
  obtain ⟨hstrstr, hnone⟩ | ⟨k, hstrstr, hk, hfirst⟩ := strstr_cases hs hd hne
  · have hone : Pieces.pieces d s = [s] := by
      rw [Pieces.pieces, Pieces.cut_of_none hne hnone, List.nil_append]
    rw [hone]
    refine ⟨by simp [contains, hstrstr], ⟨-1, by rw [indexOf, hstrstr], by simp, by simp⟩, hlast⟩
  · have htwo : Pieces.pieces d s = s.take k :: Pieces.cut d [] (s.drop (k + d.length)) := by
      rw [Pieces.pieces, Pieces.cut_of_first hne hk hfirst, List.nil_append]
    have hlen : 1 < (Pieces.pieces d s).length := by
      have := List.length_pos_iff.mpr (Pieces.cut_ne_nil hne [] (s.drop (k + d.length)))
      rw [htwo, List.length_cons]
      omega
    have hroom := add_length_le_of_prefix hne hk
    refine ⟨by simp [contains, hstrstr, hlen], ⟨k, ?_, fun _ => ⟨s.take k, by rw [htwo]; rfl, ?_⟩,
      fun h => absurd hlen h⟩, hlast⟩
    · rw [indexOf, hstrstr, strlen_of_noNul hs, strlen_of_noNul hd]
      exact indexOfFrom_eq hs hd hne hk hfirst 0 (Nat.zero_le k)
    · rw [List.length_take, Nat.min_eq_left (by omega)]

theorem split_join_replace_search_agree_sample :
    ∃ pieces, split (bytes "aaa") (bytes "aa") = some pieces ∧
      join pieces (bytes "aa") = some (bytes "aaa") := by
  obtain ⟨pieces, hsplit, hjoin, -⟩ := split_join_replace_search_agree (bytes "aaa") (bytes "aa")
    (bytes "b") (by decide) (by decide) (by decide) (by decide)
  exact ⟨pieces, hsplit, hjoin⟩

end TurfLang.Strings
