import TurfLang.Codegen.CheckedInt
import TurfLang.Lib.StableInsertion

/-!
# `lib/std/collections/list.tr`: `List.sort` and `List.binary_search`

Both work on the first `len` elements of the buffer that the header of a list points to, with
positions that are 64-bit integers. A result of `none` is an access outside those elements, or a
position that 64 bits do not hold.
-/

namespace TurfLang.ListStd

open Codegen (FitsSigned)

/-- `ListHeader`, with the elements in use; their number is an `int`. -/
structure Header (T : Type) where
  data : List T
  length_lt : data.length < 2 ^ 63

variable {T : Type}

/-- `self.length()`. -/
def Header.length (h : Header T) : ℤ := h.data.length

/-- `self.h.data[i]`. -/
def read (data : List T) (i : ℤ) : Option T := if 0 ≤ i then data[i.toNat]? else none

/-- `self.h.data[i] = v`. -/
def write (data : List T) (i : ℤ) (v : T) : Option (List T) :=
  if 0 ≤ i ∧ i < data.length then some (data.set i.toNat v) else none

/-- An `int` operation that has `n` as its exact result does not overflow. -/
def fits (n : ℤ) : Option Unit := if FitsSigned 64 n then some () else none

variable (cmp : T → T → ℤ)

/-- The inner loop of `sort`, with the elements and the `j` it ends with. -/
def shift (key : T) (data : List T) (j : ℤ) : Option (List T × ℤ) :=
  if 0 ≤ j then do
    let x ← read data j
    if cmp x key > 0 then do
      fits (j + 1)
      let data ← write data (j + 1) x
      fits (j - 1)
      shift key data (j - 1)
    else some (data, j)
  else some (data, j)
termination_by (j + 1).toNat

/-- The outer loop of `sort`. -/
def sortFrom (len : ℤ) (data : List T) (i : ℤ) : Option (List T) :=
  if i < len then do
    let key ← read data i
    fits (i - 1)
    let (data, j) ← shift cmp key data (i - 1)
    fits (j + 1)
    let data ← write data (j + 1) key
    fits (i + 1)
    sortFrom len data (i + 1)
  else some data
termination_by (len - i).toNat

/-- `sort`, with the elements it leaves. -/
def Header.sort (h : Header T) : Option (List T) := sortFrom cmp h.length h.data 1

/-- The loop of `binary_search`. -/
def searchBetween (data : List T) (target : T) (lo hi : ℤ) : Option ℤ :=
  if lo ≤ hi then do
    fits (hi - lo)
    let mid := lo + (hi - lo).tdiv 2
    fits mid
    let x ← read data mid
    let c := cmp x target
    if c = 0 then some mid
    else if c < 0 then do
      fits (mid + 1)
      searchBetween data target (mid + 1) hi
    else do
      fits (mid - 1)
      searchBetween data target lo (mid - 1)
  else some (-1)
termination_by (hi - lo + 1).toNat
decreasing_by
  · rw [Int.tdiv_eq_ediv_of_nonneg (by omega)]
    omega
  · rw [Int.tdiv_eq_ediv_of_nonneg (by omega)]
    omega

/-- `binary_search`. -/
def Header.binarySearch (h : Header T) (target : T) : Option ℤ :=
  searchBetween cmp h.data target 0 (h.length - 1)

/-- The sign of `cmp` is a total preorder. -/
structure TotalPreorder (cmp : T → T → ℤ) : Prop where
  sign_swap : ∀ x y, (cmp y x).sign = -(cmp x y).sign
  trans : ∀ x y z, cmp x y ≤ 0 → cmp y z ≤ 0 → cmp x z ≤ 0

/-! ### Sorting -/

theorem fits_of_le {n : ℤ} (hlo : -1 ≤ n) (hhi : n ≤ 2 ^ 63 - 1) : fits n = some () :=
  if_pos ⟨by norm_num; omega, by norm_num; omega⟩

theorem read_append (l : List T) (x : T) (rest : List T) {i : ℤ} (hi : i = l.length) :
    read (l ++ x :: rest) i = some x := by
  subst hi
  rw [read, if_pos (by omega)]
  simp

theorem write_append (l : List T) (x : T) (rest : List T) {i : ℤ} (hi : i = l.length) (v : T) :
    write (l ++ x :: rest) i v = some (l ++ v :: rest) := by
  subst hi
  rw [write, if_pos (by simp)]
  simp

variable {cmp}

/-- The inner loop leaves the gap for `key` where it is to be inserted. By induction on the elements
before the gap `h`, from the last one. -/
theorem shift_spec (key : T) (l : List T) : ∀ (gap : T) (rest : List T),
    l.length + rest.length < 2 ^ 63 →
    ∃ data j, shift cmp key (l ++ gap :: rest) (l.length - 1) = some (data, j) ∧ -1 ≤ j ∧
      j < l.length ∧
      write data (j + 1) key =
        some (StableInsertion.insertLast (fun x y => cmp x y > 0) key l ++ rest) := by
  induction l using List.reverseRecOn with
  | nil =>
    intro gap rest _
    refine ⟨gap :: rest, -1, ?_, le_refl _, by simp, ?_⟩
    · rw [shift]
      rfl
    · exact write_append [] gap rest rfl key
  | append_singleton l x ih =>
    intro gap rest hlen
    have hlast : ((l ++ [x]).length : ℤ) - 1 = l.length := by simp
    have hread : read (l ++ [x] ++ gap :: rest) l.length = some x := by
      rw [List.append_assoc]
      exact read_append l x _ rfl
    rw [List.length_append, List.length_singleton] at hlen
    rw [hlast, shift, if_pos (by omega), hread, Option.bind_eq_bind, Option.bind_some,
      StableInsertion.insertLast_concat]
    by_cases hcmp : cmp x key > 0
    · have hwrite : write (l ++ [x] ++ gap :: rest) (l.length + 1) x =
          some (l ++ x :: (x :: rest)) := by
        rw [write_append (l ++ [x]) gap rest (by simp) x]
        simp
      obtain ⟨data, j, hshift, hlo, hhi, hkey⟩ := ih x (x :: rest) (by simp; omega)
      refine ⟨data, j, ?_, hlo, by simp; omega, ?_⟩
      · have hup : fits ((l.length : ℤ) + 1) = some () := fits_of_le (by omega) (by omega)
        have hdown : fits ((l.length : ℤ) - 1) = some () := fits_of_le (by omega) (by omega)
        simp only [if_pos hcmp, hup, hwrite, hdown, Option.bind_eq_bind, Option.bind_some]
        exact hshift
      · rw [hkey, if_pos (by simpa using hcmp)]
        simp
    · refine ⟨_, _, if_neg hcmp, by omega, by simp, ?_⟩
      rw [write_append (l ++ [x]) gap rest (by simp) key, if_neg (by simpa using hcmp)]
      simp

/-- Each turn of the outer loop inserts the next element into the sorted ones. By induction on the
elements that are left. -/
theorem sortFrom_spec {len : ℤ} (hmax : len < 2 ^ 63) (todo : List T) : ∀ (done : List T) (i : ℤ),
    done ≠ [] → i = done.length → len = i + todo.length →
    sortFrom cmp len (StableInsertion.sort (fun x y => cmp x y > 0) done ++ todo) i =
      some (StableInsertion.sort (fun x y => cmp x y > 0) (done ++ todo)) := by
  induction todo with
  | nil =>
    intro done i _ _ hlen
    rw [sortFrom, if_neg (by simp [hlen]), List.append_nil, List.append_nil]
  | cons key todo ih =>
    intro done i hdone hi hlen
    have hpos := List.length_pos_iff.mpr hdone
    have hsort : (StableInsertion.sort (fun x y => cmp x y > 0) done).length = done.length :=
      StableInsertion.length_sort done
    rw [List.length_cons] at hlen
    push_cast at hlen
    obtain ⟨data, j, hshift, hlo, hhi, hkey⟩ := @shift_spec T cmp key
      (StableInsertion.sort (fun x y => cmp x y > 0) done) key todo (by omega)
    rw [hsort, ← hi] at hshift hhi
    have hread : read (StableInsertion.sort (fun x y => cmp x y > 0) done ++ key :: todo) i =
        some key := read_append _ key todo (by rw [hsort, hi])
    have hdown : fits (i - 1) = some () := fits_of_le (by omega) (by omega)
    have hslot : fits (j + 1) = some () := fits_of_le (by omega) (by omega)
    have hup : fits (i + 1) = some () := fits_of_le (by omega) (by omega)
    rw [sortFrom, if_pos (by omega)]
    simp only [hread, hdown, hshift, hslot, hkey, hup, Option.bind_eq_bind, Option.bind_some]
    have hnext := ih (done ++ [key]) (i + 1) (by simp) (by simp [hi]) (by omega)
    rwa [StableInsertion.sort_concat, List.append_assoc, List.singleton_append] at hnext

theorem Header.sort_eq (h : Header T) :
    h.sort cmp = some (StableInsertion.sort (fun x y => cmp x y > 0) h.data) := by
  have hmax : h.length < 2 ^ 63 := by
    have := h.length_lt
    unfold Header.length
    exact_mod_cast this
  unfold Header.sort
  cases hdata : h.data with
  | nil => rw [sortFrom, if_neg (by simp [Header.length, hdata])]; rfl
  | cons x rest =>
    have hlen : h.length = 1 + rest.length := by
      rw [Header.length, hdata, List.length_cons]
      push_cast
      ring
    exact sortFrom_spec hmax rest [x] 1 (by simp) (by simp) hlen

/-! ### Searching -/

theorem TotalPreorder.pos_iff (hcmp : TotalPreorder cmp) {x y : T} : 0 < cmp x y ↔ cmp y x < 0 := by
  have hsign := hcmp.sign_swap x y
  rw [← Int.sign_eq_neg_one_iff_neg, hsign, neg_inj, Int.sign_eq_one_iff_pos]

theorem TotalPreorder.neg_of_le_of_neg (hcmp : TotalPreorder cmp) {x y z : T} (hxy : cmp x y ≤ 0)
    (hyz : cmp y z < 0) : cmp x z < 0 := by
  by_contra hxz
  -- Otherwise `z` is at most `x`, and so at most `y`.
  have hzx : cmp z x ≤ 0 := by
    rw [← not_lt, hcmp.pos_iff]
    exact hxz
  have hzy := hcmp.trans z x y hzx hxy
  rw [← hcmp.pos_iff] at hyz
  omega

theorem TotalPreorder.pos_of_pos_of_le (hcmp : TotalPreorder cmp) {x y z : T} (hxz : 0 < cmp x z)
    (hxy : cmp x y ≤ 0) : 0 < cmp y z := by
  rw [hcmp.pos_iff] at hxz ⊢
  by_contra hzy
  have hyz : cmp y z ≤ 0 := by
    rw [← not_lt, hcmp.pos_iff]
    exact hzy
  have hle := hcmp.trans x y z hxy hyz
  rw [← hcmp.pos_iff] at hxz
  omega

theorem TotalPreorder.le_of_eq (hcmp : TotalPreorder cmp) {x y : T} (h : cmp x y = 0) :
    cmp y x ≤ 0 := by
  rw [← not_lt, hcmp.pos_iff]
  omega

theorem TotalPreorder.le_of_getElem? (hcmp : TotalPreorder cmp) {data : List T}
    (hsorted : data.Pairwise fun x y => cmp x y ≤ 0) {i j : ℕ} (hij : i ≤ j) {x y : T}
    (hx : data[i]? = some x) (hy : data[j]? = some y) : cmp x y ≤ 0 := by
  obtain ⟨hi, rfl⟩ := List.getElem?_eq_some_iff.mp hx
  obtain ⟨hj, rfl⟩ := List.getElem?_eq_some_iff.mp hy
  rcases hij.lt_or_eq with hlt | rfl
  · exact List.pairwise_iff_getElem.mp hsorted i j hi hj hlt
  · have h := hcmp.sign_swap data[i] data[i]
    rw [← not_lt, ← Int.sign_eq_one_iff_pos]
    omega

/-- What a search of `data` for `target` may answer. -/
def Finds (cmp : T → T → ℤ) (data : List T) (target : T) (r : ℤ) : Prop :=
  (∃ i : ℕ, r = i ∧ ∃ x, data[i]? = some x ∧ cmp x target = 0) ∨
    r = -1 ∧ ∀ x ∈ data, cmp x target ≠ 0

/-- The search ends and finds what it may, as long as what compares equal lies between its bounds. -/
theorem searchBetween_spec (hcmp : TotalPreorder cmp) {data : List T} (hlen : data.length < 2 ^ 63)
    (hsorted : data.Pairwise fun x y => cmp x y ≤ 0) (target : T) (lo hi : ℤ) (hlo : 0 ≤ lo)
    (hhi : hi < data.length) (hle : lo ≤ hi + 1)
    (hbelow : ∀ i : ℕ, (i : ℤ) < lo → ∀ x, data[i]? = some x → cmp x target < 0)
    (habove : ∀ i : ℕ, hi < i → ∀ x, data[i]? = some x → 0 < cmp x target) :
    ∃ r, searchBetween cmp data target lo hi = some r ∧ Finds cmp data target r := by
  induction hn : (hi - lo + 1).toNat using Nat.strong_induction_on generalizing lo hi with
  | _ n ih =>
    by_cases hle' : lo ≤ hi
    · have hhalf : (hi - lo).tdiv 2 = (hi - lo) / 2 := Int.tdiv_eq_ediv_of_nonneg (by omega)
      obtain ⟨mid, hmid⟩ : ∃ mid : ℕ, lo + (hi - lo).tdiv 2 = mid :=
        Int.eq_ofNat_of_zero_le (by omega)
      have hbounds : lo ≤ mid ∧ (mid : ℤ) ≤ hi := by omega
      have hlt : mid < data.length := by omega
      have hread : read data mid = some data[mid] := by
        rw [read, if_pos (by omega), Int.toNat_natCast, List.getElem?_eq_getElem hlt]
      have hdiff : fits (hi - lo) = some () := fits_of_le (by omega) (by omega)
      have hfits : fits (mid : ℤ) = some () := fits_of_le (by omega) (by omega)
      have hup : fits ((mid : ℤ) + 1) = some () := fits_of_le (by omega) (by omega)
      have hdown : fits ((mid : ℤ) - 1) = some () := fits_of_le (by omega) (by omega)
      rw [searchBetween, if_pos hle']
      simp only [hmid, hdiff, hfits, hread, hup, hdown, Option.bind_eq_bind, Option.bind_some]
      split
      case isTrue heq =>
        exact ⟨mid, rfl, .inl ⟨mid, rfl, data[mid], List.getElem?_eq_getElem hlt, heq⟩⟩
      case isFalse hne =>
        split
        case isTrue hneg =>
          refine ih _ ?_ (mid + 1) hi (by omega) hhi (by omega) (fun i hi' x hx => ?_) habove rfl
          · omega
          · exact hcmp.neg_of_le_of_neg (hcmp.le_of_getElem? hsorted (by omega) hx
              (List.getElem?_eq_getElem hlt)) hneg
        case isFalse hpos =>
          refine ih _ ?_ lo (mid - 1) hlo (by omega) (by omega) hbelow (fun i hi' x hx => ?_) rfl
          · omega
          · exact hcmp.pos_of_pos_of_le (by omega) (hcmp.le_of_getElem? hsorted (by omega)
              (List.getElem?_eq_getElem hlt) hx)
    · rw [searchBetween, if_neg hle']
      refine ⟨-1, rfl, .inr ⟨rfl, fun x hx => ?_⟩⟩
      obtain ⟨i, hi', rfl⟩ := List.mem_iff_getElem.mp hx
      rcases lt_or_ge (i : ℤ) lo with h | h
      · exact (hbelow i h _ (List.getElem?_eq_getElem hi')).ne
      · exact (habove i (by omega) _ (List.getElem?_eq_getElem hi')).ne'

theorem Header.binarySearch_finds (hcmp : TotalPreorder cmp) (h : Header T)
    (hsorted : h.data.Pairwise fun x y => cmp x y ≤ 0) (target : T) :
    ∃ r, h.binarySearch cmp target = some r ∧ Finds cmp h.data target r := by
  refine searchBetween_spec hcmp h.length_lt hsorted target 0 (h.length - 1) le_rfl ?_ ?_ ?_ ?_
  · simp [Header.length]
  · simp [Header.length]
  · intro i hi
    omega
  · intro i hi x hx
    obtain ⟨hlt, -⟩ := List.getElem?_eq_some_iff.mp hx
    unfold Header.length at hi
    omega

/-- Sorting ends without an access outside the list and leaves a permutation of it, sorted, in which
elements that compare equal are in the order they were in. In a sorted list a search for anything
ends without an access outside it and returns the position of an element that compares equal, and
-1 exactly when there is none. -/
theorem sort_stable_and_search_agrees (cmp : T → T → ℤ) (hcmp : TotalPreorder cmp) :
    (∀ h : Header T, ∃ data, h.sort cmp = some data ∧ data.Perm h.data ∧
      (data.Pairwise fun x y => cmp x y ≤ 0) ∧
      ∀ x, data.filter (fun y => cmp x y = 0) = h.data.filter fun y => cmp x y = 0) ∧
    ∀ (h : Header T) (target : T), (h.data.Pairwise fun x y => cmp x y ≤ 0) →
      ∃ r, h.binarySearch cmp target = some r ∧
        ((∃ x ∈ h.data, cmp x target = 0) →
          ∃ i : ℕ, r = i ∧ ∃ x, h.data[i]? = some x ∧ cmp x target = 0) ∧
        (r = -1 ↔ ∀ x ∈ h.data, cmp x target ≠ 0) := by
  refine ⟨fun h => ⟨_, h.sort_eq, StableInsertion.sort_perm _, ?_, fun x => ?_⟩, ?_⟩
  · have hsorted : StableInsertion.Sorted (fun x y => cmp x y > 0)
        (StableInsertion.sort (fun x y => cmp x y > 0) h.data) := StableInsertion.sorted_sort
      (by simpa using fun x y hxy => (hcmp.pos_iff.mp hxy).le)
      (by simpa using hcmp.trans) h.data
    exact hsorted.imp fun hxy => by simpa using hxy
  · refine StableInsertion.filter_sort (fun y z hy hz => ?_) h.data
    simp only [decide_eq_true_eq, decide_eq_false_iff_not, not_lt, gt_iff_lt] at hy hz ⊢
    exact hcmp.trans y x z (hcmp.le_of_eq hy) hz.le
  · intro h target hsorted
    obtain ⟨r, hr, hfinds⟩ := h.binarySearch_finds hcmp hsorted target
    refine ⟨r, hr, ?_⟩
    obtain ⟨i, rfl, x, hx, heq⟩ | ⟨rfl, hnone⟩ := hfinds
    · refine ⟨fun _ => ⟨i, rfl, x, hx, heq⟩, iff_of_false (by omega) fun hnone => ?_⟩
      exact hnone x (List.mem_of_getElem? hx) heq
    · refine ⟨fun hsome => ?_, iff_of_true rfl hnone⟩
      obtain ⟨x, hx, heq⟩ := hsome
      exact absurd heq (hnone x hx)

/-- The differences of integers compare them. -/
theorem totalPreorder_sub : TotalPreorder fun x y : ℤ => x - y where
  sign_swap x y := by rw [← Int.sign_neg, neg_sub]
  trans x y z hxy hyz := by omega

theorem sort_stable_and_search_agrees_sample :
    (∃ data, (Header.mk [3, 1, 2] (by decide)).sort (fun x y : ℤ => x - y) = some data ∧
      data.Perm [3, 1, 2]) ∧
    ∃ r, (Header.mk [1, 2, 3] (by decide)).binarySearch (fun x y : ℤ => x - y) 2 = some r ∧
      r ≠ -1 := by
  obtain ⟨hsort, hsearch⟩ := sort_stable_and_search_agrees (fun x y : ℤ => x - y) totalPreorder_sub
  obtain ⟨data, hdata, hperm, -⟩ := hsort (Header.mk [3, 1, 2] (by decide))
  obtain ⟨r, hr, -, hnone⟩ := hsearch (Header.mk [1, 2, 3] (by decide)) 2 (by decide)
  exact ⟨⟨data, hdata, hperm⟩, r, hr, fun h => hnone.mp h 2 (by decide) (by decide)⟩

end TurfLang.ListStd
