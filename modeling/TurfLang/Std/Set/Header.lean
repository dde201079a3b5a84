import TurfLang.Std.Map.Refinement

/-!
# `lib/std/collections/set.tr`: `Set<T>`

A set is a handle to a `SetHeader`: a dense array of items and a bucket table that finds an
item's position in it, the table of `Map<K, V>` with no array of values beside the keys. As
there, `self.h.len` is the length of the model's `items`, `self.h.bcap` that of `buckets`, and a
result of `none` is a read or write outside the arrays.
-/

namespace TurfLang.Set

open Probing

/-- `SetHeader`. -/
structure Header (T : Type) where
  items : List T
  cap : ℕ
  buckets : List (Cell ℕ)
  tombs : ℕ

variable {T : Type} [BEq T] [Hashable T]

namespace Header

/-- The header `Set::default()` allocates. -/
def empty : Header T := ⟨[], 0, [], 0⟩

/-- `self.h.len`. -/
def len (h : Header T) : ℕ := h.items.length

/-- `self.h.bcap`. -/
def bcap (h : Header T) : ℕ := h.buckets.length

/-- `hashing::hash(item) & (self.h.bcap - 1)`. -/
def home (h : Header T) (item : T) : ℕ := (hash item).toNat &&& (h.bcap - 1)

/-- `(slot + 1) & (self.h.bcap - 1)`. -/
def next (h : Header T) (slot : ℕ) : ℕ := (slot + 1) &&& (h.bcap - 1)

/-- The comparison `self.h.items[b] == item`. -/
def holds (h : Header T) (item : T) (b : ℕ) : Bool := h.items[b]?.any (· == item)

/-! ### The hash index -/

/-- The loop of `bucket_find`, with the number of probes left. -/
def bucketFindLoop (h : Header T) (item : T) : ℕ → ℕ → Option ℕ
  | 0, _ => none
  | probes + 1, slot =>
    match h.buckets[slot]? with
    | some (.full b) =>
      if h.holds item b then some slot else bucketFindLoop h item probes (h.next slot)
    | some .tomb => bucketFindLoop h item probes (h.next slot)
    | _ => none

/-- `bucket_find`: the slot that holds the position of `item`. -/
def bucketFind (h : Header T) (item : T) : Option ℕ :=
  if h.bcap = 0 then none else h.bucketFindLoop item h.bcap (h.home item)

/-- The loop of `bucket_insert_slot`, with the number of probes left and the first tombstone
seen. -/
def bucketInsertLoop (h : Header T) : ℕ → ℕ → Option ℕ → Option ℕ
  | 0, _, tomb => tomb
  | probes + 1, slot, tomb =>
    match h.buckets[slot]? with
    | some .empty => some (tomb.getD slot)
    | some .tomb => bucketInsertLoop h probes (h.next slot) (some (tomb.getD slot))
    | _ => bucketInsertLoop h probes (h.next slot) tomb

/-- `bucket_insert_slot`. -/
def bucketInsertSlot (h : Header T) (item : T) : Option ℕ :=
  h.bucketInsertLoop h.bcap (h.home item) none

/-- One turn of the loop of `bucket_rehash`: enter the item at position `i`. -/
def enter (h : Header T) (i : ℕ) : Option (Header T) := do
  let item ← h.items[i]?
  let slot ← h.bucketInsertSlot item
  return { h with buckets := h.buckets.set slot (.full i) }

/-- `bucket_rehash`. -/
def bucketRehash (h : Header T) (newBcap : ℕ) : Option (Header T) :=
  (List.range h.len).foldlM enter
    { h with buckets := List.replicate newBcap .empty, tombs := 0 }

/-- `bucket_maybe_grow`. -/
def bucketMaybeGrow (h : Header T) : Option (Header T) :=
  if h.bcap = 0 then h.bucketRehash 8
  else if (h.len + h.tombs + 1) * 10 ≥ h.bcap * 7 then
    if (h.len + 1) * 20 ≥ h.bcap * 7 then h.bucketRehash (h.bcap * 2)
    else h.bucketRehash h.bcap
  else some h

/-! ### The public operations -/

/-- `self.h.buckets[slot]`, read as a position. -/
def position (h : Header T) (slot : ℕ) : Option ℕ :=
  match h.buckets[slot]? with
  | some (.full i) => some i
  | _ => none

/-- `index_of`; `none` is `-1`. -/
def indexOf (h : Header T) (item : T) : Option ℕ := (h.bucketFind item).bind h.position

/-- `contains`. -/
def contains (h : Header T) (item : T) : Bool := (h.indexOf item).isSome

/-- The growth of the dense array in `add`. -/
def grow (h : Header T) : Header T :=
  if h.len = h.cap then { h with cap := if h.cap = 0 then 8 else h.cap * 2 } else h

/-- The end of `add`, for an item that is not in the set. -/
def append (h : Header T) (item : T) : Option (Header T) := do
  let slot ← h.bucketInsertSlot item
  let bucket ← h.buckets[slot]?
  if h.len < h.cap then
    return { h with
      tombs := if bucket = .tomb then h.tombs - 1 else h.tombs
      buckets := h.buckets.set slot (.full h.len)
      items := h.items ++ [item] }
  else none

/-- `add`. -/
def add (h : Header T) (item : T) : Option (Header T) :=
  if h.contains item then some h
  else do
    let h ← h.grow.bucketMaybeGrow
    h.append item

/-- `remove`, and what it returns. -/
def remove (h : Header T) (item : T) : Option (Header T × Bool) :=
  match h.bucketFind item with
  | none => some (h, false)
  | some bslot => do
    let idx ← h.position bslot
    let h := { h with buckets := h.buckets.set bslot .tomb, tombs := h.tombs + 1 }
    let last := h.len - 1
    if idx ≠ last then
      let moved ← h.items[last]?
      let h := match h.bucketFind moved with
        | some movedSlot => { h with buckets := h.buckets.set movedSlot (.full idx) }
        | none => h
      return ({ h with items := (h.items.set idx moved).take last }, true)
    else
      return ({ h with items := h.items.take last }, true)

/-- `length`. -/
def length (h : Header T) : ℕ := h.len

/-- One turn of the loop of `copy`: add the item at position `i` of `h`. -/
def copyItem (h out : Header T) (i : ℕ) : Option (Header T) := do
  let item ← h.items[i]?
  out.add item

/-- `copy`. -/
def copy (h : Header T) : Option (Header T) :=
  (List.range h.len).foldlM h.copyItem empty

/-! ### The map with the same buckets

Every operation does what the one of a map from the items to nothing does. -/

/-- The map with the items as keys. -/
def toMap (h : Header T) : Map.Header T Unit :=
  ⟨h.items, List.replicate h.items.length (), h.cap, h.buckets, h.tombs⟩

omit [BEq T] [Hashable T] in
theorem toMap_injective : Function.Injective (toMap : Header T → Map.Header T Unit) := by
  rintro ⟨items, cap, buckets, tombs⟩ ⟨items', cap', buckets', tombs'⟩ h
  simp only [toMap, Map.Header.mk.injEq] at h
  obtain ⟨rfl, -, rfl, rfl, rfl⟩ := h
  rfl

omit [BEq T] [Hashable T] in
/-- Arrays of values of one length do not differ. -/
theorem mk_eq_toMap (h : Header T) {values : List Unit} (hvalues : values.length = h.items.length) :
    Map.Header.mk h.items values h.cap h.buckets h.tombs = h.toMap := by
  rw [toMap, List.eq_replicate_iff.2 ⟨hvalues, fun _ _ => Subsingleton.elim _ _⟩]

omit [BEq T] [Hashable T] in
/-- A map to nothing is a set as soon as it has as many values as keys. -/
theorem exists_toMap {m : Map.Header T Unit} (hvalues : m.values.length = m.keys.length) :
    ∃ s : Header T, s.toMap = m ∧ s.items = m.keys :=
  ⟨⟨m.keys, m.cap, m.buckets, m.tombs⟩,
    (mk_eq_toMap ⟨m.keys, m.cap, m.buckets, m.tombs⟩ hvalues).symm, rfl⟩

omit [Hashable T] in
theorem bucketFindLoop_toMap (h : Header T) (item : T) (probes slot : ℕ) :
    h.toMap.bucketFindLoop item probes slot = h.bucketFindLoop item probes slot := by
  induction probes generalizing slot with
  | zero => rfl
  | succ probes ih =>
    rw [Map.Header.bucketFindLoop, bucketFindLoop, ih]
    rfl

theorem bucketFind_toMap (h : Header T) (item : T) :
    h.toMap.bucketFind item = h.bucketFind item := by
  rw [Map.Header.bucketFind, bucketFind, bucketFindLoop_toMap]
  rfl

theorem indexOf_toMap (h : Header T) (item : T) : h.toMap.indexOf item = h.indexOf item := by
  rw [Map.Header.indexOf, bucketFind_toMap]
  rfl

omit [BEq T] [Hashable T] in
theorem bucketInsertLoop_toMap (h : Header T) (probes slot : ℕ) (tomb : Option ℕ) :
    h.toMap.bucketInsertLoop probes slot tomb = h.bucketInsertLoop probes slot tomb := by
  induction probes generalizing slot tomb with
  | zero => rfl
  | succ probes ih =>
    rw [Map.Header.bucketInsertLoop, bucketInsertLoop, ih, ih]
    rfl

omit [BEq T] in
theorem bucketInsertSlot_toMap (h : Header T) (item : T) :
    h.toMap.bucketInsertSlot item = h.bucketInsertSlot item := bucketInsertLoop_toMap h _ _ _

omit [BEq T] in
theorem enter_toMap (h : Header T) (i : ℕ) : h.toMap.enter i = (h.enter i).map toMap := by
  rw [Map.Header.enter, enter]
  show (do
    let item ← h.items[i]?
    let slot ← h.toMap.bucketInsertSlot item
    some { h.toMap with buckets := h.buckets.set slot (.full i) }) = _
  cases h.items[i]? with
  | none => rfl
  | some item =>
    simp only [Option.bind_eq_bind, Option.bind_some, bucketInsertSlot_toMap]
    cases h.bucketInsertSlot item with
    | none => rfl
    | some slot => rfl

omit [BEq T] in
theorem foldlM_enter_toMap (l : List ℕ) (h : Header T) :
    l.foldlM Map.Header.enter h.toMap = (l.foldlM enter h).map toMap := by
  induction l generalizing h with
  | nil => rfl
  | cons i l ih =>
    rw [List.foldlM_cons, List.foldlM_cons, enter_toMap]
    cases h.enter i with
    | none => rfl
    | some h' => exact ih h'

omit [BEq T] in
theorem bucketRehash_toMap (h : Header T) (newBcap : ℕ) :
    h.toMap.bucketRehash newBcap = (h.bucketRehash newBcap).map toMap :=
  foldlM_enter_toMap _ { h with buckets := List.replicate newBcap .empty, tombs := 0 }

omit [BEq T] in
theorem bucketMaybeGrow_toMap (h : Header T) :
    h.toMap.bucketMaybeGrow = h.bucketMaybeGrow.map toMap := by
  rw [Map.Header.bucketMaybeGrow, bucketMaybeGrow, bucketRehash_toMap, bucketRehash_toMap,
    bucketRehash_toMap]
  show (if h.bcap = 0 then _ else if (h.len + h.tombs + 1) * 10 ≥ h.bcap * 7 then
    if (h.len + 1) * 20 ≥ h.bcap * 7 then _ else _ else _) = _
  split_ifs <;> rfl

omit [BEq T] [Hashable T] in
theorem grow_toMap (h : Header T) : h.toMap.grow = h.grow.toMap := by
  rw [Map.Header.grow, grow]
  show (if h.len = h.cap then
    { h.toMap with cap := if h.cap = 0 then 8 else h.cap * 2 } else h.toMap) = _
  by_cases hfull : h.len = h.cap
  · rw [if_pos hfull, if_pos hfull]
    rfl
  · rw [if_neg hfull, if_neg hfull]

omit [BEq T] in
theorem append_toMap (h : Header T) (item : T) :
    h.toMap.append item () = (h.append item).map toMap := by
  rw [Map.Header.append, append, bucketInsertSlot_toMap]
  cases h.bucketInsertSlot item with
  | none => rfl
  | some slot =>
    show (do
      let bucket ← h.buckets[slot]?
      if h.len < h.cap then _ else none) = Option.map toMap (do
        let bucket ← h.buckets[slot]?
        if h.len < h.cap then _ else none)
    cases h.buckets[slot]? with
    | none => rfl
    | some bucket =>
      by_cases hcap : h.len < h.cap
      · simp only [Option.bind_eq_bind, Option.bind_some, if_pos hcap]
        refine congrArg some (mk_eq_toMap { h with
          tombs := if bucket = .tomb then h.tombs - 1 else h.tombs
          buckets := h.buckets.set slot (.full h.len)
          items := h.items ++ [item] } ?_)
        simp [toMap]
      · simp [hcap]

/-- The headers `remove` leaves are alike, too. -/
theorem remove_toMap (h : Header T) (item : T) :
    h.toMap.remove item = (h.remove item).map (fun result => result.1.toMap) := by
  have hposition : h.toMap.position = h.position := rfl
  rw [Map.Header.remove, remove, bucketFind_toMap]
  cases h.bucketFind item with
  | none => rfl
  | some bslot =>
    simp only [hposition]
    cases h.position bslot with
    | none => rfl
    | some idx =>
      simp only [Option.bind_eq_bind, Option.bind_some]
      show (if idx ≠ h.len - 1 then _ else _) = Option.map _ (if idx ≠ h.len - 1 then _ else _)
      by_cases hlast : idx ≠ h.len - 1
      · rw [if_pos hlast, if_pos hlast]
        cases hmoved : h.items[h.items.length - 1]? with
        | none => simp [toMap, Map.Header.len, len, hmoved]
        | some moved =>
          have hlt : h.items.length - 1 < h.items.length := (List.getElem?_eq_some_iff.1 hmoved).1
          -- the last item is looked up in headers that are alike
          have hfind := bucketFind_toMap
            { h with buckets := h.buckets.set bslot .tomb, tombs := h.tombs + 1 } moved
          simp only [toMap] at hfind
          simp only [toMap, Map.Header.len, len, hmoved, List.getElem?_replicate, if_pos hlt,
            Option.bind_some, hfind]
          cases ({ h with buckets := h.buckets.set bslot .tomb, tombs := h.tombs + 1 } :
              Header T).bucketFind moved with
          | none =>
            refine congrArg some (mk_eq_toMap (Header.mk
              ((h.items.set idx moved).take (h.items.length - 1)) h.cap
              (h.buckets.set bslot .tomb) (h.tombs + 1)) ?_)
            simp
          | some movedSlot =>
            refine congrArg some (mk_eq_toMap (Header.mk
              ((h.items.set idx moved).take (h.items.length - 1)) h.cap
              ((h.buckets.set bslot .tomb).set movedSlot (.full idx)) (h.tombs + 1)) ?_)
            simp
      · rw [if_neg hlast, if_neg hlast]
        refine congrArg some (mk_eq_toMap (Header.mk (h.items.take (h.len - 1)) h.cap
          (h.buckets.set bslot .tomb) (h.tombs + 1)) ?_)
        simp [toMap, len, Map.Header.len]

end Header

end TurfLang.Set
