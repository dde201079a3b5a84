import TurfLang.Lib.Loop
import TurfLang.Lib.Probing

/-!
# `lib/std/collections/map.tr`: `Map<K, V>`

A map is a handle to a `MapHeader`: dense arrays of keys and values, and a bucket table that
finds a key's position in them. `self.h.len` is the length of the model's `keys` and
`self.h.bcap` that of `buckets`: what lies past `len` in the arrays is never read. A bucket
holds `-1` (`empty`), `-2` (`tomb`) or a position (`full`). Results of a list access that
might miss are `none`, a read or write outside the arrays.
-/

namespace TurfLang.Map

open Probing

/-- `MapHeader`. -/
structure Header (K V : Type) where
  keys : List K
  values : List V
  cap : ℕ
  buckets : List (Cell ℕ)
  tombs : ℕ

/-- `MapError`. -/
inductive MapError
  | keyNotFound (message : String)
  deriving DecidableEq, Repr

variable {K V : Type} [BEq K] [Hashable K]

namespace Header

/-- The header `Map::default()` allocates. -/
def empty : Header K V := ⟨[], [], 0, [], 0⟩

/-- `self.h.len`. -/
def len (h : Header K V) : ℕ := h.keys.length

/-- `self.h.bcap`. -/
def bcap (h : Header K V) : ℕ := h.buckets.length

/-- `hashing::hash(key) & (self.h.bcap - 1)`. -/
def home (h : Header K V) (key : K) : ℕ := (hash key).toNat &&& (h.bcap - 1)

/-- `(slot + 1) & (self.h.bcap - 1)`. -/
def next (h : Header K V) (slot : ℕ) : ℕ := (slot + 1) &&& (h.bcap - 1)

/-- The comparison `self.h.keys[b] == key`. -/
def holds (h : Header K V) (key : K) (b : ℕ) : Bool := h.keys[b]?.any (· == key)

/-! ### The hash index -/

/-- The loop of `bucket_find`, with the number of probes left. -/
def bucketFindLoop (h : Header K V) (key : K) : ℕ → ℕ → Option ℕ
  | 0, _ => none
  | probes + 1, slot =>
    match h.buckets[slot]? with
    | some (.full b) =>
      if h.holds key b then some slot else bucketFindLoop h key probes (h.next slot)
    | some .tomb => bucketFindLoop h key probes (h.next slot)
    | _ => none

/-- `bucket_find`: the slot that holds the position of `key`. -/
def bucketFind (h : Header K V) (key : K) : Option ℕ :=
  if h.bcap = 0 then none else h.bucketFindLoop key h.bcap (h.home key)

/-- The loop of `bucket_insert_slot`, with the number of probes left and the first tombstone
seen. -/
def bucketInsertLoop (h : Header K V) : ℕ → ℕ → Option ℕ → Option ℕ
  | 0, _, tomb => tomb
  | probes + 1, slot, tomb =>
    match h.buckets[slot]? with
    | some .empty => some (tomb.getD slot)
    | some .tomb => bucketInsertLoop h probes (h.next slot) (some (tomb.getD slot))
    | _ => bucketInsertLoop h probes (h.next slot) tomb

/-- `bucket_insert_slot`. -/
def bucketInsertSlot (h : Header K V) (key : K) : Option ℕ :=
  h.bucketInsertLoop h.bcap (h.home key) none

/-- One turn of the loop of `bucket_rehash`: enter the key at position `i`. -/
def enter (h : Header K V) (i : ℕ) : Option (Header K V) := do
  let key ← h.keys[i]?
  let slot ← h.bucketInsertSlot key
  return { h with buckets := h.buckets.set slot (.full i) }

/-- `bucket_rehash`. -/
def bucketRehash (h : Header K V) (newBcap : ℕ) : Option (Header K V) :=
  (List.range h.len).foldlM enter
    { h with buckets := List.replicate newBcap .empty, tombs := 0 }

/-- `bucket_maybe_grow`. -/
def bucketMaybeGrow (h : Header K V) : Option (Header K V) :=
  if h.bcap = 0 then h.bucketRehash 8
  else if (h.len + h.tombs + 1) * 10 ≥ h.bcap * 7 then
    if (h.len + 1) * 20 ≥ h.bcap * 7 then h.bucketRehash (h.bcap * 2)
    else h.bucketRehash h.bcap
  else some h

/-! ### The public operations -/

/-- `self.h.buckets[slot]`, read as a position. -/
def position (h : Header K V) (slot : ℕ) : Option ℕ :=
  match h.buckets[slot]? with
  | some (.full i) => some i
  | _ => none

/-- `index_of`; `none` is `-1`. -/
def indexOf (h : Header K V) (key : K) : Option ℕ := (h.bucketFind key).bind h.position

/-- `contains`. -/
def contains (h : Header K V) (key : K) : Bool := (h.indexOf key).isSome

/-- The growth of the dense arrays in `put`. -/
def grow (h : Header K V) : Header K V :=
  if h.len = h.cap then { h with cap := if h.cap = 0 then 8 else h.cap * 2 } else h

/-- The end of `put`, for a key that is not in the map. -/
def append (h : Header K V) (key : K) (value : V) : Option (Header K V) := do
  let slot ← h.bucketInsertSlot key
  let bucket ← h.buckets[slot]?
  if h.len < h.cap then
    return { h with
      tombs := if bucket = .tomb then h.tombs - 1 else h.tombs
      buckets := h.buckets.set slot (.full h.len)
      keys := h.keys ++ [key]
      values := h.values ++ [value] }
  else none

/-- `put`. -/
def put (h : Header K V) (key : K) (value : V) : Option (Header K V) :=
  match h.bucketFind key with
  | some slot => do
    let i ← h.position slot
    if i < h.values.length then return { h with values := h.values.set i value } else none
  | none => do
    let h ← h.grow.bucketMaybeGrow
    h.append key value

/-- `get`; `none` is its panic. -/
def get (h : Header K V) (key : K) : Option V := (h.indexOf key).bind (h.values[·]?)

/-- `try_get`. -/
def tryGet (h : Header K V) (key : K) : Except MapError V :=
  match (h.indexOf key).bind (h.values[·]?) with
  | none => .error (.keyNotFound "key not found")
  | some value => .ok value

/-- `remove`. -/
def remove (h : Header K V) (key : K) : Option (Header K V) :=
  match h.bucketFind key with
  | none => some h
  | some bslot => do
    let idx ← h.position bslot
    let h := { h with buckets := h.buckets.set bslot .tomb, tombs := h.tombs + 1 }
    let last := h.len - 1
    if idx ≠ last then
      let movedKey ← h.keys[last]?
      let movedValue ← h.values[last]?
      let h := match h.bucketFind movedKey with
        | some movedSlot => { h with buckets := h.buckets.set movedSlot (.full idx) }
        | none => h
      return { h with
        keys := (h.keys.set idx movedKey).take last
        values := (h.values.set idx movedValue).take last }
    else
      return { h with keys := h.keys.take last, values := h.values.take last }

/-- `length`. -/
def length (h : Header K V) : ℕ := h.len

/-- One turn of the loop of `copy`: put the entry at position `i` of `h`. -/
def copyEntry (h out : Header K V) (i : ℕ) : Option (Header K V) := do
  let key ← h.keys[i]?
  let value ← h.values[i]?
  out.put key value

/-- `copy`. -/
def copy (h : Header K V) : Option (Header K V) :=
  (List.range h.len).foldlM h.copyEntry empty

/-- `keys`: the elements pushed for `i = 0, …, len - 1`. -/
def keysList (h : Header K V) : List K := (List.range h.len).filterMap (h.keys[·]?)

/-- `values`. -/
def valuesList (h : Header K V) : List V := (List.range h.len).filterMap (h.values[·]?)

end Header

end TurfLang.Map
