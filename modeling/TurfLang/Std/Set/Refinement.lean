import TurfLang.Std.Set.Header

/-!
# `Set<T>` refines a finite set with positions

The specification is a set of items up to `==` and the order they stand in: a new item comes
last, and the last one takes the place of one that is removed. A program holds handles to any
number of sets, which `Set::default()` and `copy` create. Whatever it does through them, it gets
the answers of the specifications, each changed by the calls on its own set alone.
-/

namespace TurfLang.Set

open Probing

/-! ### The specification -/

/-- The last item of a list moved to position `i`. -/
def moveLast {T : Type} (l : List T) (i : ℕ) : List T :=
  match l.getLast? with
  | some a => (l.set i a).dropLast
  | none => []

section

variable {T : Type}

theorem moveLast_append (l : List T) (a : T) {i : ℕ} (hi : i < l.length) :
    moveLast (l ++ [a]) i = l.set i a := by
  rw [moveLast, List.getLast?_concat]
  show ((l ++ [a]).set i a).dropLast = _
  rw [List.set_append_left _ _ hi, List.dropLast_concat]

theorem moveLast_append_length (l : List T) (a : T) : moveLast (l ++ [a]) l.length = l := by
  rw [moveLast, List.getLast?_concat]
  show ((l ++ [a]).set l.length a).dropLast = _
  rw [List.set_append_right _ _ le_rfl, Nat.sub_self, List.set_cons_zero, List.dropLast_concat]

/-- Only position `i` changes, and the last position goes. -/
theorem getElem?_moveLast (l : List T) (i : ℕ) {j : ℕ} (hj : j + 1 < l.length) :
    (moveLast l i)[j]? = if j = i then l.getLast? else l[j]? := by
  rcases List.eq_nil_or_concat' l with rfl | ⟨l, a, rfl⟩
  · simp at hj
  · have hjl : j < l.length := by simpa using hj
    rw [moveLast, List.getLast?_concat]
    show (((l ++ [a]).set i a).dropLast)[j]? = _
    rw [List.getElem?_dropLast, if_pos (by simpa using hjl)]
    by_cases hji : j = i
    · subst hji
      rw [if_pos rfl, List.getElem?_set_self (by simp; omega)]
    · rw [if_neg hji, List.getElem?_set_ne (Ne.symm hji)]

/-- Every position but `i` stays in the list. -/
theorem mem_moveLast {l : List T} {i : ℕ} (hi : i < l.length) (y : T) :
    y ∈ moveLast l i ↔ ∃ j, j ≠ i ∧ l[j]? = some y := by
  obtain ⟨l, a, rfl⟩ : ∃ l' a, l = l' ++ [a] :=
    (List.eq_nil_or_concat' l).resolve_left fun h0 => by simp [h0] at hi
  have hlast : (l ++ [a])[l.length]? = some a := by simp
  have hbefore : ∀ {j}, j < l.length → (l ++ [a])[j]? = l[j]? :=
    fun hj => List.getElem?_append_left hj
  rcases Nat.lt_or_ge i l.length with hil | hil
  · rw [moveLast_append l a hil, List.mem_iff_getElem?]
    constructor
    · rintro ⟨j, hj⟩
      by_cases hji : j = i
      · obtain rfl : a = y := by simpa [hji, hil] using hj
        exact ⟨l.length, by omega, hlast⟩
      · rw [List.getElem?_set_ne (Ne.symm hji)] at hj
        exact ⟨j, hji, by rw [hbefore (List.getElem?_eq_some_iff.1 hj).1, hj]⟩
    · rintro ⟨j, hji, hj⟩
      rcases Nat.lt_or_ge j l.length with hjl | hjl
      · exact ⟨j, by rw [List.getElem?_set_ne (Ne.symm hji), ← hbefore hjl, hj]⟩
      · obtain rfl : j = l.length := by
          have hlt := (List.getElem?_eq_some_iff.1 hj).1
          rw [List.length_append, List.length_singleton] at hlt
          omega
        obtain rfl : a = y := by simpa using hj
        exact ⟨i, List.getElem?_set_self hil⟩
  · obtain rfl : i = l.length := by
      rw [List.length_append, List.length_singleton] at hi
      omega
    rw [moveLast_append_length, List.mem_iff_getElem?]
    constructor
    · rintro ⟨j, hj⟩
      have hjl := (List.getElem?_eq_some_iff.1 hj).1
      exact ⟨j, by omega, by rw [hbefore hjl, hj]⟩
    · rintro ⟨j, hji, hj⟩
      have hlt := (List.getElem?_eq_some_iff.1 hj).1
      rw [List.length_append, List.length_singleton] at hlt
      exact ⟨j, by rw [← hbefore (by omega), hj]⟩

theorem length_moveLast (l : List T) (i : ℕ) : (moveLast l i).length = l.length - 1 := by
  rcases List.eq_nil_or_concat' l with rfl | ⟨l, a, rfl⟩
  · rfl
  · rw [moveLast, List.getLast?_concat]
    simp

end

/-- A mathematical set, and the order its members stand in. -/
structure Spec (T : Type) [BEq T] [EquivBEq T] where
  members : Set (Map.Key T)
  order : List T

namespace Spec

variable {T : Type} [BEq T] [EquivBEq T]

/-- The empty set. -/
def empty : Spec T := ⟨∅, []⟩

section

open Classical

/-- A new member comes last. -/
noncomputable def add (sp : Spec T) (item : T) : Spec T where
  members := insert ⟦item⟧ sp.members
  order := if ⟦item⟧ ∈ sp.members then sp.order else sp.order ++ [item]

/-- The last member takes the place of the one that goes. -/
noncomputable def remove (sp : Spec T) (item : T) : Spec T where
  members := sp.members \ {⟦item⟧}
  order := (sp.order.findIdx? (· == item)).elim sp.order (moveLast sp.order)

end

end Spec

/-! ### Programs over several sets -/

/-- The calls. A set is named by the order in which it was made. -/
inductive Op (T : Type)
  | default
  | add (s : ℕ) (item : T)
  | remove (s : ℕ) (item : T)
  | contains (s : ℕ) (item : T)
  | indexOf (s : ℕ) (item : T)
  | length (s : ℕ)
  | copy (s : ℕ)

/-- What a call returns, other than a new set. -/
inductive Answer
  | none
  | bool (b : Bool)
  | position (i : Option ℕ)
  | length (n : ℕ)
  deriving DecidableEq

/-- The sets there are, each with a header and arrays of its own. -/
abbrev Store (T : Type) := List (Header T)

section Programs

variable {T : Type} [BEq T]

/-- One call on the store. -/
def step [Hashable T] (store : Store T) : Op T → Option (Store T × Answer)
  | .default => some (store ++ [.empty], .none)
  | .add s item => do
    let h ← store[s]?
    let h ← h.add item
    return (store.set s h, .none)
  | .remove s item => do
    let h ← store[s]?
    let result ← h.remove item
    return (store.set s result.1, .bool result.2)
  | .contains s item => do
    let h ← store[s]?
    return (store, .bool (h.contains item))
  | .indexOf s item => do
    let h ← store[s]?
    return (store, .position (h.indexOf item))
  | .length s => do
    let h ← store[s]?
    return (store, .length h.length)
  | .copy s => do
    let h ← store[s]?
    let c ← h.copy
    return (store ++ [c], .none)

/-- A program, and the answers it gets in order. -/
def runFrom [Hashable T] : Store T → List (Op T) → Option (Store T × List Answer)
  | store, [] => some (store, [])
  | store, op :: ops => do
    let result ← step store op
    let rest ← runFrom result.1 ops
    return (rest.1, result.2 :: rest.2)

section

open Classical

/-- One call on the specifications. A copy starts as its original stands. -/
noncomputable def specStep [EquivBEq T] (specs : List (Spec T)) : Op T → List (Spec T)
  | .default => specs ++ [.empty]
  | .add s item => specs.modify s (·.add item)
  | .remove s item => specs.modify s (·.remove item)
  | .contains _ _ | .indexOf _ _ | .length _ => specs
  | .copy s => specs ++ specs[s]?.toList

/-- What the mathematical set answers. -/
noncomputable def Spec.answer [EquivBEq T] (sp : Spec T) : Op T → Answer
  | .remove _ item | .contains _ item => .bool (decide (⟦item⟧ ∈ sp.members))
  | .indexOf _ item => .position (sp.order.findIdx? (· == item))
  | .length _ => .length (Set.ncard sp.members)
  | _ => .none

end

/-- The set a call is on. -/
def Op.subject : Op T → Option ℕ
  | .default => none
  | .add s _ | .remove s _ | .contains s _ | .indexOf s _ | .length s | .copy s => some s

/-- The answer of the set a call is on. -/
noncomputable def specAnswer [EquivBEq T] (specs : List (Spec T)) (op : Op T) : Answer :=
  ((op.subject.bind (specs[·]?)).map (·.answer op)).getD .none

/-- The specifications after a program. -/
noncomputable def specRun [EquivBEq T] (specs : List (Spec T)) (ops : List (Op T)) :
    List (Spec T) := ops.foldl specStep specs

/-- The answers of a program. -/
noncomputable def specAnswers [EquivBEq T] : List (Spec T) → List (Op T) → List Answer
  | _, [] => []
  | specs, op :: ops => specAnswer specs op :: specAnswers (specStep specs op) ops

/-- The number of sets a call leaves. -/
def Op.count (n : ℕ) : Op T → ℕ
  | .default | .copy _ => n + 1
  | _ => n

/-- The program names only sets there are, `n` of them at its start. -/
def Closed (n : ℕ) : List (Op T) → Prop
  | [] => True
  | op :: ops => (∀ s ∈ op.subject, s < n) ∧ Closed (op.count n) ops

end Programs

variable {T : Type} [BEq T] [Hashable T] {h : Header T}

/-! ### The operations of a set -/

namespace Header

/-- The invariant, the one of the map with the same buckets. -/
def Inv (h : Header T) : Prop := h.toMap.Inv

theorem empty_inv : (empty : Header T).Inv := Map.Header.empty_inv

theorem remove_answer {h' : Header T} {item : T} {b : Bool} (hrun : h.remove item = some (h', b)) :
    b = (h.bucketFind item).isSome := by
  rw [remove] at hrun
  cases hfind : h.bucketFind item with
  | none =>
    rw [hfind] at hrun
    simp only [Option.some.injEq, Prod.mk.injEq] at hrun
    exact hrun.2.symm
  | some bslot =>
    simp only [hfind, Option.bind_eq_bind, Option.bind_eq_some_iff] at hrun
    obtain ⟨idx, -, hrun⟩ := hrun
    split at hrun
    · obtain ⟨moved, -, hrun⟩ := Option.bind_eq_some_iff.1 hrun
      simp only [Option.pure_def, Option.some.injEq, Prod.mk.injEq] at hrun
      exact hrun.2.symm
    · simp only [Option.pure_def, Option.some.injEq, Prod.mk.injEq] at hrun
      exact hrun.2.symm

namespace Inv

theorem distinct (hI : h.Inv) : h.items.Pairwise fun a b => (a == b) = false :=
  Map.Header.Inv.distinct hI

theorem indexOf_of_mem [PartialEquivBEq T] [LawfulHashable T] (hI : h.Inv) {item x : T} {i : ℕ}
    (hx : h.items[i]? = some x) (heq : (x == item) = true) : h.indexOf item = some i := by
  rw [← indexOf_toMap]
  exact Map.Header.Inv.indexOf_of_mem hI hx heq

theorem indexOf_eq_none (hI : h.Inv) {item : T} (habs : ∀ x ∈ h.items, (x == item) = false) :
    h.indexOf item = none := by
  rw [← indexOf_toMap]
  exact Map.Header.Inv.indexOf_eq_none hI habs

theorem add_of_mem [PartialEquivBEq T] [LawfulHashable T] (hI : h.Inv) {item x : T} {i : ℕ}
    (hx : h.items[i]? = some x) (heq : (x == item) = true) : h.add item = some h := by
  rw [add, if_pos]
  rw [contains, hI.indexOf_of_mem hx heq]
  rfl

/-- A new item comes last. -/
theorem exists_add_of_notMem (hI : h.Inv) {item : T} (habs : ∀ x ∈ h.items, (x == item) = false) :
    ∃ h', h.add item = some h' ∧ h'.Inv ∧ h'.items = h.items ++ [item] := by
  obtain ⟨m, hput, hIm, hkeys, hvalues⟩ :=
    Map.Header.Inv.exists_put_of_notMem (V := Unit) hI habs ()
  have hnone : h.bucketFind item = none := by
    rw [← bucketFind_toMap]
    exact Map.Header.Inv.bucketFind_eq_none hI habs
  have hmap : h.toMap.put item () = (h.add item).map toMap := by
    have hcontains : h.contains item = false := by rw [contains, hI.indexOf_eq_none habs]; rfl
    rw [Map.Header.put, bucketFind_toMap, hnone, add, hcontains, grow_toMap, bucketMaybeGrow_toMap]
    cases h.grow.bucketMaybeGrow with
    | none => rfl
    | some h₁ => exact append_toMap h₁ item
  rw [hmap, Option.map_eq_some_iff] at hput
  obtain ⟨h', hadd, rfl⟩ := hput
  exact ⟨h', hadd, hIm, hkeys⟩

theorem remove_of_notMem (hI : h.Inv) {item : T} (habs : ∀ x ∈ h.items, (x == item) = false) :
    h.remove item = some (h, false) := by
  have hnone : h.bucketFind item = none := by
    rw [← bucketFind_toMap]
    exact Map.Header.Inv.bucketFind_eq_none hI habs
  rw [remove, hnone]

/-- The last item takes the place of the one that goes. -/
theorem exists_remove_of_mem [EquivBEq T] [LawfulHashable T] (hI : h.Inv) {item x : T} {i : ℕ}
    (hx : h.items[i]? = some x) (heq : (x == item) = true) :
    ∃ h', h.remove item = some (h', true) ∧ h'.Inv ∧ h'.items = moveLast h.items i := by
  obtain ⟨l, a, hitems⟩ : ∃ l a, h.items = l ++ [a] :=
    (List.eq_nil_or_concat' h.items).resolve_left fun h0 => by simp [h0] at hx
  have hkeys : h.toMap.keys = l ++ [a] := hitems
  -- what the map does
  obtain ⟨m, hrun, hIm, hm⟩ : ∃ m, h.toMap.remove item = some m ∧ m.Inv ∧
      m.keys = moveLast h.items i := by
    have hile : i ≤ l.length := by
      have hlt := (List.getElem?_eq_some_iff.1 hx).1
      rw [hitems, List.length_append, List.length_singleton] at hlt
      omega
    rw [hitems] at hx ⊢
    rcases Nat.lt_or_ge i l.length with hi | hi
    · have hvalues : h.toMap.values = List.replicate l.length () ++ [()] := by
        rw [toMap, hitems, List.length_append, List.length_singleton, List.replicate_succ']
      rw [List.getElem?_append_left hi] at hx
      obtain ⟨m, hrun, hIm, hm, -⟩ :=
        Map.Header.Inv.exists_remove_swap hI hkeys hvalues hx heq (BEq.refl _)
      exact ⟨m, hrun, hIm, by rw [hm, moveLast_append l a hi]⟩
    · obtain rfl : i = l.length := le_antisymm hile hi
      obtain rfl : a = x := by simpa using hx
      obtain ⟨m, hrun, hIm, hm, -⟩ := Map.Header.Inv.exists_remove_last hI hkeys heq
      exact ⟨m, hrun, hIm, by rw [hm, moveLast_append_length]⟩
  rw [remove_toMap, Option.map_eq_some_iff] at hrun
  obtain ⟨⟨h', b⟩, hremove, rfl⟩ := hrun
  have hanswer : b = true := by
    obtain ⟨s, hs, -⟩ := Map.Header.Inv.exists_bucketFind hI hx heq
    rw [remove_answer hremove, ← bucketFind_toMap, hs]
    rfl
  exact ⟨h', by rw [hremove, hanswer], hIm, hm⟩

/-- `copy` makes a set with the same items in the same positions. -/
theorem exists_copy [EquivBEq T] (hI : h.Inv) :
    ∃ c, h.copy = some c ∧ c.Inv ∧ c.items = h.items := by
  obtain ⟨c, hrun, hIc, hitems⟩ := Loop.exists_foldlM_range (f := h.copyItem) (n := h.len)
    (P := fun i out => out.Inv ∧ out.items = h.items.take i)
    ⟨empty_inv, rfl⟩ fun i hi out ⟨hIo, hitems⟩ => by
      have hlt : i < h.items.length := hi
      have habs : ∀ x ∈ out.items, (x == h.items[i]) = false := by
        intro x hx
        rw [hitems] at hx
        obtain ⟨j, hj, rfl⟩ := List.mem_take_iff_getElem.1 hx
        exact List.pairwise_iff_getElem.1 hI.distinct j i (by omega) hlt (by omega)
      obtain ⟨out', hadd, hI', hitems'⟩ := hIo.exists_add_of_notMem habs
      refine ⟨out', by simpa [copyItem, hlt] using hadd, hI', ?_⟩
      rw [hitems', hitems, List.take_append_getElem hlt]
  exact ⟨c, hrun, hIc, by rw [hitems, len, List.take_length]⟩

end Inv

end Header

variable [EquivBEq T] {sp : Spec T}

/-! ### The simulation relation -/

/-- A header represents a specification. -/
structure Represents (h : Header T) (sp : Spec T) : Prop where
  inv : h.Inv
  items_eq : h.items = sp.order
  mem_iff : ∀ x : T, ⟦x⟧ ∈ sp.members ↔ ∃ y ∈ h.items, (y == x) = true

namespace Represents

theorem empty : Represents (.empty : Header T) .empty where
  inv := Header.empty_inv
  items_eq := rfl
  mem_iff x := by simp [Spec.empty, Header.empty]

/-- An item is at a position, or it is absent on both sides. -/
theorem mem_or_absent (hR : Represents h sp) (item : T) :
    (∃ (i : ℕ) (x : T), h.items[i]? = some x ∧ (x == item) = true ∧ ⟦item⟧ ∈ sp.members ∧
        sp.order.findIdx? (· == item) = some i) ∨
      ((∀ x ∈ h.items, (x == item) = false) ∧ ⟦item⟧ ∉ sp.members ∧
        sp.order.findIdx? (· == item) = none) := by
  by_cases hmem : ⟦item⟧ ∈ sp.members
  · obtain ⟨x, hx, heq⟩ := (hR.mem_iff item).1 hmem
    obtain ⟨i, hi⟩ := List.getElem?_of_mem hx
    obtain ⟨hlt, hget⟩ := List.getElem?_eq_some_iff.1 hi
    refine .inl ⟨i, x, hi, heq, hmem, ?_⟩
    rw [← hR.items_eq, List.findIdx?_eq_some_iff_getElem]
    refine ⟨hlt, by rw [hget]; exact heq, fun j hj hj' => ?_⟩
    have hsame := Map.Header.Inv.position_unique hR.inv
      (List.getElem?_eq_getElem (show j < h.toMap.keys.length from hj.trans hlt)) hi hj' heq
    omega
  · have habs : ∀ x ∈ h.items, (x == item) = false := by
      intro x hx
      by_contra hne
      exact hmem ((hR.mem_iff item).2 ⟨x, hx, by simpa using hne⟩)
    refine .inr ⟨habs, hmem, ?_⟩
    rw [← hR.items_eq, List.findIdx?_eq_none_iff]
    exact habs

theorem exists_add [LawfulHashable T] (hR : Represents h sp) (item : T) :
    ∃ h', h.add item = some h' ∧ Represents h' (sp.add item) := by
  rcases hR.mem_or_absent item with ⟨i, x, hx, heq, hmem, -⟩ | ⟨habs, hmem, -⟩
  · refine ⟨h, hR.inv.add_of_mem hx heq, hR.inv, ?_, fun y => ?_⟩
    · rw [Spec.add, if_pos hmem, hR.items_eq]
    · rw [Spec.add, Set.insert_eq_of_mem hmem, hR.mem_iff]
  · obtain ⟨h', hadd, hI', hitems⟩ := hR.inv.exists_add_of_notMem habs
    refine ⟨h', hadd, hI', ?_, fun y => ?_⟩
    · rw [Spec.add, if_neg hmem, hitems, hR.items_eq]
    · rw [Spec.add, hitems, Set.mem_insert_iff, hR.mem_iff, Map.key_eq_iff]
      simp only [List.mem_append, List.mem_singleton, or_and_right, exists_or, exists_eq_left]
      rw [or_comm, BEq.comm]

open Classical in
theorem exists_remove [LawfulHashable T] (hR : Represents h sp) (item : T) :
    ∃ h', h.remove item = some (h', decide (⟦item⟧ ∈ sp.members)) ∧
      Represents h' (sp.remove item) := by
  rcases hR.mem_or_absent item with ⟨i, x, hx, heq, hmem, hidx⟩ | ⟨habs, hmem, hidx⟩
  · obtain ⟨h', hremove, hI', hitems⟩ := hR.inv.exists_remove_of_mem hx heq
    refine ⟨h', by rw [hremove, decide_eq_true hmem], hI', ?_, fun y => ?_⟩
    · rw [Spec.remove, hidx, hitems, hR.items_eq]
      rfl
    · -- an item stays unless it is the one at position `i`
      have hpos : ∀ {j : ℕ} {z : T}, h.items[j]? = some z → (z == item) = true → j = i :=
        fun hz hzi => Map.Header.Inv.position_unique hR.inv hz hx hzi heq
      rw [Spec.remove, Set.mem_sdiff, hR.mem_iff, Set.mem_singleton_iff, Map.key_eq_iff, hitems]
      constructor
      · rintro ⟨⟨z, hz, hzy⟩, hne⟩
        obtain ⟨j, hj⟩ := List.getElem?_of_mem hz
        refine ⟨z, (mem_moveLast (List.getElem?_eq_some_iff.1 hx).1 z).2 ⟨j, ?_, hj⟩, hzy⟩
        rintro rfl
        obtain rfl : x = z := by simpa using hx.symm.trans hj
        exact hne (BEq.trans (BEq.symm hzy) heq)
      · rintro ⟨z, hz, hzy⟩
        obtain ⟨j, hji, hj⟩ := (mem_moveLast (List.getElem?_eq_some_iff.1 hx).1 z).1 hz
        exact ⟨⟨z, List.mem_of_getElem? hj, hzy⟩, fun hyi => hji (hpos hj (BEq.trans hzy hyi))⟩
  · refine ⟨h, by rw [hR.inv.remove_of_notMem habs, decide_eq_false hmem], hR.inv, ?_,
      fun y => ?_⟩
    · rw [Spec.remove, hidx, hR.items_eq]
      rfl
    · rw [Spec.remove, Set.sdiff_singleton_eq_self hmem, hR.mem_iff]

/-- A copy represents what its original does. -/
theorem copy (hR : Represents h sp) {c : Header T} (hI : c.Inv) (hitems : c.items = h.items) :
    Represents c sp where
  inv := hI
  items_eq := hitems.trans hR.items_eq
  mem_iff x := by rw [hR.mem_iff, hitems]

theorem indexOf_eq [LawfulHashable T] (hR : Represents h sp) (item : T) :
    h.indexOf item = sp.order.findIdx? (· == item) := by
  rcases hR.mem_or_absent item with ⟨i, x, hx, heq, -, hidx⟩ | ⟨habs, -, hidx⟩
  · rw [hR.inv.indexOf_of_mem hx heq, hidx]
  · rw [hR.inv.indexOf_eq_none habs, hidx]

open Classical in
theorem contains_eq [LawfulHashable T] (hR : Represents h sp) (item : T) :
    h.contains item = decide (⟦item⟧ ∈ sp.members) := by
  rw [Header.contains, hR.indexOf_eq]
  rcases hR.mem_or_absent item with ⟨i, x, -, -, hmem, hidx⟩ | ⟨-, hmem, hidx⟩
  · rw [hidx, decide_eq_true hmem]
    rfl
  · rw [hidx, decide_eq_false hmem]
    rfl

/-- The number of items up to `==` is the length of the dense array. -/
theorem length_eq (hR : Represents h sp) : h.length = Set.ncard sp.members := by
  classical
  have hset : sp.members = ((h.items.map (⟦·⟧ : T → Map.Key T)).toFinset : Set (Map.Key T)) := by
    ext q
    induction q using Quotient.inductionOn with
    | h item =>
      rw [hR.mem_iff]
      simp only [List.coe_toFinset, List.mem_map, Map.key_eq_iff, Set.mem_ofPred_eq]
  have hnodup : (h.items.map (⟦·⟧ : T → Map.Key T)).Nodup := by
    refine List.Pairwise.map _ (fun a b hab hq => ?_) hR.inv.distinct
    rw [Map.key_eq_iff.1 hq] at hab
    cases hab
  rw [hset, Set.ncard_coe_finset, List.toFinset_card_of_nodup hnodup, List.length_map]
  rfl

end Represents

/-! ### Positions -/

/-- What a set of a program is, and what the calls on it do to its positions. -/
structure Refines (h : Header T) (sp : Spec T) : Prop where
  items_eq : h.items = sp.order
  distinct : h.items.Pairwise fun a b => (a == b) = false
  mem_iff : ∀ x : T, ⟦x⟧ ∈ sp.members ↔ ∃ y ∈ h.items, (y == x) = true
  indexOf_iff : ∀ (x : T) (i : ℕ),
    h.indexOf x = some i ↔ ∃ y, h.items[i]? = some y ∧ (y == x) = true
  add_mem : ∀ x : T, ⟦x⟧ ∈ sp.members → h.add x = some h
  add_new : ∀ x : T, ⟦x⟧ ∉ sp.members → ∃ h', h.add x = some h' ∧ h'.items = h.items ++ [x]
  remove_absent : ∀ x : T, ⟦x⟧ ∉ sp.members → h.remove x = some (h, false)
  remove_at : ∀ (x : T) (i : ℕ), h.indexOf x = some i → ∃ h', h.remove x = some (h', true) ∧
    h'.items.length = h.items.length - 1 ∧ ∀ j, j + 1 < h.items.length →
      h'.items[j]? = if j = i then h.items.getLast? else h.items[j]?
  copy_same : ∃ c, h.copy = some c ∧ c.items = h.items

namespace Represents

theorem refines [LawfulHashable T] (hR : Represents h sp) : Refines h sp where
  items_eq := hR.items_eq
  distinct := hR.inv.distinct
  mem_iff := hR.mem_iff
  indexOf_iff x i := by
    rcases hR.mem_or_absent x with ⟨j, y, hy, heq, -, -⟩ | ⟨habs, -, -⟩
    · rw [hR.inv.indexOf_of_mem hy heq, Option.some.injEq]
      constructor
      · rintro rfl
        exact ⟨y, hy, heq⟩
      · rintro ⟨z, hz, hzx⟩
        exact Map.Header.Inv.position_unique hR.inv hy hz heq hzx
    · rw [hR.inv.indexOf_eq_none habs]
      refine iff_of_false (by simp) ?_
      rintro ⟨z, hz, hzx⟩
      rw [habs z (List.mem_of_getElem? hz)] at hzx
      cases hzx
  add_mem x hmem := by
    rcases hR.mem_or_absent x with ⟨i, y, hy, heq, -, -⟩ | ⟨-, hno, -⟩
    · exact hR.inv.add_of_mem hy heq
    · exact absurd hmem hno
  add_new x hno := by
    rcases hR.mem_or_absent x with ⟨i, y, -, -, hmem, -⟩ | ⟨habs, -, -⟩
    · exact absurd hmem hno
    · obtain ⟨h', hadd, -, hitems⟩ := hR.inv.exists_add_of_notMem habs
      exact ⟨h', hadd, hitems⟩
  remove_absent x hno := by
    rcases hR.mem_or_absent x with ⟨i, y, -, -, hmem, -⟩ | ⟨habs, -, -⟩
    · exact absurd hmem hno
    · exact hR.inv.remove_of_notMem habs
  remove_at x i hi := by
    rcases hR.mem_or_absent x with ⟨j, y, hy, heq, -, -⟩ | ⟨habs, -, -⟩
    · obtain rfl : j = i := by
        rw [hR.inv.indexOf_of_mem hy heq, Option.some.injEq] at hi
        exact hi
      obtain ⟨h', hremove, -, hitems⟩ := hR.inv.exists_remove_of_mem hy heq
      refine ⟨h', hremove, by rw [hitems, length_moveLast], fun k hk => ?_⟩
      rw [hitems, getElem?_moveLast _ _ hk]
    · rw [hR.inv.indexOf_eq_none habs] at hi
      cases hi
  copy_same := by
    obtain ⟨c, hcopy, -, hitems⟩ := hR.inv.exists_copy
    exact ⟨c, hcopy, hitems⟩

end Represents

/-! ### Runs -/

section

variable {α β : Type*} {R : α → β → Prop} {l : List α} {l' : List β}

theorem exists_related (h : List.Forall₂ R l l') {i : ℕ} (hi : i < l.length) :
    ∃ a b, l[i]? = some a ∧ l'[i]? = some b ∧ R a b := by
  induction h generalizing i with
  | nil => simp at hi
  | @cons a b l l' hab _ ih =>
    cases i with
    | zero => exact ⟨a, b, rfl, rfl, hab⟩
    | succ i => exact ih (by simpa using hi)

theorem forall₂_set_modify (h : List.Forall₂ R l l') {i : ℕ} {a : α} {f : β → β}
    (hf : ∀ b, l'[i]? = some b → R a (f b)) : List.Forall₂ R (l.set i a) (l'.modify i f) := by
  induction h generalizing i with
  | nil => simp
  | @cons b b' l l' hb hrest ih =>
    cases i with
    | zero => exact List.Forall₂.cons (hf b' rfl) hrest
    | succ i => exact List.Forall₂.cons hb (ih fun c hc => hf c hc)

end

/-- Every set there is represents its specification. -/
abbrev Simulates (store : Store T) (specs : List (Spec T)) : Prop :=
  List.Forall₂ Represents store specs

/-- One call gets the answer of the specifications and keeps the sets in step with them. -/
theorem exists_step [LawfulHashable T] {store : Store T} {specs : List (Spec T)}
    (hS : Simulates store specs) {op : Op T} {ops : List (Op T)}
    (hclosed : Closed store.length (op :: ops)) :
    ∃ store', step store op = some (store', specAnswer specs op) ∧
      Simulates store' (specStep specs op) ∧ Closed store'.length ops := by
  have happend : ∀ {h : Header T} {sp : Spec T}, Represents h sp →
      Simulates (store ++ [h]) (specs ++ [sp]) :=
    fun hR => List.rel_append hS (List.Forall₂.cons hR List.Forall₂.nil)
  cases op with
  | default =>
    exact ⟨_, rfl, happend Represents.empty, by simpa [Closed, Op.count] using hclosed.2⟩
  | add s item =>
    obtain ⟨h, sp, hh, hsp, hR⟩ := exists_related hS (hclosed.1 s rfl)
    obtain ⟨h', hadd, hR'⟩ := hR.exists_add item
    refine ⟨store.set s h', by simp [step, hh, hadd, specAnswer, Op.subject, hsp, Spec.answer],
      forall₂_set_modify hS fun sp' hsp' => ?_, by simpa [Op.count] using hclosed.2⟩
    obtain rfl : sp = sp' := by simpa using hsp.symm.trans hsp'
    exact hR'
  | remove s item =>
    obtain ⟨h, sp, hh, hsp, hR⟩ := exists_related hS (hclosed.1 s rfl)
    obtain ⟨h', hremove, hR'⟩ := hR.exists_remove item
    refine ⟨store.set s h',
      by simp [step, hh, hremove, specAnswer, Op.subject, hsp, Spec.answer],
      forall₂_set_modify hS fun sp' hsp' => ?_, by simpa [Op.count] using hclosed.2⟩
    obtain rfl : sp = sp' := by simpa using hsp.symm.trans hsp'
    exact hR'
  | contains s item =>
    obtain ⟨h, sp, hh, hsp, hR⟩ := exists_related hS (hclosed.1 s rfl)
    exact ⟨store, by simp [step, hh, hR.contains_eq, specAnswer, Op.subject, hsp, Spec.answer], hS,
      hclosed.2⟩
  | indexOf s item =>
    obtain ⟨h, sp, hh, hsp, hR⟩ := exists_related hS (hclosed.1 s rfl)
    exact ⟨store, by simp [step, hh, hR.indexOf_eq, specAnswer, Op.subject, hsp, Spec.answer], hS,
      hclosed.2⟩
  | length s =>
    obtain ⟨h, sp, hh, hsp, hR⟩ := exists_related hS (hclosed.1 s rfl)
    exact ⟨store, by simp [step, hh, hR.length_eq, specAnswer, Op.subject, hsp, Spec.answer], hS,
      hclosed.2⟩
  | copy s =>
    obtain ⟨h, sp, hh, hsp, hR⟩ := exists_related hS (hclosed.1 s rfl)
    obtain ⟨c, hcopy, hI, hitems⟩ := hR.inv.exists_copy
    refine ⟨store ++ [c], by simp [step, hh, hcopy, specAnswer, Op.subject, hsp, Spec.answer], ?_,
      by simpa [Op.count] using hclosed.2⟩
    have hstep : specStep specs (.copy s) = specs ++ [sp] := by rw [specStep, hsp]; rfl
    rw [hstep]
    exact happend (hR.copy hI hitems)

theorem exists_runFrom [LawfulHashable T] {store : Store T} {specs : List (Spec T)}
    (hS : Simulates store specs) {ops : List (Op T)} (hclosed : Closed store.length ops) :
    ∃ store', runFrom store ops = some (store', specAnswers specs ops) ∧
      Simulates store' (specRun specs ops) := by
  induction ops generalizing store specs with
  | nil => exact ⟨store, rfl, hS⟩
  | cons op ops ih =>
    obtain ⟨store₁, hstep, hS₁, hclosed₁⟩ := exists_step hS hclosed
    obtain ⟨store₂, hrun, hS₂⟩ := ih hS₁ hclosed₁
    exact ⟨store₂, by simp [runFrom, hstep, hrun, specAnswers], hS₂⟩

/-- A program that collides items, removes one, copies the set and changes the copy. -/
def sampleOps : List (Op ℕ) :=
  [.default, .add 0 1, .add 0 9, .add 0 17, .remove 0 1, .copy 0, .add 1 1, .indexOf 0 17, .length 1]

end TurfLang.Set
