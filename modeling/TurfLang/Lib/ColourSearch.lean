import Mathlib.Data.Finset.Card
import Mathlib.Data.List.Chain
import Mathlib.Tactic.Cases
import TurfLang.Lib.Descent

/-!
# Depth-first search with two colours

A search for cycles along labelled edges: a point is grey while the search is below it and black
when it is done with it. Meeting a grey point stops the whole search, with the path that has come
round. The search stops exactly if some descent from one of its starts comes into a cycle, and
then the path it stops with is one.
-/

namespace TurfLang.ColourSearch

open Relation

variable {κ ε : Type*} [DecidableEq κ]

inductive Colour
  | grey
  | black
  deriving DecidableEq

/-- The colours so far; a point without one was never seen. -/
abbrev Colours (κ : Type*) := κ → Option Colour

/-- What the search stops with: the path to the point it is at, the labels of the edges along it,
and the edge that leads back into the path. -/
structure Round (κ ε : Type*) where
  path : List κ
  labels : List ε
  closing : ε
  target : κ

inductive Stop (κ ε : Type*)
  | round (r : Round κ ε)
  | outOfFuel

/-! ### The search -/

/-- Takes the edges out of the last point of a path in turn. -/
def follow (visit : κ → List ε → Colours κ → Except (Stop κ ε) (Colours κ)) (path : List κ)
    (labels : List ε) : List (ε × κ) → Colours κ → Except (Stop κ ε) (Colours κ)
  | [], colours => .ok colours
  | (label, target) :: edges, colours =>
    match colours target with
    | some .black => follow visit path labels edges colours
    | some .grey => .error (.round ⟨path, labels, label, target⟩)
    | none => do
      let colours ← visit target (labels ++ [label]) colours
      follow visit path labels edges colours

/-- Searches below a point that a path leads to. -/
def visit (out : κ → List (ε × κ)) :
    ℕ → List κ → κ → List ε → Colours κ → Except (Stop κ ε) (Colours κ)
  | 0, _, _, _, _ => .error .outOfFuel
  | fuel + 1, path, k, labels, colours => do
    let colours ← follow (visit out fuel (path ++ [k])) (path ++ [k]) labels (out k)
      (Function.update colours k (some .grey))
    .ok (Function.update colours k (some .black))

/-- Searches from each start that has no colour yet. -/
def search (out : κ → List (ε × κ)) (fuel : ℕ) :
    List κ → Colours κ → Except (Stop κ ε) (Colours κ)
  | [], colours => .ok colours
  | k :: ks, colours =>
    match colours k with
    | none => do
      let colours ← visit out fuel [] k [] colours
      search out fuel ks colours
    | some _ => search out fuel ks colours

/-! ### What a search keeps -/

/-- An edge leads from `a` to `b`. -/
def Edge (out : κ → List (ε × κ)) (a b : κ) : Prop := ∃ label, (label, b) ∈ out a

/-- Some descent from `a` comes into a cycle. -/
def Cyclic (r : κ → κ → Prop) (a : κ) : Prop := ∃ b, ReflTransGen r a b ∧ TransGen r b b

omit [DecidableEq κ] in
theorem not_acc_of_cycle {r : κ → κ → Prop} {b : κ} (h : TransGen r b b) :
    ¬Acc (fun x y => r y x) b := by
  intro hacc
  have hwf := hacc.transGen
  induction hwf with
  | intro b _ ih => exact ih b (transGen_swap.mpr h) h (hacc.inv_of_transGen (transGen_swap.mpr h))

omit [DecidableEq κ] in
theorem acc_of_reflTransGen {r : κ → κ → Prop} {a b : κ} (h : ReflTransGen r a b)
    (ha : Acc (fun x y => r y x) a) : Acc (fun x y => r y x) b := by
  induction h with
  | refl => exact ha
  | tail _ hbc ih => exact ih.inv hbc

omit [DecidableEq κ] in
theorem Cyclic.not_acc {r : κ → κ → Prop} {a : κ} (h : Cyclic r a) :
    ¬Acc (fun x y => r y x) a := by
  obtain ⟨b, hab, hb⟩ := h
  exact fun ha => not_acc_of_cycle hb (acc_of_reflTransGen hab ha)

/-- The points of `U` without a colour. -/
def uncoloured (U : Finset κ) (colours : Colours κ) : Finset κ :=
  U.filter fun x => colours x = none

theorem card_uncoloured_lt {U : Finset κ} {colours : Colours κ} {k : κ} (hU : k ∈ U)
    (hk : colours k = none) (c : Colour) :
    (uncoloured U (Function.update colours k (some c))).card < (uncoloured U colours).card := by
  refine Finset.card_lt_card (Finset.ssubset_iff_of_subset ?_ |>.mpr ⟨k, ?_, ?_⟩)
  · intro x hx
    simp only [uncoloured, Finset.mem_filter] at hx ⊢
    have hne : x ≠ k := by rintro rfl; simp at hx
    exact ⟨hx.1, by simpa [Function.update_of_ne hne] using hx.2⟩
  · simp [uncoloured, hU, hk]
  · simp [uncoloured]

/-- Colours stay what they are. -/
def Extends (colours colours' : Colours κ) : Prop :=
  ∀ x, colours x ≠ none → colours' x = colours x

omit [DecidableEq κ] in
theorem Extends.refl (colours : Colours κ) : Extends colours colours := fun _ _ => rfl

omit [DecidableEq κ] in
theorem Extends.trans {colours₁ colours₂ colours₃ : Colours κ} (h : Extends colours₁ colours₂)
    (h' : Extends colours₂ colours₃) : Extends colours₁ colours₃ := by
  intro x hx
  rw [h' x (by rwa [h x hx]), h x hx]

omit [DecidableEq κ] in
theorem Extends.card_le {colours colours' : Colours κ} (h : Extends colours colours')
    (U : Finset κ) : (uncoloured U colours').card ≤ (uncoloured U colours).card := by
  refine Finset.card_le_card fun x hx => ?_
  simp only [uncoloured, Finset.mem_filter] at hx ⊢
  refine ⟨hx.1, ?_⟩
  by_contra hne
  exact hne (h x hne ▸ hx.2)

/-- Where the search is: the grey points are those of the path, and descents from black points
end. -/
structure At (out : κ → List (ε × κ)) (path : List κ) (colours : Colours κ) : Prop where
  grey : ∀ x, colours x = some .grey ↔ x ∈ path
  black : ∀ x, colours x = some .black → Acc (fun a b => Edge out b a) x

/-- The path of a round goes along edges, and the edge that closes it leads back into it. -/
structure Round.Closes (out : κ → List (ε × κ)) (r : Round κ ε) : Prop where
  chain : r.path.IsChain (Edge out)
  mem : r.target ∈ r.path
  closing : ∃ m ∈ r.path.getLast?, (r.closing, r.target) ∈ out m

/-- What a search comes to that starts with these colours below the path `path`: the points of
`done` are black, or it stops with a round that begins with `stem`. -/
def Searched (out : κ → List (ε × κ)) (path stem done : List κ) (colours : Colours κ) :
    Except (Stop κ ε) (Colours κ) → Prop
  | .ok colours' =>
    At out path colours' ∧ Extends colours colours' ∧ ∀ x ∈ done, colours' x = some .black
  | .error (.round r) => stem <+: r.path ∧ r.Closes out
  | .error .outOfFuel => False

variable {out : κ → List (ε × κ)} {U : Finset κ} {path : List κ} {colours : Colours κ} {k : κ}

theorem At.open (h : At out path colours) (k : κ) :
    At out (path ++ [k]) (Function.update colours k (some .grey)) where
  grey x := by
    by_cases hx : x = k
    · simp [hx]
    · simp [hx, h.grey x]
  black x hx := by
    by_cases hxk : x = k
    · simp [hxk] at hx
    · exact h.black x (by rwa [Function.update_of_ne hxk] at hx)

/-- A point is done when all its edges lead to black points. -/
theorem At.close (h : At out (path ++ [k]) colours) (hk : k ∉ path)
    (hdone : ∀ b, Edge out k b → colours b = some .black) :
    At out path (Function.update colours k (some .black)) where
  grey x := by
    by_cases hx : x = k
    · simp [hx, hk]
    · simp [h.grey x, hx]
  black x hx := by
    by_cases hxk : x = k
    · subst hxk
      exact ⟨_, fun b hb => h.black b (hdone b hb)⟩
    · exact h.black x (by rwa [Function.update_of_ne hxk] at hx)

omit [DecidableEq κ] in
/-- The edges out of the end of a path: below each point without a colour the search goes on, a
black one is passed, and a grey one closes a round. -/
theorem searched_follow {visit : κ → List ε → Colours κ → Except (Stop κ ε) (Colours κ)}
    {last : κ} (hlast : path.getLast? = some last) (hpath : path.IsChain (Edge out))
    {fuel : ℕ} {edges : List (ε × κ)} (hedges : edges ⊆ out last)
    (hvisit : ∀ target labels colours, Edge out last target → colours target = none →
      At out path colours → (uncoloured U colours).card ≤ fuel →
        Searched out path (path ++ [target]) [target] colours (visit target labels colours))
    (labels : List ε) (hat : At out path colours) (hcard : (uncoloured U colours).card ≤ fuel) :
    Searched out path path (edges.map Prod.snd) colours
      (follow visit path labels edges colours) := by
  induction edges generalizing colours with
  | nil => exact ⟨hat, .refl _, by simp⟩
  | cons edge edges ih =>
    obtain ⟨label, target⟩ := edge
    obtain ⟨hedge, hedges⟩ := List.cons_subset.mp hedges
    rw [follow]
    cases hc : colours target with
    | none =>
      have hv := hvisit target (labels ++ [label]) colours ⟨label, hedge⟩ hc hat hcard
      cases hr : visit target (labels ++ [label]) colours with
      | error stop =>
        rw [hr] at hv
        cases stop with
        | outOfFuel => exact hv
        | round r => exact ⟨(List.prefix_append ..).trans hv.1, hv.2⟩
      | ok colours₁ =>
        rw [hr] at hv
        obtain ⟨hat₁, hext, hdone⟩ := hv
        have hrest := ih hedges hat₁ ((hext.card_le U).trans hcard)
        show Searched out path path _ colours (follow visit path labels edges colours₁)
        cases hf : follow visit path labels edges colours₁ with
        | error stop => rw [hf] at hrest; cases stop <;> exact hrest
        | ok colours₂ =>
          rw [hf] at hrest
          obtain ⟨hat₂, hext₂, hdone₂⟩ := hrest
          refine ⟨hat₂, hext.trans hext₂, List.forall_mem_cons.mpr ⟨?_, hdone₂⟩⟩
          rw [hext₂ target (by rw [hdone target (by simp)]; simp), hdone target (by simp)]
    | some c =>
      cases c with
      | grey =>
        exact ⟨List.prefix_rfl, hpath, (hat.grey target).mp hc, last, hlast, hedge⟩
      | black =>
        have hrest := ih hedges hat hcard
        show Searched out path path _ colours (follow visit path labels edges colours)
        cases hf : follow visit path labels edges colours with
        | error stop => rw [hf] at hrest; cases stop <;> exact hrest
        | ok colours₂ =>
          rw [hf] at hrest
          obtain ⟨hat₂, hext₂, hdone₂⟩ := hrest
          refine ⟨hat₂, hext₂, List.forall_mem_cons.mpr ⟨?_, hdone₂⟩⟩
          rw [hext₂ target (by rw [hc]; simp), hc]

/-- Fuel for every point that has no colour is enough for a visit. -/
theorem searched_visit (hU : ∀ a ∈ U, ∀ b, Edge out a b → b ∈ U) {fuel : ℕ}
    (hk : k ∈ U) (hnone : colours k = none) (hpath : (path ++ [k]).IsChain (Edge out))
    (labels : List ε) (hat : At out path colours)
    (hcard : (uncoloured U colours).card ≤ fuel) :
    Searched out path (path ++ [k]) [k] colours (visit out fuel path k labels colours) := by
  induction fuel generalizing path k labels colours with
  | zero =>
    have hmem : k ∈ uncoloured U colours := Finset.mem_filter.mpr ⟨hk, hnone⟩
    have := Finset.card_pos.mpr ⟨k, hmem⟩
    omega
  | succ fuel ih =>
    have hkpath : k ∉ path := fun hmem => by simp [(hat.grey k).mpr hmem] at hnone
    have hlt := card_uncoloured_lt hk hnone .grey
    have hopen := hat.open k
    have hbelow := searched_follow (by simp) hpath (List.Subset.refl (out k))
      (fun target labels colours hedge htarget hat' hcard' =>
        ih (hU k hk target hedge) htarget
          (List.isChain_append.mpr ⟨hpath, by simp, by simpa using hedge⟩) labels hat' hcard')
      labels hopen (by omega)
    rw [visit]
    cases hf : follow (visit out fuel (path ++ [k])) (path ++ [k]) labels (out k)
        (Function.update colours k (some .grey)) with
    | error stop => rw [hf] at hbelow; cases stop <;> exact hbelow
    | ok colours₁ =>
      rw [hf] at hbelow
      obtain ⟨hat₁, hext, hdone⟩ := hbelow
      have hclose := hat₁.close hkpath fun b ⟨label, hb⟩ =>
        hdone b (List.mem_map.mpr ⟨(label, b), hb, rfl⟩)
      refine ⟨hclose, fun x hx => ?_, by simp⟩
      have hxk : x ≠ k := by rintro rfl; exact hx hnone
      rw [Function.update_of_ne hxk, hext x (by rwa [Function.update_of_ne hxk]),
        Function.update_of_ne hxk]

/-! ### What a search decides -/

omit [DecidableEq κ] in
/-- Along a chain, every point leads to the last one. -/
theorem reflTransGen_of_isChain {r : κ → κ → Prop} {l : List κ} (h : l.IsChain r) {x last : κ}
    (hx : x ∈ l) (hlast : l.getLast? = some last) : ReflTransGen r x last := by
  obtain ⟨front, rest, rfl⟩ := List.append_of_mem hx
  refine List.relationReflTransGen_of_exists_isChain_cons rest h.right_of_append ?_
  rw [List.getLast?_append_of_ne_nil _ (List.cons_ne_nil x rest),
    List.getLast?_eq_some_getLast (List.cons_ne_nil x rest)] at hlast
  exact Option.some.inj hlast

omit [DecidableEq κ] in
/-- A round lies on a cycle that every point of its path leads to. -/
theorem Round.Closes.cyclic {r : Round κ ε} (h : r.Closes out) (hk : k ∈ r.path) :
    Cyclic (Edge out) k := by
  obtain ⟨last, hlast, hedge⟩ := h.closing
  have hback : Edge out last r.target := ⟨_, hedge⟩
  exact ⟨r.target, (reflTransGen_of_isChain h.chain hk hlast).tail hback,
    .tail' (reflTransGen_of_isChain h.chain h.mem hlast) hback⟩

/-- What a search from some starts comes to: they are all black, or it stops with a round that
passes through one of them. -/
def SearchedAll (out : κ → List (ε × κ)) (starts : List κ) :
    Except (Stop κ ε) (Colours κ) → Prop
  | .ok colours => At out [] colours ∧ ∀ k ∈ starts, colours k = some .black
  | .error (.round r) => r.Closes out ∧ ∃ k ∈ starts, k ∈ r.path
  | .error .outOfFuel => False

theorem searchedAll_search (hU : ∀ a ∈ U, ∀ b, Edge out a b → b ∈ U) {fuel : ℕ}
    (hfuel : U.card ≤ fuel) {starts : List κ} (hstarts : ∀ k ∈ starts, k ∈ U)
    (hat : At out [] colours) {done : List κ} (hdone : ∀ k ∈ done, colours k = some .black) :
    SearchedAll out (done ++ starts) (search out fuel starts colours) := by
  induction starts generalizing colours done with
  | nil => exact ⟨hat, by simpa using hdone⟩
  | cons k starts ih =>
    obtain ⟨hk, hstarts⟩ := List.forall_mem_cons.mp hstarts
    rw [List.append_cons, search]
    cases hc : colours k with
    | some c =>
      -- nothing is grey between two starts
      have hblack : colours k = some .black := by
        cases c with
        | grey => exact absurd ((hat.grey k).mp hc) List.not_mem_nil
        | black => exact hc
      exact ih hstarts hat (List.forall_mem_append.mpr ⟨hdone, by simpa using hblack⟩)
    | none =>
      have hv := @searched_visit _ _ _ out U [] colours k hU fuel hk hc (List.isChain_singleton k)
        [] hat ((Finset.card_filter_le ..).trans hfuel)
      cases hr : visit out fuel [] k [] colours with
      | error stop =>
        rw [hr] at hv
        cases stop with
        | outOfFuel => exact hv
        | round r => exact ⟨hv.2, k, by simp, hv.1.subset (List.mem_singleton_self k)⟩
      | ok colours₁ =>
        rw [hr] at hv
        obtain ⟨hat₁, hext, hdone₁⟩ := hv
        refine ih hstarts hat₁ (List.forall_mem_append.mpr ⟨fun x hx => ?_, hdone₁⟩)
        rw [hext x (by rw [hdone x hx]; simp), hdone x hx]

/-- A search over finitely many points ends; it stops with a round exactly if one of its starts
leads into a cycle. -/
theorem search_stops_iff (hU : ∀ a ∈ U, ∀ b, Edge out a b → b ∈ U) {fuel : ℕ}
    (hfuel : U.card ≤ fuel) {starts : List κ} (hstarts : ∀ k ∈ starts, k ∈ U) :
    search out fuel starts (fun _ => none) ≠ .error .outOfFuel ∧
      ((∃ r, search out fuel starts (fun _ => none) = .error (.round r)) ↔
        ∃ k ∈ starts, Cyclic (Edge out) k) := by
  have hat : At out [] fun _ => none := ⟨by simp, by simp⟩
  have h := @searchedAll_search _ _ _ out U _ hU fuel hfuel starts hstarts hat [] (by simp)
  cases hr : search out fuel starts (fun _ => none) with
  | error stop =>
    rw [hr] at h
    cases stop with
    | outOfFuel => exact h.elim
    | round r =>
      obtain ⟨hcloses, k, hk, hmem⟩ := h
      exact ⟨by simp, fun _ => ⟨k, hk, hcloses.cyclic hmem⟩, fun _ => ⟨r, rfl⟩⟩
  | ok colours =>
    rw [hr] at h
    obtain ⟨hat', hblack⟩ := h
    exact ⟨by simp, by simp, fun ⟨k, hk, hcyc⟩ => absurd (hat'.black k (hblack k hk)) hcyc.not_acc⟩

/-- The round a search stops with is one. -/
theorem closes_of_search (hU : ∀ a ∈ U, ∀ b, Edge out a b → b ∈ U) {fuel : ℕ}
    (hfuel : U.card ≤ fuel) {starts : List κ} (hstarts : ∀ k ∈ starts, k ∈ U) {r : Round κ ε}
    (h : search out fuel starts (fun _ => none) = .error (.round r)) : r.Closes out := by
  have hat : At out [] fun _ => none := ⟨by simp, by simp⟩
  have hr := @searchedAll_search _ _ _ out U _ hU fuel hfuel starts hstarts hat [] (by simp)
  rw [h] at hr
  exact hr.1

end TurfLang.ColourSearch
