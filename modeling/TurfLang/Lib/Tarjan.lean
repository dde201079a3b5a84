import Mathlib.Data.Finset.Card
import Mathlib.Logic.Relation
import Mathlib.Tactic

/-!
# Tarjan's strongly connected components, with an early exit

A depth-first search numbers the nodes of a graph in the order it meets them and keeps those
whose component is not complete on a stack. When a node is left whose low-link is its own number,
the stack down to it is its strongly connected component. The search asks a question about each
component and stops at the first one for which the answer is yes.
-/

namespace Tarjan

variable {α : Type*} [DecidableEq α]

/-- The numbering, the low-links, the stack (its top first), and whether the search is over. -/
structure State (α : Type*) where
  counter : ℕ
  discIdx : α → Option ℕ
  lowLink : α → ℕ
  onStack : α → Bool
  stack : List α
  found : Bool

namespace State

/-- Nothing met yet. -/
def init : State α := ⟨0, fun _ => none, fun _ => 0, fun _ => false, [], false⟩

/-- A node is met: it takes the next number and goes on the stack. -/
def enter (s : State α) (v : α) : State α :=
  { s with
    counter := s.counter + 1
    discIdx := Function.update s.discIdx v (some s.counter)
    lowLink := Function.update s.lowLink v s.counter
    onStack := Function.update s.onStack v true
    stack := v :: s.stack }

/-- The low-link of `v` is lowered to `n`. -/
def lower (s : State α) (v : α) (n : ℕ) : State α :=
  { s with lowLink := Function.update s.lowLink v (min (s.lowLink v) n) }

section

variable (s : State α) (v : α) {x : α} (n : ℕ)

@[simp] theorem enter_discIdx_self : (s.enter v).discIdx v = some s.counter :=
  Function.update_self _ _ _

theorem enter_discIdx_of_ne (h : x ≠ v) : (s.enter v).discIdx x = s.discIdx x :=
  Function.update_of_ne h _ _

@[simp] theorem enter_lowLink_self : (s.enter v).lowLink v = s.counter := Function.update_self _ _ _

theorem enter_lowLink_of_ne (h : x ≠ v) : (s.enter v).lowLink x = s.lowLink x :=
  Function.update_of_ne h _ _

@[simp] theorem lower_lowLink_self : (s.lower v n).lowLink v = min (s.lowLink v) n :=
  Function.update_self _ _ _

theorem lower_lowLink_of_ne (h : x ≠ v) : (s.lower v n).lowLink x = s.lowLink x :=
  Function.update_of_ne h _ _

end

end State

/-- Take nodes off a stack until `v` is taken: the nodes taken, and the rest. -/
def popTo (v : α) : List α → Option (List α × List α)
  | [] => none
  | w :: stack =>
    if w = v then some ([w], stack) else (popTo v stack).map fun r => (w :: r.1, r.2)

variable (succ : α → List α) (stops : Finset α → Bool)

/-- A node is left. If it is the root of its component, the component is taken off the stack and
the question is asked. -/
def close (s : State α) (v : α) : Option (State α) :=
  if s.discIdx v = some (s.lowLink v) then
    (popTo v s.stack).map fun r =>
      { s with
        onStack := fun x => if x ∈ r.1 then false else s.onStack x
        stack := r.2
        found := s.found || stops r.1.toFinset }
  else some s

/-- An edge from `v` to `w` is followed. -/
def follow (visit : α → State α → Option (State α)) (v : α) (s : State α) (w : α) :
    Option (State α) :=
  if s.found then some s
  else
    match s.discIdx w with
    | none => (visit w s).map fun s' => s'.lower v (s'.lowLink w)
    | some d => some (if s.onStack w then s.lower v d else s)

/-- The search from `v`; `none` when the recursion is deeper than the fuel. -/
def visit : ℕ → α → State α → Option (State α)
  | 0, _, _ => none
  | fuel + 1, v, s =>
    if s.found then some s
    else ((succ v).foldlM (follow (visit fuel) v) (s.enter v)).bind fun s' => close stops s' v

/-- The search from each of the roots that is not met yet, until it is over. -/
def search (fuel : ℕ) : List α → State α → Option Bool
  | [], _ => some false
  | v :: vs, s =>
    (if s.discIdx v = none then visit succ stops fuel v s else some s).bind fun s' =>
      if s'.found then some true else search fuel vs s'

/-! ### Components -/

/-- There is a path from one node to another. -/
abbrev Reaches : α → α → Prop := Relation.ReflTransGen fun a b => b ∈ succ a

/-- The strongly connected component of a node. -/
def IsComponent (x : α) (c : Finset α) : Prop := ∀ y, y ∈ c ↔ Reaches succ x y ∧ Reaches succ y x

/-- The question is answered with yes for the component of `x`. -/
def Stops (x : α) : Prop := ∃ c, IsComponent succ x c ∧ stops c = true

/-- What holds of the search with these nodes entered and not left yet. -/
structure Inv (grays : List α) (s : State α) : Prop where
  disc_lt : ∀ {x n}, s.discIdx x = some n → n < s.counter
  disc_inj : ∀ {x y n}, s.discIdx x = some n → s.discIdx y = some n → x = y
  stack_disc : ∀ {x}, x ∈ s.stack → ∃ n, s.discIdx x = some n
  nodup : s.stack.Nodup
  onStack_iff : ∀ x, s.onStack x = true ↔ x ∈ s.stack
  gray_mem : ∀ {g}, g ∈ grays → g ∈ s.stack
  /-- What is off the stack again leads to nothing else. -/
  done_closed : ∀ {x y n}, s.discIdx x = some n → x ∉ s.stack → y ∈ succ x →
    s.discIdx y ≠ none ∧ y ∉ s.stack
  /-- Every edge of a node that is left has been followed. -/
  black_closed : ∀ {x y n}, s.discIdx x = some n → x ∉ grays → y ∈ succ x → s.discIdx y ≠ none
  forward : ∀ {x y n m}, x ∈ s.stack → y ∈ s.stack → s.discIdx x = some n →
    s.discIdx y = some m → n ≤ m → Reaches succ x y
  backward : ∀ {y m}, y ∈ s.stack → s.discIdx y = some m →
    ∃ g ∈ grays, ∃ n, s.discIdx g = some n ∧ n ≤ m ∧ Reaches succ y g
  good : ∀ {x n}, s.discIdx x = some n → x ∉ s.stack → ¬Stops succ stops x

/-- What a piece of the search leaves as it was: the numbers and the low-links of the nodes met
before it, and the stack they are on. -/
structure Extends (s t : State α) : Prop where
  counter_le : s.counter ≤ t.counter
  disc_eq : ∀ {x n}, s.discIdx x = some n → t.discIdx x = some n
  disc_new : ∀ {x n}, s.discIdx x = none → t.discIdx x = some n → s.counter ≤ n
  low_eq : ∀ {x n}, s.discIdx x = some n → t.lowLink x = s.lowLink x
  stack_suffix : s.stack <:+ t.stack
  stack_old : ∀ {x n}, s.discIdx x = some n → x ∈ t.stack → x ∈ s.stack

/-- What the low-link of `v` says when the search from `v`, begun in `s`, is in `t`: it is the
number of a node on the old stack that `v` leads to, and no edge from what `p` allows leads to
one with a lower number. -/
structure Low (p : α → α → Prop) (s t : State α) (v : α) : Prop where
  le : t.lowLink v ≤ s.counter
  reaches : t.lowLink v < s.counter →
    ∃ u ∈ s.stack, s.discIdx u = some (t.lowLink v) ∧ Reaches succ v u
  bound : ∀ {x y n}, x ∈ t.stack → x ∉ s.stack → p x y → y ∈ s.stack → s.discIdx y = some n →
    t.lowLink v ≤ n

/-- What holds while the edges of `v` are followed, after those to `ps`. -/
structure Following (grays : List α) (s : State α) (v : α) (ps : List α) (t : State α) : Prop where
  inv : Inv succ stops (v :: grays) t
  met : ∀ w ∈ ps, t.discIdx w ≠ none
  low : Low succ (fun x y => if x = v then y ∈ ps else y ∈ succ x) s t v

/-- What holds of the numbers and the stack meanwhile. -/
structure Entered (s : State α) (v : α) (t : State α) : Prop where
  extends_ : Extends s t
  disc_self : t.discIdx v = some s.counter
  suffix_self : v :: s.stack <:+ t.stack

namespace Extends

omit [DecidableEq α]

theorem refl (s : State α) : Extends s s where
  counter_le := le_rfl
  disc_eq h := h
  disc_new h h' := by simp [h] at h'
  low_eq _ := rfl
  stack_suffix := List.suffix_rfl
  stack_old _ h := h

theorem trans {s t u : State α} (h : Extends s t) (h' : Extends t u) : Extends s u where
  counter_le := h.counter_le.trans h'.counter_le
  disc_eq hx := h'.disc_eq (h.disc_eq hx)
  disc_new {x n} hx hn := by
    cases ht : t.discIdx x with
    | none => exact h.counter_le.trans (h'.disc_new ht hn)
    | some m =>
      obtain rfl : m = n := by simpa using (h'.disc_eq ht).symm.trans hn
      exact h.disc_new hx ht
  low_eq hx := (h'.low_eq (h.disc_eq hx)).trans (h.low_eq hx)
  stack_suffix := h.stack_suffix.trans h'.stack_suffix
  stack_old hx hu := h.stack_old hx (h'.stack_old (h.disc_eq hx) hu)

/-- A node whose number is lower than any given since was met before. -/
theorem old {s t : State α} (h : Extends s t) {x : α} {n : ℕ} (hx : t.discIdx x = some n)
    (hn : n < s.counter) : s.discIdx x = some n := by
  cases hs : s.discIdx x with
  | none => exact absurd (h.disc_new hs hx) (by omega)
  | some m =>
    obtain rfl : m = n := by simpa using (h.disc_eq hs).symm.trans hx
    rfl

end Extends

variable {succ stops} {grays : List α} {s t : State α} {v : α} {ps : List α}

/-! ### Entering a node -/

theorem enter_extends (hv : s.discIdx v = none) : Extends s (s.enter v) where
  counter_le := Nat.le_succ _
  disc_eq {x n} hx := by
    have hne : x ≠ v := by
      rintro rfl
      simp [hv] at hx
    rw [State.enter_discIdx_of_ne _ _ hne, hx]
  disc_new {x n} hx hn := by
    by_cases hne : x = v
    · subst hne
      rw [State.enter_discIdx_self, Option.some.injEq] at hn
      exact hn.le
    · rw [State.enter_discIdx_of_ne _ _ hne, hx] at hn
      cases hn
  low_eq {x n} hx := by
    have hne : x ≠ v := by
      rintro rfl
      simp [hv] at hx
    exact State.enter_lowLink_of_ne _ _ hne
  stack_suffix := List.suffix_cons _ _
  stack_old {x n} hx hmem := by
    rcases List.mem_cons.1 hmem with rfl | hmem
    · simp [hv] at hx
    · exact hmem

theorem enter_entered (hv : s.discIdx v = none) : Entered s v (s.enter v) where
  extends_ := enter_extends hv
  disc_self := Function.update_self _ _ _
  suffix_self := List.suffix_rfl

theorem enter_inv (hI : Inv succ stops grays s) (hv : s.discIdx v = none)
    (hreach : ∀ g ∈ grays, Reaches succ g v) : Inv succ stops (v :: grays) (s.enter v) := by
  have hdisc : ∀ {x}, x ≠ v → (s.enter v).discIdx x = s.discIdx x :=
    fun hne => State.enter_discIdx_of_ne _ _ hne
  have hself := State.enter_discIdx_self s v
  have hnot : v ∉ s.stack := fun hmem => by
    obtain ⟨n, hn⟩ := hI.stack_disc hmem
    simp [hv] at hn
  have hstack : ∀ {x}, x ∈ (s.enter v).stack ↔ x = v ∨ x ∈ s.stack := List.mem_cons
  have hsome : ∀ {x n}, (s.enter v).discIdx x = some n →
      (x = v ∧ n = s.counter) ∨ (x ≠ v ∧ s.discIdx x = some n) := by
    intro x n hx
    by_cases hne : x = v
    · subst hne
      rw [hself, Option.some.injEq] at hx
      exact .inl ⟨rfl, hx.symm⟩
    · rw [hdisc hne] at hx
      exact .inr ⟨hne, hx⟩
  have hmet : ∀ {y}, s.discIdx y ≠ none → (s.enter v).discIdx y ≠ none := by
    intro y hy
    by_cases hne : y = v
    · subst hne
      rw [hself]
      simp
    · rwa [hdisc hne]
  refine ⟨?_, ?_, ?_, ?_, ?_, ?_, ?_, ?_, ?_, ?_, ?_⟩
  · intro x n hx
    rcases hsome hx with ⟨-, rfl⟩ | ⟨-, hx⟩
    · exact Nat.lt_succ_self _
    · exact (hI.disc_lt hx).trans (Nat.lt_succ_self _)
  · intro x y n hx hy
    rcases hsome hx with ⟨hxv, hn⟩ | ⟨hxv, hxs⟩
    · rcases hsome hy with ⟨hyv, -⟩ | ⟨hyv, hys⟩
      · exact hxv.trans hyv.symm
      · exact absurd (hI.disc_lt hys) (by omega)
    · rcases hsome hy with ⟨hyv, hn⟩ | ⟨hyv, hys⟩
      · exact absurd (hI.disc_lt hxs) (by omega)
      · exact hI.disc_inj hxs hys
  · intro x hx
    rcases hstack.1 hx with rfl | hx
    · exact ⟨_, hself⟩
    · obtain ⟨n, hn⟩ := hI.stack_disc hx
      exact ⟨n, (enter_extends hv).disc_eq hn⟩
  · exact List.nodup_cons.2 ⟨hnot, hI.nodup⟩
  · intro x
    rw [hstack]
    by_cases hne : x = v
    · subst hne
      simp [State.enter]
    · simp only [State.enter, Function.update_of_ne hne, hI.onStack_iff, hne, false_or]
  · intro g hg
    rcases List.mem_cons.1 hg with rfl | hg
    · exact hstack.2 (.inl rfl)
    · exact hstack.2 (.inr (hI.gray_mem hg))
  · intro x y n hx hmem hy
    rw [hstack, not_or] at hmem
    rcases hsome hx with ⟨rfl, -⟩ | ⟨-, hx⟩
    · exact absurd rfl hmem.1
    · obtain ⟨hyd, hyn⟩ := hI.done_closed hx hmem.2 hy
      refine ⟨hmet hyd, fun hys => ?_⟩
      rcases hstack.1 hys with rfl | hys
      · exact hyd hv
      · exact hyn hys
  · intro x y n hx hmem hy
    rw [List.mem_cons, not_or] at hmem
    rcases hsome hx with ⟨rfl, -⟩ | ⟨-, hx⟩
    · exact absurd rfl hmem.1
    · exact hmet (hI.black_closed hx hmem.2 hy)
  · intro x y n m hx hy hn hm hle
    rcases hsome hm with ⟨rfl, rfl⟩ | ⟨hyv, hm⟩
    · rcases hsome hn with ⟨rfl, -⟩ | ⟨hxv, hn⟩
      · exact .refl
      · -- the old stack leads to its gray nodes, and these lead to the new node
        obtain ⟨g, hg, -, -, -, hxg⟩ := hI.backward ((hstack.1 hx).resolve_left hxv) hn
        exact hxg.trans (hreach g hg)
    · rcases hsome hn with ⟨rfl, rfl⟩ | ⟨hxv, hn⟩
      · have := hI.disc_lt (show s.discIdx y = some m from by rwa [hdisc hyv] at hm)
        omega
      · exact hI.forward ((hstack.1 hx).resolve_left hxv) ((hstack.1 hy).resolve_left hyv) hn hm hle
  · intro y m hy hm
    rcases hsome hm with ⟨rfl, rfl⟩ | ⟨hyv, hm⟩
    · exact ⟨y, List.mem_cons_self, _, hself, le_rfl, .refl⟩
    · obtain ⟨g, hg, n, hn, hle, hyg⟩ := hI.backward ((hstack.1 hy).resolve_left hyv) hm
      exact ⟨g, List.mem_cons_of_mem _ hg, n, (enter_extends hv).disc_eq hn, hle, hyg⟩
  · intro x n hx hmem
    rw [hstack, not_or] at hmem
    rcases hsome hx with ⟨rfl, -⟩ | ⟨-, hx⟩
    · exact absurd rfl hmem.1
    · exact hI.good hx hmem.2

theorem enter_following (hI : Inv succ stops grays s) (hv : s.discIdx v = none)
    (hreach : ∀ g ∈ grays, Reaches succ g v) : Following succ stops grays s v [] (s.enter v) where
  inv := enter_inv hI hv hreach
  met := by simp
  low := by
    have hlow := State.enter_lowLink_self s v
    refine ⟨hlow.le, fun hlt => absurd hlt (by omega), fun {x y n} hx hxs hp hy hn => ?_⟩
    rcases List.mem_cons.1 hx with rfl | hx
    · simp at hp
    · exact absurd hx hxs

/-! ### Following an edge -/

omit [DecidableEq α] in
theorem Entered.trans {t' : State α} (h : Entered s v t) (h' : Extends t t') : Entered s v t' where
  extends_ := h.extends_.trans h'
  disc_self := h'.disc_eq h.disc_self
  suffix_self := h.suffix_self.trans h'.stack_suffix

theorem Entered.lower (h : Entered s v t) (hv : s.discIdx v = none) (n : ℕ) :
    Entered s v (t.lower v n) where
  extends_ := by
    refine ⟨h.extends_.counter_le, h.extends_.disc_eq, h.extends_.disc_new, fun {x m} hx => ?_,
      h.extends_.stack_suffix, h.extends_.stack_old⟩
    have hne : x ≠ v := by
      rintro rfl
      simp [hv] at hx
    rw [State.lower_lowLink_of_ne _ _ _ hne]
    exact h.extends_.low_eq hx
  disc_self := h.disc_self
  suffix_self := h.suffix_self

/-- The invariant says nothing about low-links. -/
theorem Inv.lower (h : Inv succ stops grays t) (n : ℕ) : Inv succ stops grays (t.lower v n) :=
  ⟨h.disc_lt, h.disc_inj, h.stack_disc, h.nodup, h.onStack_iff, h.gray_mem, h.done_closed,
    h.black_closed, h.forward, h.backward, h.good⟩

/-- An edge to a node that is met: its number lowers the low-link when it is on the stack. -/
theorem Following.met_edge (hF : Following succ stops grays s v ps t) (hE : Entered s v t)
    {w : α} {d : ℕ} (hw : w ∈ succ v) (hd : t.discIdx w = some d) :
    Following succ stops grays s v (ps ++ [w]) (if t.onStack w then t.lower v d else t) := by
  have hmet : ∀ u ∈ ps ++ [w], t.discIdx u ≠ none := by
    intro u hu
    rcases List.mem_append.1 hu with hu | hu
    · exact hF.met u hu
    · rw [List.mem_singleton.1 hu, hd]
      simp
  by_cases hon : t.onStack w = true
  · rw [if_pos hon]
    refine ⟨hF.inv.lower d, hmet, ?_, ?_, ?_⟩
    · rw [State.lower_lowLink_self]
      exact (min_le_left _ _).trans hF.low.le
    · rw [State.lower_lowLink_self]
      intro hlt
      rcases le_total (t.lowLink v) d with hle | hle
      · rw [min_eq_left hle] at hlt ⊢
        exact hF.low.reaches hlt
      · rw [min_eq_right hle] at hlt ⊢
        have hold := hE.extends_.old hd hlt
        exact ⟨w, hE.extends_.stack_old hold ((hF.inv.onStack_iff w).1 hon), hold, .single hw⟩
    · rw [State.lower_lowLink_self]
      intro x y n hx hxs hp hy hn
      by_cases hxv : x = v
      · rw [if_pos hxv, List.mem_append, List.mem_singleton] at hp
        rcases hp with hp | rfl
        · exact (min_le_left _ _).trans (hF.low.bound hx hxs (by rwa [if_pos hxv]) hy hn)
        · obtain rfl : d = n := by simpa using hd.symm.trans (hE.extends_.disc_eq hn)
          exact min_le_right _ _
      · rw [if_neg hxv] at hp
        exact (min_le_left _ _).trans (hF.low.bound hx hxs (by rwa [if_neg hxv]) hy hn)
  · rw [if_neg hon]
    refine ⟨hF.inv, hmet, hF.low.le, hF.low.reaches, fun {x y n} hx hxs hp hy hn => ?_⟩
    by_cases hxv : x = v
    · rw [if_pos hxv, List.mem_append, List.mem_singleton] at hp
      rcases hp with hp | rfl
      · exact hF.low.bound hx hxs (by rwa [if_pos hxv]) hy hn
      · -- a node of the old stack is on the stack
        exact absurd ((hF.inv.onStack_iff y).2 (hE.extends_.stack_suffix.subset hy)) hon
    · rw [if_neg hxv] at hp
      exact hF.low.bound hx hxs (by rwa [if_neg hxv]) hy hn

/-- An edge to a node that was not met, after the search from it. -/
theorem Following.new_edge (hF : Following succ stops grays s v ps t) (hE : Entered s v t)
    {t' : State α} {w : α} (hw : w ∈ succ v) (hnew : t.discIdx w = none) (hext : Extends t t')
    (hdisc : t'.discIdx w = some t.counter) (hI : Inv succ stops (v :: grays) t')
    (hlow : Low succ (fun x y => y ∈ succ x) t t' w) :
    Following succ stops grays s v (ps ++ [w]) (t'.lower v (t'.lowLink w)) := by
  have hsame : t'.lowLink v = t.lowLink v := hext.low_eq hE.disc_self
  have hle := hE.extends_.counter_le
  refine ⟨hI.lower _, fun u hu => ?_, ?_, ?_, ?_⟩
  · show t'.discIdx u ≠ none
    rcases List.mem_append.1 hu with hu | hu
    · obtain ⟨n, hn⟩ := Option.ne_none_iff_exists'.1 (hF.met u hu)
      rw [hext.disc_eq hn]
      simp
    · rw [List.mem_singleton.1 hu, hdisc]
      simp
  · rw [State.lower_lowLink_self, hsame]
    exact (min_le_left _ _).trans hF.low.le
  · rw [State.lower_lowLink_self, hsame]
    intro hlt
    rcases le_total (t.lowLink v) (t'.lowLink w) with hmin | hmin
    · rw [min_eq_left hmin] at hlt ⊢
      exact hF.low.reaches hlt
    · rw [min_eq_right hmin] at hlt ⊢
      obtain ⟨u, hu, hun, hwu⟩ := hlow.reaches (by omega)
      have hold := hE.extends_.old hun hlt
      exact ⟨u, hE.extends_.stack_old hold hu, hold, .head hw hwu⟩
  · rw [State.lower_lowLink_self, hsame]
    intro x y n hx hxs hp hy hn
    have hyt : y ∈ t.stack := hE.extends_.stack_suffix.subset hy
    have hbelow : x ∈ t.stack → (if x = v then y ∈ ps else y ∈ succ x) →
        min (t.lowLink v) (t'.lowLink w) ≤ n :=
      fun hxt hp => (min_le_left _ _).trans (hF.low.bound hxt hxs hp hy hn)
    by_cases hxv : x = v
    · rw [if_pos hxv, List.mem_append, List.mem_singleton] at hp
      rcases hp with hp | rfl
      · refine hbelow ?_ (by rwa [if_pos hxv])
        rw [hxv]
        exact hE.suffix_self.subset List.mem_cons_self
      · rw [hE.extends_.disc_eq hn] at hnew
        cases hnew
    · rw [if_neg hxv] at hp
      by_cases hxt : x ∈ t.stack
      · exact hbelow hxt (by rwa [if_neg hxv])
      · exact (min_le_right _ _).trans (hlow.bound hx hxt hp hyt (hE.extends_.disc_eq hn))

/-! ### Leaving a node -/

theorem popTo_append {v : α} {new rest : List α} (h : v ∉ new) :
    popTo v (new ++ v :: rest) = some (new ++ [v], rest) := by
  induction new with
  | nil => simp [popTo]
  | cons w new ih =>
    rw [List.mem_cons, not_or] at h
    rw [List.cons_append, popTo, if_neg (Ne.symm h.1), ih h.2]
    rfl

omit [DecidableEq α] in
theorem IsComponent.stops_iff {x y : α} {c : Finset α} (hc : IsComponent succ x c) (hy : y ∈ c) :
    Stops succ stops y ↔ stops c = true := by
  obtain ⟨hxy, hyx⟩ := (hc y).1 hy
  have hcy : IsComponent succ y c := fun z => by
    rw [hc z]
    exact ⟨fun h => ⟨hyx.trans h.1, h.2.trans hxy⟩, fun h => ⟨hxy.trans h.1, h.2.trans hyx⟩⟩
  constructor
  · rintro ⟨c', hc', hstops⟩
    obtain rfl : c' = c := Finset.ext fun z => by rw [hc' z, hcy z]
    exact hstops
  · exact fun hstops => ⟨c, hcy, hstops⟩

/-- What is on the stack when every edge of `v` is followed, and no edge leads below it. -/
theorem Following.component (hF : Following succ stops grays s v (succ v) t) (hE : Entered s v t)
    (hs : Inv succ stops grays s) (hroot : t.lowLink v = s.counter) {new : List α}
    (hstack : t.stack = new ++ v :: s.stack) :
    IsComponent succ v (new ++ [v]).toFinset ∧
      ∀ {x y}, x ∈ new ++ [v] → y ∈ succ x → t.discIdx y ≠ none ∧ y ∉ s.stack := by
  have hmem : ∀ {x}, x ∈ t.stack ↔ x ∈ new ++ [v] ∨ x ∈ s.stack := by
    intro x
    rw [hstack, List.append_cons, List.mem_append]
  have hdisj : ∀ {x}, x ∈ new ++ [v] → x ∉ s.stack := by
    intro x hx hxs
    have hnodup := hF.inv.nodup
    rw [hstack, List.append_cons] at hnodup
    exact List.disjoint_of_nodup_append hnodup hx hxs
  have hdisc : ∀ {x}, x ∈ new ++ [v] → ∃ n, t.discIdx x = some n ∧ s.counter ≤ n := by
    intro x hx
    obtain ⟨n, hn⟩ := hF.inv.stack_disc (hmem.2 (.inl hx))
    refine ⟨n, hn, ?_⟩
    cases hxs : s.discIdx x with
    | none => exact hE.extends_.disc_new hxs hn
    | some m => exact absurd (hE.extends_.stack_old hxs (hmem.2 (.inl hx))) (hdisj hx)
  -- no edge leads to the old stack, where the numbers are lower
  have hclosed : ∀ {x y}, x ∈ new ++ [v] → y ∈ succ x → t.discIdx y ≠ none ∧ y ∉ s.stack := by
    intro x y hx hy
    have hyd : t.discIdx y ≠ none := by
      by_cases hxv : x = v
      · exact hF.met y (hxv ▸ hy)
      · obtain ⟨n, hn, -⟩ := hdisc hx
        refine hF.inv.black_closed hn ?_ hy
        rw [List.mem_cons, not_or]
        exact ⟨hxv, fun hg => hdisj hx (hs.gray_mem hg)⟩
    refine ⟨hyd, fun hys => ?_⟩
    obtain ⟨n, hn⟩ := hs.stack_disc hys
    have hp : if x = v then y ∈ succ v else y ∈ succ x := by
      by_cases hxv : x = v
      · rw [if_pos hxv]
        exact hxv ▸ hy
      · rw [if_neg hxv]
        exact hy
    have hle := hF.low.bound (hmem.2 (.inl hx)) (hdisj hx) hp hys hn
    have hlt := hs.disc_lt hn
    omega
  have hself : v ∈ new ++ [v] := by simp
  have hdone : ∀ {x y}, (t.discIdx x ≠ none ∧ x ∉ t.stack) → Reaches succ x y → y ∉ t.stack := by
    intro x y hx hxy
    suffices t.discIdx y ≠ none ∧ y ∉ t.stack from this.2
    induction hxy with
    | refl => exact hx
    | tail _ hedge ih =>
      obtain ⟨n, hn⟩ := Option.ne_none_iff_exists'.1 ih.1
      exact hF.inv.done_closed hn ih.2 hedge
  -- what the new part leads to is in it or done
  have hreach : ∀ {x y}, x ∈ new ++ [v] → Reaches succ x y →
      y ∈ new ++ [v] ∨ (t.discIdx y ≠ none ∧ y ∉ t.stack) := by
    intro x y hx hxy
    induction hxy with
    | refl => exact .inl hx
    | @tail y z _ hedge ih =>
      rcases ih with hy | ⟨hyd, hyn⟩
      · obtain ⟨hzd, hzs⟩ := hclosed hy hedge
        by_cases hz : z ∈ new ++ [v]
        · exact .inl hz
        · refine .inr ⟨hzd, fun hzt => ?_⟩
          exact (hmem.1 hzt).elim hz hzs
      · obtain ⟨n, hn⟩ := Option.ne_none_iff_exists'.1 hyd
        exact .inr (hF.inv.done_closed hn hyn hedge)
  refine ⟨fun y => ?_, hclosed⟩
  rw [List.mem_toFinset]
  constructor
  · intro hy
    obtain ⟨n, hn, hle⟩ := hdisc hy
    refine ⟨hF.inv.forward (hmem.2 (.inl hself)) (hmem.2 (.inl hy)) hE.disc_self hn hle, ?_⟩
    -- a gray node it leads to is not below `v`, so it is `v`
    obtain ⟨g, hg, -, -, -, hyg⟩ := hF.inv.backward (hmem.2 (.inl hy)) hn
    rcases List.mem_cons.1 hg with rfl | hg
    · exact hyg
    · have hgs := hs.gray_mem hg
      rcases hreach hy hyg with hgn | ⟨-, hgn⟩
      · exact absurd hgs (hdisj hgn)
      · exact absurd (hmem.2 (.inr hgs)) hgn
  · rintro ⟨hvy, hyv⟩
    rcases hreach hself hvy with hy | hy
    · exact hy
    · exact absurd (hmem.2 (.inl hself)) (hdone hy hyv)

theorem exists_popTo {v : α} {rest l : List α} (h : v :: rest <:+ l) :
    ∃ r, popTo v l = some r ∧ rest <:+ r.2 ∧ r.2 <:+ l := by
  induction l with
  | nil => simp at h
  | cons w l ih =>
    rw [popTo]
    by_cases hw : w = v
    · rw [if_pos hw]
      refine ⟨_, rfl, ?_, List.suffix_cons _ _⟩
      rcases List.suffix_cons_iff.1 h with heq | hsuff
      · rw [List.cons.injEq] at heq
        rw [heq.2]
      · exact (List.suffix_cons _ _).trans hsuff
    · rw [if_neg hw]
      have hsuff : v :: rest <:+ l := by
        rcases List.suffix_cons_iff.1 h with heq | hsuff
        · rw [List.cons.injEq] at heq
          exact absurd heq.1.symm hw
        · exact hsuff
      obtain ⟨r, hr, hrest, hrl⟩ := ih hsuff
      exact ⟨(w :: r.1, r.2), by rw [hr]; rfl, hrest, hrl.trans (List.suffix_cons _ _)⟩

variable (stops) in
/-- Leaving a node never fails: it is on the stack. -/
theorem Entered.exists_close (hE : Entered s v t) :
    ∃ s', close stops t v = some s' ∧ Extends s s' ∧ s'.discIdx v = some s.counter ∧
      (t.found = true → s'.found = true) := by
  rw [Tarjan.close]
  by_cases hroot : t.discIdx v = some (t.lowLink v)
  · rw [if_pos hroot]
    obtain ⟨r, hr, hrest, hrl⟩ := exists_popTo hE.suffix_self
    rw [hr]
    refine ⟨_, rfl, ?_, hE.disc_self, fun hf => by simp [hf]⟩
    exact ⟨hE.extends_.counter_le, hE.extends_.disc_eq, hE.extends_.disc_new, hE.extends_.low_eq,
      hrest, fun hx hmem => hE.extends_.stack_old hx (hrl.subset hmem)⟩
  · rw [if_neg hroot]
    exact ⟨t, rfl, hE.extends_, hE.disc_self, fun hf => hf⟩

/-- A node is left that is not the root of its component. -/
theorem Following.leave (hF : Following succ stops grays s v (succ v) t) (hE : Entered s v t)
    (hs : Inv succ stops grays s) (hroot : t.lowLink v < s.counter) :
    Inv succ stops grays t ∧ Low succ (fun x y => y ∈ succ x) s t v := by
  constructor
  · refine ⟨hF.inv.disc_lt, hF.inv.disc_inj, hF.inv.stack_disc, hF.inv.nodup, hF.inv.onStack_iff,
      fun hg => hF.inv.gray_mem (List.mem_cons_of_mem _ hg), hF.inv.done_closed,
      fun {x y n} hx hxg hy => ?_, hF.inv.forward, fun {y m} hy hm => ?_, hF.inv.good⟩
    · by_cases hxv : x = v
      · exact hF.met y (hxv ▸ hy)
      · exact hF.inv.black_closed hx (by simp [hxv, hxg]) hy
    · obtain ⟨g, hg, n, hn, hle, hyg⟩ := hF.inv.backward hy hm
      rcases List.mem_cons.1 hg with rfl | hg
      · -- from `v` on to the node its low-link names, and from there to a gray one
        obtain ⟨u, hu, hun, hgu⟩ := hF.low.reaches hroot
        obtain ⟨g', hg', n', hn', hle', hug⟩ := hs.backward hu hun
        have hself : n = s.counter := by simpa using hn.symm.trans hE.disc_self
        exact ⟨g', hg', n', hE.extends_.disc_eq hn', by omega, hyg.trans (hgu.trans hug)⟩
      · exact ⟨g, hg, n, hn, hle, hyg⟩
  · refine ⟨hF.low.le, hF.low.reaches, fun {x y n} hx hxs hp hy hn => ?_⟩
    refine hF.low.bound hx hxs ?_ hy hn
    by_cases hxv : x = v
    · rw [if_pos hxv]
      exact hxv ▸ hp
    · rw [if_neg hxv]
      exact hp

/-- The root of a component is left: the component comes off the stack. -/
theorem Following.pop (hF : Following succ stops grays s v (succ v) t) (hE : Entered s v t)
    (hs : Inv succ stops grays s) (hroot : t.lowLink v = s.counter) {new : List α}
    (hstack : t.stack = new ++ v :: s.stack) (hno : stops (new ++ [v]).toFinset = false)
    {s' : State α} (hs' : s' = { t with
      onStack := fun x => if x ∈ new ++ [v] then false else t.onStack x
      stack := s.stack
      found := s'.found }) :
    Inv succ stops grays s' ∧ Low succ (fun x y => y ∈ succ x) s s' v := by
  obtain ⟨hcomp, hclosed⟩ := hF.component hE hs hroot hstack
  have hmem : ∀ {x}, x ∈ t.stack ↔ x ∈ new ++ [v] ∨ x ∈ s.stack := by
    intro x
    rw [hstack, List.append_cons, List.mem_append]
  have hsub : ∀ {x}, x ∈ s.stack → x ∈ t.stack := fun hx => hmem.2 (.inr hx)
  have hnodup := hF.inv.nodup
  rw [hstack, List.append_cons] at hnodup
  rw [hs']
  refine ⟨⟨hF.inv.disc_lt, hF.inv.disc_inj, fun hx => hF.inv.stack_disc (hsub hx), hs.nodup,
    fun x => ?_, hs.gray_mem, fun {x y n} hx hxs hy => ?_, fun {x y n} hx hxg hy => ?_,
    fun hx hy => hF.inv.forward (hsub hx) (hsub hy), fun {y m} hy hm => ?_,
    fun {x n} hx hxs => ?_⟩, hroot.le, fun hlt => ?_, fun hx hxs => absurd hx hxs⟩
  · show (if x ∈ new ++ [v] then false else t.onStack x) = true ↔ x ∈ s.stack
    by_cases hx : x ∈ new ++ [v]
    · rw [if_pos hx]
      exact iff_of_false (by simp) (List.disjoint_of_nodup_append hnodup hx)
    · rw [if_neg hx, hF.inv.onStack_iff, hmem]
      exact or_iff_right hx
  · by_cases hxt : x ∈ t.stack
    · exact hclosed ((hmem.1 hxt).resolve_right hxs) hy
    · obtain ⟨hyd, hyn⟩ := hF.inv.done_closed hx hxt hy
      exact ⟨hyd, fun hys => hyn (hsub hys)⟩
  · by_cases hxv : x = v
    · exact hF.met y (hxv ▸ hy)
    · exact hF.inv.black_closed hx (by simp [hxv, hxg]) hy
  · obtain ⟨k, hk⟩ := hs.stack_disc hy
    obtain rfl : k = m := by simpa using (hE.extends_.disc_eq hk).symm.trans hm
    obtain ⟨g, hg, n, hn, hle, hyg⟩ := hs.backward hy hk
    exact ⟨g, hg, n, hE.extends_.disc_eq hn, hle, hyg⟩
  · by_cases hxt : x ∈ t.stack
    · rw [hcomp.stops_iff (List.mem_toFinset.2 ((hmem.1 hxt).resolve_right hxs)), hno]
      simp
    · exact hF.inv.good hx hxt
  · exact absurd hlt (by show ¬t.lowLink v < s.counter; omega)

/-! ### The search -/

variable (succ stops) in
/-- What the search from `v`, begun in `s`, ends with. -/
structure Visited (grays : List α) (s : State α) (v : α) (s' : State α) : Prop where
  extends_ : Extends s s'
  disc_self : s'.discIdx v = some s.counter
  inv : s'.found = false → Inv succ stops grays s'
  low : s'.found = false → Low succ (fun x y => y ∈ succ x) s s' v

theorem Following.exists_close (hF : Following succ stops grays s v (succ v) t)
    (hE : Entered s v t) (hs : Inv succ stops grays s) (hfound : t.found = false) :
    ∃ s', close stops t v = some s' ∧ Visited succ stops grays s v s' ∧
      (s'.found = true → Stops succ stops v) := by
  obtain ⟨s', hclose, hext, hself, -⟩ := hE.exists_close stops
  refine ⟨s', hclose, ?_⟩
  rw [Tarjan.close, hE.disc_self] at hclose
  by_cases hroot : t.lowLink v = s.counter
  · rw [if_pos (by rw [hroot])] at hclose
    obtain ⟨new, hnew⟩ := hE.suffix_self
    have hv : v ∉ new := by
      have hnodup := hF.inv.nodup
      rw [← hnew] at hnodup
      exact fun hmem => List.disjoint_of_nodup_append hnodup hmem List.mem_cons_self
    rw [← hnew, popTo_append hv, Option.map_some, Option.some.injEq] at hclose
    have hans : s'.found = stops (new ++ [v]).toFinset := by rw [← hclose, hfound, Bool.false_or]
    have hpop : s'.found = false → Inv succ stops grays s' ∧
        Low succ (fun x y => y ∈ succ x) s s' v := by
      intro hno
      refine hF.pop hE hs hroot hnew.symm (hans ▸ hno) ?_
      rw [← hclose]
    refine ⟨⟨hext, hself, fun hno => (hpop hno).1, fun hno => (hpop hno).2⟩, fun hyes => ?_⟩
    exact ⟨_, (hF.component hE hs hroot hnew.symm).1, hans ▸ hyes⟩
  · rw [if_neg (by rw [Option.some.injEq]; exact Ne.symm hroot), Option.some.injEq] at hclose
    subst hclose
    have hlt : t.lowLink v < s.counter := lt_of_le_of_ne hF.low.le hroot
    obtain ⟨hI, hlow⟩ := hF.leave hE hs hlt
    exact ⟨⟨hext, hself, fun _ => hI, fun _ => hlow⟩, fun hyes => by simp [hfound] at hyes⟩

/-- The nodes not met yet. -/
def unmet (U : Finset α) (s : State α) : Finset α := U.filter fun x => s.discIdx x = none

omit [DecidableEq α] in
theorem Extends.unmet_subset {U : Finset α} (h : Extends s t) : unmet U t ⊆ unmet U s := by
  intro x hx
  rw [unmet, Finset.mem_filter] at hx ⊢
  refine ⟨hx.1, ?_⟩
  cases hs : s.discIdx x with
  | none => rfl
  | some n =>
    rw [h.disc_eq hs] at hx
    cases hx.2

omit [DecidableEq α] in
/-- With a node entered, fewer are left. -/
theorem Entered.card_unmet_lt {U : Finset α} (hE : Entered s v t) (hv : s.discIdx v = none)
    (hU : v ∈ U) : (unmet U t).card < (unmet U s).card := by
  refine Finset.card_lt_card ((Finset.ssubset_iff_of_subset hE.extends_.unmet_subset).2 ⟨v, ?_, ?_⟩)
  · rw [unmet, Finset.mem_filter]
    exact ⟨hU, hv⟩
  · rw [unmet, Finset.mem_filter, hE.disc_self]
    simp

theorem foldlM_follow_found {visit : α → State α → Option (State α)} (hfound : t.found = true)
    (ws : List α) : ws.foldlM (follow visit v) t = some t := by
  induction ws with
  | nil => rfl
  | cons w ws ih =>
    rw [List.foldlM_cons, follow, if_pos hfound]
    exact ih

/-- With fuel for every node that is not met, the search from one of them ends. When it is not
over it keeps the invariant, and when it is, the answer was yes for some component. -/
theorem exists_visit {U : Finset α} (hU : ∀ a ∈ U, ∀ b ∈ succ a, b ∈ U) {fuel : ℕ} :
    ∀ {grays : List α} {s : State α} {v : α}, v ∈ U → s.discIdx v = none → s.found = false →
      (unmet U s).card ≤ fuel → Inv succ stops grays s → (∀ g ∈ grays, Reaches succ g v) →
        ∃ s', visit succ stops fuel v s = some s' ∧
          Visited succ stops grays s v s' ∧
          (s'.found = true → ∃ x ∈ U, Stops succ stops x) := by
  induction fuel with
  | zero =>
    intro grays s v hvU hv hfound hcard
    have hmem : v ∈ unmet U s := by
      rw [unmet, Finset.mem_filter]
      exact ⟨hvU, hv⟩
    rw [Nat.le_zero, Finset.card_eq_zero] at hcard
    rw [hcard] at hmem
    cases hmem
  | succ fuel ih =>
    intro grays s v hvU hv hfound hcard hs hreach
    -- the edges, one after the other
    have hedges : ∀ (ws ps : List α) (t : State α), ps ++ ws = succ v → Entered s v t →
        t.found = false → Following succ stops grays s v ps t →
          ∃ t', ws.foldlM (follow (visit succ stops fuel) v) t = some t' ∧ Entered s v t' ∧
            (t'.found = true → ∃ x ∈ U, Stops succ stops x) ∧
            (t'.found = false → Following succ stops grays s v (succ v) t') := by
      intro ws
      induction ws with
      | nil =>
        intro ps t hps hE hfound hF
        rw [List.append_nil] at hps
        exact ⟨t, rfl, hE, fun hyes => by simp [hfound] at hyes, fun _ => hps ▸ hF⟩
      | cons w ws ihws =>
        intro ps t hps hE hfound hF
        have hw : w ∈ succ v := by
          rw [← hps]
          exact List.mem_append_right _ List.mem_cons_self
        have hps' : (ps ++ [w]) ++ ws = succ v := by rw [← hps, List.append_assoc]; rfl
        rw [List.foldlM_cons, follow, if_neg (by simp [hfound])]
        cases hd : t.discIdx w with
        | some d =>
          have hE' : Entered s v (if t.onStack w then t.lower v d else t) := by
            split_ifs
            · exact hE.lower hv d
            · exact hE
          have hfound' : (if t.onStack w then t.lower v d else t).found = false := by
            split_ifs <;> exact hfound
          exact ihws _ _ hps' hE' hfound' (hF.met_edge hE hw hd)
        | none =>
          have hlt := hE.card_unmet_lt hv hvU
          have hgrays : ∀ g ∈ v :: grays, Reaches succ g w := by
            intro g hg
            rcases List.mem_cons.1 hg with rfl | hg
            · exact .single hw
            · exact (hreach g hg).tail hw
          obtain ⟨t', hvisit, hV, hstops⟩ :=
            ih (hU v hvU w hw) hd hfound (by omega) hF.inv hgrays
          simp only [hvisit, Option.map_some, Option.bind_eq_bind, Option.bind_some]
          have hE' := (hE.trans hV.extends_).lower hv (t'.lowLink w)
          by_cases hfound' : t'.found = true
          · have hover : (t'.lower v (t'.lowLink w)).found = true := hfound'
            exact ⟨_, foldlM_follow_found hover ws, hE', fun _ => hstops hfound',
              fun hno => absurd (hfound'.symm.trans hno) (by simp)⟩
          · rw [Bool.not_eq_true] at hfound'
            exact ihws _ _ hps' hE' hfound' (hF.new_edge hE hw hd hV.extends_ hV.disc_self
              (hV.inv hfound') (hV.low hfound'))
    obtain ⟨t, hfold, hE, hstops, hF⟩ := hedges (succ v) [] (s.enter v) rfl (enter_entered hv)
      hfound (enter_following hs hv hreach)
    rw [visit, if_neg (by simp [hfound]), hfold, Option.bind_some]
    by_cases hfound' : t.found = true
    · obtain ⟨s', hclose, hext, hself, hkeep⟩ := hE.exists_close stops
      have hyes := hkeep hfound'
      exact ⟨s', hclose, ⟨hext, hself, fun hno => by simp [hyes] at hno,
        fun hno => by simp [hyes] at hno⟩, fun _ => hstops hfound'⟩
    · rw [Bool.not_eq_true] at hfound'
      obtain ⟨s', hclose, hV, hyes⟩ := (hF hfound').exists_close hE hs hfound'
      exact ⟨s', hclose, hV, fun h => ⟨v, hvU, hyes h⟩⟩

/-! ### All roots -/

omit [DecidableEq α] in
theorem init_inv : Inv succ stops [] (State.init : State α) := by
  refine ⟨?_, ?_, ?_, List.nodup_nil, ?_, ?_, ?_, ?_, ?_, ?_, ?_⟩ <;> simp [State.init]

theorem exists_search {U : Finset α} (hU : ∀ a ∈ U, ∀ b ∈ succ a, b ∈ U) {fuel : ℕ}
    (hfuel : U.card ≤ fuel) :
    ∀ (vs : List α) (s : State α), (∀ v ∈ vs, v ∈ U) → s.found = false → Inv succ stops [] s →
      ∃ b, search succ stops fuel vs s = some b ∧ (b = true → ∃ x ∈ U, Stops succ stops x) ∧
        (b = false → ∀ x, x ∈ vs ∨ s.discIdx x ≠ none → ¬Stops succ stops x) := by
  have hempty : ∀ {s : State α}, Inv succ stops [] s → s.stack = [] := by
    intro s hs
    rw [List.eq_nil_iff_forall_not_mem]
    intro y hy
    obtain ⟨m, hm⟩ := hs.stack_disc hy
    obtain ⟨g, hg, -⟩ := hs.backward hy hm
    cases hg
  intro vs
  induction vs with
  | nil =>
    intro s _ _ hs
    refine ⟨false, rfl, by simp, fun _ x hx => ?_⟩
    obtain ⟨n, hn⟩ := Option.ne_none_iff_exists'.1 (hx.resolve_left (by simp))
    exact hs.good hn (by simp [hempty hs])
  | cons v vs ih =>
    intro s hvs hfound hs
    rw [search]
    cases hd : s.discIdx v with
    | some n =>
      rw [if_neg (by simp), Option.bind_some, if_neg (by simp [hfound])]
      obtain ⟨b, hb, hyes, hno⟩ := ih s (fun u hu => hvs u (List.mem_cons_of_mem _ hu)) hfound hs
      refine ⟨b, hb, hyes, fun hb' x hx => hno hb' x ?_⟩
      rcases hx with hx | hx
      · rcases List.mem_cons.1 hx with rfl | hx
        · exact .inr (by simp [hd])
        · exact .inl hx
      · exact .inr hx
    | none =>
      have hcard : (unmet U s).card ≤ fuel :=
        (Finset.card_le_card (Finset.filter_subset _ _)).trans hfuel
      obtain ⟨s', hvisit, hV, hstops⟩ :=
        exists_visit hU (hvs v List.mem_cons_self) hd hfound hcard hs (by simp)
      rw [if_pos rfl, hvisit, Option.bind_some]
      by_cases hfound' : s'.found = true
      · rw [if_pos hfound']
        exact ⟨true, rfl, fun _ => hstops hfound', by simp⟩
      · rw [if_neg hfound']
        rw [Bool.not_eq_true] at hfound'
        obtain ⟨b, hb, hyes, hno⟩ := ih s' (fun u hu => hvs u (List.mem_cons_of_mem _ hu)) hfound'
          (hV.inv hfound')
        refine ⟨b, hb, hyes, fun hb' x hx => hno hb' x ?_⟩
        rcases hx with hx | hx
        · rcases List.mem_cons.1 hx with rfl | hx
          · exact .inr (by simp [hV.disc_self])
          · exact .inl hx
        · obtain ⟨n, hn⟩ := Option.ne_none_iff_exists'.1 hx
          exact .inr (by simp [hV.extends_.disc_eq hn])

variable (stops) in
/-- The search over a finite set of roots that the edges do not leave ends with yes exactly when
the answer is yes for the component of one of them. -/
theorem search_iff {roots : List α} (hclosed : ∀ a ∈ roots, ∀ b ∈ succ a, b ∈ roots) {fuel : ℕ}
    (hfuel : roots.toFinset.card ≤ fuel) :
    ∃ b, search succ stops fuel roots State.init = some b ∧
      (b = true ↔ ∃ x ∈ roots, Stops succ stops x) := by
  have hU : ∀ a ∈ roots.toFinset, ∀ b ∈ succ a, b ∈ roots.toFinset := by
    simpa using hclosed
  obtain ⟨b, hb, hyes, hno⟩ := exists_search hU hfuel roots State.init (by simp)
    rfl init_inv
  refine ⟨b, hb, fun h => ?_, fun ⟨x, hx, hstops⟩ => ?_⟩
  · simpa using hyes h
  · by_contra hb'
    exact hno (by simpa using hb') x (.inl hx) hstops

end Tarjan
