import TurfLang.Lib.Behaviour
import TurfLang.Lib.Dataflow

/-!
# Walks through a graph of blocks, and the programs they follow

A block shows some items, one after another, and then goes to another block. A walk starts at a
place in a block and passes what stands between. A graph follows a program if every run of it is a
walk: to the place behind the program, or at a jump, past what is done there, to the block that the
jump goes to. A run that is cut off is a walk as far as it goes.
-/

/-- A graph of blocks: what each of them shows, and where it goes. -/
structure FlowGraph (ι : Type) where
  items : ℕ → List ι
  succs : ℕ → List ℕ

namespace FlowGraph

variable {ι : Type} {G H : FlowGraph ι}

/-! ### Walks -/

/-- Walks from one place to another, with the items they pass. -/
inductive Walk (G : FlowGraph ι) : ℕ × ℕ → List ι → ℕ × ℕ → Prop
  | refl (p : ℕ × ℕ) : Walk G p [] p
  | item {i k : ℕ} {x : ι} {l : List ι} {q : ℕ × ℕ} : (G.items i)[k]? = some x →
      Walk G (i, k + 1) l q → Walk G (i, k) (x :: l) q
  | edge {i j : ℕ} {l : List ι} {q : ℕ × ℕ} : j ∈ G.succs i → Walk G (j, 0) l q →
      Walk G (i, (G.items i).length) l q

/-- The place behind all items of a block. -/
def atEnd (G : FlowGraph ι) (i : ℕ) : ℕ × ℕ := (i, (G.items i).length)

theorem Walk.trans {p q r : ℕ × ℕ} {l₁ l₂ : List ι} (h₁ : G.Walk p l₁ q) (h₂ : G.Walk q l₂ r) :
    G.Walk p (l₁ ++ l₂) r := by
  induction h₁ with
  | refl => exact h₂
  | item hx _ ih => exact .item hx (ih h₂)
  | edge hj _ ih => exact .edge hj (ih h₂)

/-- Along an edge. -/
theorem walk_edge {i j : ℕ} (h : j ∈ G.succs i) : G.Walk (G.atEnd i) [] (j, 0) :=
  .edge h (.refl _)

/-- Along the items of a block. -/
theorem walk_items {i : ℕ} {l₁ l₂ l₃ : List ι} (h : G.items i = l₁ ++ l₂ ++ l₃) :
    G.Walk (i, l₁.length) l₂ (i, (l₁ ++ l₂).length) := by
  induction l₂ generalizing l₁ with
  | nil =>
    rw [List.append_nil]
    exact .refl _
  | cons x l₂ ih =>
    have hx : (G.items i)[l₁.length]? = some x := by simp [h]
    have hrest := @ih (l₁ ++ [x]) (by simpa using h)
    simp only [List.append_assoc, List.length_append, List.length_singleton,
      List.singleton_append] at hrest
    refine .item hx ?_
    simpa using hrest

/-- A walk is cut in two. -/
theorem Walk.split {p q : ℕ × ℕ} {l₁ l₂ : List ι} (h : G.Walk p (l₁ ++ l₂) q) :
    ∃ r, G.Walk p l₁ r ∧ G.Walk r l₂ q := by
  generalize hl : l₁ ++ l₂ = l at h
  induction h generalizing l₁ with
  | refl =>
    obtain ⟨rfl, rfl⟩ := List.append_eq_nil_iff.mp hl
    exact ⟨_, .refl _, .refl _⟩
  | item hx hrest ih =>
    cases l₁ with
    | nil =>
      obtain rfl : l₂ = _ := hl
      exact ⟨_, .refl _, .item hx hrest⟩
    | cons y l₁ =>
      rw [List.cons_append, List.cons.injEq] at hl
      obtain ⟨rfl, hl⟩ := hl
      obtain ⟨r, hr, hr'⟩ := ih hl
      exact ⟨r, .item hx hr, hr'⟩
  | edge hj _ ih =>
    obtain ⟨r, hr, hr'⟩ := ih hl
    exact ⟨r, .edge hj hr, hr'⟩

/-- A walk from the start of the graph, block after block. -/
theorem Walk.exists_path {entry : ℕ} {p q : ℕ × ℕ} {l : List ι} (h : G.Walk p l q) {bs : List ℕ}
    (hbs : Dataflow.Walk G.succs entry bs p.1) :
    ∃ bs', Dataflow.Walk G.succs entry bs' q.1 ∧
      bs'.flatMap G.items ++ (G.items q.1).take q.2 =
        bs.flatMap G.items ++ (G.items p.1).take p.2 ++ l := by
  induction h generalizing bs with
  | refl => exact ⟨bs, hbs, by simp⟩
  | item hx _ ih =>
    obtain ⟨bs', hbs', hl⟩ := ih hbs
    refine ⟨bs', hbs', hl.trans ?_⟩
    simp [List.take_add_one, hx]
  | edge hj _ ih =>
    obtain ⟨bs', hbs', hl⟩ := ih (hbs.step hj)
    refine ⟨bs', hbs', hl.trans ?_⟩
    simp

/-- Each block of a path is reached by a path. -/
theorem path_of_append {succs : ℕ → List ℕ} {entry i p : ℕ} {bs bs₁ bs₂ : List ℕ}
    (h : Dataflow.Walk succs entry bs i) (hbs : bs ++ [i] = bs₁ ++ p :: bs₂) :
    Dataflow.Walk succs entry bs₁ p := by
  induction h generalizing bs₂ with
  | entry =>
    obtain ⟨rfl, h⟩ | ⟨rfl, h⟩ := List.append_eq_singleton_iff.mp hbs.symm
    · obtain ⟨rfl, -⟩ := List.cons.inj h
      exact .entry
    · cases h
  | @step bs b c hwalk hc ih =>
    rcases List.eq_nil_or_concat bs₂ with rfl | ⟨bs₂, d, rfl⟩
    · obtain ⟨rfl, h⟩ := List.append_inj' hbs rfl
      obtain ⟨rfl, -⟩ := List.cons.inj h
      exact hwalk.step hc
    · have hinit : bs ++ [b] ++ [c] = bs₁ ++ p :: bs₂ ++ [d] := by simpa using hbs
      exact ih (List.append_inj_left' hinit rfl)

/-- Where an entry stands in what the blocks of a path have. -/
theorem exists_of_flatMap_eq {α : Type*} {f : ℕ → List α} {a : α} {l₁ l₂ : List α} {bs : List ℕ}
    (h : bs.flatMap f = l₁ ++ a :: l₂) :
    ∃ bs₁ p bs₂ u v, bs = bs₁ ++ p :: bs₂ ∧ f p = u ++ a :: v ∧ l₁ = bs₁.flatMap f ++ u := by
  induction bs generalizing l₁ with
  | nil => simp at h
  | cons p bs ih =>
    rw [List.flatMap_cons] at h
    have hrest : ∀ l, bs.flatMap f = l ++ a :: l₂ → l₁ = f p ++ l →
        ∃ bs₁ q bs₂ u v, p :: bs = bs₁ ++ q :: bs₂ ∧ f q = u ++ a :: v ∧
          l₁ = bs₁.flatMap f ++ u := by
      rintro l hl rfl
      obtain ⟨bs₁, q, bs₂, u, v, rfl, hq, rfl⟩ := ih hl
      exact ⟨p :: bs₁, q, bs₂, u, v, rfl, hq, by simp⟩
    obtain ⟨l, hl₁, hl⟩ | ⟨l, hp, hl⟩ := List.append_eq_append_iff.mp h
    · exact hrest l hl hl₁
    · cases l with
      | nil => exact hrest [] hl.symm (by simpa using hp.symm)
      | cons x l =>
        obtain ⟨rfl, -⟩ := List.cons.inj hl
        exact ⟨[], p, bs, l₁, l, rfl, hp, rfl⟩

/-! ### Graphs that have grown -/

/-- More blocks and edges; items are added only to blocks that went nowhere. -/
structure Le (G H : FlowGraph ι) : Prop where
  items_prefix : ∀ i, G.items i <+: H.items i
  succs_subset : ∀ i, G.succs i ⊆ H.succs i
  items_eq : ∀ i, G.succs i ≠ [] → H.items i = G.items i

theorem Le.refl (G : FlowGraph ι) : Le G G :=
  ⟨fun _ => List.prefix_rfl, fun _ => List.Subset.refl _, fun _ _ => rfl⟩

theorem Le.trans {K : FlowGraph ι} (h₁ : Le G H) (h₂ : Le H K) : Le G K where
  items_prefix i := (h₁.items_prefix i).trans (h₂.items_prefix i)
  succs_subset i _ hj := h₂.succs_subset i (h₁.succs_subset i hj)
  items_eq i hi := by
    refine (h₂.items_eq i fun hnil => hi ?_).trans (h₁.items_eq i hi)
    exact List.subset_nil.mp (hnil ▸ h₁.succs_subset i)

theorem Walk.mono (hle : Le G H) {p q : ℕ × ℕ} {l : List ι} (h : G.Walk p l q) : H.Walk p l q := by
  induction h with
  | refl => exact .refl _
  | @item i k _ _ _ hx _ ih =>
    obtain ⟨rest, hrest⟩ := hle.items_prefix i
    refine .item ?_ ih
    rw [← hrest, List.getElem?_append_left (List.getElem?_eq_some_iff.mp hx).1, hx]
  | @edge i _ _ _ hj _ ih =>
    rw [← hle.items_eq i (List.ne_nil_of_mem hj)]
    exact .edge (hle.succs_subset i hj) ih

/-! ### Programs that a graph follows -/

open Behaviour

variable {ε : Type}

/-- What of the events of a program the graph shows, and which events may come late: only such
may follow where a run is cut off. -/
structure View (ε ι : Type) where
  seen : ε → Option ι
  late : ε → Prop

/-- What is seen of a run. -/
def View.trace (V : View ε ι) (t : List ε) : List ι := t.filterMap V.seen

@[simp] theorem View.trace_nil (V : View ε ι) : V.trace [] = [] := rfl

@[simp] theorem View.trace_append (V : View ε ι) (t₁ t₂ : List ε) :
    V.trace (t₁ ++ t₂) = V.trace t₁ ++ V.trace t₂ := List.filterMap_append

section

variable (V : View ε ι) (G : FlowGraph ι) (p : ℕ × ℕ)

/-- The graph goes along as far as there is anything that may not come late. -/
def Cut (t : List ε) : Prop :=
  ∃ t₁ t₂ q, t = t₁ ++ t₂ ∧ (∀ e ∈ t₂, V.late e) ∧ G.Walk p (V.trace t₁) q

/-- A run from `p` that ends in a certain way. `fin` is the place behind the program, if it can come
to its end, and `exits` says what is passed at a jump and where it goes. -/
def Ends (exits : Outcome → Option (List ι × ℕ)) (fin : Option (ℕ × ℕ)) (t : List ε) :
    Outcome → Prop
  | .normal => ∃ q ∈ fin, G.Walk p (V.trace t) q
  | .halts | .fails => Cut V G p t
  | o => ∃ l j, exits o = some (l, j) ∧ G.Walk p (V.trace t ++ l) (j, 0)

/-- Every run of the program is a walk. -/
def Follows (exits : Outcome → Option (List ι × ℕ)) (fin : Option (ℕ × ℕ)) (a : Behaviour ε) :
    Prop :=
  ∀ t o, a t o → Ends V G p exits fin t o

end

section

variable {V : View ε ι} {p q : ℕ × ℕ} {exits : Outcome → Option (List ι × ℕ)}
  {fin : Option (ℕ × ℕ)} {a b : Behaviour ε} {t : List ε} {o : Outcome}

/-- The way to the start of a run. -/
theorem Ends.before {t' : List ε} (h : G.Walk p (V.trace t') q) (ht : Ends V G q exits fin t o) :
    Ends V G p exits fin (t' ++ t) o := by
  have hcut : Cut V G q t → Cut V G p (t' ++ t) := by
    rintro ⟨t₁, t₂, r, rfl, hlate, hwalk⟩
    exact ⟨t' ++ t₁, t₂, r, by simp, hlate, by simpa using h.trans hwalk⟩
  have hjump : ∀ {o}, (∃ l j, exits o = some (l, j) ∧ G.Walk q (V.trace t ++ l) (j, 0)) →
      ∃ l j, exits o = some (l, j) ∧ G.Walk p (V.trace (t' ++ t) ++ l) (j, 0) := by
    rintro _ ⟨l, j, hexit, hwalk⟩
    exact ⟨l, j, hexit, by simpa using h.trans hwalk⟩
  cases o with
  | normal =>
    obtain ⟨r, hr, hwalk⟩ := ht
    exact ⟨r, hr, by simpa using h.trans hwalk⟩
  | halts | fails => exact hcut ht
  | breaks | continues | returns => exact hjump ht

/-- However a run ends, its beginning is a walk. -/
theorem Ends.cut (h : Ends V G p exits fin t o) : Cut V G p t := by
  cases o with
  | normal =>
    obtain ⟨q, -, hwalk⟩ := h
    exact ⟨t, [], q, by simp, by simp, hwalk⟩
  | halts | fails => exact h
  | breaks | continues | returns =>
    obtain ⟨l, j, -, hwalk⟩ := h
    obtain ⟨q, hq, -⟩ := hwalk.split
    exact ⟨t, [], q, by simp, by simp, hq⟩

theorem Cut.append {t' : List ε} (h : Cut V G p t) (ht' : ∀ e ∈ t', V.late e) :
    Cut V G p (t ++ t') := by
  obtain ⟨t₁, t₂, q, rfl, hlate, hwalk⟩ := h
  exact ⟨t₁, t₂ ++ t', q, by simp, List.forall_mem_append.mpr ⟨hlate, ht'⟩, hwalk⟩

/-- A program that does not come to its end has no place behind it. -/
theorem Ends.of_not_normal (h : Ends V G p exits fin t o) (ho : o ≠ .normal)
    (fin' : Option (ℕ × ℕ)) : Ends V G p exits fin' t o := by
  cases o with
  | normal => exact absurd rfl ho
  | _ => exact h

/-- From where the program ends on. -/
theorem Follows.andThen {r : ℕ × ℕ} (h : Follows V G p exits fin a)
    (hq : ∀ q ∈ fin, G.Walk q [] r) : Follows V G p exits (some r) a := by
  intro t o ht
  by_cases ho : o = .normal
  · subst ho
    obtain ⟨q, hmem, hwalk⟩ := h t _ ht
    exact ⟨r, rfl, by simpa using hwalk.trans (hq q hmem)⟩
  · exact (h t o ht).of_not_normal ho _

theorem Follows.before (hwalk : G.Walk p [] q) (h : Follows V G q exits fin a) :
    Follows V G p exits fin a := fun t o ht => by
  exact (h t o ht).before (show G.Walk p (V.trace []) q from hwalk)

/-- A program that never comes to its end. -/
theorem Follows.of_none (h : Follows V G p exits none a) (fin : Option (ℕ × ℕ)) :
    Follows V G p exits fin a := by
  intro t o ht
  by_cases ho : o = .normal
  · subst ho
    obtain ⟨q, hmem, -⟩ := h t _ ht
    cases hmem
  · exact (h t o ht).of_not_normal ho _

/-- Where no run comes to its end the place behind does not matter. -/
theorem Follows.none_of (h : Follows V G p exits fin a) (hnot : ∀ t, ¬ a t .normal) :
    Follows V G p exits none a := by
  intro t o ht
  refine (h t o ht).of_not_normal ?_ _
  rintro rfl
  exact hnot t ht

theorem follows_skip : Follows V G p exits (some p) skip := by
  rintro t o ⟨rfl, rfl⟩
  exact ⟨p, rfl, .refl _⟩

theorem follows_seq (ha : Follows V G p exits (some q) a) (hb : Follows V G q exits fin b) :
    Follows V G p exits fin (seq a b) := by
  rintro t o (⟨ht, ho⟩ | ⟨t₁, t₂, h₁, h₂, rfl⟩)
  · exact (ha t o ht).of_not_normal ho _
  · obtain ⟨_, ⟨⟩, hwalk⟩ := ha t₁ _ h₁
    exact (hb t₂ o h₂).before hwalk

/-- What comes after a program that never comes to its end. -/
theorem follows_seq_of_none (ha : Follows V G p exits none a) :
    Follows V G p exits fin (seq a b) := by
  rintro t o (⟨ht, ho⟩ | ⟨t₁, t₂, h₁, -, -⟩)
  · exact (ha t o ht).of_not_normal ho _
  · obtain ⟨_, hmem, -⟩ := ha t₁ _ h₁
    cases hmem

theorem follows_choice (ha : Follows V G p exits fin a) (hb : Follows V G p exits fin b) :
    Follows V G p exits fin (choice a b) := by
  rintro t o (h | h)
  · exact ha t o h
  · exact hb t o h

theorem follows_given {c : Prop} (h : c → Follows V G p exits fin a) :
    Follows V G p exits fin (given c a) := fun t o ht => h ht.1 t o ht.2

/-- An event that is seen. -/
theorem follows_event {e : ε} {x : ι} (he : V.seen e = some x) (hwalk : G.Walk p [x] q) :
    Follows V G p exits (some q) (event e) := by
  rintro t o ⟨rfl, rfl⟩
  exact ⟨q, rfl, by simpa [View.trace, he] using hwalk⟩

/-- A program of which nothing is seen and that does not jump. -/
theorem follows_unseen (hseen : Shows (fun e => V.seen e = none ∧ V.late e) a)
    (hends : Within (fun o => o = .normal ∨ o = .halts ∨ o = .fails) a) :
    Follows V G p exits (some p) a := by
  intro t o ht
  have hnil : V.trace t = [] := List.filterMap_eq_nil_iff.mpr fun e he => (hseen t o ht e he).1
  have hcut : Cut V G p t := ⟨[], t, p, rfl, fun e he => (hseen t o ht e he).2, .refl _⟩
  obtain rfl | rfl | rfl := hends t o ht
  · exact ⟨p, rfl, hnil ▸ .refl _⟩
  · exact hcut
  · exact hcut

theorem follows_jump {l : List ι} {j : ℕ} (ho : o = .breaks ∨ o = .continues ∨ o = .returns)
    (hexit : exits o = some (l, j)) (hwalk : G.Walk p l (j, 0)) :
    Follows V G p exits fin (jump o) := by
  rintro t _ ⟨rfl, rfl⟩
  obtain rfl | rfl | rfl := ho
  all_goals exact ⟨l, j, hexit, hwalk⟩

/-! ### Loops -/

/-- The jumps of the body of a loop: `breaks` to `x` and `continues` to `k`. -/
def inLoop (exits : Outcome → Option (List ι × ℕ)) (x k : ℕ) : Outcome → Option (List ι × ℕ)
  | .breaks => some ([], x)
  | .continues => some ([], k)
  | o => exits o

theorem follows_loop {P : Parts ε} {h : ℕ × ℕ} {x : ℕ} (r₁ r₂ : ℕ × ℕ) (k : ℕ)
    (htest : Follows V G h exits (some r₁) P.test)
    (hbody : P.canEnter → Follows V G r₁ (inLoop exits x k) (some (k, 0)) P.body)
    (hstep : Follows V G (k, 0) exits (some r₂) P.step)
    (hleave : P.canLeave → G.Walk r₁ [] (x, 0)) (hstop : P.canStop → G.Walk r₂ [] (x, 0))
    (hrepeat : P.canRepeat → G.Walk r₂ [] h) : Follows V G h exits (some (x, 0)) (Loop P) := by
  have hto : ∀ {t o}, P.canEnter → P.body t o → o = .normal ∨ o = .continues →
      G.Walk r₁ (V.trace t) (k, 0) := by
    rintro t _ hc ht (rfl | rfl)
    · obtain ⟨_, ⟨⟩, hwalk⟩ := hbody hc t _ ht
      exact hwalk
    · obtain ⟨l, j, hexit, hwalk⟩ := hbody hc t _ ht
      rw [inLoop, Option.some.injEq, Prod.mk.injEq] at hexit
      obtain ⟨rfl, rfl⟩ := hexit
      simpa using hwalk
  have hat : ∀ {t}, P.test t .normal → G.Walk h (V.trace t) r₁ := fun ht => by
    obtain ⟨_, ⟨⟩, hwalk⟩ := htest _ _ ht
    exact hwalk
  have hround : ∀ {t₁ t₂ o}, P.canEnter → P.test t₁ .normal → P.body t₂ o →
      o = .normal ∨ o = .continues → G.Walk h (V.trace (t₁ ++ t₂)) (k, 0) :=
    fun hc h₁ h₂ ho => by simpa using (hat h₁).trans (hto hc h₂ ho)
  have hstepped : ∀ {t}, P.step t .normal → G.Walk (k, 0) (V.trace t) r₂ := fun ht => by
    obtain ⟨_, ⟨⟩, hwalk⟩ := hstep _ _ ht
    exact hwalk
  intro t o hloop
  induction hloop with
  | leave hc ht => exact ⟨_, rfl, by simpa using (hat ht).trans (hleave hc)⟩
  | testEnds ht ho => exact (htest _ _ ht).of_not_normal ho _
  | breaks hc h₁ h₂ =>
    obtain ⟨l, j, hexit, hwalk⟩ := hbody hc _ _ h₂
    rw [inLoop, Option.some.injEq, Prod.mk.injEq] at hexit
    obtain ⟨rfl, rfl⟩ := hexit
    exact ⟨_, rfl, by simpa using (hat h₁).trans hwalk⟩
  | @bodyEnds _ _ o hc h₁ h₂ hne hbr hco =>
    have hend := (hbody hc _ _ h₂).before (hat h₁)
    cases o with
    | normal | breaks | continues => contradiction
    | _ => exact hend
  | stepEnds hc h₁ h₂ ho h₃ hne =>
    exact ((hstep _ _ h₃).of_not_normal hne _).before (hround hc h₁ h₂ ho)
  | stop hc h₁ h₂ ho h₃ hs =>
    refine ⟨_, rfl, ?_⟩
    simpa using ((hround hc h₁ h₂ ho).trans (hstepped h₃)).trans (hstop hs)
  | next hc h₁ h₂ ho h₃ hr _ ih =>
    have hwalk := ((hround hc h₁ h₂ ho).trans (hstepped h₃)).trans (hrepeat hr)
    exact ih.before (by simpa using hwalk)

/-! ### Cleanup -/

/-- Cleanup of which the items `l` are seen if it comes to its end, and none otherwise. -/
structure CleansUp (V : View ε ι) (d : Behaviour ε) (l : List ι) : Prop where
  ends : Within (fun o => o = .normal ∨ o = .halts) d
  trace : ∀ t, d t .normal → V.trace t = l
  late : Shows V.late d

/-- Jumps that pass more first. -/
def passing (l : List ι) (exits : Outcome → Option (List ι × ℕ)) (o : Outcome) :
    Option (List ι × ℕ) :=
  (exits o).map fun r => (l ++ r.1, r.2)

/-- A graph in which the jumps pass the cleanup follows the program that is cleaned up at its
jumps. -/
theorem follows_jumps {l : List ι} {d : Behaviour ε} (hd : CleansUp V d l)
    (h : Follows V G p (passing l exits) fin a) :
    Follows V G p exits fin (onExit (jumps (always d)) a) := by
  rintro _ _ ⟨t₁, o₁, t₂, o₂, ha, hexit, rfl, rfl⟩
  have hend := h t₁ o₁ ha
  have hlate : o₁ ≠ .normal → o₁ ≠ .halts → ∀ e ∈ t₂, V.late e := fun h₁ h₂ => by
    cases o₁ with
    | normal | halts => contradiction
    | _ => exact hd.late _ _ hexit
  have hjump : ∀ {o}, (∃ l' j, passing l exits o = some (l', j) ∧
      G.Walk p (V.trace t₁ ++ l') (j, 0)) → V.trace t₂ = l → ∃ l' j, exits o = some (l', j) ∧
      G.Walk p (V.trace (t₁ ++ t₂) ++ l') (j, 0) := by
    rintro o ⟨l', j, hpass, hwalk⟩ rfl
    rw [passing, Option.map_eq_some_iff] at hpass
    obtain ⟨⟨l'', _⟩, hexits, heq⟩ := hpass
    rw [Prod.mk.injEq] at heq
    obtain ⟨rfl, rfl⟩ := heq
    exact ⟨l'', _, hexits, by simpa using hwalk⟩
  cases o₁ with
  | normal | halts =>
    obtain ⟨rfl, rfl⟩ := hexit
    rw [List.append_nil]
    exact hend
  | fails =>
    have hcut : Cut V G p (t₁ ++ t₂) := Cut.append hend (hlate (by decide) (by decide))
    obtain rfl | rfl := hd.ends _ _ hexit <;> exact hcut
  | breaks | continues | returns =>
    obtain rfl | rfl := hd.ends _ _ hexit
    · exact hjump hend (hd.trace _ hexit)
    · exact Cut.append hend.cut (hlate (by decide) (by decide))

/-- Cleanup at the end of a program. -/
theorem follows_cleansUp {l : List ι} {d : Behaviour ε} (hd : CleansUp V d l)
    (hwalk : G.Walk p l q) : Follows V G p exits (some q) d := by
  intro t o ht
  obtain rfl | rfl := hd.ends t o ht
  · exact ⟨q, rfl, hd.trace t ht ▸ hwalk⟩
  · exact ⟨[], t, p, rfl, hd.late t _ ht, .refl _⟩

end

end FlowGraph
