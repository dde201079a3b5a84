import TurfLang.Analysis.Escape

/-!
# Reading a place after a meet and after a write

A meet reads at every place what its two sides read there, merged, so the order of the predecessors
does not matter. A write forgets the places whose text begins with the text of the place written:
that is every place below it, and also a field beside it whose name it happens to begin.
-/

namespace TurfLang.Escape

open SortedMap

variable (R : Registry)

/-! ### Merging -/

theorem mergeProv_comm (a b : RefProvenance) : mergeProv a b = mergeProv b a := by
  cases a <;> cases b <;> rfl

theorem mergeProv_assoc (a b c : RefProvenance) :
    mergeProv (mergeProv a b) c = mergeProv a (mergeProv b c) := by
  cases a <;> cases b <;> cases c <;> rfl

@[simp] theorem mergeProv_self (a : RefProvenance) : mergeProv a a = a := by
  cases a <;> rfl

/-- What is implied of a place is never that it refers to this frame. -/
theorem implicitProv_cases (k : PlaceKey) : implicitProv R k = .unknown ∨ implicitProv R k = .param := by
  unfold implicitProv
  dsimp only
  repeat' split
  all_goals simp

/-- What a meet records for a key of one of its sides. -/
def met (a b : ProvMap) (k : PlaceKey) : RefProvenance :=
  if k.isMarker then .unknown else mergeProv (getPlace R a k) (getPlace R b k)

theorem find?_take (a b r : ProvMap) (k k' : PlaceKey) :
    (take R a b r k).find? k' = (r.find? k').or (if k' = k then some (met R a b k) else none) := by
  by_cases hr : r.contains k = true
  · rw [take, if_pos hr]
    by_cases hk : k' = k
    · subst hk
      obtain ⟨v, hv⟩ := Option.isSome_iff_exists.mp hr
      rw [hv, Option.some_or]
    · rw [if_neg hk, Option.or_none]
  · have hnone : r.find? k = none := by simpa [contains] using hr
    have htake : take R a b r k = r.insert k (met R a b k) := by
      rw [take, if_neg hr, met]
      split_ifs <;> rfl
    rw [htake, find?_insert]
    by_cases hk : k' = k
    · rw [if_pos hk, if_pos hk, hk, hnone, Option.none_or]
    · rw [if_neg hk, if_neg hk, Option.or_none]

theorem find?_foldl_take (a b : ProvMap) (k' : PlaceKey) : ∀ (ks : List PlaceKey) (r : ProvMap),
    (ks.foldl (take R a b) r).find? k' =
      (r.find? k').or (if k' ∈ ks then some (met R a b k') else none)
  | [], r => by simp
  | k :: ks, r => by
    rw [List.foldl_cons, find?_foldl_take a b k' ks, find?_take, Option.or_assoc]
    congr 1
    by_cases hk : k' = k
    · simp [hk]
    · simp [hk]

theorem find?_meetProv (a b : ProvMap) (k : PlaceKey) :
    (meetProv R a b).find? k =
      if a.contains k || b.contains k then some (met R a b k) else none := by
  rw [meetProv, find?_foldl_take, find?_foldl_take]
  simp only [mem_keys, find?_empty, Option.none_or, Bool.or_eq_true]
  by_cases ha : a.contains k = true <;> by_cases hb : b.contains k = true <;> simp [ha, hb]

@[simp] theorem contains_meetProv (a b : ProvMap) (k : PlaceKey) :
    (meetProv R a b).contains k = (a.contains k || b.contains k) := by
  rw [contains, find?_meetProv]
  split_ifs with h
  · simp [h]
  · simpa using h

/-- A marker stands above a place after a meet when one does on either side. -/
theorem isMarked_meetProv (a b : ProvMap) (k : PlaceKey) :
    isMarked (meetProv R a b) k = (isMarked a k || isMarked b k) := by
  rw [Bool.eq_iff_iff]
  simp only [isMarked, contains_meetProv, Bool.or_eq_true, List.any_eq_true, Bool.and_eq_true]
  constructor
  · rintro ⟨cut, hcut, hb, hm | hm⟩
    · exact .inl ⟨cut, hcut, hb, hm⟩
    · exact .inr ⟨cut, hcut, hb, hm⟩
  · rintro (⟨cut, hcut, hb, hm⟩ | ⟨cut, hcut, hb, hm⟩)
    · exact ⟨cut, hcut, hb, .inl hm⟩
    · exact ⟨cut, hcut, hb, .inr hm⟩

theorem getPlace_of_none {m : ProvMap} {k : PlaceKey} (h : m.find? k = none) :
    getPlace R m k = if isMarked m k then .unknown else implicitProv R k := by
  rw [getPlace, h]

theorem getPlace_of_some {m : ProvMap} {k : PlaceKey} {p : RefProvenance} (h : m.find? k = some p) :
    getPlace R m k = p := by
  rw [getPlace, h]

/-- A meet reads at every place what its two sides read there, merged. -/
theorem getPlace_meet {a b : ProvMap} {k : PlaceKey} (hk : k.isMarker = false) :
    getPlace R (meetProv R a b) k = mergeProv (getPlace R a k) (getPlace R b k) := by
  by_cases hc : (a.contains k || b.contains k) = true
  · rw [getPlace_of_some R ((find?_meetProv R a b k).trans (if_pos hc)), met, hk, if_neg (by simp)]
  · have hfind := (find?_meetProv R a b k).trans (if_neg hc)
    simp only [Bool.or_eq_true, contains, Option.isSome_iff_ne_none, not_or, not_not] at hc
    rw [getPlace_of_none R hfind, getPlace_of_none R hc.1, getPlace_of_none R hc.2,
      isMarked_meetProv]
    -- a place neither side mentions is overwritten on both, on one, or on none
    have hi := implicitProv_cases R k
    cases isMarked a k <;> cases isMarked b k <;> rcases hi with hi | hi <;> rw [hi] <;> rfl

theorem meetProv_comm' (a b : ProvMap) : meetProv R a b = meetProv R b a := by
  refine ext_find? fun k => ?_
  rw [find?_meetProv, find?_meetProv, Bool.or_comm, met, met, mergeProv_comm]

theorem meetProv_assoc' (a b c : ProvMap) :
    meetProv R (meetProv R a b) c = meetProv R a (meetProv R b c) := by
  refine ext_find? fun k => ?_
  simp only [find?_meetProv, contains_meetProv, Bool.or_assoc]
  congr 2
  rw [met, met]
  by_cases hk : k.isMarker = true
  · rw [if_pos hk, if_pos hk]
  · have hf : k.isMarker = false := by simpa using hk
    rw [if_neg hk, if_neg hk, getPlace_meet R hf, getPlace_meet R hf, mergeProv_assoc]

/-- The order of the predecessors does not matter. -/
theorem newIN_perm {outs outs' : List ProvMap} (h : outs.Perm outs') :
    newIN R outs = newIN R outs' := by
  refine h.foldl_eq' (fun x _ y _ acc => ?_) none
  cases acc with
  | none => exact congrArg some (meetProv_comm' R x y)
  | some m =>
    have hswap : meetProv R (meetProv R m x) y = meetProv R (meetProv R m y) x := by
      rw [meetProv_assoc', meetProv_comm' R x y, ← meetProv_assoc']
    exact congrArg some hswap

/-- A meet is pointwise: at a place it reads what its two sides read there, merged. As a map it does
not depend on the order or the grouping of what it meets, and a map met with itself reads as
before. -/
theorem meetProv_pointwise :
    (∀ (a b : ProvMap) (k : PlaceKey), k.isMarker = false →
      getPlace R (meetProv R a b) k = mergeProv (getPlace R a k) (getPlace R b k)) ∧
    (∀ a b : ProvMap, meetProv R a b = meetProv R b a) ∧
    (∀ a b c : ProvMap, meetProv R (meetProv R a b) c = meetProv R a (meetProv R b c)) ∧
    (∀ (a : ProvMap) (k : PlaceKey), k.isMarker = false →
      getPlace R (meetProv R a a) k = getPlace R a k) ∧
    ∀ outs outs' : List ProvMap, outs.Perm outs' → newIN R outs = newIN R outs' := by
  refine ⟨fun a b k hk => getPlace_meet R hk, meetProv_comm' R, meetProv_assoc' R, ?_,
    fun _ _ h => newIN_perm R h⟩
  intro a k hk
  rw [getPlace_meet R hk, mergeProv_self]

/-! ### Paths and their texts -/

theorem digit_plain {k : ℕ} {c : Char} (h : c ∈ Nat.toDigits 10 k) :
    c ≠ '.' ∧ c ≠ '[' ∧ c ≠ '#' ∧ c ≠ ']' ∧ c ≠ '*' := by
  have hc := Nat.isDigit_of_mem_toDigits (by decide) (by decide) h
  refine ⟨?_, ?_, ?_, ?_, ?_⟩ <;>
  · rintro rfl
    exact absurd hc (by decide)

/-- What follows the character that starts a segment. -/
def Segment.tail (s : Segment) : List Char := s.text.drop 1

theorem Segment.tail_plain {s : Segment} {c : Char} (h : c ∈ s.tail) :
    startsSegment c = false ∧ c ≠ '#' := by
  rw [startsSegment, Bool.or_eq_false_iff, decide_eq_false_iff_not, decide_eq_false_iff_not]
  cases s with
  | field name =>
    obtain ⟨h1, h2, h3⟩ := name.plain c h
    exact ⟨⟨h1, h2⟩, h3⟩
  | index k =>
    obtain h | h : c ∈ Nat.toDigits 10 k ∨ c = ']' := by simpa [tail, text] using h
    · obtain ⟨h1, h2, h3, -⟩ := digit_plain h
      exact ⟨⟨h1, h2⟩, h3⟩
    · subst h
      decide
  | any =>
    obtain rfl | rfl : c = '*' ∨ c = ']' := by simpa [tail, text] using h
    all_goals decide

theorem Segment.exists_text (s : Segment) :
    ∃ c, startsSegment c = true ∧ c ≠ '#' ∧ s.text = c :: s.tail := by
  cases s with
  | field name => exact ⟨'.', by decide, by decide, rfl⟩
  | index k => exact ⟨'[', by decide, by decide, rfl⟩
  | any => exact ⟨'[', by decide, by decide, rfl⟩

/-- A text begins at a segment or is empty. -/
def StartsSegment (t : List Char) : Prop := ∀ c ∈ t.head?, startsSegment c = true

theorem startsSegment_pathText (segments : List Segment) : StartsSegment (pathText segments) := by
  cases segments with
  | nil => simp [StartsSegment, pathText]
  | cons s segments =>
    obtain ⟨c, hc, -, ht⟩ := s.exists_text
    simpa [StartsSegment, pathText, ht] using hc

theorem not_mem_pathText (segments : List Segment) : '#' ∉ pathText segments := by
  rw [pathText, List.mem_flatMap]
  rintro ⟨s, -, hs⟩
  obtain ⟨c, -, hc, ht⟩ := s.exists_text
  rcases List.mem_cons.mp (ht ▸ hs) with h | h
  · exact hc h.symm
  · exact (s.tail_plain h).2 rfl

/-- Two texts that each go on to a further segment: one begins the other when they are the same and
what follows does so, or when nothing follows the shorter. -/
theorem prefix_segment {t t' : List Char} (ht : StartsSegment t) (ht' : StartsSegment t') :
    ∀ {r r' : List Char}, (∀ c ∈ r, startsSegment c = false) → (∀ c ∈ r', startsSegment c = false) →
      r ++ t <+: r' ++ t' → r = r' ∧ t <+: t' ∨ t = [] ∧ r <+: r' ∧ r ≠ r'
  | [], [], _, _, h => .inl ⟨rfl, h⟩
  | [], d :: r', _, hr', h => by
    cases t with
    | nil => exact .inr ⟨rfl, List.nil_prefix, by simp⟩
    | cons c t =>
      obtain ⟨rfl, -⟩ := List.cons_prefix_cons.mp h
      have hc := ht c rfl
      rw [hr' c List.mem_cons_self] at hc
      exact absurd hc (by decide)
  | d :: r, [], hr, _, h => by
    cases t' with
    | nil => exact absurd (List.prefix_nil.mp h) (by simp)
    | cons c t' =>
      obtain ⟨rfl, -⟩ := List.cons_prefix_cons.mp h
      have hd := ht' d rfl
      rw [hr d List.mem_cons_self] at hd
      exact absurd hd (by decide)
  | d :: r, d' :: r', hr, hr', h => by
    obtain ⟨rfl, hrest⟩ := List.cons_prefix_cons.mp h
    obtain ⟨rfl, htt⟩ | ⟨hnil, hpre, hne⟩ := prefix_segment ht ht'
      (fun c hc => hr c (List.mem_cons_of_mem _ hc))
      (fun c hc => hr' c (List.mem_cons_of_mem _ hc)) hrest
    · exact .inl ⟨rfl, htt⟩
    · exact .inr ⟨hnil, List.cons_prefix_cons.mpr ⟨rfl, hpre⟩, by simpa using hne⟩

/-- A field beside another whose name begins with its name. -/
def Segment.Truncates (s s' : Segment) : Prop :=
  ∃ f g : FieldName, s = .field f ∧ s' = .field g ∧ f.chars <+: g.chars ∧ f ≠ g

/-- The text of a segment begins with that of another only for a field and a truncation of its
name. -/
theorem Segment.eq_or_truncates {s s' : Segment} (h : s.text <+: s'.text) : s = s' ∨ s.Truncates s' := by
  have hbracket : ∀ {u v : List Char}, ']' ∉ v → u ++ [']'] <+: v ++ [']'] → u = v := by
    intro u v hv hpre
    rcases List.prefix_concat_iff.mp hpre with heq | hpre
    · exact List.append_cancel_right heq
    · exact absurd (hpre.subset (by simp)) hv
  have hdigits : ∀ k, ']' ∉ Nat.toDigits 10 k := fun k hk => (digit_plain hk).2.2.2.1 rfl
  have hstar : ∀ k, '*' ∉ Nat.toDigits 10 k := fun k hk => (digit_plain hk).2.2.2.2 rfl
  cases s with
  | field f =>
    cases s' with
    | field g =>
      by_cases hfg : f = g
      · exact .inl (congrArg _ hfg)
      · exact .inr ⟨f, g, rfl, rfl, (List.cons_prefix_cons.mp h).2, hfg⟩
    | index k => exact absurd (List.cons_prefix_cons.mp h).1 (by decide)
    | any => exact absurd (List.cons_prefix_cons.mp h).1 (by decide)
  | index k =>
    cases s' with
    | field g => exact absurd (List.cons_prefix_cons.mp h).1 (by decide)
    | index k' =>
      have hkk := hbracket (hdigits k') (List.cons_prefix_cons.mp h).2
      exact .inl (congrArg _ (by simpa using congrArg (Nat.ofDigitChars 10 · 0) hkk))
    | any =>
      have hk : Nat.toDigits 10 k = ['*'] :=
        hbracket (v := ['*']) (by decide) (List.cons_prefix_cons.mp h).2
      exact absurd (hk ▸ List.mem_singleton_self _) (hstar k)
  | any =>
    cases s' with
    | field g => exact absurd (List.cons_prefix_cons.mp h).1 (by decide)
    | index k =>
      have hk : ['*'] = Nat.toDigits 10 k :=
        hbracket (u := ['*']) (hdigits k) (List.cons_prefix_cons.mp h).2
      exact absurd (hk ▸ List.mem_singleton_self _) (hstar k)
    | any => exact .inl rfl

theorem Segment.text_injective : Function.Injective Segment.text := by
  intro s s' h
  obtain hs | ⟨⟨f, hf⟩, ⟨g, hg⟩, rfl, rfl, -, hfg⟩ := eq_or_truncates (s := s) ⟨[], by simpa⟩
  · exact hs
  · obtain rfl : f = g := (List.cons.inj h).2
    exact absurd rfl hfg

/-- A path ends in a field where the other goes on with a field whose name begins with its name. -/
def Truncates (P K : List Segment) : Prop :=
  ∃ S s s' rest, P = S ++ [s] ∧ K = S ++ s' :: rest ∧ s.Truncates s'

@[simp] theorem pathText_append (P Q : List Segment) : pathText (P ++ Q) = pathText P ++ pathText Q :=
  List.flatMap_append

@[simp] theorem pathText_cons (s : Segment) (P : List Segment) :
    pathText (s :: P) = s.text ++ pathText P := rfl

@[simp] theorem pathText_nil : pathText [] = [] := rfl

/-- The text of a path begins with that of another when the path does, or when a name does. -/
theorem above_or_truncates : ∀ {P K : List Segment}, pathText P <+: pathText K → P <+: K ∨ Truncates P K
  | [], _, _ => .inl List.nil_prefix
  | s :: P, [], h => by
    obtain ⟨c, -, -, ht⟩ := s.exists_text
    rw [pathText_cons, ht] at h
    exact absurd (List.prefix_nil.mp h) (by simp)
  | s :: P, s' :: K, h => by
    obtain ⟨c, -, -, ht⟩ := s.exists_text
    obtain ⟨c', -, -, ht'⟩ := s'.exists_text
    rw [pathText_cons, pathText_cons, ht, ht', List.cons_append, List.cons_append,
      List.cons_prefix_cons] at h
    obtain ⟨rfl, h⟩ := h
    obtain ⟨htail, hrest⟩ | ⟨hnil, hpre, hne⟩ := prefix_segment (startsSegment_pathText P)
      (startsSegment_pathText K) (fun c hc => (s.tail_plain hc).1)
      (fun c hc => (s'.tail_plain hc).1) h
    · obtain rfl : s = s' := Segment.text_injective (by rw [ht, ht', htail])
      rcases above_or_truncates hrest with hPK | ⟨S, u, u', rest, rfl, rfl, hu⟩
      · exact .inl (List.cons_prefix_cons.mpr ⟨rfl, hPK⟩)
      · exact .inr ⟨s :: S, u, u', rest, rfl, rfl, hu⟩
    · have htext : s.text <+: s'.text := by
        rw [ht, ht']
        exact List.cons_prefix_cons.mpr ⟨rfl, hpre⟩
      obtain rfl : P = [] := by
        cases P with
        | nil => rfl
        | cons u P =>
          obtain ⟨d, -, -, hd⟩ := u.exists_text
          rw [pathText_cons, hd] at hnil
          exact absurd hnil (by simp)
      obtain rfl | hs := Segment.eq_or_truncates htext
      · exact absurd rfl hne
      · exact .inr ⟨[], s, s', K, rfl, rfl, hs⟩

theorem Truncates.begins {P K : List Segment} (h : Truncates P K) : pathText P <+: pathText K := by
  obtain ⟨S, -, -, rest, rfl, rfl, f, g, rfl, rfl, hfg, -⟩ := h
  rw [pathText_append, pathText_append, pathText_cons, pathText_nil, List.append_nil, pathText_cons,
    List.prefix_append_right_inj]
  exact (List.cons_prefix_cons.mpr ⟨rfl, hfg⟩).trans (List.prefix_append _ _)

/-- A path above another ends at a boundary of it. -/
theorem atBoundary_of_above {P K : List Segment} (h : P <+: K) :
    atBoundary (pathText K) (pathText P).length = true := by
  obtain ⟨Q, rfl⟩ := h
  rw [atBoundary, pathText_append, List.getElem?_append_right le_rfl, Nat.sub_self,
    ← List.head?_eq_getElem?]
  have hQ := startsSegment_pathText Q
  cases hhead : (pathText Q).head? with
  | none => simp [List.head?_eq_none_iff.mp hhead]
  | some c => simp [hQ c hhead]

/-- The end of a truncated name is not at a boundary. -/
theorem Truncates.not_atBoundary {P K : List Segment} (h : Truncates P K) :
    atBoundary (pathText K) (pathText P).length = false := by
  obtain ⟨S, -, -, rest, rfl, rfl, f, g, rfl, rfl, ⟨more, hmore⟩, hfg⟩ := h
  cases more with
  | nil =>
    obtain ⟨f, hf⟩ := f
    obtain ⟨g, hg⟩ := g
    obtain rfl : f = g := by simpa using hmore
    exact absurd rfl hfg
  | cons d more =>
    have hd : startsSegment d = false :=
      (Segment.tail_plain (s := .field g) (by simp [Segment.tail, Segment.text, ← hmore])).1
    have htext : pathText (S ++ .field g :: rest) =
        pathText (S ++ [.field f]) ++ d :: (more ++ pathText rest) := by
      simp [Segment.text, ← hmore]
    rw [atBoundary, htext, List.getElem?_append_right le_rfl, Nat.sub_self]
    simp [hd, Segment.text]

/-! ### Writing -/

theorem le_iff_not_lex {p q : List Char} : p ≤ q ↔ ¬List.Lex (· < ·) q p := not_lt.symm

/-- A text is not greater than one that begins with it. -/
theorem le_of_begins {p q : List Char} (h : p <+: q) : p ≤ q := by
  obtain ⟨r, rfl⟩ := h
  rw [le_iff_not_lex]
  induction p with
  | nil => exact List.not_lex_nil
  | cons c p ih =>
    rintro (_ | hlt | hlex)
    · exact lt_irrefl _ hlt
    · exact ih hlex

/-- Texts that begin with one text stand together in the order of texts. -/
theorem begins_of_between : ∀ {p a r : List Char}, p ≤ a → a ≤ p ++ r → p <+: a
  | [], _, _, _, _ => List.nil_prefix
  | c :: p, [], r, hpa, _ => absurd .nil (le_iff_not_lex.mp hpa)
  | c :: p, d :: a, r, hpa, har => by
    rw [le_iff_not_lex] at hpa har
    have hdc : ¬d < c := fun h => hpa (.rel h)
    have hcd : ¬c < d := fun h => har (.rel h)
    obtain rfl : c = d := le_antisymm (not_lt.mp hdc) (not_lt.mp hcd)
    refine List.cons_prefix_cons.mpr ⟨rfl, begins_of_between (r := r) ?_ ?_⟩
    · exact le_iff_not_lex.mpr fun h => hpa (.cons h)
    · exact le_iff_not_lex.mpr fun h => har (.cons h)

theorem below_iff {x : ℕ} {path : List Char} {k : PlaceKey} :
    below x path k = true ↔ k.sym = x ∧ path <+: k.path := by
  simp [below]

/-- A walk from a place on meets every key below it before any other. -/
theorem leaves_below (x : ℕ) (path : List Char) : Leaves ⟨x, path⟩ (below x path) := by
  intro a b hka hab ha
  rw [← Bool.not_eq_true, below_iff] at ha ⊢
  rintro ⟨rfl, r, hr⟩
  obtain hsym | ⟨hsym, hpath⟩ := PlaceKey.le_iff.mp hab
  · obtain hlt | ⟨heq, -⟩ := PlaceKey.le_iff.mp hka
    · exact absurd hsym hlt.asymm
    · exact absurd hsym (heq ▸ lt_irrefl _)
  · obtain hlt | ⟨-, hle⟩ := PlaceKey.le_iff.mp hka
    · exact absurd hsym hlt.ne'
    · exact ha ⟨hsym, begins_of_between hle (hr.symm ▸ hpath)⟩

theorem find?_killUnder (m : ProvMap) (x : ℕ) (path : List Char) (k : PlaceKey) :
    (killUnder m x path).find? k =
      if k = ⟨x, path ++ ['#']⟩ then some .unknown
      else if below x path k then none else m.find? k := by
  rw [killUnder, find?_insert, find?_eraseWhile (leaves_below x path)]
  congr 2
  rw [eq_iff_iff, and_iff_right_iff_imp]
  intro hk
  obtain ⟨rfl, hpre⟩ := below_iff.mp hk
  exact PlaceKey.le_iff.mpr (.inr ⟨rfl, le_of_begins hpre⟩)

/-- A key that does not begin with the text of the place keeps its entry. -/
theorem find?_killUnder_of_not_begins {m : ProvMap} {x : ℕ} {path : List Char} {k : PlaceKey}
    (h : k.sym = x → ¬path <+: k.path) : (killUnder m x path).find? k = m.find? k := by
  rw [find?_killUnder, if_neg, if_neg]
  · rw [below_iff]
    exact fun hk => h hk.1 hk.2
  · rintro rfl
    exact h rfl (List.prefix_append _ _)

theorem isMarked_congr {m m' : ProvMap} {k : PlaceKey}
    (h : ∀ cut, m.find? ⟨k.sym, k.path.take cut ++ ['#']⟩ = m'.find? ⟨k.sym, k.path.take cut ++ ['#']⟩) :
    isMarked m k = isMarked m' k := by
  rw [isMarked, isMarked]
  congr 1
  funext cut
  rw [contains, contains, h cut]

theorem getPlace_congr {m m' : ProvMap} {k : PlaceKey} (hk : m.find? k = m'.find? k)
    (h : ∀ cut, m.find? ⟨k.sym, k.path.take cut ++ ['#']⟩ = m'.find? ⟨k.sym, k.path.take cut ++ ['#']⟩) :
    getPlace R m k = getPlace R m' k := by
  rw [getPlace, getPlace, hk, isMarked_congr h]

/-- A write leaves the places of every other variable as they are. -/
theorem getPlace_killUnder_other {m : ProvMap} {x : ℕ} {path : List Char} {k : PlaceKey}
    (h : k.sym ≠ x) : getPlace R (killUnder m x path) k = getPlace R m k :=
  getPlace_congr R (find?_killUnder_of_not_begins fun hk => absurd hk h)
    fun _ => find?_killUnder_of_not_begins fun hk => absurd hk h

/-- A write leaves a place as it is whose text does not begin with that of the place written. -/
theorem getPlace_killUnder_apart {m : ProvMap} {x : ℕ} {P K : List Segment}
    (h : ¬pathText P <+: pathText K) :
    getPlace R (killUnder m x (pathText P)) ⟨x, pathText K⟩ = getPlace R m ⟨x, pathText K⟩ := by
  refine getPlace_congr R (find?_killUnder_of_not_begins fun _ => h) fun cut => ?_
  refine find?_killUnder_of_not_begins fun _ hpre => ?_
  rcases List.prefix_concat_iff.mp hpre with heq | hpre
  · exact not_mem_pathText P (heq ▸ by simp)
  · exact h (hpre.trans (List.take_prefix _ _))

theorem find?_killUnder_of_begins {m : ProvMap} {x : ℕ} {P K : List Segment}
    (h : pathText P <+: pathText K) :
    (killUnder m x (pathText P)).find? ⟨x, pathText K⟩ = none := by
  have hbelow : below x (pathText P) ⟨x, pathText K⟩ = true := below_iff.mpr ⟨rfl, h⟩
  rw [find?_killUnder, if_neg, if_pos hbelow]
  intro heq
  have hK : pathText K = pathText P ++ ['#'] := congrArg PlaceKey.path heq
  exact not_mem_pathText K (hK ▸ by simp)

/-- A write forgets every place below the one written. -/
theorem getPlace_killUnder_above {m : ProvMap} {x : ℕ} {P K : List Segment} (h : P <+: K) :
    getPlace R (killUnder m x (pathText P)) ⟨x, pathText K⟩ = .unknown := by
  have hbegins : pathText P <+: pathText K := by
    obtain ⟨Q, rfl⟩ := h
    rw [pathText_append]
    exact List.prefix_append _ _
  have hmarked : isMarked (killUnder m x (pathText P)) ⟨x, pathText K⟩ = true := by
    refine List.any_eq_true.mpr ⟨(pathText P).length, ?_, ?_⟩
    · rw [List.mem_range, Nat.lt_succ_iff]
      exact hbegins.length_le
    · show (atBoundary (pathText K) (pathText P).length &&
        (killUnder m x (pathText P)).contains
          ⟨x, (pathText K).take (pathText P).length ++ ['#']⟩) = true
      rw [atBoundary_of_above h, List.prefix_iff_eq_take.mp hbegins |>.symm, contains,
        find?_killUnder, if_pos rfl]
      rfl
  rw [getPlace_of_none R (find?_killUnder_of_begins hbegins), if_pos hmarked]

/-- A write forgets the places below the one written, and disturbs no other place: neither in the
variable nor in any other. -/
def WritesOnly (m : ProvMap) (x : ℕ) (P K : List Segment) : Prop :=
  (P <+: K → getPlace R (killUnder m x (pathText P)) ⟨x, pathText K⟩ = .unknown) ∧
  (¬P <+: K →
    getPlace R (killUnder m x (pathText P)) ⟨x, pathText K⟩ = getPlace R m ⟨x, pathText K⟩) ∧
  ∀ k : PlaceKey, k.sym ≠ x → getPlace R (killUnder m x (pathText P)) k = getPlace R m k

theorem Truncates.not_above {P K : List Segment} (h : Truncates P K) : ¬P <+: K := by
  intro hpre
  have hb := atBoundary_of_above hpre
  rw [h.not_atBoundary] at hb
  exact absurd hb (by decide)

/-- A write of one place disturbs no other exactly when it does not end in a field whose name only
begins the name of the field beside it that the other goes through. -/
theorem killUnder_writesOnly_iff (x : ℕ) (P K : List Segment) :
    (∀ m : ProvMap, WritesOnly R m x P K) ↔ ¬Truncates P K := by
  constructor
  · intro h ht
    -- the field beside it holds a reference to this frame, and the write forgets it
    have hkeep := (h (SortedMap.empty.insert ⟨x, pathText K⟩ .stack)).2.1 ht.not_above
    rw [getPlace_of_none R (find?_killUnder_of_begins ht.begins),
      getPlace_of_some R (find?_insert _ _ _ _ |>.trans (if_pos rfl))] at hkeep
    rcases implicitProv_cases R ⟨x, pathText K⟩ with hi | hi <;> rw [hi] at hkeep <;>
      split_ifs at hkeep
  · intro ht m
    refine ⟨fun h => getPlace_killUnder_above R h, fun h => ?_,
      fun k hk => getPlace_killUnder_other R hk⟩
    refine getPlace_killUnder_apart R fun hbegins => ?_
    exact (above_or_truncates hbegins).elim h ht

/-- Writing `.own` forgets that `.owner` refers to this frame. -/
theorem killUnder_own_forgets_owner :
    ¬∀ (R : Registry) (m : ProvMap) (x : ℕ) (P K : List Segment), WritesOnly R m x P K := by
  intro h
  have hkeep := (h ⟨fun _ => ⟨false, none⟩, fun _ => none⟩
    (SortedMap.empty.insert ⟨0, ['.', 'o', 'w', 'n', 'e', 'r']⟩ .stack) 0
    [.field ⟨['o', 'w', 'n'], by simp⟩] [.field ⟨['o', 'w', 'n', 'e', 'r'], by simp⟩]).2.1
    (by decide)
  exact absurd hkeep (by decide)

end TurfLang.Escape
