import TurfLang.Std.Http.Request

/-!
# `parse_request` against the text of a request

The head of a request that is written down ends where the blank line is first found, unless the
body holds a blank line of the style that is looked for first.
-/

namespace TurfLang

namespace Http

open Strings Pieces

/-! ### Searching and splitting -/

section Search

variable {s d : Bytes}

theorem indexOf_of_firstAt (hs : 0 ∉ s) (hd : 0 ∉ d) (hne : d ≠ []) {k : ℕ} (h : FirstAt d s k) :
    indexOf s d = some (k : ℤ) := by
  obtain ⟨-, hnone⟩ | ⟨j, hj, -, -⟩ := strstr_cases hs hd hne
  · exact absurd h.here (hnone k)
  · rw [indexOf, hj]
    simp only [strlen_of_noNul hs, strlen_of_noNul hd]
    exact indexOfFrom_eq hs hd hne h.here h.before 0 (Nat.zero_le k)

theorem indexOf_of_not_infix (hs : 0 ∉ s) (hd : 0 ∉ d) (hne : d ≠ []) (h : ¬ d <:+: s) :
    indexOf s d = some (-1) := by
  obtain ⟨hnone, -⟩ | ⟨j, -, hj, -⟩ := strstr_cases hs hd hne
  · rw [indexOf, hnone]
  · exact absurd (isInfix_iff_drop.mpr ⟨j, hj⟩) h

/-- A string that a separator of one byte cuts. -/
theorem pieces_append {c : UInt8} {l t : Bytes} (hl : c ∉ l) :
    pieces [c] (l ++ c :: t) = l :: pieces [c] t := by
  have hfirst : FirstAt [c] (l ++ c :: t) (l.length + 0) :=
    (firstAt_zero (List.prefix_append [c] t)).append hl
  rw [Nat.add_zero] at hfirst
  rw [pieces, cut_of_first (List.cons_ne_nil c []) hfirst.here hfirst.before, List.nil_append,
    List.take_left, List.drop_length_add_append]
  rfl

theorem pieces_of_notMem {c : UInt8} {l : Bytes} (hl : c ∉ l) : pieces [c] l = [l] := by
  rw [pieces, cut_of_none (List.cons_ne_nil c []), List.nil_append]
  intro i hi
  exact hl (List.mem_of_mem_drop (hi.subset (List.mem_singleton_self c)))

end Search

/-! ### The head -/

/-- Lines with an ending between them. -/
def block (e : LineEnding) (l : Bytes) (ls : List Bytes) : Bytes := l ++ ls.flatMap (e.text ++ ·)

section Block

variable {e : LineEnding} {l : Bytes} {ls : List Bytes}

theorem block_cons (l' : Bytes) (ls : List Bytes) :
    block e l (l' :: ls) = l ++ (e.text ++ block e l' ls) := by
  simp [block, List.flatMap_cons]

theorem flatMap_eq_block (l : Bytes) (ls : List Bytes) :
    (l :: ls).flatMap (· ++ e.text) = block e l ls ++ e.text := by
  induction ls generalizing l with
  | nil => simp [block]
  | cons l' ls ih => rw [List.flatMap_cons, ih l', block_cons]; simp

/-- A line of the head: it is not empty. -/
structure IsHeadLine (l : Bytes) : Prop extends IsLine l where
  ne_nil : l ≠ []

theorem mem_block {c : UInt8} (h : c ∈ block e l ls) :
    c ∈ e.text ∨ ∃ l' ∈ l :: ls, c ∈ l' := by
  rw [block, List.mem_append, List.mem_flatMap] at h
  obtain h | ⟨l', hl', h⟩ := h
  · exact .inr ⟨l, List.mem_cons_self, h⟩
  · obtain h | h := List.mem_append.mp h
    · exact .inl h
    · exact .inr ⟨l', List.mem_cons_of_mem l hl', h⟩

theorem noNul_block (h : ∀ l' ∈ l :: ls, IsHeadLine l') : 0 ∉ block e l ls := by
  intro hmem
  obtain hmem | ⟨l', hl', hmem⟩ := mem_block hmem
  · cases e <;> exact absurd hmem (by decide)
  · exact (h l' hl').noNul hmem

theorem noReturn_block (h : ∀ l' ∈ l :: ls, IsHeadLine l') : 13 ∉ block .lf l ls := by
  intro hmem
  obtain hmem | ⟨l', hl', hmem⟩ := mem_block hmem
  · exact absurd hmem (by decide)
  · exact (h l' hl').noReturn hmem

/-- What a line begins with is no part of an ending. -/
theorem head_block (h : ∀ l' ∈ l :: ls, IsHeadLine l') :
    ∃ c t, block e l ls = c :: t ∧ c ≠ 13 ∧ c ≠ 10 := by
  have hl := h l List.mem_cons_self
  obtain ⟨c, t, rfl⟩ := List.exists_cons_of_ne_nil hl.ne_nil
  refine ⟨c, t ++ ls.flatMap (e.text ++ ·), rfl, ?_, ?_⟩
  · rintro rfl
    exact hl.noReturn List.mem_cons_self
  · rintro rfl
    exact hl.noFeed List.mem_cons_self

/-- The blank line is found where it stands. -/
theorem firstAt_block (h : ∀ l' ∈ l :: ls, IsHeadLine l') (body : Bytes) :
    FirstAt (e.text ++ e.text) (block e l ls ++ (e.text ++ (e.text ++ body)))
      (block e l ls).length := by
  have hzero : FirstAt (e.text ++ e.text) (e.text ++ (e.text ++ body)) 0 := by
    rw [← List.append_assoc]
    exact firstAt_zero (List.prefix_append _ body)
  induction ls generalizing l with
  | nil =>
    have hl := h l List.mem_cons_self
    simp only [block, List.flatMap_nil, List.append_nil]
    cases e with
    | crlf => exact hzero.append hl.noReturn
    | lf => exact hzero.append hl.noFeed
  | cons l' ls ih =>
    have hl := h l List.mem_cons_self
    have hrest := ih fun l'' hl'' => h l'' (List.mem_cons_of_mem l hl'')
    obtain ⟨c, t, hhead, hreturn, hfeed⟩ :=
      @head_block e l' ls fun l'' hl'' => h l'' (List.mem_cons_of_mem l hl'')
    rw [block_cons]
    -- the ending of the line is followed by the first byte of the next
    cases e with
    | crlf =>
      have hstep := hrest.append_cons (l := [10]) (by decide) (by
        rw [hhead]
        simp [LineEnding.text, hreturn.symm])
      have hline := FirstAt.append hstep hl.noReturn
      simpa [LineEnding.text, Nat.add_comm, Nat.add_left_comm] using hline
    | lf =>
      have hstep := hrest.append_cons (l := []) (by decide) (by
        rw [hhead]
        simp [LineEnding.text, hfeed.symm])
      have hline := FirstAt.append hstep hl.noFeed
      simpa [LineEnding.text, Nat.add_comm, Nat.add_left_comm] using hline

/-- The lines that the head is split into are its lines, up to the blanks at their ends. -/
theorem pieces_block (h : ∀ l' ∈ l :: ls, IsHeadLine l') :
    (pieces [10] (block e l ls)).map withoutEnd = (l :: ls).map withoutEnd := by
  induction ls generalizing l with
  | nil =>
    have hl := h l List.mem_cons_self
    simp only [block, List.flatMap_nil, List.append_nil]
    rw [pieces_of_notMem hl.noFeed]
  | cons l' ls ih =>
    have hl := h l List.mem_cons_self
    have hrest := ih fun l'' hl'' => h l'' (List.mem_cons_of_mem l hl'')
    rw [block_cons, List.map_cons, ← hrest]
    cases e with
    | crlf =>
      have hsplit : l ++ (LineEnding.crlf.text ++ block .crlf l' ls) =
          (l ++ [13]) ++ 10 :: block .crlf l' ls := by simp [LineEnding.text]
      have hno : 10 ∉ l ++ [13] := by simpa using hl.noFeed
      rw [hsplit, pieces_append hno, List.map_cons, withoutEnd_concat (by decide)]
    | lf =>
      have hsplit : l ++ (LineEnding.lf.text ++ block .lf l' ls) = l ++ 10 :: block .lf l' ls := rfl
      rw [hsplit, pieces_append hl.noFeed, List.map_cons]

end Block

/-! ### The lines -/

section Lines

theorem withoutEnd_cons {c : UInt8} (s : Bytes) (hc : isBlank c = false) :
    withoutEnd (c :: s) = c :: withoutEnd s := by
  induction s using List.reverseRecOn with
  | nil =>
    have hkeep : ¬ isBlank c = true := by rw [hc]; exact Bool.false_ne_true
    exact List.rdropWhile_concat_neg _ [] c hkeep
  | append_singleton s d ih =>
    rw [← List.cons_append]
    by_cases hd : isBlank d = true
    · rw [withoutEnd_concat hd, withoutEnd_concat hd, ih]
    · have h₁ : withoutEnd (c :: s ++ [d]) = c :: s ++ [d] :=
        List.rdropWhile_concat_neg _ _ _ hd
      have h₂ : withoutEnd (s ++ [d]) = s ++ [d] := List.rdropWhile_concat_neg _ _ _ hd
      rw [h₁, h₂, List.cons_append]

variable {m : Message} {p : Bytes}

/-- The request line gives the method and the path. -/
theorem parseRequestLine_eq (hp : 0 ∉ p)
    (h : withoutEnd p = withoutEnd (m.method ++ 32 :: (m.path ++ 32 :: m.version))) :
    parseRequestLine p = some (m.method, m.path) := by
  have hsplit : m.method ++ 32 :: (m.path ++ 32 :: m.version) =
      (m.method ++ 32 :: (m.path ++ [32])) ++ m.version := by simp
  have hline : withoutEnd p = m.method ++ 32 :: (m.path ++ 32 :: withoutEnd m.version) := by
    rw [h, hsplit, withoutEnd_append m.version_visible]
    simp
  have hno : 0 ∉ withoutEnd p := fun h0 => hp (mem_of_mem_withoutEnd h0)
  have hparts : split (withoutEnd p) [32] =
      some (m.method :: m.path :: pieces [32] (withoutEnd m.version)) := by
    rw [split_eq hno (by decide) (List.cons_ne_nil 32 []), hline, pieces_append m.method_noSpace,
      pieces_append m.path_noSpace]
  simp only [parseRequestLine, trimEnd_eq hp, Option.bind_eq_bind, Option.bind_some, hparts]
  rw [if_pos (by simp)]
  rfl

variable [Hashable Bytes]

/-- A header line puts its value under its name, both trimmed. -/
theorem parseHeader_eq {h : Bytes × Bytes} (hname : IsLine h.1 ∧ 58 ∉ h.1) (hvalue : IsLine h.2)
    (hp : 0 ∉ p) (hline : withoutEnd p = withoutEnd (h.1 ++ 58 :: h.2))
    (headers : Map.Header Bytes Bytes) :
    parseHeader headers p = headers.put (trimmed h.1) (trimmed h.2) := by
  have hcolon : withoutEnd (h.1 ++ 58 :: h.2) = h.1 ++ 58 :: withoutEnd h.2 := by
    rw [withoutEnd_append ⟨58, List.mem_cons_self, by decide⟩, withoutEnd_cons _ (by decide)]
  rw [hcolon] at hline
  have hno : 0 ∉ h.1 ++ 58 :: withoutEnd h.2 := hline ▸ fun h0 => hp (mem_of_mem_withoutEnd h0)
  have hfirst : FirstAt [58] (h.1 ++ 58 :: withoutEnd h.2) (h.1.length + 0) :=
    (firstAt_zero (List.prefix_append [58] _)).append hname.2
  have hkey : substring (h.1 ++ 58 :: withoutEnd h.2) 0 (h.1.length : ℕ) = some h.1 := by
    have hsub := substring_eq hno (Nat.zero_le h.1.length) (by simp)
    rwa [Nat.cast_zero, List.drop_zero, List.take_left] at hsub
  have hrest : substring (h.1 ++ 58 :: withoutEnd h.2) ((h.1.length : ℕ) + 1)
      (h.1 ++ 58 :: withoutEnd h.2).length = some (withoutEnd h.2) := by
    have hsub := substring_eq hno (by simp : h.1.length + 1 ≤ (h.1 ++ 58 :: withoutEnd h.2).length)
      le_rfl
    rw [List.take_length, List.drop_length_add_append, Nat.cast_add, Nat.cast_one] at hsub
    exact hsub
  have hnameTrim := trim_eq hname.1.noNul
  have hvalueTrim : trim (withoutEnd h.2) = some (trimmed h.2) := by
    rw [trim_eq fun h0 => hvalue.noNul (mem_of_mem_withoutEnd h0), trimmed_withoutEnd]
  have hindex := indexOf_of_firstAt hno (by decide) (List.cons_ne_nil 58 []) hfirst
  simp only [parseHeader, trimEnd_eq hp, hline, hindex, Option.bind_eq_bind, Option.bind_some,
    Nat.add_zero, strlen_of_noNul hno, hkey, hrest, hnameTrim, hvalueTrim]
  rw [if_pos (Int.natCast_nonneg _)]

end Lines

/-! ### The headers -/

section Headers

variable [Hashable Bytes]

/-- The headers put one after the other. -/
def putAll (headers : Map.Header Bytes Bytes) (hs : List (Bytes × Bytes)) :
    Option (Map.Header Bytes Bytes) :=
  hs.foldlM (fun headers h => headers.put (trimmed h.1) (trimmed h.2)) headers

/-- The loop over the header lines puts the headers. -/
theorem foldlM_parseHeader {hs : List (Bytes × Bytes)}
    (hname : ∀ h ∈ hs, IsLine h.1 ∧ 58 ∉ h.1) (hvalue : ∀ h ∈ hs, IsLine h.2) {ps : List Bytes}
    (hps : ∀ p ∈ ps, 0 ∉ p)
    (hlines : ps.map withoutEnd = hs.map fun h => withoutEnd (h.1 ++ 58 :: h.2))
    (headers : Map.Header Bytes Bytes) : ps.foldlM parseHeader headers = putAll headers hs := by
  induction hs generalizing ps headers with
  | nil =>
    rw [List.map_nil, List.map_eq_nil_iff] at hlines
    rw [hlines]
    rfl
  | cons h hs ih =>
    cases ps with
    | nil => exact absurd hlines (by simp)
    | cons p ps =>
      rw [List.map_cons, List.map_cons, List.cons.injEq] at hlines
      rw [List.forall_mem_cons] at hname hvalue hps
      rw [List.foldlM_cons, putAll, List.foldlM_cons,
        parseHeader_eq hname.1 hvalue.1 hps.1 hlines.1]
      exact bind_congr fun headers => ih hname.2 hvalue.2 hps.2 hlines.2 headers

/-- The map that the headers make. -/
noncomputable def specOf (sp : Map.Spec Bytes Bytes) (hs : List (Bytes × Bytes)) :
    Map.Spec Bytes Bytes :=
  hs.foldl (fun sp h => sp.put (trimmed h.1) (trimmed h.2)) sp

theorem exists_putAll {headers : Map.Header Bytes Bytes} {sp : Map.Spec Bytes Bytes}
    (hR : Map.Represents headers sp) (hs : List (Bytes × Bytes)) :
    ∃ headers', putAll headers hs = some headers' ∧ Map.Represents headers' (specOf sp hs) := by
  induction hs generalizing headers sp with
  | nil => exact ⟨headers, rfl, hR⟩
  | cons h hs ih =>
    obtain ⟨headers₁, hput, hR₁⟩ := hR.exists_put (trimmed h.1) (trimmed h.2)
    obtain ⟨headers', hall, hR'⟩ := ih hR₁
    refine ⟨headers', ?_, hR'⟩
    rw [putAll, List.foldlM_cons, hput]
    exact hall

omit [Hashable Bytes] in
theorem specOf_history (sp : Map.Spec Bytes Bytes) (hs : List (Bytes × Bytes)) :
    (specOf sp hs).history = sp.history ++ hs.map (fun h => trimmed h.1) ∧
      (specOf sp hs).removed = sp.removed := by
  induction hs generalizing sp with
  | nil => exact ⟨(List.append_nil _).symm, rfl⟩
  | cons h hs ih =>
    obtain ⟨hhistory, hremoved⟩ := ih (sp.put (trimmed h.1) (trimmed h.2))
    refine ⟨hhistory.trans ?_, hremoved⟩
    simp [Map.Spec.put]

omit [Hashable Bytes] in
/-- With distinct names, each header is in the map, beside what was there. -/
theorem specOf_map {hs : List (Bytes × Bytes)} (hnodup : (hs.map fun h => trimmed h.1).Nodup)
    (sp : Map.Spec Bytes Bytes) (k v : Bytes) : (specOf sp hs).map ⟦k⟧ = some v ↔
      (k, v) ∈ hs.map (fun h => (trimmed h.1, trimmed h.2)) ∨
        sp.map ⟦k⟧ = some v ∧ k ∉ hs.map fun h => trimmed h.1 := by
  induction hs generalizing sp with
  | nil => simp [specOf]
  | cons h hs ih =>
    rw [List.map_cons, List.nodup_cons] at hnodup
    have hstep := ih hnodup.2 (sp.put (trimmed h.1) (trimmed h.2))
    have hnames : ∀ v, (k, v) ∈ hs.map (fun h => (trimmed h.1, trimmed h.2)) →
        k ∈ hs.map fun h => trimmed h.1 := by
      intro v hv
      obtain ⟨h', hh', heq⟩ := List.mem_map.mp hv
      exact List.mem_map.mpr ⟨h', hh', (Prod.mk.inj heq).1⟩
    refine hstep.trans ?_
    rw [List.map_cons, List.map_cons, List.mem_cons, List.mem_cons, Prod.mk.injEq]
    by_cases hk : k = trimmed h.1
    · subst hk
      rw [sp.put_of_eq _ (BEq.refl _), Option.some.injEq]
      constructor
      · rintro (hv | ⟨rfl, -⟩)
        · exact absurd (hnames v hv) hnodup.1
        · exact .inl (.inl ⟨rfl, rfl⟩)
      · rintro ((⟨-, rfl⟩ | hv) | ⟨-, hno⟩)
        · exact .inr ⟨rfl, hnodup.1⟩
        · exact .inl hv
        · exact absurd (.inl rfl) hno
    · rw [sp.put_of_ne _ (by simpa using hk)]
      simp only [hk, false_and, false_or]

omit [Hashable Bytes] in
theorem firsts_of_nodup {ks : List Bytes} (h : ks.Nodup) : Map.firsts ks = ks := by
  induction ks using List.reverseRecOn with
  | nil => rfl
  | append_singleton ks k ih =>
    rw [List.nodup_append] at h
    have hno : ¬ ks.any (· == k) = true := by
      intro hany
      obtain ⟨k', hk', heq⟩ := List.any_eq_true.mp hany
      exact h.2.2 k' hk' k (List.mem_singleton_self k) (eq_of_beq heq)
    rw [Map.firsts_concat, ih h.1, if_neg hno]

/-- What the map holds after the headers of a message: these and no others. -/
theorem headers_recovered (m : Message) : ∃ headers, putAll .empty m.headers = some headers ∧
    (∀ k v, headers.get k = some v ↔
      (k, v) ∈ m.headers.map fun h => (trimmed h.1, trimmed h.2)) ∧
    headers.length = m.headers.length := by
  obtain ⟨headers, hall, hR⟩ := exists_putAll Map.Represents.empty m.headers
  obtain ⟨hhistory, hremoved⟩ := specOf_history .empty m.headers
  refine ⟨headers, hall, fun k v => ?_, ?_⟩
  · rw [hR.refines.get_eq, specOf_map m.distinct]
    simp [Map.Spec.empty]
  · have hkeys := hR.order hremoved
    rw [hhistory, Map.Spec.empty, List.nil_append, firsts_of_nodup m.distinct] at hkeys
    rw [Map.Header.length, Map.Header.len, hkeys, List.length_map]

end Headers

/-! ### The whole request -/

namespace Message

variable (m : Message) {e : LineEnding}

theorem lines_headLine : ∀ l ∈ m.lines, IsHeadLine l := by
  have happend : ∀ {s t : Bytes} {c : UInt8}, IsLine s → IsLine t → c ≠ 0 → c ≠ 13 → c ≠ 10 →
      IsHeadLine (s ++ c :: t) := by
    intro s t c hs ht h0 h13 h10
    refine ⟨⟨?_, ?_, ?_⟩, by simp⟩
    · simp [hs.noNul, ht.noNul, h0.symm]
    · simp [hs.noReturn, ht.noReturn, h13.symm]
    · simp [hs.noFeed, ht.noFeed, h10.symm]
  have hpath := happend (c := 32) m.path_line m.version_line (by decide) (by decide) (by decide)
  rw [lines, List.forall_mem_cons]
  refine ⟨happend m.method_line hpath.toIsLine (by decide) (by decide) (by decide), fun l hl => ?_⟩
  obtain ⟨h, hh, rfl⟩ := List.mem_map.mp hl
  exact happend (m.name_line h hh).1 (m.value_line h hh) (by decide) (by decide) (by decide)

/-- The head of the text of a message: its lines without the last ending. -/
def head (e : LineEnding) : Bytes :=
  block e (m.method ++ 32 :: (m.path ++ 32 :: m.version)) (m.headers.map fun h => h.1 ++ 58 :: h.2)

theorem text_eq : m.text e = m.head e ++ (e.text ++ (e.text ++ m.body)) := by
  rw [text, lines, flatMap_eq_block, head, List.append_assoc]

theorem noNul_head : 0 ∉ m.head e := noNul_block m.lines_headLine

theorem noNul_text : 0 ∉ m.text e := by
  rw [text_eq]
  have he : 0 ∉ e.text := by cases e <;> decide
  simp [m.noNul_head, he, m.body_noNul]

/-- What is read of the head: the method, the path and the headers. -/
theorem parse_head [Hashable Bytes] : ∃ line lines headers,
    split (m.head e) [10] = some (line :: lines) ∧
    parseRequestLine line = some (m.method, m.path) ∧
    lines.foldlM parseHeader .empty = some headers ∧
    (∀ k v, headers.get k = some v ↔
      (k, v) ∈ m.headers.map fun h => (trimmed h.1, trimmed h.2)) ∧
    headers.length = m.headers.length := by
  have hpieces := @pieces_block e _ _ m.lines_headLine
  have hmem : ∀ p ∈ pieces [10] (m.head e), 0 ∉ p := by
    intro p hp h0
    exact m.noNul_head (mem_of_mem_cut (List.cons_ne_nil 10 []) hp h0)
  have hsplit : split (m.head e) [10] = some (pieces [10] (m.head e)) :=
    split_eq m.noNul_head (by decide) (List.cons_ne_nil 10 [])
  obtain ⟨headers, hall, hget, hlength⟩ := headers_recovered m
  change (pieces [10] (m.head e)).map withoutEnd = _ at hpieces
  cases hcut : pieces [10] (m.head e) with
  | nil => exact absurd hcut (cut_ne_nil (List.cons_ne_nil 10 []) _ _)
  | cons line lines =>
    rw [hcut] at hpieces hmem hsplit
    rw [List.map_cons, List.map_cons, List.cons.injEq, List.map_map] at hpieces
    rw [List.forall_mem_cons] at hmem
    refine ⟨line, lines, headers, hsplit, parseRequestLine_eq hmem.1 hpieces.1, ?_, hget, hlength⟩
    rw [foldlM_parseHeader m.name_line m.value_line hmem.2 hpieces.2, hall]

end Message

section Cut

variable {raw head sep body : Bytes}

/-- The text is cut at the separator that is found. -/
theorem cutBody_of_found (hno : 0 ∉ raw) (hraw : raw = head ++ (sep ++ body))
    (hfind : findSeparator raw = some (((head.length : ℕ) : ℤ), ((sep.length : ℕ) : ℤ))) :
    cutBody raw = some (head, body) := by
  have hlen : raw.length = head.length + sep.length + body.length := by
    rw [hraw]
    simp
    omega
  have hhead : substring raw 0 (head.length : ℕ) = some head := by
    have hsub := substring_eq hno (Nat.zero_le head.length) (by omega)
    rw [Nat.cast_zero, List.drop_zero] at hsub
    rw [hsub, hraw, List.take_left]
  have hbody : substring raw ((head.length : ℕ) + (sep.length : ℕ)) (raw.length : ℕ) =
      some body := by
    have hsub := substring_eq hno (by omega : head.length + sep.length ≤ raw.length) le_rfl
    have hdrop : raw.drop (head.length + sep.length) = body := by
      rw [hraw, List.drop_length_add_append, List.drop_left]
    rw [List.take_length, hdrop, Nat.cast_add] at hsub
    exact hsub
  simp only [cutBody, hfind, Option.bind_eq_bind, Option.bind_some]
  rw [if_pos (Int.natCast_nonneg _), hhead, Option.bind_some, strlen_of_noNul hno, hbody]
  rfl

theorem findSeparator_crlf (hno : 0 ∉ raw) {k : ℕ} (h : FirstAt [13, 10, 13, 10] raw k) :
    findSeparator raw = some ((k : ℤ), 4) := by
  have hindex := indexOf_of_firstAt hno (by decide) (List.cons_ne_nil _ _) h
  simp only [findSeparator, hindex, Option.bind_eq_bind, Option.bind_some]
  exact if_neg (not_lt.mpr (Int.natCast_nonneg k))

theorem findSeparator_lf (hno : 0 ∉ raw) (hnone : ¬ [13, 10, 13, 10] <:+: raw) {k : ℕ}
    (h : FirstAt [10, 10] raw k) : findSeparator raw = some ((k : ℤ), 2) := by
  have hmiss := indexOf_of_not_infix hno (by decide) (List.cons_ne_nil _ _) hnone
  have hindex := indexOf_of_firstAt hno (by decide) (List.cons_ne_nil _ _) h
  simp only [findSeparator, hmiss, hindex, Option.bind_eq_bind, Option.bind_some]
  exact if_pos (by decide)

end Cut

namespace Message

variable (m : Message) {e : LineEnding}

/-- The head of the text ends at its own blank line, when the body has none of the style that is
looked for first. -/
theorem cutBody_text (h : e = .crlf ∨ ¬ [13, 10, 13, 10] <:+: m.body) :
    cutBody (m.text e) = some (m.head e, m.body) := by
  have hno := @noNul_text m e
  have hfirst : FirstAt (e.text ++ e.text) (m.text e) (m.head e).length := by
    rw [text_eq]
    exact firstAt_block m.lines_headLine m.body
  have htext : m.text e = m.head e ++ ((e.text ++ e.text) ++ m.body) := by
    rw [text_eq, List.append_assoc]
  refine cutBody_of_found hno htext ?_
  cases e with
  | crlf => exact findSeparator_crlf hno hfirst
  | lf =>
    have hbody : ¬ [13, 10, 13, 10] <:+: m.body := h.resolve_left (by decide)
    refine findSeparator_lf hno ?_ hfirst
    have hfront : (13 : UInt8) ∉ m.head .lf ++ (LineEnding.lf.text ++ LineEnding.lf.text) := by
      have := @noReturn_block _ _ m.lines_headLine
      rw [List.mem_append]
      exact not_or.mpr ⟨this, by decide⟩
    rwa [htext, ← List.append_assoc, isInfix_append_iff hfront]

/-- Otherwise the head is taken to end at the blank line in the body. -/
theorem cutBody_text_lf (h : [13, 10, 13, 10] <:+: m.body) :
    ∃ head k, cutBody (m.text .lf) = some (head, m.body.drop (k + 4)) ∧ k + 4 ≤ m.body.length := by
  have hno := @noNul_text m .lf
  obtain ⟨k, hk⟩ := exists_firstAt h
  have hlen := hk.add_length_le (List.cons_ne_nil _ _)
  have hfront : (13 : UInt8) ∉ m.head .lf ++ (LineEnding.lf.text ++ LineEnding.lf.text) := by
    have := @noReturn_block _ _ m.lines_headLine
    rw [List.mem_append]
    exact not_or.mpr ⟨this, by decide⟩
  have htext : m.text .lf =
      (m.head .lf ++ (LineEnding.lf.text ++ LineEnding.lf.text)) ++ m.body := by
    rw [text_eq, List.append_assoc, List.append_assoc]
  have hbody : m.body = m.body.take k ++ ([13, 10, 13, 10] ++ m.body.drop (k + 4)) := by
    have hrest := List.prefix_iff_eq_append.mp hk.here
    rw [List.drop_drop] at hrest
    exact (List.take_append_drop k m.body).symm.trans (congrArg (m.body.take k ++ ·) hrest.symm)
  have hcut : m.text .lf =
      ((m.head .lf ++ (LineEnding.lf.text ++ LineEnding.lf.text)) ++ m.body.take k) ++
        ([13, 10, 13, 10] ++ m.body.drop (k + 4)) := by
    rw [List.append_assoc, ← hbody]
    exact htext
  have hfirst := hk.append hfront
  rw [← htext] at hfirst
  refine ⟨_, k, cutBody_of_found hno hcut ?_, hlen⟩
  have htake : (m.body.take k).length = k := by
    rw [List.length_take]
    omega
  have hfound := findSeparator_crlf hno hfirst
  rw [← htake, ← List.length_append] at hfound
  exact hfound

variable [Hashable Bytes]

/-- The request that is built from the text of a message is the message. -/
def Parsed (conn : TcpConnection) : Prop := ∃ req, parseRequest conn = some req ∧ m.Recovered req

section Parsed

variable {m} {conn : TcpConnection} (hread : conn.recv 8192 = m.text e)

include hread

omit [Hashable Bytes] in
theorem read_eq : conn.read 8192 = m.text e := by
  rw [TcpConnection.read, hread, strlen_of_noNul m.noNul_text, List.take_length]

theorem parsed_of_own_separator (h : e = .crlf ∨ ¬ [13, 10, 13, 10] <:+: m.body) :
    m.Parsed conn := by
  obtain ⟨line, lines, headers, hsplit, hline, hheaders, hget, hcount⟩ := @parse_head m e _
  refine ⟨⟨m.method, m.path, headers, m.body⟩, ?_, rfl, rfl, hget, hcount, rfl⟩
  simp only [parseRequest, read_eq hread, m.cutBody_text h, Option.bind_eq_bind, Option.bind_some,
    hsplit, hline, hheaders]

/-- A blank line of the other style in the body costs the body what stands before it. -/
theorem not_parsed (he : e = .lf) (h : [13, 10, 13, 10] <:+: m.body) : ¬ m.Parsed conn := by
  subst he
  rintro ⟨req, hreq, hrecovered⟩
  obtain ⟨head, k, hcut, hlen⟩ := m.cutBody_text_lf h
  have hbody : req.body = m.body.drop (k + 4) := by
    simp only [parseRequest, read_eq hread, hcut, Option.bind_eq_bind, Option.bind_some,
      Option.bind_eq_some_iff] at hreq
    obtain ⟨lines, -, hreq⟩ := hreq
    cases lines with
    | nil => rw [← Option.some.inj hreq]
    | cons line lines =>
      simp only [Option.bind_eq_some_iff] at hreq
      obtain ⟨p, -, headers, -, hreq⟩ := hreq
      rw [← Option.some.inj hreq]
  have hsame := congrArg List.length (hbody.symm.trans hrecovered.body)
  rw [List.length_drop] at hsame
  omega

end Parsed

/-- A request read in one piece is recovered from its text if and only if its lines end in CRLF or
its body does not hold a blank line of that style. -/
theorem parsed_iff {m : Message} {e : LineEnding} {conn : TcpConnection}
    (hread : conn.recv 8192 = m.text e) :
    m.Parsed conn ↔ e = .crlf ∨ ¬ [13, 10, 13, 10] <:+: m.body := by
  constructor
  · intro hparsed
    by_contra hbad
    rw [not_or, not_not] at hbad
    cases e with
    | crlf => exact hbad.1 rfl
    | lf => exact not_parsed hread rfl hbad.2 hparsed
  · exact parsed_of_own_separator hread

end Message

/-- `POST / HTTP/1.1` with one header. The body is of one blank line and a letter at each side. -/
def samplePost : Message where
  method := bytes "POST"
  path := bytes "/"
  version := bytes "HTTP/1.1"
  headers := [(bytes "Host", bytes " here ")]
  body := 97 :: ([13, 10, 13, 10] ++ [98])
  method_line := ⟨by decide, by decide, by decide⟩
  method_noSpace := by decide
  path_line := ⟨by decide, by decide, by decide⟩
  path_noSpace := by decide
  version_line := ⟨by decide, by decide, by decide⟩
  version_visible := ⟨72, by decide, by decide⟩
  name_line := by
    rw [List.forall_mem_singleton]
    exact ⟨⟨by decide, by decide, by decide⟩, by decide⟩
  value_line := by
    rw [List.forall_mem_singleton]
    exact ⟨by decide, by decide, by decide⟩
  distinct := List.nodup_singleton _
  body_noNul := by decide

theorem parsed_samplePost : samplePost.Parsed ⟨fun _ => samplePost.text .crlf⟩ :=
  (Message.parsed_iff rfl).mpr (.inl rfl)

/-- With plain line feeds the same request loses the first letter of its body. -/
theorem not_parsed_samplePost : ¬ samplePost.Parsed ⟨fun _ => samplePost.text .lf⟩ :=
  Message.not_parsed rfl rfl ⟨[97], [98], rfl⟩

end Http

end TurfLang
