import TurfLang.Sema.TypeWalk
import TurfLang.Sema.Written

/-!
# `isEquivalent` on the types a program can have

The types are those `ParseType` builds, and what `substitute` makes of them. Most constructors are
compared by name, and a name leaves open whether a suffix (`*`, `[N]`) or a prefix (`&`, `&?`,
`!`, `fn(..): `) is applied first, where neither is in parentheses. So `isEquivalent` is equality
except on two types that are written alike and nested differently.
-/

namespace TurfLang

namespace TurfType

/-! ### The types of a program -/

/-- `ParseTrailingArrayDims`: the first dimension written is the outermost. -/
def wrapDims (base : TurfType) (dims : List ArraySize) : TurfType :=
  dims.foldr (fun d b => array b d) base

/-- The `*`s after a type. -/
def wrapPointers (base : TurfType) (stars : ℕ) : TurfType := pointer^[stars] base

/-- A dimension as the parser takes it: `[]`, a positive `int`, or a size parameter. -/
def IsParsedSize : ArraySize → Prop
  | .unsized => True
  | .fixed size => 0 < size ∧ size < 2 ^ 31
  | .param name => IsName name

/-- The types that `(`..`)` may stand around, before dimensions. -/
def TakesParens : TurfType → Prop
  | reference _ | nullableReference _ | func _ _ => True
  | _ => False

/-- The types `ParseType` builds, one constructor for each of its branches. -/
inductive Parsed : TurfType → Prop
  | errorUnion {t : TurfType} (h : Parsed t) : Parsed (errorUnion t)
  | group {t : TurfType} {dims : List ArraySize} (h : Parsed t) (hparens : t.TakesParens)
    (hne : dims ≠ []) (hdims : ∀ d ∈ dims, IsParsedSize d) : Parsed (t.wrapDims dims)
  | reference {t : TurfType} (h : Parsed t) : Parsed (reference t)
  | nullableReference {t : TurfType} (h : Parsed t) : Parsed (nullableReference t)
  | func {ret : TurfType} {params : List TurfType} (hparams : ∀ t ∈ params, Parsed t)
    (hret : Parsed ret) : Parsed (func ret params)
  | opaquePointer : Parsed opaquePointer
  | guess : Parsed guess
  | builtin {t : TurfType} (stars : ℕ) (dims : List ArraySize)
    (h : t ∈ [int, int32, double, bool, char, string, void])
    (hdims : ∀ d ∈ dims, IsParsedSize d) : Parsed ((t.wrapPointers stars).wrapDims dims)
  | named {name : String} (stars : ℕ) (dims : List ArraySize) (hname : IsName name)
    (hfree : name ∉ primitiveNames) (hdims : ∀ d ∈ dims, IsParsedSize d) :
    Parsed (((named name).wrapPointers stars).wrapDims dims)
  | generic {base : String} {args : List TurfType} (stars : ℕ) (dims : List ArraySize)
    (hbase : IsName base) (hne : args ≠ []) (hargs : ∀ t ∈ args, Parsed t)
    (hdims : ∀ d ∈ dims, IsParsedSize d) :
    Parsed (((generic base args).wrapPointers stars).wrapDims dims)

/-- What `substitute` makes of them, again and again: a parameter stands for a type of a program
or for the value of a size. -/
inductive Built : TurfType → Prop
  | parsed {t : TurfType} (h : Parsed t) : Built t
  | substitute {t : TurfType} (isResolvedIdentity : String → Bool) (s : TypeWalk.SubstMap)
    (ht : Built t)
    (hs : ∀ entry ∈ s, (∀ value, entry.2 ≠ sizeValue value) → Built entry.2) :
    Built (TypeWalk.substitute isResolvedIdentity s t)

mutual

/-- The constructors such a type is made of. -/
def WellBuilt : TurfType → Prop
  | array e size => e.WellBuilt ∧ IsSize size
  | pointer p | reference p | nullableReference p | errorUnion p => p.WellBuilt
  | generic base args => IsName base ∧ AllWellBuilt args
  | func ret params => AllWellBuilt params ∧ ret.WellBuilt
  | t => IsLeaf t

def AllWellBuilt : List TurfType → Prop
  | [] => True
  | t :: ts => t.WellBuilt ∧ AllWellBuilt ts

end

theorem allWellBuilt_of_forall {ts : List TurfType} (h : ∀ t ∈ ts, t.WellBuilt) :
    AllWellBuilt ts := by
  induction ts with
  | nil => trivial
  | cons t ts ih =>
    exact ⟨h t List.mem_cons_self, ih fun u hu => h u (List.mem_cons_of_mem _ hu)⟩

theorem IsParsedSize.isSize {size : ArraySize} (h : IsParsedSize size) : IsSize size := by
  cases size with
  | unsized => trivial
  | fixed size => trivial
  | param name => exact h

theorem WellBuilt.wrapDims {t : TurfType} (h : t.WellBuilt) {dims : List ArraySize}
    (hdims : ∀ d ∈ dims, IsParsedSize d) : (t.wrapDims dims).WellBuilt := by
  induction dims with
  | nil => exact h
  | cons d dims ih =>
    exact ⟨ih fun d' hd' => hdims d' (List.mem_cons_of_mem _ hd'),
      (hdims d List.mem_cons_self).isSize⟩

theorem WellBuilt.wrapPointers {t : TurfType} (h : t.WellBuilt) (stars : ℕ) :
    (t.wrapPointers stars).WellBuilt := by
  induction stars with
  | zero => exact h
  | succ stars ih =>
    rw [TurfType.wrapPointers, Function.iterate_succ_apply']
    exact ih

theorem Parsed.wellBuilt {t : TurfType} (h : Parsed t) : t.WellBuilt := by
  induction h with
  | errorUnion _ ih | reference _ ih | nullableReference _ ih => exact ih
  | group _ _ _ hdims ih => exact ih.wrapDims hdims
  | func _ _ ihparams ihret => exact ⟨allWellBuilt_of_forall ihparams, ihret⟩
  | opaquePointer | guess => exact .inl (by simp [reservedTypes])
  | @builtin t stars dims h hdims =>
    refine (WellBuilt.wrapPointers ?_ stars).wrapDims hdims
    simp only [List.mem_cons, List.not_mem_nil, or_false] at h
    rcases h with rfl | rfl | rfl | rfl | rfl | rfl | rfl <;>
      exact .inl (by simp [reservedTypes])
  | @named name stars dims hname hfree hdims =>
    refine (WellBuilt.wrapPointers ?_ stars).wrapDims hdims
    exact .inr (.inl ⟨name, rfl, hname, hfree⟩)
  | @generic base args stars dims hbase hne hargs hdims ih =>
    refine (WellBuilt.wrapPointers ?_ stars).wrapDims hdims
    exact ⟨hbase, allWellBuilt_of_forall ih⟩

theorem isSize_substituteSize (s : TypeWalk.SubstMap) {size : ArraySize} (h : IsSize size) :
    IsSize (TypeWalk.substituteSize s size) := by
  cases size with
  | unsized => trivial
  | fixed size => trivial
  | param name =>
    simp only [TypeWalk.substituteSize]
    split
    · trivial
    · exact h

section

variable {isResolvedIdentity : String → Bool} {s : TypeWalk.SubstMap}

theorem wellBuilt_lookup (hs : ∀ entry ∈ s, entry.2.WellBuilt) {name : String} {t : TurfType}
    (ht : t.WellBuilt) : ((s.lookup name).getD t).WellBuilt := by
  cases hlookup : s.lookup name with
  | none => exact ht
  | some u =>
    obtain ⟨l₁, l₂, rfl, -⟩ := List.lookup_eq_some_iff.1 hlookup
    exact hs (name, u) (by simp)

mutual

theorem WellBuilt.substitute (hs : ∀ entry ∈ s, entry.2.WellBuilt) (t : TurfType) (ht : t.WellBuilt) :
    (TypeWalk.substitute isResolvedIdentity s t).WellBuilt := by
  cases t with
  | named name =>
    rw [TypeWalk.substitute]
    by_cases hname : isResolvedIdentity name = true
    · rw [if_pos hname]
      exact ht
    · rw [if_neg hname]
      exact wellBuilt_lookup hs ht
  | genericParam name => exact wellBuilt_lookup hs ht
  | array e size => exact ⟨WellBuilt.substitute hs e ht.1, isSize_substituteSize s ht.2⟩
  | pointer p | reference p | nullableReference p | errorUnion p => exact WellBuilt.substitute hs p ht
  | generic base args => exact ⟨ht.1, AllWellBuilt.substitute hs args ht.2⟩
  | func ret params => exact ⟨AllWellBuilt.substitute hs params ht.1, WellBuilt.substitute hs ret ht.2⟩
  | _ => exact ht

theorem AllWellBuilt.substitute (hs : ∀ entry ∈ s, entry.2.WellBuilt) (ts : List TurfType)
    (hts : AllWellBuilt ts) : AllWellBuilt (TypeWalk.substituteList isResolvedIdentity s ts) := by
  match ts with
  | [] => trivial
  | t :: ts => exact ⟨WellBuilt.substitute hs t hts.1, AllWellBuilt.substitute hs ts hts.2⟩

end

end

theorem Built.wellBuilt {t : TurfType} (h : Built t) : t.WellBuilt := by
  induction h with
  | parsed h => exact h.wellBuilt
  | substitute _ s _ _ iht ihs =>
    refine WellBuilt.substitute (fun entry hentry => ?_) _ iht
    by_cases hvalue : ∃ value, entry.2 = sizeValue value
    · obtain ⟨value, hvalue⟩ := hvalue
      rw [hvalue]
      exact .inr (.inr ⟨value, rfl⟩)
    · exact ihs entry hentry fun value heq => hvalue ⟨value, heq⟩

/-! ### What their names say -/

/-- A type before dimensions that puts it in parentheses. -/
def inParens (w : Written) : List ArraySize → Written
  | [] => w
  | d :: ds => .group w ((d :: ds).map .dim)

/-- A reference puts an array in parentheses. -/
def underReference (pointee : TurfType) (w : Written) : Written :=
  if pointee.isArray then .group w [] else w

mutual

/-- The reading of what `printFrom` prints. -/
def writtenFrom : TurfType → List ArraySize → Written
  | array e size, dims => writtenFrom e (dims ++ [size])
  | pointer p, dims => (writtenFrom p []).add (.star :: dims.map .dim)
  | reference p, dims => inParens (.reference (underReference p (writtenFrom p []))) dims
  | nullableReference p, dims =>
    inParens (.nullableReference (underReference p (writtenFrom p []))) dims
  | generic base args, dims => .generic base (writtenList args) (dims.map .dim)
  | errorUnion success, dims => .errorUnion ((writtenFrom success []).add (dims.map .dim))
  | func ret params, dims => inParens (.func (writtenList params) (writtenFrom ret [])) dims
  | t, dims => .leaf t (dims.map .dim)

def writtenList : List TurfType → List Written
  | [] => []
  | t :: ts => writtenFrom t [] :: writtenList ts

end

/-- The prefixes, the core and the suffixes of a type's name. -/
def written (t : TurfType) : Written := t.writtenFrom []

/-- The dimensions as `printFrom` collects them. -/
def dimsText : List ArraySize → Option String
  | [] => none
  | d :: ds => some ((d :: ds).foldl (fun text d => text ++ d.print) "")

theorem dimsText_concat (dims : List ArraySize) (size : ArraySize) :
    dimsText (dims ++ [size]) = some ((dimsText dims).getD "" ++ size.print) := by
  cases dims with
  | nil => rfl
  | cons d ds =>
    show some (((d :: ds) ++ [size]).foldl _ "") = _
    rw [List.foldl_append]
    rfl

theorem foldl_print_toList (dims : List ArraySize) (text : String) :
    (dims.foldl (fun text d => text ++ d.print) text).toList =
      text.toList ++ suffixText (dims.map .dim) := by
  induction dims generalizing text with
  | nil => simp [suffixText]
  | cons d ds ih => simp [ih, suffixText, Suffix.text]

theorem withDims_toList (base : String) (dims : List ArraySize) :
    (withDims base (dimsText dims)).toList = base.toList ++ suffixText (dims.map .dim) := by
  cases dims with
  | nil => simp [dimsText, withDims, suffixText]
  | cons d ds =>
    rw [dimsText, withDims, String.toList_append, foldl_print_toList]
    rfl

theorem withDimsParen_toList {base : String} {w : Written} (h : w.text = base.toList)
    (dims : List ArraySize) :
    (withDimsParen base (dimsText dims)).toList = (inParens w dims).text := by
  cases dims with
  | nil => exact h.symm
  | cons d ds =>
    have hparen : ("(" ++ base ++ ")").toList = '(' :: (base.toList ++ [')']) := by simp
    rw [dimsText, withDimsParen, String.toList_append, foldl_print_toList, hparen, inParens,
      Written.text, h]
    simp

mutual

/-- A name is the text of its reading. -/
theorem text_writtenFrom (t : TurfType) (dims : List ArraySize) :
    (t.writtenFrom dims).text = (t.printFrom (dimsText dims)).toList := by
  cases t with
  | array e size =>
    rw [writtenFrom, printFrom, text_writtenFrom e, dimsText_concat]
  | pointer p =>
    rw [writtenFrom, printFrom, Written.text_add, text_writtenFrom p, withDims_toList,
      String.toList_append, List.append_assoc]
    rfl
  | reference p =>
    rw [writtenFrom, printFrom]
    refine (withDimsParen_toList ?_ dims).symm
    rw [Written.text, underReference]
    by_cases harr : p.isArray = true
    · rw [if_pos harr, if_pos harr, Written.text, text_writtenFrom p]
      simp [suffixText, dimsText]
    · rw [if_neg harr, if_neg harr, text_writtenFrom p]
      simp [dimsText]
  | nullableReference p =>
    rw [writtenFrom, printFrom]
    refine (withDimsParen_toList ?_ dims).symm
    rw [Written.text, underReference]
    by_cases harr : p.isArray = true
    · rw [if_pos harr, if_pos harr, Written.text, text_writtenFrom p]
      simp [suffixText, dimsText]
    · rw [if_neg harr, if_neg harr, text_writtenFrom p]
      simp [dimsText]
  | generic base args =>
    rw [writtenFrom, printFrom, withDims_toList, Written.text, textList_writtenList args]
    simp
  | errorUnion success =>
    rw [writtenFrom, printFrom, withDims_toList, Written.text, Written.text_add,
      text_writtenFrom success]
    simp [dimsText]
  | func ret params =>
    rw [writtenFrom, printFrom]
    refine (withDimsParen_toList ?_ dims).symm
    rw [Written.text, textList_writtenList params, text_writtenFrom ret]
    simp [dimsText]
  | _ => exact (withDims_toList _ dims).symm

theorem textList_writtenList (ts : List TurfType) :
    Written.textList (writtenList ts) = (printList ts).toList := by
  match ts with
  | [] => rfl
  | [t] =>
    rw [writtenList, Written.textList, text_writtenFrom t]
    simp [writtenList, Written.textTail, printList, dimsText]
  | t :: u :: us =>
    have htail := textList_writtenList (u :: us)
    rw [writtenList, Written.textList] at htail
    rw [writtenList, Written.textList, text_writtenFrom t, writtenList, Written.textTail, htail]
    simp [printList, dimsText]

end

theorem valid_dims {dims : List ArraySize} (h : ∀ d ∈ dims, IsSize d) :
    ∀ s ∈ dims.map Suffix.dim, s.Valid := by
  intro s hs
  obtain ⟨d, hd, rfl⟩ := List.mem_map.1 hs
  exact h d hd

theorem valid_inParens {w : Written} (hw : w.Valid) {dims : List ArraySize}
    (h : ∀ d ∈ dims, IsSize d) : (inParens w dims).Valid := by
  cases dims with
  | nil => exact hw
  | cons d ds => exact ⟨hw, valid_dims h⟩

theorem valid_underReference (p : TurfType) {w : Written} (hw : w.Valid) :
    (underReference p w).Valid := by
  unfold underReference
  by_cases harr : p.isArray = true
  · rw [if_pos harr]
    exact ⟨hw, by simp⟩
  · rw [if_neg harr]
    exact hw

mutual

theorem valid_writtenFrom (t : TurfType) (ht : t.WellBuilt) (dims : List ArraySize)
    (hdims : ∀ d ∈ dims, IsSize d) : (t.writtenFrom dims).Valid := by
  cases t with
  | array e size =>
    refine valid_writtenFrom e ht.1 _ fun d hd => ?_
    rcases List.mem_append.1 hd with hd | hd
    · exact hdims d hd
    · rw [List.mem_singleton.1 hd]
      exact ht.2
  | pointer p =>
    refine (valid_writtenFrom p ht [] (by simp)).add fun s hs => ?_
    rcases List.mem_cons.1 hs with rfl | hs
    · trivial
    · exact valid_dims hdims s hs
  | reference p | nullableReference p =>
    have hp : (underReference p (p.writtenFrom [])).Valid :=
      valid_underReference p (valid_writtenFrom p ht [] (by simp))
    rw [writtenFrom]
    refine valid_inParens ?_ hdims
    exact hp
  | generic base args => exact ⟨ht.1, valid_writtenList args ht.2, valid_dims hdims⟩
  | errorUnion success => exact (valid_writtenFrom success ht [] (by simp)).add (valid_dims hdims)
  | func ret params =>
    have hfunc : (Written.func (writtenList params) (ret.writtenFrom [])).Valid :=
      ⟨valid_writtenList params ht.1, valid_writtenFrom ret ht.2 [] (by simp)⟩
    rw [writtenFrom]
    exact valid_inParens hfunc hdims
  | _ => exact ⟨ht, valid_dims hdims⟩

theorem valid_writtenList (ts : List TurfType) (hts : AllWellBuilt ts) :
    Written.AllValid (writtenList ts) := by
  match ts with
  | [] => trivial
  | t :: ts => exact ⟨valid_writtenFrom t hts.1 [] (by simp), valid_writtenList ts hts.2⟩

end

/-- Two types of a program print alike exactly when they read alike. -/
theorem getName_eq_iff {t t' : TurfType} (ht : t.WellBuilt) (ht' : t'.WellBuilt) :
    t.getName = t'.getName ↔ t.written = t'.written := by
  have htext : ∀ u : TurfType, u.written.text = u.getName.toList := fun u => text_writtenFrom u []
  constructor
  · intro h
    refine Written.text_inj (valid_writtenFrom t ht [] (by simp))
      (valid_writtenFrom t' ht' [] (by simp)) ?_
    show t.written.text = t'.written.text
    rw [htext, htext, h]
  · intro h
    rw [← String.toList_inj, ← htext, ← htext, h]

/-! ### What `isEquivalent` compares -/

mutual

/-- Two types that are written alike, where arrays and function types are taken apart first. -/
def SameWriting : TurfType → TurfType → Prop
  | array e size, other =>
    match other with
    | array e' size' => size = size' ∧ SameWriting e e'
    | _ => False
  | func ret params, other =>
    match other with
    | func ret' params' => AllSameWriting params params' ∧ SameWriting ret ret'
    | _ => False
  | t, other => t.written = other.written

/-- As many types, position by position. -/
def AllSameWriting : List TurfType → List TurfType → Prop
  | [], [] => True
  | t :: ts, t' :: ts' => SameWriting t t' ∧ AllSameWriting ts ts'
  | _, _ => False

end

/-- Two types written alike with their prefixes and suffixes applied in different orders. -/
def Regrouped (t t' : TurfType) : Prop := SameWriting t t' ∧ t ≠ t'

/-- Only the value of a size is written as a number. -/
theorem sizeValue_written_iff {value : ℕ} {t : TurfType} (ht : t.WellBuilt) :
    (sizeValue value).written = t.written ↔ t = sizeValue value := by
  constructor
  · intro h
    have hleaf : (sizeValue value).WellBuilt := .inr (.inr ⟨value, rfl⟩)
    have hname : t.getName = toString value := ((getName_eq_iff hleaf ht).2 h).symm
    have hdigits : ∀ c ∈ t.getName.toList, c.isDigit = true := by
      rw [hname]
      exact fun c hc => isDigit_of_mem_toString hc
    cases t with
    | array e size =>
      have hlast := hdigits ']' (List.mem_of_getLast? (getName_array_getLast e size))
      cases hlast
    | pointer p =>
      have hlast := hdigits '*' (by simp [getName_pointer])
      cases hlast
    | sizeValue value' =>
      simp only [written, writtenFrom, Written.leaf.injEq, sizeValue.injEq, List.map_nil,
        and_true] at h
      rw [h]
    | reference p | nullableReference p | generic base args | errorUnion success
    | func ret params => simp [written, writtenFrom, inParens] at h
    | _ => simp [written, writtenFrom] at h
  · rintro rfl
    rfl

mutual

theorem isEquivalent_iff_sameWriting (t t' : TurfType) (ht : t.WellBuilt) (ht' : t'.WellBuilt) :
    t.isEquivalent t' = true ↔ SameWriting t t' := by
  have hname : (decide (t.getName = t'.getName) = true) ↔ t.written = t'.written := by
    rw [decide_eq_true_iff, getName_eq_iff ht ht']
  cases t with
  | array e size =>
    cases t' with
    | array e' size' =>
      rw [isEquivalent, SameWriting, Bool.and_eq_true, decide_eq_true_iff,
        isEquivalent_iff_sameWriting e e' ht.1 ht'.1]
    | _ => simp [isEquivalent, SameWriting]
  | func ret params =>
    cases t' with
    | func ret' params' =>
      rw [isEquivalent, SameWriting, Bool.and_eq_true,
        allEquivalent_iff_allSameWriting params params' ht.1 ht'.1,
        isEquivalent_iff_sameWriting ret ret' ht.2 ht'.2]
    | _ => simp [isEquivalent, SameWriting]
  | sizeValue value =>
    rw [SameWriting, sizeValue_written_iff ht']
    · cases t' <;> simp [isEquivalent, eq_comm]
    all_goals simp
  | _ => exact hname

theorem allEquivalent_iff_allSameWriting (ts ts' : List TurfType) (hts : AllWellBuilt ts)
    (hts' : AllWellBuilt ts') :
    (decide (ts.length = ts'.length) && allEquivalent ts ts') = true ↔ AllSameWriting ts ts' := by
  match ts, ts' with
  | [], [] => simp [allEquivalent, AllSameWriting]
  | [], _ :: _ | _ :: _, [] => simp [AllSameWriting]
  | t :: ts, t' :: ts' =>
    have htail := allEquivalent_iff_allSameWriting ts ts' hts.2 hts'.2
    rw [AllSameWriting, ← htail, ← isEquivalent_iff_sameWriting t t' hts.1 hts'.1, allEquivalent]
    simp only [List.length_cons, Nat.add_right_cancel_iff, Bool.and_eq_true, decide_eq_true_eq]
    tauto

end

/-- `isEquivalent` is equality on the types of a program, except on the regrouped pairs. -/
theorem isEquivalent_iff_eq_iff {t t' : TurfType} (h : Built t) (h' : Built t') :
    (t.isEquivalent t' = true ↔ t = t') ↔ ¬Regrouped t t' := by
  have hsame := isEquivalent_iff_sameWriting t t' h.wellBuilt h'.wellBuilt
  constructor
  · rintro heq ⟨hwriting, hne⟩
    exact hne (heq.1 (hsame.2 hwriting))
  · intro hregrouped
    constructor
    · intro hequiv
      by_contra hne
      exact hregrouped ⟨hsame.1 hequiv, hne⟩
    · rintro rfl
      exact isEquivalent_refl t

theorem parsed_named {name : String} (hname : IsName name) (hfree : name ∉ primitiveNames) :
    Parsed (named name) :=
  Parsed.named 0 [] hname hfree (by simp)

/-- The theorem at `Node*` and `&Node`. -/
theorem isEquivalent_iff_eq_iff_node :
    ((pointer (named "Node")).isEquivalent (reference (named "Node")) = true ↔
        pointer (named "Node") = reference (named "Node")) ↔
      ¬Regrouped (pointer (named "Node")) (reference (named "Node")) :=
  isEquivalent_iff_eq_iff
    (.parsed (Parsed.named 1 [] ⟨List.all_eq_true.1 (by decide), 'N', rfl, rfl⟩ (by decide)
      (by simp)))
    (.parsed (.reference
      (parsed_named ⟨List.all_eq_true.1 (by decide), 'N', rfl, rfl⟩ (by decide))))

/-- `&Node*`, and `T*` at `&Node`, are one type for `isEquivalent`; and it takes `!Node[3]` for
`T[3]` at `!Node`, but not the other way round. -/
theorem isEquivalent_regrouped :
    (Built (reference (pointer (named "Node"))) ∧ Built (pointer (reference (named "Node"))) ∧
      (reference (pointer (named "Node"))).isEquivalent (pointer (reference (named "Node"))) =
        true ∧
      reference (pointer (named "Node")) ≠ pointer (reference (named "Node"))) ∧
    Built (errorUnion (array (named "Node") (.fixed 3))) ∧
      Built (array (errorUnion (named "Node")) (.fixed 3)) ∧
      (errorUnion (array (named "Node") (.fixed 3))).isEquivalent
        (array (errorUnion (named "Node")) (.fixed 3)) = true ∧
      (array (errorUnion (named "Node")) (.fixed 3)).isEquivalent
        (errorUnion (array (named "Node") (.fixed 3))) = false := by
  have hnode : ∀ (stars : ℕ) (dims : List ArraySize), (∀ d ∈ dims, IsParsedSize d) →
      Parsed (((named "Node").wrapPointers stars).wrapDims dims) :=
    fun stars dims hdims =>
      .named stars dims ⟨List.all_eq_true.1 (by decide), 'N', rfl, rfl⟩ (by decide) hdims
  have hparam : ∀ (stars : ℕ) (dims : List ArraySize), (∀ d ∈ dims, IsParsedSize d) →
      Parsed (((named "T").wrapPointers stars).wrapDims dims) :=
    fun stars dims hdims =>
      .named stars dims ⟨List.all_eq_true.1 (by decide), 'T', rfl, rfl⟩ (by decide) hdims
  have hthree : ∀ d ∈ [ArraySize.fixed 3], IsParsedSize d := by
    intro d hd
    rw [List.mem_singleton.1 hd]
    exact ⟨by decide, by decide⟩
  have hplain : Parsed (named "Node") := hnode 0 [] (by simp)
  -- no name is resolved yet where the parameter `T` is replaced
  have hsubst : ∀ {t u : TurfType}, Parsed t → Parsed u →
      Built (TypeWalk.substitute (fun _ => false) [("T", u)] t) := by
    intro t u ht hu
    refine .substitute _ _ (.parsed ht) ?_
    rintro entry hentry -
    rw [List.mem_singleton.1 hentry]
    exact .parsed hu
  refine ⟨⟨?_, ?_, by decide, by simp⟩, ?_, ?_, by decide, by decide⟩
  · exact .parsed (.reference (hnode 1 [] (by simp)))
  · exact hsubst (hparam 1 [] (by simp)) (.reference hplain)
  · exact .parsed (.errorUnion (hnode 0 _ hthree))
  · exact hsubst (hparam 0 _ hthree) (.errorUnion hplain)

end TurfType

end TurfLang
