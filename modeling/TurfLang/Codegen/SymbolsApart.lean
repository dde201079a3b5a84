import TurfLang.Codegen.SymbolTable

/-!
# Which programs have distinct symbols

The words of a linker name are those of its module, its base name and its parameter types, one
after the other, and nothing in it says where the words of one part end. Two functions have
different names exactly when they are different as such lists of words.
-/

namespace TurfLang.Codegen

open TurfLang.Instantiate

variable {τ : Type*}

/-! ### Distinct names -/

/-- The symbols of a program's functions are different, and none is an entry point or the name of
an extern function. -/
structure Program.NamesApart (p : Program τ) : Prop where
  distinct : ∀ i j f g, p.function? i = some f → p.function? j = some g →
    f.linkName = g.linkName → i = j
  runtime : ∀ i f, p.function? i = some f → f.linkName ∉ runtimeEntryPoints
  externs : ∀ i f, p.function? i = some f → f.linkName ∉ p.cNames

/-- The words of a function's name: its module, its base name with the operators spelled out, and
its parameter types, read one after the other. -/
def TurfFunction.linkWords (f : TurfFunction) : List (List Char) :=
  if f.name = "main" then words "main"
  else
    words "turf" ++ (if f.module = "" then [] else words f.module) ++
      words (sanitizeSymbolName f.name) ++ typesWords (f.params.map Param.type)

theorem words_modulePrefix (s module : String) :
    words ("turf_" ++ modulePrefix module ++ s) =
      words "turf" ++ (if module = "" then [] else words module) ++ words s := by
  unfold modulePrefix
  split
  · rw [String.append_empty, List.append_nil]
    exact words_append_sep "turf" s
  · have hturf : "turf_" ++ (module ++ "_") ++ s = "turf" ++ "_" ++ (module ++ "_" ++ s) := by
      simp only [String.append_assoc]
      rfl
    rw [hturf, words_append_sep, words_append_sep, List.append_assoc]

theorem words_linkName {f : TurfFunction} (h : f.name = "main" → f.module = "") :
    words f.linkName = f.linkWords := by
  unfold TurfFunction.linkName TurfFunction.linkWords definitionName
  by_cases hmain : f.name = "main"
  · simp [hmain, h hmain, modulePrefix]
  · rw [if_pos hmain, if_neg hmain, mangledParams, words_append_mangleList, words_modulePrefix]

/-- No function of a module is called `main`, and the words of a function's name are not those of
another function, of an entry point or of an extern function's C name. -/
structure Program.ReadApart (p : Program τ) : Prop where
  main : ∀ i f, p.function? i = some f → f.name = "main" → f.module = ""
  functions : ∀ i j f g, p.function? i = some f → p.function? j = some g → i ≠ j →
    f.linkWords ≠ g.linkWords
  runtime : ∀ i f, p.function? i = some f → ∀ name ∈ runtimeEntryPoints, f.linkWords ≠ words name
  externs : ∀ i f, p.function? i = some f → ∀ name ∈ p.cNames, f.linkWords ≠ words name

theorem Program.ReadApart.namesApart {p : Program τ} (h : p.ReadApart) : p.NamesApart where
  distinct i j f g hf hg heq := by
    by_contra hij
    refine h.functions i j f g hf hg hij ?_
    rw [← words_linkName (h.main i f hf), ← words_linkName (h.main j g hg), heq]
  runtime i f hf hmem :=
    h.runtime i f hf _ hmem (words_linkName (h.main i f hf)).symm
  externs i f hf hmem :=
    h.externs i f hf _ hmem (words_linkName (h.main i f hf)).symm

theorem Program.NamesApart.readApart {p : Program τ} (h : p.NamesApart)
    (hmain : ∀ i f, p.function? i = some f → f.name = "main" → f.module = "") : p.ReadApart where
  main := hmain
  functions i j f g hf hg hij heq := by
    rw [← words_linkName (hmain i f hf), ← words_linkName (hmain j g hg)] at heq
    exact hij (h.distinct i j f g hf hg (words_injective heq))
  runtime i f hf name hname heq := by
    rw [← words_linkName (hmain i f hf)] at heq
    exact h.runtime i f hf (words_injective heq ▸ hname)
  externs i f hf name hname heq := by
    rw [← words_linkName (hmain i f hf)] at heq
    exact h.externs i f hf (words_injective heq ▸ hname)

/-! ### Bodies through a walk -/

/-- The bodies after the first declarations of a program: those of its functions, under their
names, and wrappers under the names of extern functions. -/
structure Emitted (p : Program τ) (count : ℕ) (M : LlvmModule τ) : Prop where
  owned : ∀ name b, M.body? name = some b →
    (∃ i f, i < count ∧ p.function? i = some f ∧ f.linkName = name ∧ b = .function i) ∨
      (b = .forwarder ∧ name ∈ p.cNames)
  done : ∀ i f, i < count → p.function? i = some f → M.body? f.linkName = some (.function i)

theorem emitted_empty (p : Program τ) : Emitted p 0 fun _ => none where
  owned name b h := by simp [LlvmModule.body?] at h
  done i f hi := absurd hi (Nat.not_lt_zero i)

theorem Emitted.congr {p : Program τ} {count : ℕ} {M M' : LlvmModule τ} (h : Emitted p count M)
    (hbody : M'.body? = M.body?) : Emitted p count M' where
  owned name b hb := h.owned name b (hbody ▸ hb)
  done i f hi hf := hbody ▸ h.done i f hi hf

/-- The function at the next position has no body yet. -/
theorem Emitted.body?_eq_none {p : Program τ} {count i : ℕ} {M : LlvmModule τ}
    (h : Emitted p count M) (hapart : p.NamesApart) (hi : count ≤ i) {f : TurfFunction}
    (hf : p.function? i = some f) : M.body? f.linkName = none := by
  by_contra hne
  obtain ⟨b, hb⟩ := Option.ne_none_iff_exists'.mp hne
  obtain ⟨j, g, hj, hg, hname, -⟩ | ⟨-, hname⟩ := h.owned _ b hb
  · have hij : j = i := hapart.distinct j i g f hg hf hname
    omega
  · exact hapart.externs i f hf hname

/-- A wrapper under the name of an extern function. -/
theorem Emitted.forwarder {p : Program τ} {count : ℕ} {M M' : LlvmModule τ}
    (h : Emitted p count M) (hapart : p.NamesApart) {name : String} (hname : name ∈ p.cNames)
    (hbody : M'.body? = Function.update M.body? name (some .forwarder)) : Emitted p count M' where
  owned other b hb := by
    rw [hbody] at hb
    by_cases hother : other = name
    · subst hother
      rw [Function.update_self] at hb
      exact .inr ⟨(Option.some.inj hb).symm, hname⟩
    · rw [Function.update_of_ne hother] at hb
      exact h.owned other b hb
  done i f hi hf := by
    have hne : f.linkName ≠ name := fun heq => hapart.externs i f hf (heq ▸ hname)
    rw [hbody, Function.update_of_ne hne]
    exact h.done i f hi hf

/-- The body of the function at the next position. -/
theorem Emitted.function {p : Program τ} {i : ℕ} {M M' : LlvmModule τ} (h : Emitted p i M)
    (hapart : p.NamesApart) {f : TurfFunction} (hf : p.function? i = some f)
    (hbody : M'.body? = Function.update M.body? f.linkName (some (.function i))) :
    Emitted p (i + 1) M' where
  owned name b hb := by
    rw [hbody] at hb
    by_cases hname : name = f.linkName
    · subst hname
      rw [Function.update_self] at hb
      exact .inl ⟨i, f, i.lt_succ_self, hf, rfl, (Option.some.inj hb).symm⟩
    · rw [Function.update_of_ne hname] at hb
      obtain ⟨j, g, hj, hrest⟩ | hforwarder := h.owned name b hb
      · exact .inl ⟨j, g, by omega, hrest⟩
      · exact .inr hforwarder
  done j g hj hg := by
    rw [hbody]
    by_cases hji : j = i
    · subst hji
      obtain rfl : f = g := Option.some.inj (hf.symm.trans hg)
      rw [Function.update_self]
    · have hne : g.linkName ≠ f.linkName := fun heq => hji (hapart.distinct j i g f hg hf heq)
      rw [Function.update_of_ne hne]
      exact h.done j g (by omega) hg

theorem Emitted.skip {p : Program τ} {i : ℕ} {M : LlvmModule τ} (h : Emitted p i M)
    (hnone : p.function? i = none) : Emitted p (i + 1) M where
  owned name b hb := by
    obtain ⟨j, g, hj, hrest⟩ | hforwarder := h.owned name b hb
    · exact .inl ⟨j, g, by omega, hrest⟩
    · exact .inr hforwarder
  done j g hj hg := by
    by_cases hji : j = i
    · subst hji
      rw [hnone] at hg
      cases hg
    · exact h.done j g (by omega) hg

variable [DecidableEq τ]

/-- The number of functions with bodies before a position, in the walk for the prototypes and in
the walk for the bodies. -/
def bodiesBefore (protoOnly : Bool) (i : ℕ) : ℕ := if protoOnly then 0 else i

/-- One declaration: there is no duplicate definition, and the bodies stay in place. -/
theorem Emitted.item {p : Program τ} (hapart : p.NamesApart) (protoOnly : Bool) {i : ℕ}
    {item : Item τ} (hitem : p[i]? = some item) {M : LlvmModule τ}
    (h : Emitted p (bodiesBefore protoOnly i) M) :
    (∀ name, item.codegen protoOnly i M ≠ .error (.duplicateDefinition name)) ∧
      ∀ M', item.codegen protoOnly i M = .ok M' →
        Emitted p (bodiesBefore protoOnly (i + 1)) M' := by
  cases item with
  | function f type lookups =>
    have hf : p.function? i = some f := by simp [Program.function?, hitem, Item.function?]
    have hle : bodiesBefore protoOnly i ≤ i := by unfold bodiesBefore; split <;> omega
    have hnone := h.body?_eq_none hapart hle hf
    cases protoOnly with
    | true =>
      have hrun : (Item.function f type lookups).codegen true i M =
          .ok (M.getOrCreate f.linkName type) := codegenFunction_prototype hnone
      rw [hrun]
      refine ⟨fun name => by simp, fun M' hM' => ?_⟩
      rw [← Except.ok.inj hM']
      exact h.congr (LlvmModule.body?_getOrCreate ..)
    | false =>
      have hrun : ∃ M₁, (Item.function f type lookups).codegen false i M = .ok M₁ ∧
          M₁.body? = Function.update M.body? f.linkName (some (.function i)) :=
        codegenFunction_body hnone
      obtain ⟨M₁, hrun, hbody⟩ := hrun
      rw [hrun]
      refine ⟨fun name => by simp, fun M' hM' => ?_⟩
      rw [← Except.ok.inj hM']
      exact h.function hapart hf hbody
  | external e =>
    have hnone : p.function? i = none := by simp [Program.function?, hitem, Item.function?]
    have hmem : e.name ∈ p.cNames :=
      List.mem_flatMap.mpr ⟨_, List.mem_of_getElem? hitem, List.mem_cons_self ..⟩
    refine ⟨fun name => codegenExtern_error, fun M' hM' => ?_⟩
    have hsame : Emitted p (bodiesBefore protoOnly i) M' := by
      rcases codegenExtern_ok hM' with hbody | ⟨-, hbody⟩
      · exact h.congr hbody
      · exact h.forwarder hapart hmem hbody
    cases protoOnly with
    | true => exact hsame
    | false => exact hsame.skip hnone

/-- One walk. -/
theorem Emitted.pass {p : Program τ} (hapart : p.NamesApart) (protoOnly : Bool) :
    ∀ {items : List (Item τ)} {i : ℕ} {M : LlvmModule τ},
      (∀ j item, items[j]? = some item → p[i + j]? = some item) →
      Emitted p (bodiesBefore protoOnly i) M →
      (∀ name, Codegen.pass protoOnly i items M ≠ .error (.duplicateDefinition name)) ∧
        ∀ M', Codegen.pass protoOnly i items M = .ok M' →
          Emitted p (bodiesBefore protoOnly (i + items.length)) M' := by
  intro items
  induction items with
  | nil =>
    intro i M _ h
    refine ⟨fun name => by simp [Codegen.pass], fun M' hM' => ?_⟩
    rw [← Except.ok.inj hM']
    exact h
  | cons item rest ih =>
    intro i M hitems h
    have hitem : p[i]? = some item := hitems 0 item rfl
    obtain ⟨hduplicate, hok⟩ := Emitted.item hapart protoOnly hitem h
    unfold Codegen.pass
    cases hrun : item.codegen protoOnly i M with
    | error e =>
      refine ⟨fun name heq => ?_, fun M' hM' => by simp at hM'⟩
      have he : e = .duplicateDefinition name := Except.error.inj heq
      exact hduplicate name (by rw [hrun, he])
    | ok M₁ =>
      have hshift : ∀ j item, rest[j]? = some item → p[i + 1 + j]? = some item := by
        intro j item' hj
        have hnext := hitems (j + 1) item' hj
        rwa [show i + (j + 1) = i + 1 + j by omega] at hnext
      have hrest := ih hshift (hok M₁ hrun)
      rwa [show i + (item :: rest).length = i + 1 + rest.length by
        rw [List.length_cons]; omega]

/-- Both walks. -/
theorem Program.NamesApart.codegen {p : Program τ} (hapart : p.NamesApart) :
    (∀ name, p.codegen ≠ .error (.duplicateDefinition name)) ∧
      ∀ M, p.codegen = .ok M → Emitted p p.length M := by
  have hitems : ∀ j item, p[j]? = some item → p[0 + j]? = some item := by
    intro j item hj
    rwa [Nat.zero_add]
  obtain ⟨hduplicate, hok⟩ := Emitted.pass hapart true hitems (emitted_empty p)
  unfold Program.codegen
  cases hrun : Codegen.pass true 0 p (fun _ => none) with
  | error e =>
    refine ⟨fun name heq => ?_, fun M hM => by simp at hM⟩
    have he : e = .duplicateDefinition name := Except.error.inj heq
    exact hduplicate name (by rw [hrun, he])
  | ok M₁ =>
    have hbodies := Emitted.pass hapart false hitems (hok M₁ hrun)
    simpa [bodiesBefore] using hbodies

/-! ### Programs whose symbols mean their functions -/

/-- The symbols of the functions are apart; a call and a constructor call compute the name of the
function they were bound to; and code generation reports no duplicate definition, finds under
the name of a call the body of that function, and under the name of an entry point or of an
extern function none of the program's functions. -/
structure Program.SymbolsFaithful (p : Program τ) : Prop where
  apart : p.NamesApart
  call : ∀ i f, p.function? i = some f → f.symbol.mangledName = f.linkName
  constructor : ∀ i f structName, p.function? i = some f → f.IsConstructor structName →
    constructorName structName f.constructorTarget = f.linkName
  noDuplicate : ∀ name, p.codegen ≠ .error (.duplicateDefinition name)
  reached : ∀ M, p.codegen = .ok M → ∀ i f, p.function? i = some f →
    M.body? f.symbol.mangledName = some (.function i)
  notReached : ∀ M, p.codegen = .ok M → ∀ name, name ∈ runtimeEntryPoints ∨ name ∈ p.cNames →
    ∀ i, M.body? name ≠ some (.function i)

/-- Every symbol means its function in exactly those programs whose functions can be told apart
by the words of their names. -/
theorem symbolsFaithful_iff (p : Program τ) : p.SymbolsFaithful ↔ p.ReadApart := by
  constructor
  · intro h
    refine h.apart.readApart fun i f hf hname => ?_
    by_contra hmodule
    exact mangledName_symbol_ne hname hmodule (h.call i f hf)
  · intro h
    have hapart := h.namesApart
    obtain ⟨hduplicate, hemitted⟩ := hapart.codegen
    have hcall : ∀ i f, p.function? i = some f → f.symbol.mangledName = f.linkName :=
      fun i f hf => mangledName_symbol (h.main i f hf)
    have hlt : ∀ {i f}, p.function? i = some f → i < p.length := by
      intro i f hf
      by_contra hle
      rw [Program.function?, List.getElem?_eq_none (by omega)] at hf
      cases hf
    refine ⟨hapart, hcall, fun i f structName hf hctor => ?_, hduplicate, fun M hM i f hf => ?_,
      fun M hM name hname i hbody => ?_⟩
    · exact constructorName_eq hctor (h.main i f hf)
    · rw [hcall i f hf]
      exact (hemitted M hM).done i f (hlt hf) hf
    · obtain ⟨j, f, -, hf, hlink, -⟩ | ⟨hforwarder, -⟩ := (hemitted M hM).owned name _ hbody
      · subst hlink
        exact hname.elim (hapart.runtime j f hf) (hapart.externs j f hf)
      · cases hforwarder

/-- A free function of the main file. -/
def mainFileFunction (name : String) (params : List Param) : TurfFunction :=
  .declared ⟨"", none, name, false, params, by simp⟩

/-- `fn f(x: int): int` and `fn f_int(): int` in the main file. -/
def underscoreProgram : Program Unit :=
  [.function (mainFileFunction "f" [⟨"x", .int⟩]) () [],
    .function (mainFileFunction "f_int" []) () []]

/-- Both are `turf_f_int`. -/
theorem not_symbolsFaithful_underscore : ¬underscoreProgram.SymbolsFaithful := by
  intro h
  have hname : (mainFileFunction "f" [⟨"x", .int⟩]).linkName =
      (mainFileFunction "f_int" []).linkName := rfl
  exact absurd (h.apart.distinct 0 1 _ _ rfl rfl hname) (by decide)

end TurfLang.Codegen
