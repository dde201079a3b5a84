import TurfLang.Sema.Instantiate
import TurfLang.Sema.Names

/-!
# `instantiatedDeclName`: the names of instantiations

An instantiation is declared under a name built from its declaration and the mangled names of
its type arguments, with underscores between. The name keeps the words of this and nothing
else: neither where an identifier that has underscores itself begins and ends, nor what a word
like `ref` belongs to.
-/

namespace TurfLang.Instantiate

/-! ### Names -/

/-- The operator names that are not symbols, with their spelling as one. -/
def operatorSymbols : List (String × String) :=
  [("operator+", "operator_plus"), ("operator-", "operator_minus"),
    ("operator*", "operator_star"), ("operator/", "operator_slash"),
    ("operator%", "operator_mod"), ("operator**", "operator_pow"),
    ("operator&", "operator_band"), ("operator|", "operator_bor"),
    ("operator^", "operator_bxor"), ("operator<<", "operator_shl"),
    ("operator>>", "operator_shr"), ("operator==", "operator_eq"),
    ("operator!=", "operator_ne"), ("operator<", "operator_lt"),
    ("operator>", "operator_gt"), ("operator<=", "operator_le"),
    ("operator>=", "operator_ge"), ("operator!", "operator_not"),
    ("operator~", "operator_bnot"), ("operator[]", "operator_index"),
    ("operator[]=", "operator_index_set")]

def sanitizeSymbolName (name : String) : String := (operatorSymbols.lookup name).getD name

def instantiatedDeclName (baseName : String) (typeArgs : List TurfType) (module : String) :
    String :=
  (if module = "" then "" else module ++ "_") ++
    (sanitizeSymbolName baseName ++ ("_gen" ++ toString typeArgs.length)) ++
      TurfType.mangleList typeArgs

/-- The name a drain gives to the clone of a request: struct clones carry no module. -/
def InstantiationRequest.cloneName (r : InstantiationRequest) : String :=
  match r.kind with
  | .struct => instantiatedDeclName r.declKey r.typeArgs ""
  | _ => instantiatedDeclName r.declKey r.typeArgs r.sourceModule

/-- The registered layouts, by name, after the struct clones of some requests were registered in
this order; a layout is the request it was made for. -/
def registerLayouts (rs : List InstantiationRequest) : String → Option InstantiationRequest :=
  rs.foldl (fun types r => Function.update types r.cloneName (some r)) fun _ => none

/-! ### Words -/

/-- The pieces of a name between its underscores. -/
def words (name : String) : List (List Char) := name.toList.splitOn '_'

theorem words_append_sep (a b : String) : words (a ++ "_" ++ b) = words a ++ words b := by
  unfold words
  rw [String.toList_append, String.toList_append, List.append_assoc]
  exact List.splitOn_append_cons_self ..

theorem words_injective {a b : String} (h : words a = words b) : a = b := by
  have hjoin := congrArg (['_'].intercalate) h
  unfold words at hjoin
  rw [List.intercalate_splitOn, List.intercalate_splitOn] at hjoin
  exact String.toList_inj.mp hjoin

theorem words_of_no_underscore {name : String} (h : '_' ∉ name.toList) :
    words name = [name.toList] := List.splitOn_eq_singleton h

theorem words_toString (n : ℕ) : words (toString n) = [(toString n).toList] := by
  refine words_of_no_underscore ?_
  rw [Nat.toString_eq_repr, Nat.toList_repr]
  exact Nat.underscore_not_in_toDigits

theorem words_append_toString {s : String} (hs : '_' ∉ s.toList) (n : ℕ) :
    words (s ++ toString n) = [(s ++ toString n).toList] := by
  refine words_of_no_underscore ?_
  rw [String.toList_append, Nat.toString_eq_repr, Nat.toList_repr, List.mem_append]
  exact fun h => h.elim hs Nat.underscore_not_in_toDigits

/-- The words of an array's size. -/
def sizeWords : ArraySize → List (List Char)
  | .unsized => words "-1"
  | .fixed size => words (toString size)
  | .param name => words name

mutual

/-- The words of a mangled name: those of the parts, with a word before or after them for the
constructor. -/
def typeWords : TurfType → List (List Char)
  | .array e size => typeWords e ++ words "arr" ++ sizeWords size
  | .pointer p => typeWords p ++ words "ptr"
  | .reference p => typeWords p ++ words "ref"
  | .nullableReference p => typeWords p ++ words "nref"
  | .sizeValue value => words ("n" ++ toString value)
  | .generic base args => words base ++ typesWords args
  | .enum name underlying => words name ++ words "enum" ++ typeWords underlying
  | .machine name => words name ++ words "machine"
  | .userError name => words name ++ words "error"
  | .errorUnion success => words "errunion" ++ typeWords success
  | .func ret params => words "fnty" ++ typesWords params ++ words "ret" ++ typeWords ret
  | t => words t.getName

def typesWords : List TurfType → List (List Char)
  | [] => []
  | t :: ts => typeWords t ++ typesWords ts

end

theorem words_append (a b s : String) (hs : s = "_" ++ b) :
    words (a ++ s) = words a ++ words b := by
  rw [hs, ← String.append_assoc, words_append_sep]

theorem words_append_between (a b c s : String) (hs : s = "_" ++ b ++ "_") :
    words (a ++ s ++ c) = words a ++ words b ++ words c := by
  rw [hs, ← String.append_assoc, ← String.append_assoc, words_append_sep, words_append_sep]

mutual

theorem words_getMangledName : ∀ t : TurfType, words t.getMangledName = typeWords t
  | .array e size => by
    cases size <;> simp only [TurfType.getMangledName, typeWords, sizeWords] <;>
      rw [words_append_between _ "arr" _ "_arr_" rfl, words_getMangledName e]
  | .pointer p => by
    rw [TurfType.getMangledName, typeWords, words_append _ "ptr" "_ptr" rfl, words_getMangledName p]
  | .reference p => by
    rw [TurfType.getMangledName, typeWords, words_append _ "ref" "_ref" rfl, words_getMangledName p]
  | .nullableReference p => by
    rw [TurfType.getMangledName, typeWords, words_append _ "nref" "_nref" rfl, words_getMangledName p]
  | .sizeValue value => by rw [TurfType.getMangledName, typeWords]
  | .generic base args => by
    rw [TurfType.getMangledName, typeWords, words_append_mangleList base args]
  | .enum name underlying => by
    rw [TurfType.getMangledName, typeWords, words_append_between _ "enum" _ "_enum_" rfl,
      words_getMangledName underlying]
  | .machine name => by
    rw [TurfType.getMangledName, typeWords, words_append _ "machine" "_machine" rfl]
  | .userError name => by
    rw [TurfType.getMangledName, typeWords, words_append _ "error" "_error" rfl]
  | .errorUnion success => by
    rw [TurfType.getMangledName, typeWords, ← words_getMangledName success, ← words_append_sep]
    rfl
  | .func ret params => by
    rw [TurfType.getMangledName, typeWords, words_append_between _ "ret" _ "_ret_" rfl,
      words_append_mangleList "fnty" params, words_getMangledName ret]
  | .int | .int32 | .double | .bool | .char | .string | .anyError | .void | .guess | .null
  | .opaquePointer | .named _ | .genericParam _ => by
    simp only [TurfType.getMangledName, typeWords]

theorem words_append_mangleList (s : String) : ∀ ts : List TurfType,
    words (s ++ TurfType.mangleList ts) = words s ++ typesWords ts
  | [] => by simp [TurfType.mangleList, typesWords]
  | t :: ts => by
    rw [TurfType.mangleList, typesWords, ← String.append_assoc,
      words_append_mangleList (s ++ ("_" ++ t.getMangledName)) ts,
      words_append s t.getMangledName _ rfl, words_getMangledName t, List.append_assoc]

end

/-- The words of an instantiation's name. -/
def nameWords (baseName : String) (typeArgs : List TurfType) (module : String) :
    List (List Char) :=
  (if module = "" then [] else words module) ++ words (sanitizeSymbolName baseName) ++
    words ("gen" ++ toString typeArgs.length) ++ typesWords typeArgs

theorem words_instantiatedDeclName (baseName : String) (typeArgs : List TurfType)
    (module : String) :
    words (instantiatedDeclName baseName typeArgs module) =
      nameWords baseName typeArgs module := by
  have hgen : words (sanitizeSymbolName baseName ++ ("_gen" ++ toString typeArgs.length)) =
      words (sanitizeSymbolName baseName) ++ words ("gen" ++ toString typeArgs.length) := by
    refine words_append _ _ _ ?_
    rw [← String.append_assoc]
    rfl
  unfold instantiatedDeclName nameWords
  rw [words_append_mangleList]
  split
  · rw [String.empty_append, hgen, List.nil_append]
  · rw [words_append_sep, hgen]
    simp only [List.append_assoc]

/-- Two instantiations have one name exactly when their names have the same words. -/
theorem instantiatedDeclName_eq_iff {baseName baseName' module module' : String}
    {typeArgs typeArgs' : List TurfType} :
    instantiatedDeclName baseName typeArgs module =
        instantiatedDeclName baseName' typeArgs' module' ↔
      nameWords baseName typeArgs module = nameWords baseName' typeArgs' module' := by
  rw [← words_instantiatedDeclName, ← words_instantiatedDeclName]
  exact ⟨congrArg words, words_injective⟩

/-- Two clones have one name exactly when their names have the same words. -/
def InstantiationRequest.cloneWords (r : InstantiationRequest) : List (List Char) :=
  match r.kind with
  | .struct => nameWords r.declKey r.typeArgs ""
  | _ => nameWords r.declKey r.typeArgs r.sourceModule

theorem cloneName_eq_iff {r r' : InstantiationRequest} :
    r.cloneName = r'.cloneName ↔ r.cloneWords = r'.cloneWords := by
  unfold InstantiationRequest.cloneName InstantiationRequest.cloneWords
  cases r.kind <;> cases r'.kind <;> exact instantiatedDeclName_eq_iff

/-! ### Declarations and their requests -/

/-- A parameter of a generic declaration, `T` or `N: size`. -/
inductive ParamKind
  | type
  | size
  deriving DecidableEq

mutual

/-- A closed type of primitives, structs, references, pointers, arrays, generic types, function
types and fallible types. -/
def isClosedType : TurfType → Bool
  | .int | .int32 | .double | .bool | .char | .string | .void | .opaquePointer | .named _ => true
  | .pointer p | .reference p | .nullableReference p => isClosedType p
  | .array _ (.param _) => false
  | .array e _ => isClosedType e
  | .generic _ args => areClosedTypes args
  | .errorUnion success => isClosedType success
  | .func ret params => isClosedType ret && areClosedTypes params
  | _ => false

def areClosedTypes : List TurfType → Bool
  | [] => true
  | t :: ts => isClosedType t && areClosedTypes ts

end

/-- An argument a parameter can be given. -/
def ParamKind.Fits : ParamKind → TurfType → Prop
  | .type, t => isClosedType t = true
  | .size, t => ∃ n, 0 < n ∧ t = .sizeValue n

/-- A generic struct; its parameters are types. -/
structure GenericStruct where
  declKey : String
  arity : ℕ
  pos : 0 < arity

/-- A generic function or method. -/
structure GenericFunction where
  kind : InstantiationKind
  isFunction : kind ≠ .struct
  declKey : String
  sourceModule : String
  decl : Option DeclId
  params : List ParamKind

structure GenericStruct.Requests (d : GenericStruct) (r : InstantiationRequest) : Prop where
  kind : r.kind = .struct
  declKey : r.declKey = d.declKey
  sourceModule : r.sourceModule = owningModule d.declKey
  decl : r.decl = none
  length : r.typeArgs.length = d.arity
  closed : ∀ t ∈ r.typeArgs, isClosedType t = true

structure GenericFunction.Requests (d : GenericFunction) (r : InstantiationRequest) : Prop where
  kind : r.kind = d.kind
  declKey : r.declKey = d.declKey
  sourceModule : r.sourceModule = d.sourceModule
  decl : r.decl = d.decl
  fits : List.Forall₂ ParamKind.Fits d.params r.typeArgs

/-- No two instantiations of a program's generic declarations share a name: of structs, of any
two; of functions and methods, of one declaration. And the layout registered for a struct
instantiation is the one found under its name. -/
structure NamesApart (structs : List GenericStruct) (functions : List GenericFunction) : Prop where
  ofStructs : ∀ d ∈ structs, ∀ d' ∈ structs, ∀ r r', d.Requests r → d'.Requests r' →
    r.sameInstantiationAs r' = false → r.cloneName ≠ r'.cloneName
  ofFunctions : ∀ d ∈ functions, ∀ r r', d.Requests r → d.Requests r' →
    r.sameInstantiationAs r' = false → r.cloneName ≠ r'.cloneName
  layouts : ∀ rs, (∀ r ∈ rs, ∃ d ∈ structs, d.Requests r) →
    rs.Pairwise (fun r r' => r.sameInstantiationAs r' = false) →
      ∀ r ∈ rs, registerLayouts rs r.cloneName = some r

/-! ### Two types with the same words -/

/-- `(fn(): int)[3]`. -/
def arrayOfFunctions : TurfType := .array (.func .int []) (.fixed 3)

/-- `fn(): int[3]`. -/
def functionToArray : TurfType := .func (.array .int (.fixed 3)) []

theorem typeWords_arrayOfFunctions : typeWords arrayOfFunctions = typeWords functionToArray := by
  simp [arrayOfFunctions, functionToArray, typeWords, typesWords]

theorem not_isEquivalent_arrayOfFunctions :
    arrayOfFunctions.isEquivalent functionToArray = false := by
  simp [arrayOfFunctions, functionToArray, TurfType.isEquivalent]

theorem typesWords_eq_flatMap (ts : List TurfType) : typesWords ts = ts.flatMap typeWords := by
  induction ts with
  | nil => rfl
  | cons t ts ih => rw [typesWords, List.flatMap_cons, ih]

theorem typesWords_map_congr {α : Type*} {f g : α → TurfType} (l : List α)
    (h : ∀ a, typeWords (f a) = typeWords (g a)) :
    typesWords (l.map f) = typesWords (l.map g) := by
  induction l with
  | nil => rfl
  | cons a l ih => rw [List.map_cons, List.map_cons, typesWords, typesWords, h, ih]

theorem allEquivalent_map_false {α : Type*} {f g : α → TurfType} {l : List α} {a : α}
    (ha : a ∈ l) (h : (f a).isEquivalent (g a) = false) :
    TurfType.allEquivalent (l.map f) (l.map g) = false := by
  induction l with
  | nil => simp at ha
  | cons b l ih =>
    rw [List.map_cons, List.map_cons, TurfType.allEquivalent]
    obtain rfl | ha := List.mem_cons.mp ha
    · rw [h, Bool.false_and]
    · rw [ih ha, Bool.and_false]

theorem not_same_of_allEquivalent {r r' : InstantiationRequest}
    (h : TurfType.allEquivalent r.typeArgs r'.typeArgs = false) :
    r.sameInstantiationAs r' = false := by
  rw [InstantiationRequest.sameInstantiationAs, h, Bool.and_false]

/-- The arguments that give one type to every type parameter. -/
def argumentFor (t : TurfType) : ParamKind → TurfType
  | .type => t
  | .size => .sizeValue 1

theorem fits_argumentFor {t : TurfType} (ht : isClosedType t = true) (params : List ParamKind) :
    List.Forall₂ ParamKind.Fits params (params.map (argumentFor t)) := by
  induction params with
  | nil => exact .nil
  | cons k params ih =>
    refine .cons ?_ ih
    cases k with
    | type => exact ht
    | size => exact ⟨1, one_pos, rfl⟩

/-- The request for a struct with one type for every parameter. -/
def GenericStruct.request (d : GenericStruct) (t : TurfType) : InstantiationRequest where
  kind := .struct
  declKey := d.declKey
  sourceModule := owningModule d.declKey
  typeArgs := (List.replicate d.arity ParamKind.type).map (argumentFor t)
  site := ⟨"", 0, 0⟩

theorem GenericStruct.requests_request (d : GenericStruct) {t : TurfType}
    (ht : isClosedType t = true) : d.Requests (d.request t) where
  kind := rfl
  declKey := rfl
  sourceModule := rfl
  decl := rfl
  length := by simp [request]
  closed u hu := by
    simp only [request, List.map_replicate, List.mem_replicate] at hu
    exact hu.2 ▸ ht

/-- The request for a function with one type for every type parameter. -/
def GenericFunction.request (d : GenericFunction) (t : TurfType) : InstantiationRequest where
  kind := d.kind
  declKey := d.declKey
  sourceModule := d.sourceModule
  typeArgs := d.params.map (argumentFor t)
  site := ⟨"", 0, 0⟩
  decl := d.decl

theorem GenericFunction.requests_request (d : GenericFunction) {t : TurfType}
    (ht : isClosedType t = true) : d.Requests (d.request t) where
  kind := rfl
  declKey := rfl
  sourceModule := rfl
  decl := rfl
  fits := fits_argumentFor ht d.params

theorem typeWords_argumentFor (k : ParamKind) :
    typeWords (argumentFor arrayOfFunctions k) = typeWords (argumentFor functionToArray k) := by
  cases k with
  | type => exact typeWords_arrayOfFunctions
  | size => rfl

theorem GenericStruct.cloneName_request (d : GenericStruct) :
    (d.request arrayOfFunctions).cloneName = (d.request functionToArray).cloneName := by
  refine instantiatedDeclName_eq_iff.mpr ?_
  unfold nameWords request
  rw [typesWords_map_congr _ typeWords_argumentFor, List.length_map, List.length_map]

theorem GenericFunction.cloneName_request (d : GenericFunction) :
    (d.request arrayOfFunctions).cloneName = (d.request functionToArray).cloneName := by
  rw [cloneName_eq_iff]
  unfold InstantiationRequest.cloneWords nameWords request
  simp only [typesWords_map_congr _ typeWords_argumentFor, List.length_map]

theorem GenericStruct.not_same_request (d : GenericStruct) :
    (d.request arrayOfFunctions).sameInstantiationAs (d.request functionToArray) = false :=
  not_same_of_allEquivalent (allEquivalent_map_false
    (List.mem_replicate.mpr ⟨d.pos.ne', rfl⟩) not_isEquivalent_arrayOfFunctions)

theorem GenericFunction.not_same_request {d : GenericFunction} (h : ParamKind.type ∈ d.params) :
    (d.request arrayOfFunctions).sameInstantiationAs (d.request functionToArray) = false :=
  not_same_of_allEquivalent (allEquivalent_map_false h not_isEquivalent_arrayOfFunctions)

/-! ### Size arguments -/

theorem typeWords_sizeValue (n : ℕ) : typeWords (.sizeValue n) = [("n" ++ toString n).toList] :=
  words_append_toString (by decide) n

/-- Size arguments can be read off the words. -/
theorem sizes_eq_of_typesWords {params : List ParamKind} {ts ts' : List TurfType}
    (hsize : ∀ k ∈ params, k = .size) (h : List.Forall₂ ParamKind.Fits params ts)
    (h' : List.Forall₂ ParamKind.Fits params ts') (hwords : typesWords ts = typesWords ts') :
    ts = ts' := by
  induction h generalizing ts' with
  | nil => cases h' with | nil => rfl
  | @cons k t params ts hfit hrest ih =>
    cases h' with
    | @cons _ t' _ ts' hfit' hrest' =>
      obtain rfl : k = .size := hsize k (List.mem_cons_self ..)
      obtain ⟨n, -, rfl⟩ := hfit
      obtain ⟨n', -, rfl⟩ := hfit'
      simp only [typesWords, typeWords_sizeValue, List.singleton_append, List.cons.injEq,
        String.toList_inj, String.append_right_inj] at hwords
      rw [toString_injective hwords.1,
        ih (fun k hk => hsize k (List.mem_cons_of_mem _ hk)) hrest' hwords.2]

theorem GenericFunction.same_of_cloneName {d : GenericFunction} (hsize : ∀ k ∈ d.params, k = .size)
    {r r' : InstantiationRequest} (h : d.Requests r) (h' : d.Requests r')
    (hname : r.cloneName = r'.cloneName) : r.sameInstantiationAs r' = true := by
  have hlength : r.typeArgs.length = r'.typeArgs.length :=
    h.fits.length_eq.symm.trans h'.fits.length_eq
  rw [cloneName_eq_iff] at hname
  unfold InstantiationRequest.cloneWords nameWords at hname
  have hargs : typesWords r.typeArgs = typesWords r'.typeArgs := by
    rw [h.kind, h'.kind, h.declKey, h'.declKey, h.sourceModule, h'.sourceModule, hlength] at hname
    cases hk : d.kind with
    | struct => exact absurd hk d.isFunction
    | freeFunction => simpa [hk] using hname
    | method => simpa [hk] using hname
  unfold InstantiationRequest.sameInstantiationAs
  rw [sizes_eq_of_typesWords hsize h.fits h'.fits hargs, TurfType.allEquivalent_refl, h.kind,
    h'.kind, h.declKey, h'.declKey, h.sourceModule, h'.sourceModule, h.decl, h'.decl]
  simp

/-! ### Which programs have distinct names -/

/-- The names are distinct in exactly those programs whose generic declarations have no type
parameter: no generic struct, and functions that take sizes only. Of two requests, the names
are the same when they read as the same words. -/
theorem namesApart_iff (structs : List GenericStruct) (functions : List GenericFunction) :
    (NamesApart structs functions ↔
        structs = [] ∧ ∀ d ∈ functions, ∀ k ∈ d.params, k = .size) ∧
      ∀ r r' : InstantiationRequest, r.cloneName = r'.cloneName ↔ r.cloneWords = r'.cloneWords := by
  refine ⟨⟨fun h => ⟨?_, fun d hd k hk => ?_⟩, fun h => ?_⟩, fun r r' => cloneName_eq_iff⟩
  · by_contra hne
    obtain ⟨d, hd⟩ := List.exists_mem_of_ne_nil structs hne
    exact h.ofStructs d hd d hd _ _ (d.requests_request (by decide)) (d.requests_request (by decide))
      d.not_same_request d.cloneName_request
  · cases k with
    | size => rfl
    | type =>
      exact absurd d.cloneName_request
        (h.ofFunctions d hd _ _ (d.requests_request (by decide)) (d.requests_request (by decide))
          (GenericFunction.not_same_request hk))
  · obtain ⟨rfl, hsize⟩ := h
    refine ⟨by simp, fun d hd r r' hr hr' hsame hname => ?_, fun rs hrs _ r hr => ?_⟩
    · rw [GenericFunction.same_of_cloneName (hsize d hd) hr hr' hname] at hsame
      exact absurd hsame (by simp)
    · obtain ⟨d, hd, -⟩ := hrs r hr
      simp at hd

theorem registerLayouts_of_cloneName_eq {r r' : InstantiationRequest}
    (h : r.cloneName = r'.cloneName) : registerLayouts [r, r'] r.cloneName = some r' := by
  unfold registerLayouts
  rw [List.foldl_cons, List.foldl_cons, List.foldl_nil, h, Function.update_self]

/-- `struct Box<T>`. -/
def box : GenericStruct := ⟨"Box", 1, one_pos⟩

/-- `Box<&Node>` and `Box<Node_ref>`: the second layout takes the place of the first. -/
theorem not_namesApart_box : ¬NamesApart [box] [] := by
  intro h
  have hname : (box.request (.reference (.named "Node"))).cloneName =
      (box.request (.named "Node_ref")).cloneName := rfl
  have hlayout := h.layouts
    [box.request (.reference (.named "Node")), box.request (.named "Node_ref")]
    (fun r hr => by
      obtain rfl | rfl : r = _ ∨ r = _ := by simpa using hr
      · exact ⟨box, by simp, box.requests_request rfl⟩
      · exact ⟨box, by simp, box.requests_request rfl⟩)
    (List.pairwise_pair.mpr rfl) _ (List.mem_cons_self ..)
  rw [registerLayouts_of_cloneName_eq hname] at hlayout
  have hargs := congrArg InstantiationRequest.typeArgs (Option.some.inj hlayout)
  simp [box, GenericStruct.request, argumentFor] at hargs

end TurfLang.Instantiate
