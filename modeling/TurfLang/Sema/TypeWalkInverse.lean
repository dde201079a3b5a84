import TurfLang.Lib.Firsts
import TurfLang.Sema.TypeWalk

/-!
# What unification finds again

A declared type, substituted, is unified with itself. Every parameter that occurs outside an error
union is bound to what was substituted for it, and the order of the parameters is that of their
occurrences outside error unions: neither walk looks under a `!`, as substitution does.
-/

namespace TurfLang.TypeWalk

open Firsts

/-! ### The parameters of a type -/

/-- The parameter an array has for its size. -/
def sizeParam : ArraySize → List String
  | .param name => [name]
  | _ => []

mutual

/-- The parameters of a type, at each occurrence. -/
def params : TurfType → List String
  | .genericParam name => [name]
  | .pointer p | .reference p | .nullableReference p => params p
  | .array e size => params e ++ sizeParam size
  | .generic _ args => paramsList args
  | .errorUnion success => params success
  | .func ret ps => paramsList ps ++ params ret
  | _ => []

/-- The parameters of the types of a list. -/
def paramsList : List TurfType → List String
  | [] => []
  | t :: ts => params t ++ paramsList ts

end

mutual

/-- The parameters of a type, at each occurrence outside an error union. -/
def outside : TurfType → List String
  | .genericParam name => [name]
  | .pointer p | .reference p | .nullableReference p => outside p
  | .array e size => outside e ++ sizeParam size
  | .generic _ args => outsideList args
  | .func ret ps => outsideList ps ++ outside ret
  | _ => []

/-- The parameters of the types of a list, outside error unions. -/
def outsideList : List TurfType → List String
  | [] => []
  | t :: ts => outside t ++ outsideList ts

end

mutual

theorem outside_sublist (t : TurfType) : (outside t).Sublist (params t) := by
  cases t with
  | pointer p => exact outside_sublist p
  | reference p => exact outside_sublist p
  | nullableReference p => exact outside_sublist p
  | array e size => exact (outside_sublist e).append (List.Sublist.refl _)
  | generic base args => exact outsideList_sublist args
  | func ret ps => exact (outsideList_sublist ps).append (outside_sublist ret)
  | genericParam name => exact List.Sublist.refl _
  | errorUnion success => exact List.nil_sublist _
  | _ => exact List.nil_sublist _

theorem outsideList_sublist (ts : List TurfType) : (outsideList ts).Sublist (paramsList ts) := by
  match ts with
  | [] => exact List.Sublist.refl _
  | t :: ts => exact (outside_sublist t).append (outsideList_sublist ts)

end

mutual

/-- The order is that of the first occurrences outside error unions. -/
theorem collectParamOrder_eq (t : TurfType) (order : List String) :
    collectParamOrder t order = (outside t).foldl addNew order := by
  cases t with
  | genericParam name => rfl
  | pointer p => exact collectParamOrder_eq p order
  | reference p => exact collectParamOrder_eq p order
  | nullableReference p => exact collectParamOrder_eq p order
  | array e size =>
    rw [outside, List.foldl_append, ← collectParamOrder_eq e order]
    cases size with
    | param name => rfl
    | _ => rfl
  | generic base args => exact collectParamOrderList_eq args order
  | func ret ps =>
    rw [outside, List.foldl_append, ← collectParamOrderList_eq ps order, ← collectParamOrder_eq ret]
    rfl
  | _ => rfl

theorem collectParamOrderList_eq (ts : List TurfType) (order : List String) :
    collectParamOrderList ts order = (outsideList ts).foldl addNew order := by
  match ts with
  | [] => rfl
  | t :: ts =>
    rw [outsideList, List.foldl_append, ← collectParamOrder_eq t order,
      ← collectParamOrderList_eq ts]
    rfl

end

/-! ### Substitutions that fit a type -/

section

variable (isResolvedIdentity : String → Bool) (s : SubstMap)

/-- A named type that substitution leaves alone. -/
def KeepsName (name : String) : Prop := isResolvedIdentity name = true ∨ s.lookup name = none

mutual

/-- A closed type: it has no parameters, and no name in it is substituted. -/
def Closed : TurfType → Prop
  | .genericParam _ => False
  | .named name => KeepsName isResolvedIdentity s name
  | .pointer p | .reference p | .nullableReference p => Closed p
  | .array e size => Closed e ∧ sizeParam size = []
  | .generic _ args => ClosedList args
  | .errorUnion success => Closed success
  | .func ret ps => Closed ret ∧ ClosedList ps
  | _ => True

/-- Every type of a list is closed. -/
def ClosedList : List TurfType → Prop
  | [] => True
  | t :: ts => Closed t ∧ ClosedList ts

end

mutual

/-- A declared type whose parameters have closed images, those for sizes a positive length, and
whose named types are no parameters. -/
def Fits : TurfType → Prop
  | .genericParam name => ∃ t, s.lookup name = some t ∧ Closed isResolvedIdentity s t
  | .named name => KeepsName isResolvedIdentity s name
  | .pointer p | .reference p | .nullableReference p => Fits p
  | .array e size =>
    Fits e ∧ ∀ name, size = .param name → ∃ n > 0, s.lookup name = some (.sizeValue n)
  | .generic _ args => FitsList args
  | .errorUnion success => Fits success
  | .func ret ps => Fits ret ∧ FitsList ps
  | _ => True

/-- Every type of a list is one that fits. -/
def FitsList : List TurfType → Prop
  | [] => True
  | t :: ts => Fits t ∧ FitsList ts

end

end

variable {isResolvedIdentity : String → Bool} {s : SubstMap}

/-! ### Substitution -/

mutual

theorem params_of_closed {t : TurfType} (h : Closed isResolvedIdentity s t) : params t = [] := by
  cases t with
  | genericParam name => exact h.elim
  | pointer p => exact params_of_closed (t := p) h
  | reference p => exact params_of_closed (t := p) h
  | nullableReference p => exact params_of_closed (t := p) h
  | array e size => rw [params, params_of_closed h.1, h.2]; rfl
  | generic base args => exact paramsList_of_closed h
  | errorUnion success => exact params_of_closed (t := success) h
  | func ret ps => rw [params, paramsList_of_closed h.2, params_of_closed h.1]; rfl
  | _ => rfl

theorem paramsList_of_closed {ts : List TurfType} (h : ClosedList isResolvedIdentity s ts) :
    paramsList ts = [] := by
  match ts with
  | [] => rfl
  | t :: ts => rw [paramsList, params_of_closed h.1, paramsList_of_closed h.2]; rfl

end

mutual

/-- A closed type is not changed. -/
theorem substitute_of_closed {t : TurfType} (h : Closed isResolvedIdentity s t) :
    substitute isResolvedIdentity s t = t := by
  cases t with
  | genericParam name => exact h.elim
  | named name =>
    rw [substitute]
    rcases h with h | h
    · rw [if_pos h]
    · rw [h, Option.getD_none, ite_self]
  | pointer p => exact congrArg TurfType.pointer (substitute_of_closed h)
  | reference p => exact congrArg TurfType.reference (substitute_of_closed h)
  | nullableReference p => exact congrArg TurfType.nullableReference (substitute_of_closed h)
  | array e size =>
    rw [substitute, substitute_of_closed h.1]
    cases size with
    | param name => exact absurd h.2 (by simp [sizeParam])
    | _ => rfl
  | generic base args => exact congrArg (TurfType.generic base) (substituteList_of_closed h)
  | errorUnion success => exact congrArg TurfType.errorUnion (substitute_of_closed h)
  | func ret ps => rw [substitute, substitute_of_closed h.1, substituteList_of_closed h.2]
  | _ => rfl

theorem substituteList_of_closed {ts : List TurfType} (h : ClosedList isResolvedIdentity s ts) :
    substituteList isResolvedIdentity s ts = ts := by
  match ts with
  | [] => rfl
  | t :: ts => rw [substituteList, substitute_of_closed h.1, substituteList_of_closed h.2]

end

mutual

/-- What a substitution makes of a declared type is closed. -/
theorem closed_substitute {t : TurfType} (h : Fits isResolvedIdentity s t) :
    Closed isResolvedIdentity s (substitute isResolvedIdentity s t) := by
  cases t with
  | genericParam name =>
    obtain ⟨t, ht, hclosed⟩ := h
    rw [substitute, ht]
    exact hclosed
  | named name =>
    have hsame : substitute isResolvedIdentity s (.named name) = .named name :=
      substitute_of_closed h
    rw [hsame]
    exact h
  | pointer p => exact closed_substitute (t := p) h
  | reference p => exact closed_substitute (t := p) h
  | nullableReference p => exact closed_substitute (t := p) h
  | array e size =>
    refine ⟨closed_substitute h.1, ?_⟩
    cases size with
    | param name =>
      obtain ⟨n, -, hn⟩ := h.2 name rfl
      rw [substituteSize, hn]
      rfl
    | _ => rfl
  | generic base args => exact closedList_substitute h
  | errorUnion success => exact closed_substitute (t := success) h
  | func ret ps => exact ⟨closed_substitute h.1, closedList_substitute h.2⟩
  | _ => trivial

theorem closedList_substitute {ts : List TurfType} (h : FitsList isResolvedIdentity s ts) :
    ClosedList isResolvedIdentity s (substituteList isResolvedIdentity s ts) := by
  match ts with
  | [] => trivial
  | t :: ts => exact ⟨closed_substitute h.1, closedList_substitute h.2⟩

end

mutual

/-- A type is another with types for its parameters: everything else is the same, and every pointer
of the same kind. -/
def Instance : TurfType → TurfType → Prop
  | .genericParam _, _ => True
  | .pointer p, u =>
    match u with
    | .pointer q => Instance p q
    | _ => False
  | .reference p, u =>
    match u with
    | .reference q => Instance p q
    | _ => False
  | .nullableReference p, u =>
    match u with
    | .nullableReference q => Instance p q
    | _ => False
  | .array e size, u =>
    match u with
    | .array e' size' => Instance e e' ∧ (sizeParam size = [] → size' = size)
    | _ => False
  | .generic base args, u =>
    match u with
    | .generic base' args' => base = base' ∧ InstanceList args args'
    | _ => False
  | .errorUnion success, u =>
    match u with
    | .errorUnion success' => Instance success success'
    | _ => False
  | .func ret ps, u =>
    match u with
    | .func ret' ps' => Instance ret ret' ∧ InstanceList ps ps'
    | _ => False
  | t, u => t = u

/-- The same for lists of types. -/
def InstanceList : List TurfType → List TurfType → Prop
  | [], us => us = []
  | t :: ts, us =>
    match us with
    | [] => False
    | u :: us => Instance t u ∧ InstanceList ts us

end

mutual

theorem instance_substitute {t : TurfType} (h : Fits isResolvedIdentity s t) :
    Instance t (substitute isResolvedIdentity s t) := by
  cases t with
  | genericParam name => trivial
  | named name =>
    have hsame : substitute isResolvedIdentity s (.named name) = .named name :=
      substitute_of_closed h
    exact hsame.symm
  | pointer p => exact instance_substitute (t := p) h
  | reference p => exact instance_substitute (t := p) h
  | nullableReference p => exact instance_substitute (t := p) h
  | array e size =>
    refine ⟨instance_substitute h.1, fun hsize => ?_⟩
    cases size with
    | param name => exact absurd hsize (by simp [sizeParam])
    | _ => rfl
  | generic base args => exact ⟨rfl, instanceList_substitute h⟩
  | errorUnion success => exact instance_substitute (t := success) h
  | func ret ps => exact ⟨instance_substitute h.1, instanceList_substitute h.2⟩
  | _ => rfl

theorem instanceList_substitute {ts : List TurfType} (h : FitsList isResolvedIdentity s ts) :
    InstanceList ts (substituteList isResolvedIdentity s ts) := by
  match ts with
  | [] => rfl
  | t :: ts => exact ⟨instance_substitute h.1, instanceList_substitute h.2⟩

end

/-! ### Unification -/

theorem lookup_emplace (m : SubstMap) (name : String) (t : TurfType) (x : String) :
    (emplace m name t).lookup x = (m.lookup x).or (if x = name then some t else none) := by
  rw [emplace]
  by_cases hx : x = name
  · subst hx
    cases hm : m.lookup x with
    | none => simp
    | some u => simp [hm]
  · have hbeq : (x == name) = false := by simpa using hx
    split_ifs
    · simp
    · simp [List.lookup_cons, hbeq]

/-- What the occurrences of parameters bind a name to. -/
def bound (s : SubstMap) (names : List String) (x : String) : Option TurfType :=
  if x ∈ names then s.lookup x else none

theorem bound_append (names names' : List String) (x : String) :
    (bound s names x).or (bound s names' x) = bound s (names ++ names') x := by
  simp only [bound, List.mem_append]
  by_cases hx : x ∈ names
  · by_cases hx' : x ∈ names'
    · simp [hx, hx', Option.or_self]
    · simp [hx, hx']
  · simp [hx]

theorem bound_comm (names names' : List String) (x : String) :
    bound s (names ++ names') x = bound s (names' ++ names) x := by
  simp only [bound, List.mem_append, or_comm]

mutual

/-- Unifying a declared type with what a substitution makes of it binds what occurs outside error
unions, as far as it was not bound before. -/
theorem unify_substitute {t : TurfType} (h : Fits isResolvedIdentity s t) (m : SubstMap)
    (x : String) :
    (unify t (substitute isResolvedIdentity s t) m).lookup x =
      (m.lookup x).or (bound s (outside t) x) := by
  cases t with
  | genericParam name =>
    obtain ⟨t, ht, -⟩ := h
    rw [substitute, ht, unify, lookup_emplace, outside, bound]
    simp only [List.mem_singleton, Option.getD_some]
    split_ifs with hx
    · rw [hx, ht]
    · rfl
  | pointer p => exact unify_substitute (t := p) h m x
  | reference p => exact unify_substitute (t := p) h m x
  | nullableReference p => exact unify_substitute (t := p) h m x
  | array e size =>
    have hsize : (bindSize size (substituteSize s size) m).lookup x =
        (m.lookup x).or (bound s (sizeParam size) x) := by
      cases size with
      | param name =>
        obtain ⟨n, hn, hlookup⟩ := h.2 name rfl
        rw [substituteSize, hlookup]
        show (if 0 < n then emplace m name (.sizeValue n) else m).lookup x = _
        rw [if_pos hn, lookup_emplace, bound, sizeParam]
        simp only [List.mem_singleton]
        split_ifs with hx
        · rw [hx, hlookup]
        · rfl
      | _ => simp [bindSize, bound, sizeParam]
    show (unify e (substitute isResolvedIdentity s e) (bindSize size (substituteSize s size) m)).lookup
      x = _
    rw [unify_substitute h.1, hsize, Option.or_assoc, bound_append, bound_comm, outside]
  | generic base args => exact unifyList_substitute h m x
  | func ret ps =>
    show (unify ret (substitute isResolvedIdentity s ret)
      (unifyList ps (substituteList isResolvedIdentity s ps) m)).lookup x = _
    rw [unify_substitute h.1, unifyList_substitute h.2, Option.or_assoc, bound_append, outside]
  | _ => simp [unify, outside, bound]

theorem unifyList_substitute {ts : List TurfType} (h : FitsList isResolvedIdentity s ts)
    (m : SubstMap) (x : String) :
    (unifyList ts (substituteList isResolvedIdentity s ts) m).lookup x =
      (m.lookup x).or (bound s (outsideList ts) x) := by
  match ts with
  | [] => simp [unifyList, outsideList, bound]
  | t :: ts =>
    show (unifyList ts (substituteList isResolvedIdentity s ts)
      (unify t (substitute isResolvedIdentity s t) m)).lookup x = _
    rw [unifyList_substitute h.2, unify_substitute h.1, Option.or_assoc, bound_append, outsideList]

end

/-! ### When unification inverts substitution -/

mutual

theorem exists_lookup {t : TurfType} (h : Fits isResolvedIdentity s t) {x : String}
    (hx : x ∈ params t) : ∃ u, s.lookup x = some u := by
  cases t with
  | genericParam name =>
    obtain ⟨t, ht, -⟩ := h
    rw [List.mem_singleton.mp hx]
    exact ⟨t, ht⟩
  | pointer p => exact exists_lookup (t := p) h hx
  | reference p => exact exists_lookup (t := p) h hx
  | nullableReference p => exact exists_lookup (t := p) h hx
  | array e size =>
    rcases List.mem_append.mp hx with hx | hx
    · exact exists_lookup h.1 hx
    · cases size with
      | param name =>
        obtain ⟨n, -, hn⟩ := h.2 name rfl
        rw [List.mem_singleton.mp hx]
        exact ⟨_, hn⟩
      | _ => cases hx
  | generic base args => exact exists_lookupList h hx
  | errorUnion success => exact exists_lookup (t := success) h hx
  | func ret ps =>
    rcases List.mem_append.mp hx with hx | hx
    · exact exists_lookupList h.2 hx
    · exact exists_lookup h.1 hx
  | _ => cases hx

theorem exists_lookupList {ts : List TurfType} (h : FitsList isResolvedIdentity s ts) {x : String}
    (hx : x ∈ paramsList ts) : ∃ u, s.lookup x = some u := by
  match ts with
  | [] => cases hx
  | t :: ts =>
    rcases List.mem_append.mp hx with hx | hx
    · exact exists_lookup h.1 hx
    · exact exists_lookupList h.2 hx

end

variable (isResolvedIdentity s) in
/-- Unification inverts substitution on a declared type: it finds the image of every parameter, the
parameters are listed once each as they first occur, and the substituted type has none left, the
same pointers, and does not change when it is substituted again. -/
structure Inverts (t : TurfType) : Prop where
  binds : ∀ x ∈ params t, (unify t (substitute isResolvedIdentity s t) []).lookup x = s.lookup x
  order : collectParamOrder t [] = firsts (params t)
  closed : params (substitute isResolvedIdentity s t) = []
  pointers : Instance t (substitute isResolvedIdentity s t)
  again : substitute isResolvedIdentity s (substitute isResolvedIdentity s t) =
    substitute isResolvedIdentity s t

/-- Every parameter occurs outside error unions too, and those that occur first do so there. -/
structure FirstOutside (t : TurfType) : Prop where
  occurs : params t ⊆ outside t
  order : ∀ x y, y ∈ params t → Precedes (params t) x y → Precedes (outside t) x y

theorem order_iff (t : TurfType) : collectParamOrder t [] = firsts (params t) ↔ FirstOutside t := by
  rw [collectParamOrder_eq]
  show firsts (outside t) = firsts (params t) ↔ _
  rw [firsts_eq_iff (outside_sublist t).subset]
  exact ⟨fun ⟨hocc, hord⟩ => ⟨hocc, hord⟩, fun ⟨hocc, hord⟩ => ⟨hocc, hord⟩⟩

theorem unify_binds {t : TurfType} (h : Fits isResolvedIdentity s t) (hocc : params t ⊆ outside t)
    {x : String} (hx : x ∈ params t) :
    (unify t (substitute isResolvedIdentity s t) []).lookup x = s.lookup x := by
  rw [unify_substitute h, List.lookup_nil, Option.none_or, bound, if_pos (hocc hx)]

/-- Unification inverts substitution on exactly the declared types whose parameters all occur outside
error unions too, in the order in which they occur at all. -/
theorem unify_inverts_iff (isResolvedIdentity : String → Bool) (s : SubstMap) (t : TurfType)
    (h : Fits isResolvedIdentity s t) : Inverts isResolvedIdentity s t ↔ FirstOutside t := by
  constructor
  · exact fun hinv => (order_iff t).mp hinv.order
  · intro hfirst
    exact ⟨fun x hx => unify_binds h hfirst.occurs hx, (order_iff t).mpr hfirst,
      params_of_closed (closed_substitute h), instance_substitute h,
      substitute_of_closed (closed_substitute h)⟩

/-- `fn(T[N], &?Box<T>): !T` with `int` and a length of 3. -/
theorem unify_inverts_iff_callback :
    let t : TurfType := .func (.errorUnion (.genericParam "T"))
      [.array (.genericParam "T") (.param "N"),
        .nullableReference (.generic "Box" [.genericParam "T"])]
    let s : SubstMap := [("T", .int), ("N", .sizeValue 3)]
    Fits (fun _ => false) s t ∧ (Inverts (fun _ => false) s t ↔ FirstOutside t) := by
  have h : Fits (fun _ => false) [("T", .int), ("N", .sizeValue 3)]
      (.func (.errorUnion (.genericParam "T")) [.array (.genericParam "T") (.param "N"),
        .nullableReference (.generic "Box" [.genericParam "T"])]) :=
    ⟨⟨.int, rfl, trivial⟩, ⟨⟨.int, rfl, trivial⟩, fun name hname => ⟨3, by decide, by
      obtain rfl := ArraySize.param.inj hname; rfl⟩⟩, ⟨⟨.int, rfl, trivial⟩, trivial⟩, trivial⟩
  exact ⟨h, unify_inverts_iff _ _ _ h⟩

/-- In `fn(): !T` unification finds no `T`. -/
theorem not_inverts_fallible :
    ¬∀ (isResolvedIdentity : String → Bool) (s : SubstMap) (t : TurfType),
      Fits isResolvedIdentity s t → Inverts isResolvedIdentity s t := by
  intro h
  have hinv := h (fun _ => false) [("T", .int)] (.func (.errorUnion (.genericParam "T")) [])
    ⟨⟨.int, rfl, trivial⟩, trivial⟩
  have hbinds : (none : Option TurfType) = some .int := hinv.binds "T" (by decide)
  cases hbinds

end TurfLang.TypeWalk
