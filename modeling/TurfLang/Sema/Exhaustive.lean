import TurfLang.Sema.Matching

/-!
# An exhaustive compare selects an arm

`checkPattern` and `visitCompare` are read back as facts about patterns and headers. A pattern that
the checker calls irrefutable matches every value of its type, so a header that covers a value and
has no guard takes it, and an exhaustive compare never falls through.
-/

namespace TurfLang

namespace Compare

variable {T : TypeTable} {σ : Type}

/-! ### What the checks make sure of -/

theorem Checker.bind_eq_ok {α β : Type} {x : Checker α} {f : α → Checker β}
    {st : List (String × TurfType)} {r : β × List (String × TurfType)} :
    (x >>= f) st = .ok r ↔ ∃ a st', x st = .ok (a, st') ∧ f a st' = .ok r := by
  show (Except.bind (x st) fun p => f p.1 p.2) = _ ↔ _
  cases hx : x st with
  | error e => simp [Except.bind]
  | ok p =>
    simp only [Except.bind, Except.ok.injEq]
    constructor
    · intro h
      exact ⟨p.1, p.2, rfl, h⟩
    · rintro ⟨a, st', rfl, h⟩
      exact h

theorem Checker.pure_eq_ok {α : Type} {a : α} {st : List (String × TurfType)}
    {r : α × List (String × TurfType)} : (pure a : Checker α) st = .ok r ↔ r = (a, st) := by
  show Except.ok (a, st) = _ ↔ _
  rw [Except.ok.injEq, eq_comm]

theorem demand_eq_ok {c : Prop} [Decidable c] {e : CompareError} {st : List (String × TurfType)}
    {r : Unit × List (String × TurfType)} : demand c e st = .ok r ↔ c ∧ r = ((), st) := by
  unfold demand
  split
  · rename_i h
    rw [Checker.pure_eq_ok]
    simp [h]
  · rename_i h
    exact ⟨nofun, fun h' => absurd h'.1 h⟩

theorem found_eq_ok {α : Type} {o : Option α} {e : CompareError} {st : List (String × TurfType)}
    {r : α × List (String × TurfType)} : found o e st = .ok r ↔ o = some r.1 ∧ r.2 = st := by
  cases o with
  | none => exact ⟨nofun, nofun⟩
  | some a =>
    show (pure a : Checker α) st = _ ↔ _
    rw [Checker.pure_eq_ok]
    obtain ⟨a', st'⟩ := r
    simp [eq_comm]

theorem Kind.isAnyError_iff {k : Kind} : k.isAnyError = true ↔ k = .anyError := by
  cases k <;> simp [Kind.isAnyError]

theorem Kind.isUserError_iff {k : Kind} : k.isUserError = true ↔ ∃ variants, k = .userError variants := by
  cases k <;> simp [Kind.isUserError]

namespace Pattern

mutual

/-- What `checkPattern` makes sure of. -/
def Suits : Pattern T σ → TurfType → Prop
  | wildcard, _ => True
  | binding _, _ => True
  | struct _ fields _, τ =>
    ∃ st, (T.kind τ = .struct st ∨ ∃ p, τ = .reference p ∧ T.kind p = .struct st) ∧
      SuitFields st fields
  | errorVariant leftName rightName subs _ _, τ =>
    ∃ variants info, (T.kind τ = .anyError ∨ T.kind τ = .userError variants ∧ τ.getName = leftName) ∧
      T.errorVariants leftName = some variants ∧
      variants.find? (·.name = rightName) = some info ∧ SuitSubs subs info.fields
  | value e, τ =>
    e.isValuePatternShape = true ∧ e.resolves = true ∧
      (T.kind τ).isComparableFieldType = true ∧ τ.typesCompatible e.type = true

def SuitFields (st : StructType) : List (String × Pattern T σ) → Prop
  | [] => True
  | (name, p) :: rest =>
    (∃ f, st.fields.find? (·.name = name) = some f ∧ p.Suits f.type) ∧ SuitFields st rest

def SuitSubs : List (Pattern T σ) → List (String × TurfType) → Prop
  | p :: rest, (_, τ) :: fields => p.Suits τ ∧ SuitSubs rest fields
  | [], _ => True
  | _ :: _, [] => False

end

mutual

/-- Whether a pattern of the right type matches every value. -/
def irrefutable : Pattern T σ → Bool
  | wildcard | binding _ => true
  | struct _ fields _ => fieldsIrrefutable fields
  | errorVariant _ _ _ _ _ | value _ => false

def fieldsIrrefutable : List (String × Pattern T σ) → Bool
  | [] => true
  | (_, p) :: rest => p.irrefutable && fieldsIrrefutable rest

end

def subsIrrefutable (subs : List (Pattern T σ)) : Bool := subs.all irrefutable

end Pattern

theorem Kind.struct?_eq_some {k : Kind} {st : StructType} : k.struct? = some st ↔ k = .struct st := by
  cases k <;> simp [Kind.struct?, eq_comm]

/-- `self` apart, the struct a pattern looks at is the value or what a reference names. -/
theorem throughReference_eq_ok {selfSubject : Bool} {τ : TurfType} {st : List (String × TurfType)}
    {r : TurfType × List (String × TurfType)} (hself : selfSubject = true → ∀ q, τ ≠ .pointer q)
    (h : throughReference selfSubject τ st = .ok r) : r.1 = τ ∨ τ = .reference r.1 := by
  cases τ with
  | nullableReference p => cases h
  | reference p =>
    rw [throughReference, Checker.pure_eq_ok] at h
    exact .inr (by rw [h])
  | pointer p =>
    simp only [throughReference, Checker.bind_eq_ok, demand_eq_ok] at h
    obtain ⟨_, _, ⟨hs, _⟩, _⟩ := h
    exact absurd rfl (hself hs p)
  | _ =>
    rw [throughReference, Checker.pure_eq_ok] at h
    · exact .inl (by rw [h])
    all_goals nofun

namespace Pattern

/-- The error-variant case, given what the check of its fields makes sure of. -/
theorem checkErrorVariant_suits {leftName rightName : String} {hasParens hasRest : Bool}
    {subs : List (Pattern T σ)} {τ : TurfType} {st : List (String × TurfType)}
    {r : Bool × List (String × TurfType)}
    (hsubs : ∀ {fields : List (String × TurfType)} {st : List (String × TurfType)},
      subs.length ≤ fields.length → checkSubs subs fields st = .ok r →
      SuitSubs subs fields ∧ r.1 = subsIrrefutable subs)
    (h : checkErrorVariant leftName rightName subs hasParens hasRest τ st = .ok r) :
    (errorVariant leftName rightName subs hasParens hasRest).Suits τ ∧
      r.1 = subsIrrefutable subs := by
  simp only [checkErrorVariant, Checker.bind_eq_ok, demand_eq_ok, found_eq_ok] at h
  obtain ⟨_, _, ⟨herror, _⟩, variants, _, ⟨hvariants, _⟩, info, _, ⟨hinfo, _⟩, _, _, ⟨hname, _⟩, _,
    _, _, _, _, _, _, _, ⟨hlen, _⟩, _, _, _, hcheck⟩ := h
  obtain ⟨hsuit, hb⟩ := hsubs hlen hcheck
  refine ⟨⟨variants, info, ?_, hvariants, hinfo, hsuit⟩, hb⟩
  simp only [Bool.or_eq_true, decide_eq_true_eq, Kind.isAnyError_iff, Kind.isUserError_iff]
    at herror hname
  obtain hany | hname := hname
  · exact .inl hany
  obtain hany | ⟨vs, hvs⟩ := herror
  · exact .inl hany
  · have hsame := T.userError_variants τ vs hvs
    rw [hname, hvariants] at hsame
    cases hsame
    exact .inr ⟨hvs, hname⟩

mutual

theorem checkPattern_eq_ok : ∀ (p : Pattern T σ) {τ : TurfType} {selfSubject : Bool}
    {st : List (String × TurfType)} {r : Bool × List (String × TurfType)},
    (selfSubject = true → ∀ q, τ ≠ .pointer q) → p.checkPattern τ selfSubject st = .ok r →
    p.Suits τ ∧ r.1 = p.irrefutable
  | wildcard, _, _, _, _, _, h => by
    rw [checkPattern, Checker.pure_eq_ok] at h
    exact ⟨trivial, by rw [h]; rfl⟩
  | binding name, _, _, _, _, _, h => by
    simp only [checkPattern, Checker.bind_eq_ok, Checker.pure_eq_ok] at h
    obtain ⟨_, _, _, _, _, _, _, _, _, rfl⟩ := h
    exact ⟨trivial, rfl⟩
  | struct typeSpelling fields hasRest, τ, selfSubject, _, _, hself, h => by
    simp only [checkPattern, Checker.bind_eq_ok, Checker.pure_eq_ok, demand_eq_ok,
      found_eq_ok, Kind.struct?_eq_some] at h
    obtain ⟨valueTy, _, hthrough, ty, _, ⟨hst, _⟩, _, _, ⟨_, _⟩, b, _, hfields, _, _, _, rfl⟩ := h
    obtain ⟨hsuit, hb⟩ := checkFields_eq_ok fields hfields
    refine ⟨⟨ty, ?_, hsuit⟩, hb⟩
    obtain hτ | hτ := throughReference_eq_ok hself hthrough
    · exact .inl (hτ ▸ hst)
    · exact .inr ⟨valueTy, hτ, hst⟩
  | errorVariant leftName rightName subs hasParens hasRest, _, _, _, _, _, h => by
    simp only [checkPattern, Checker.bind_eq_ok, Checker.pure_eq_ok] at h
    obtain ⟨_, _, hcheck, rfl⟩ := h
    exact ⟨(checkErrorVariant_suits (checkSubs_eq_ok subs) hcheck).1, rfl⟩
  | value e, _, _, _, _, _, h => by
    simp only [checkPattern, Checker.bind_eq_ok, Checker.pure_eq_ok, demand_eq_ok] at h
    obtain ⟨_, _, ⟨h1, _⟩, _, _, ⟨h2, _⟩, _, _, ⟨h3, _⟩, _, _, ⟨h4, _⟩, rfl⟩ := h
    exact ⟨⟨h1, h2, h3, h4⟩, rfl⟩

theorem checkFields_eq_ok {ty : StructType} : ∀ (fields : List (String × Pattern T σ))
    {st : List (String × TurfType)} {r : Bool × List (String × TurfType)},
    checkFields ty fields st = .ok r → SuitFields ty fields ∧ r.1 = fieldsIrrefutable fields
  | [], _, _, h => by
    rw [checkFields, Checker.pure_eq_ok] at h
    exact ⟨trivial, by rw [h]; rfl⟩
  | (name, p) :: rest, _, _, h => by
    simp only [checkFields, Checker.bind_eq_ok, Checker.pure_eq_ok, demand_eq_ok,
      found_eq_ok] at h
    obtain ⟨f, _, ⟨hf, _⟩, _, _, _, _, _, hp, _, _, hrest, rfl⟩ := h
    obtain ⟨hsuit, hb⟩ := checkPattern_eq_ok p (fun h => absurd h Bool.false_ne_true) hp
    obtain ⟨hsuits, hbs⟩ := checkFields_eq_ok rest hrest
    exact ⟨⟨⟨f, hf, hsuit⟩, hsuits⟩, congr_arg₂ and hb hbs⟩

theorem checkSubs_eq_ok : ∀ (subs : List (Pattern T σ)) {fields : List (String × TurfType)}
    {st : List (String × TurfType)} {r : Bool × List (String × TurfType)},
    subs.length ≤ fields.length → checkSubs subs fields st = .ok r →
    SuitSubs subs fields ∧ r.1 = subsIrrefutable subs
  | [], _, _, _, _, h => by
    rw [checkSubs, Checker.pure_eq_ok] at h
    · exact ⟨trivial, by rw [h]; rfl⟩
    · nofun
  | p :: rest, [], _, _, hlen, _ => absurd hlen (by simp)
  | p :: rest, (_, τ) :: fields, _, _, hlen, h => by
    simp only [checkSubs, Checker.bind_eq_ok, Checker.pure_eq_ok] at h
    obtain ⟨_, _, hp, _, _, hrest, rfl⟩ := h
    obtain ⟨hsuit, hb⟩ := checkPattern_eq_ok p (fun h => absurd h Bool.false_ne_true) hp
    obtain ⟨hsuits, hbs⟩ := checkSubs_eq_ok rest (by simpa using hlen) hrest
    exact ⟨⟨hsuit, hsuits⟩, congr_arg₂ and hb hbs⟩

end

theorem checkErrorVariant_eq_ok {leftName rightName : String} {hasParens hasRest : Bool}
    {subs : List (Pattern T σ)} {τ : TurfType} {st : List (String × TurfType)}
    {r : Bool × List (String × TurfType)}
    (h : checkErrorVariant leftName rightName subs hasParens hasRest τ st = .ok r) :
    (errorVariant leftName rightName subs hasParens hasRest).Suits τ ∧
      r.1 = subsIrrefutable subs :=
  checkErrorVariant_suits (checkSubs_eq_ok subs) h

end Pattern

/-! ### Values of a type -/

/-- The fields of a value of a struct type. -/
def StructFields (T : TypeTable) (typeAt : ℕ → TurfType) (st : StructType)
    (fields : List (String × Val)) : Prop :=
  fields.length = st.fields.length ∧
    ∀ p ∈ st.fields.zip fields, p.1.name = p.2.1 ∧ HasType T typeAt p.2.2 p.1.type

namespace HasType

variable {typeAt : ℕ → TurfType} {v : Val} {τ : TurfType}

theorem of_bool (h : HasType T typeAt v τ) (hk : T.kind τ = .bool) : ∃ bit, v = .i1 bit := by
  cases h with
  | bool => exact ⟨_, rfl⟩
  | error h => obtain h | ⟨h, -⟩ := h <;> rw [hk] at h <;> cases h
  | _ h => rw [hk] at h; cases h

theorem of_enum {variants : List String} (h : HasType T typeAt v τ)
    (hk : T.kind τ = .enum variants) : ∃ bits, v = .i64 bits ∧ bits.toNat < variants.length := by
  cases h with
  | enum h hbits =>
    rw [hk] at h
    cases h
    exact ⟨_, rfl, hbits⟩
  | error h => obtain h | ⟨h, -⟩ := h <;> rw [hk] at h <;> cases h
  | _ h => rw [hk] at h; cases h

theorem of_struct {st : StructType} (h : HasType T typeAt v τ) (hk : T.kind τ = .struct st) :
    ∃ fields, v = .struct fields ∧ StructFields T typeAt st fields := by
  cases h with
  | struct h hlen hnames hfields =>
    rw [hk] at h
    cases h
    exact ⟨_, rfl, hlen, fun p hp => ⟨hnames p hp, hfields p hp⟩⟩
  | error h => obtain h | ⟨h, -⟩ := h <;> rw [hk] at h <;> cases h
  | _ h => rw [hk] at h; cases h

theorem of_error (h : HasType T typeAt v τ)
    (hk : T.kind τ = .anyError ∨ ∃ variants, T.kind τ = .userError variants) :
    ∃ a E V variants info payload, v = .error a E V payload ∧ T.errorVariants E = some variants ∧
      variants.find? (·.name = V) = some info ∧ payload.length = info.fields.length ∧
      ∀ p ∈ info.fields.zip payload, HasType T typeAt p.2 p.1.2 := by
  cases h with
  | error h hE hV hlen hfields => exact ⟨_, _, _, _, _, _, rfl, hE, hV, hlen, hfields⟩
  | _ h => obtain hk | ⟨_, hk⟩ := hk <;> rw [hk] at h <;> cases h

theorem of_userError {variants : List ErrorVariant} (h : HasType T typeAt v τ)
    (hk : T.kind τ = .userError variants) : ∃ a V info payload,
      v = .error a τ.getName V payload ∧ variants.find? (·.name = V) = some info ∧
      payload.length = info.fields.length ∧
      ∀ p ∈ info.fields.zip payload, HasType T typeAt p.2 p.1.2 := by
  cases h with
  | error h hE hV hlen hfields =>
    obtain h | ⟨h, rfl⟩ := h <;> rw [hk] at h <;> cases h
    exact ⟨_, _, _, _, rfl, hV, hlen, hfields⟩
  | _ h => rw [hk] at h; cases h

theorem of_reference {p : TurfType} (h : HasType T typeAt v (.reference p)) :
    ∃ a, v = .ref a ∧ typeAt a = p := by
  have hk := T.kind_reference p
  cases h with
  | reference h ha =>
    rw [hk] at h
    cases h
    exact ⟨_, rfl, ha⟩
  | error h => obtain h | ⟨h, -⟩ := h <;> rw [hk] at h <;> cases h
  | _ h => rw [hk] at h; cases h

/-- What a struct pattern looks at is a struct. -/
theorem deref {H : Heap T σ} {s : σ} {st : StructType} (h : HasType T H.typeAt v τ)
    (hk : T.kind τ = .struct st ∨ ∃ p, τ = .reference p ∧ T.kind p = .struct st) :
    ∃ fields, H.deref s v = .struct fields ∧ StructFields T H.typeAt st fields := by
  obtain hk | ⟨p, rfl, hk⟩ := hk
  · obtain ⟨fields, rfl, hfields⟩ := h.of_struct hk
    exact ⟨fields, rfl, hfields⟩
  · obtain ⟨a, rfl, ha⟩ := h.of_reference
    exact (H.typed s a).of_struct (by rwa [ha])

end HasType

/-- The field that a name finds, by its name in the value and by its position in the type. -/
theorem StructFields.field {typeAt : ℕ → TurfType} {st : StructType} {fields : List (String × Val)}
    {name : String} {f : Field} (h : StructFields T typeAt st fields)
    (hf : st.fields.find? (·.name = name) = some f) :
    ∃ w, fields.lookup name = some w ∧ HasType T typeAt w f.type ∧
      fields[st.fields.findIdx (·.name = name)]? = some (name, w) := by
  obtain ⟨hlen, hfields⟩ := h
  generalize st.fields = decls at hlen hfields hf ⊢
  induction decls generalizing fields with
  | nil => cases hf
  | cons d decls ih =>
    obtain - | ⟨⟨n, w⟩, fields⟩ := fields
    · cases hlen
    obtain ⟨hname, htype⟩ := hfields (d, (n, w)) (by simp)
    simp only at hname htype
    by_cases hd : d.name = name
    · have hfd : d = f := by simpa [List.find?_cons, hd] using hf
      subst hfd
      exact ⟨w, by simp [← hname, hd], htype,
        by simp [List.findIdx_cons, hd, ← hname]⟩
    · have hrest : decls.find? (·.name = name) = some f := by
        simpa [List.find?_cons, hd] using hf
      obtain ⟨w', hlookup, htype', hget⟩ := ih
        (show fields.length = decls.length by simpa using hlen)
        (fun p hp => hfields p (by simp [hp])) hrest
      have hn : (name == n) = false := beq_false_of_ne fun h => hd (hname.trans h.symm)
      exact ⟨w', by simp [List.lookup_cons, hn, hlookup], htype',
        by simp [List.findIdx_cons, hd, hget]⟩

/-! ### The types a subject and its headers have -/

/-- The types of subjects. -/
structure SubjectType (T : TypeTable) (τ : TurfType) : Prop where
  isType : T.IsType τ
  isSubject : (T.kind τ).isSubject = true

namespace SubjectType

variable {τ X : TurfType}

theorem isNominal (h : SubjectType T τ) : isNominal τ = true := T.nominal τ h.isType h.isSubject

theorem ne_pointer (h : SubjectType T τ) (q : TurfType) : τ ≠ .pointer q := by
  rintro rfl
  exact absurd h.isNominal nofun

/-- The structural rules say nothing about a subject's type. -/
theorem typesCompatible_eq (h : SubjectType T τ) (hX : T.IsType X)
    (hc : τ.typesCompatible X = true) : τ.scalarCompatible X = true := by
  have hn := h.isNominal
  have hgeneric : τ.genericsCompatible X = false := by
    cases X with
    | generic base args =>
      have hne : base ≠ τ.getName := (T.not_base τ base args h.isType h.isSubject hX).symm
      cases τ <;> first | (cases hn; done) | simp [TurfType.genericsCompatible, hne]
    | _ => cases τ <;> first | rfl | cases hn
  have hopen := T.closed X hX
  cases τ <;> first
    | (cases hn; done)
    | cases X <;> simp_all [TurfType.typesCompatible, TurfType.containsOpenParam, TurfType.isArray,
        TurfType.arraysCompatible, TurfType.pointersToOpen, TurfType.pointee?]


/-- A header of a compatible type has the subject's type, or is a wider number. -/
theorem kind_of_compatible (h : SubjectType T τ) (hX : T.IsType X)
    (hc : τ.typesCompatible X = true) : T.kind X = T.kind τ ∨
      T.kind τ = .int ∧ T.kind X = .double ∨
      T.kind τ = .int32 ∧ (T.kind X = .int ∨ T.kind X = .double) := by
  have hscalar := h.typesCompatible_eq hX hc
  by_cases hname : τ.getName = X.getName
  · exact .inl (T.kind_congr _ _ h.isType hX hname h.isSubject)
  have hn := h.isNominal
  have hopaque : τ.isOpaquePtr = false := T.not_opaque τ h.isType h.isSubject
  have hpointer : τ.isPointer = false := by cases τ <;> first | rfl | cases hn
  have hnull : τ.isNull = false := by cases τ <;> first | rfl | cases hn
  have hreference : τ.referenceCompatible X = false := by cases τ <;> first | rfl | cases hn
  have hnumeric : τ.numericCompatible X = true := by
    simp only [TurfType.scalarCompatible, hname, hnull, TurfType.isPointerLikeStrict, hpointer,
      hopaque, TurfType.opaqueCompatible, hreference] at hscalar
    simp_all
  revert hnumeric
  cases τ <;> cases X <;> simp [TurfType.numericCompatible, T.kind_int, T.kind_int32, T.kind_double]

end SubjectType

/-! ### Irrefutable patterns -/

section

variable {H : Heap T σ} {s : σ}

mutual

theorem matchPattern_of_irrefutable : ∀ (p : Pattern T σ) {τ : TurfType} {v : Val},
    p.Suits τ → p.irrefutable = true → HasType T H.typeAt v τ →
    ∃ bindings, matchPattern H s p v = some (some bindings)
  | .wildcard, _, _, _, _, _ => ⟨_, rfl⟩
  | .binding _, _, _, _, _, _ => ⟨_, rfl⟩
  | .struct _ fields _, τ, v, ⟨_, hk, hsuit⟩, hirr, hv => by
    obtain ⟨vs, hderef, hvs⟩ := hv.deref (s := s) hk
    obtain ⟨bindings, h⟩ := matchFields_of_irrefutable fields hsuit hirr hvs
    exact ⟨bindings, by rw [matchPattern, hderef, h]⟩

theorem matchFields_of_irrefutable : ∀ (fields : List (String × Pattern T σ)) {st : StructType}
    {vs : List (String × Val)}, Pattern.SuitFields st fields →
    Pattern.fieldsIrrefutable fields = true → StructFields T H.typeAt st vs →
    ∃ bindings, matchFields H s fields (.struct vs) = some (some bindings)
  | [], _, _, _, _, _ => ⟨_, rfl⟩
  | (name, p) :: rest, _, vs, ⟨⟨_, hf, hsuit⟩, hsuits⟩, hirr, hvs => by
    obtain ⟨hp, hrest⟩ := Bool.and_eq_true_iff.mp hirr
    obtain ⟨w, hlookup, hw, -⟩ := hvs.field hf
    obtain ⟨b, hb⟩ := matchPattern_of_irrefutable p hsuit hp hw
    obtain ⟨bs, hbs⟩ := matchFields_of_irrefutable rest hsuits hrest hvs
    refine ⟨b ++ bs, ?_⟩
    have hfield : (Val.struct vs).field name = some w := hlookup
    simp [matchFields, hfield, hb, hbs]

end

/-- The payload of an error value, against the sub-patterns of its variant. -/
theorem matchSubs_of_irrefutable : ∀ (subs : List (Pattern T σ)) {fields : List (String × TurfType)}
    {payload : List Val}, Pattern.SuitSubs subs fields → Pattern.subsIrrefutable subs = true →
    payload.length = fields.length → (∀ p ∈ fields.zip payload, HasType T H.typeAt p.2 p.1.2) →
    ∃ bindings, matchSubs H s subs payload = some (some bindings)
  | [], _, _, _, _, _, _ => ⟨[], by simp [matchSubs]⟩
  | _ :: _, [], _, hsuit, _, _, _ => absurd hsuit (by simp [Pattern.SuitSubs])
  | p :: rest, (_, τ) :: fields, [], _, _, hlen, _ => absurd hlen (by simp)
  | p :: rest, (x, τ) :: fields, w :: payload, ⟨hsuit, hsuits⟩, hirr, hlen, htyped => by
    obtain ⟨hp, hrest⟩ := Bool.and_eq_true_iff.mp hirr
    obtain ⟨b, hb⟩ := matchPattern_of_irrefutable (s := s) p hsuit hp
      (htyped ((x, τ), w) (by simp))
    obtain ⟨bs, hbs⟩ := matchSubs_of_irrefutable rest hsuits hrest (by simpa using hlen)
      fun q hq => htyped q (by simp [hq])
    exact ⟨b ++ bs, by simp [matchSubs, hb, hbs]⟩

end

/-! ### Headers -/

/-- A header that never lets a value pass by. -/
def Takes (H : Heap T σ) (h : Header T σ) (v : Val) : Prop :=
  ∀ s s', tryHeader H h v s ≠ some (none, s')

theorem takes_of_match {H : Heap T σ} {h : Header T σ} {v : Val} (hguard : h.guard = none)
    (hmatch : ∀ s s', matchHeaderPattern H h.pattern v s ≠ some (none, s')) : Takes H h v := by
  intro s s' htry
  unfold tryHeader at htry
  cases hm : matchHeaderPattern H h.pattern v s with
  | none => simp [hm] at htry
  | some r =>
    obtain ⟨m, s₁⟩ := r
    cases m with
    | none => exact hmatch s s₁ hm
    | some bindings => simp [hm, hguard] at htry

theorem tryHeaders_ne_none {H : Heap T σ} {v : Val} {h : Header T σ} (htakes : Takes H h v) :
    ∀ (headers : List (Header T σ)) (s s' : σ), h ∈ headers →
      tryHeaders H headers v s ≠ some (none, s')
  | h' :: rest, s, s', hmem, heq => by
    rw [tryHeaders] at heq
    cases htry : tryHeader H h' v s with
    | none => simp [htry] at heq
    | some r =>
      obtain ⟨m, s₁⟩ := r
      cases m with
      | some env => simp [htry] at heq
      | none =>
        obtain rfl | hmem := List.mem_cons.mp hmem
        · exact htakes s s₁ htry
        · exact tryHeaders_ne_none htakes rest s₁ s' hmem (by simpa [htry] using heq)

/-- A header that takes the value keeps the search from passing every arm. -/
theorem exists_arm_of_takes {H : Heap T σ} {v : Val} {h : Header T σ} {hasOtherBody : Bool}
    (htakes : Takes H h v) : ∀ (arms : List (MatchesArm T σ)) (i : ℕ) (s s' : σ) (c : Choice),
      (∃ arm ∈ arms, h ∈ arm.headers) → selectFrom H hasOtherBody i arms v s = some (c, s') →
      ∃ j env, c = .arm j env
  | arm :: rest, i, s, s', c, ⟨arm', harm, hmem⟩, heq => by
    rw [selectFrom] at heq
    cases htry : tryHeaders H arm.headers v s with
    | none => simp [htry] at heq
    | some r =>
      obtain ⟨m, s₁⟩ := r
      cases m with
      | some env =>
        simp only [htry, Option.bind_eq_bind, Option.bind_some] at heq
        cases heq
        exact ⟨i, env, rfl⟩
      | none =>
        obtain rfl | harm := List.mem_cons.mp harm
        · exact absurd htry (tryHeaders_ne_none htakes _ s s₁ hmem)
        · exact exists_arm_of_takes htakes rest (i + 1) s₁ s' c ⟨arm', harm, hmem⟩
            (by simpa [htry] using heq)

/-! ### What the checks say of a header -/

/-- What `visitCompare` makes sure of. -/
def Header.Suits (τ : TurfType) (h : Header T σ) : Prop :=
  match h.pattern with
  | .value e => e.resolves = true ∧ τ.typesCompatible e.type = true
  | .binding _ => False
  | p => p.Suits τ

/-- A header and what it contributes. -/
structure Explains (τ : TurfType) (h : Header T σ) (facts : HeaderFacts) : Prop where
  suits : h.Suits τ
  catchAll : facts.catchAll = true → h.guard = none ∧ h.pattern.irrefutable = true
  covered : ∀ name, facts.coveredValue = some name → h.guard = none ∧
    ((∃ e, h.pattern = .value e ∧ e.coveredValue = some name) ∨
      ∃ E subs hasParens hasRest, h.pattern = .errorVariant E name subs hasParens hasRest ∧
        Pattern.subsIrrefutable subs = true)

namespace CompareExpr

variable {node : CompareExpr T σ}

theorem explains_of_pattern {h : Header T σ} {st : List (String × TurfType)}
    {r : Bool × List (String × TurfType)} (hpointer : ∀ q, node.subjectType ≠ .pointer q)
    (hsuits : h.pattern.Suits node.subjectType → h.Suits node.subjectType)
    (hcheck : h.pattern.checkPattern node.subjectType node.selfSubject st = .ok r) :
    Explains node.subjectType h ⟨r.1 && h.guard.isNone, none, none⟩ := by
  obtain ⟨hsuit, hirr⟩ := Pattern.checkPattern_eq_ok _ (fun _ => hpointer) hcheck
  refine ⟨hsuits hsuit, fun hcatch => ?_, nofun⟩
  obtain ⟨hr, hguard⟩ := Bool.and_eq_true_iff.mp hcatch
  exact ⟨Option.isNone_iff_eq_none.mp hguard, hirr ▸ hr⟩

theorem checkHeader_eq_ok {h : Header T σ} {st : List (String × TurfType)}
    {r : HeaderFacts × List (String × TurfType)} (hpointer : ∀ q, node.subjectType ≠ .pointer q)
    (hcheck : node.checkHeader h st = .ok r) : Explains node.subjectType h r.1 := by
  obtain ⟨pattern, guard⟩ := h
  cases pattern with
  | value e =>
    simp only [checkHeader, Checker.bind_eq_ok, Checker.pure_eq_ok, demand_eq_ok] at hcheck
    obtain ⟨_, _, ⟨hresolves, _⟩, _, _, ⟨hcompat, _⟩, rfl⟩ := hcheck
    refine ⟨⟨hresolves, hcompat⟩, ?_, ?_⟩
    · cases guard <;> nofun
    · cases guard with
      | none => exact fun name hname => ⟨rfl, .inl ⟨e, rfl, hname⟩⟩
      | some _ => nofun
  | errorVariant leftName rightName subs hasParens hasRest =>
    simp only [checkHeader, Checker.bind_eq_ok, Checker.pure_eq_ok] at hcheck
    obtain ⟨b, _, hcheck, rfl⟩ := hcheck
    obtain ⟨hsuit, hb⟩ := Pattern.checkErrorVariant_eq_ok hcheck
    refine ⟨hsuit, nofun, fun name hname => ?_⟩
    simp only at hname hb
    split at hname
    · rename_i hc
      obtain ⟨hirr, hguard⟩ := Bool.and_eq_true_iff.mp hc
      cases hname
      exact ⟨Option.isNone_iff_eq_none.mp hguard, .inr ⟨_, _, _, _, rfl, hb ▸ hirr⟩⟩
    · cases hname
  | binding name => cases hcheck
  | wildcard | struct =>
    simp only [checkHeader, Checker.bind_eq_ok, Checker.pure_eq_ok] at hcheck
    obtain ⟨_, _, hcheck, rfl⟩ := hcheck
    exact explains_of_pattern (h := ⟨_, guard⟩) hpointer id hcheck

theorem checkHeaders_eq_ok (hpointer : ∀ q, node.subjectType ≠ .pointer q) :
    ∀ {headers : List (Header T σ)} {st : List (String × TurfType)}
    {r : List HeaderFacts × List (String × TurfType)}, node.checkHeaders headers st = .ok r →
    (∀ h ∈ headers, h.Suits node.subjectType) ∧
      ∀ f ∈ r.1, ∃ h ∈ headers, Explains node.subjectType h f
  | [], _, _, h => by
    rw [checkHeaders, Checker.pure_eq_ok] at h
    simp [h]
  | h :: rest, _, _, hcheck => by
    simp only [checkHeaders, Checker.bind_eq_ok, Checker.pure_eq_ok] at hcheck
    obtain ⟨facts, _, hh, fs, _, hrest, rfl⟩ := hcheck
    have hx := checkHeader_eq_ok hpointer hh
    obtain ⟨hsuits, hfacts⟩ := checkHeaders_eq_ok hpointer hrest
    refine ⟨List.forall_mem_cons.mpr ⟨hx.suits, hsuits⟩, List.forall_mem_cons.mpr ⟨?_, ?_⟩⟩
    · exact ⟨h, List.mem_cons_self, hx⟩
    · intro f hf
      obtain ⟨h', hmem, hx'⟩ := hfacts f hf
      exact ⟨h', List.mem_cons_of_mem _ hmem, hx'⟩

theorem checkArms_eq_ok (hpointer : ∀ q, node.subjectType ≠ .pointer q) :
    ∀ {arms : List (MatchesArm T σ)} {facts : List HeaderFacts},
    node.checkArms arms = .ok facts →
    (∀ arm ∈ arms, ∀ h ∈ arm.headers, h.Suits node.subjectType) ∧
      ∀ f ∈ facts, ∃ arm ∈ arms, ∃ h ∈ arm.headers, Explains node.subjectType h f
  | [], _, h => by
    cases h
    simp
  | arm :: rest, facts, hcheck => by
    rw [checkArms] at hcheck
    cases hh : (node.checkHeaders arm.headers).run [] with
    | error e => rw [hh] at hcheck; cases hcheck
    | ok r =>
      cases hr : node.checkArms rest with
      | error e => rw [hh] at hcheck; simp only [hr] at hcheck; cases hcheck
      | ok fs =>
        rw [hh] at hcheck
        simp only [hr] at hcheck
        cases hcheck
        obtain ⟨hsuits, hfacts⟩ := checkHeaders_eq_ok hpointer hh
        obtain ⟨hsuits', hfacts'⟩ := checkArms_eq_ok hpointer hr
        refine ⟨List.forall_mem_cons.mpr ⟨hsuits, hsuits'⟩, fun f hf => ?_⟩
        obtain hf | hf := List.mem_append.mp hf
        · obtain ⟨h, hmem, hx⟩ := hfacts f hf
          exact ⟨arm, List.mem_cons_self, h, hmem, hx⟩
        · obtain ⟨arm', hmem', h, hmem, hx⟩ := hfacts' f hf
          exact ⟨arm', List.mem_cons_of_mem _ hmem', h, hmem, hx⟩

end CompareExpr

/-- The type that the checks find is a type of the program. -/
theorem ValueExpr.isType {e : ValueExpr T σ} (h : e.resolves = true) : T.IsType e.type := by
  cases e with
  | int _ => exact T.isType_int
  | char _ => exact T.isType_char
  | string _ => exact T.isType_string
  | bool _ => exact T.isType_bool
  | enumVariant E V =>
    refine T.isType_named E ?_
    simp only [resolves] at h
    split at h
    · rename_i hk
      rw [hk]
      rfl
    · cases h
  | moduleConstant K value _ =>
    cases value with
    | int _ => exact T.isType_int
    | int32 _ => exact T.isType_int32
    | double _ => exact T.isType_double
    | bool _ => exact T.isType_bool
    | string _ => exact T.isType_string
  | other e => exact e.isType

/-- The expressions that cover a value. -/
theorem ValueExpr.of_coveredValue {e : ValueExpr T σ} {name : String} (hresolves : e.resolves = true)
    (h : e.coveredValue = some name) :
    (∃ val, e = .bool val ∧ name = if val then "true" else "false") ∨
      (∃ E variants, e = .enumVariant E name ∧ T.kind e.type = .enum variants) ∨
      ∃ value hid, e = .moduleConstant name value hid := by
  cases e with
  | bool val => cases val <;> simpa [coveredValue, eq_comm] using h
  | enumVariant E V =>
    obtain rfl : V = name := by simpa [coveredValue] using h
    simp only [resolves] at hresolves
    split at hresolves
    · rename_i variants hk
      exact .inr (.inl ⟨E, variants, rfl, hk⟩)
    · cases hresolves
  | moduleConstant K value hid =>
    obtain rfl : K = name := by simpa [coveredValue] using h
    exact .inr (.inr ⟨value, hid, rfl⟩)
  | _ => cases h

/-! ### Covered values -/

section

variable {H : Heap T σ} {τ : TurfType} {h : Header T σ} {facts : HeaderFacts} {name : String}

/-- A header that is an expression takes a value if its code gives an equal one. -/
theorem takes_of_value {e : ValueExpr T σ} {v w : Val} (hguard : h.guard = none)
    (hpattern : h.pattern = .value e) (hcode : e.codegen = .const w) (hsame : v.sameAs w = true) :
    Takes H h v :=
  takes_of_match hguard fun s s' hm => by
    simp [hpattern, matchHeaderPattern, hcode, Lowered.run, hsame] at hm

theorem takes_of_catchAll {v : Val} (hx : Explains τ h facts) (hcatch : facts.catchAll = true)
    (hv : HasType T H.typeAt v τ) : Takes H h v := by
  obtain ⟨hguard, hirr⟩ := hx.catchAll hcatch
  have hsuits := hx.suits
  refine takes_of_match hguard fun s s' hm => ?_
  unfold Header.Suits at hsuits
  cases hp : h.pattern with
  | value e => rw [hp] at hirr; cases hirr
  | binding name => simp only [hp] at hsuits
  | _ =>
    simp only [hp] at hsuits
    rw [hp] at hirr hm
    obtain ⟨b, hb⟩ := matchPattern_of_irrefutable (s := s) _ hsuits hirr hv
    simp [matchHeaderPattern, hb] at hm

theorem takes_of_enum {variants : List String} {bits : BitVec 64} (hsub : SubjectType T τ)
    (hk : T.kind τ = .enum variants) (hx : Explains τ h facts)
    (hcov : facts.coveredValue = some name) (hname : variants[bits.toNat]? = some name) :
    Takes H h (.i64 bits) := by
  have hsuits := hx.suits
  obtain ⟨hguard, ⟨e, hp, he⟩ | ⟨E, subs, _, _, hp, -⟩⟩ := hx.covered name hcov
  · simp only [Header.Suits, hp] at hsuits
    have hkind : T.kind e.type = .enum variants := by
      simpa [hk] using hsub.kind_of_compatible (ValueExpr.isType hsuits.1) hsuits.2
    obtain ⟨val, rfl, -⟩ | ⟨E, _, rfl, -⟩ | ⟨value, _, rfl⟩ := e.of_coveredValue hsuits.1 he
    · exact absurd hkind (by simp [ValueExpr.type, T.kind_bool])
    · have hpos : variants.idxOf name = bits.toNat := by
        obtain ⟨hlt, hget⟩ := List.getElem?_eq_some_iff.mp hname
        rw [← hget, (T.enum_nodup _ _ hk).idxOf_getElem]
      have hkE : T.kind (.named E) = .enum variants := hkind
      refine takes_of_value hguard hp (w := .i64 bits) ?_ (by simp [Val.sameAs, Val.number])
      simp [ValueExpr.codegen, hkE, hpos]
    · exact absurd hkind (by cases value <;> simp [ValueExpr.type, ConstantValue.type, T.kind_int,
        T.kind_int32, T.kind_double, T.kind_bool, T.kind_string])
  · simp only [Header.Suits, hp] at hsuits
    obtain ⟨vs, info, hE | ⟨hE, -⟩, -⟩ := hsuits <;> rw [hk] at hE <;> cases hE

theorem takes_of_bool {bit : Bool} (hsub : SubjectType T τ) (hk : T.kind τ = .bool)
    (hx : Explains τ h facts)
    (hcov : facts.coveredValue = some (if bit then "true" else "false")) :
    Takes H h (.i1 bit) := by
  have hsuits := hx.suits
  obtain ⟨hguard, ⟨e, hp, he⟩ | ⟨E, subs, _, _, hp, -⟩⟩ := hx.covered _ hcov
  · simp only [Header.Suits, hp] at hsuits
    have hkind : T.kind e.type = .bool := by
      simpa [hk] using hsub.kind_of_compatible (ValueExpr.isType hsuits.1) hsuits.2
    obtain ⟨val, rfl, hval⟩ | ⟨E, _, rfl, hE⟩ | ⟨value, hid, rfl⟩ := e.of_coveredValue hsuits.1 he
    · obtain rfl : bit = val := by cases val <;> cases bit <;> simp at hval ⊢
      exact takes_of_value hguard hp rfl (by cases bit <;> simp [Val.sameAs, Val.number])
    · exact absurd (hE.symm.trans hkind) nofun
    · exact absurd (by cases bit <;> simp) hid
  · simp only [Header.Suits, hp] at hsuits
    obtain ⟨vs, info, hE | ⟨hE, -⟩, -⟩ := hsuits <;> rw [hk] at hE <;> cases hE

theorem takes_of_userError {variants : List ErrorVariant} {info : ErrorVariant} {a : ℕ}
    {payload : List Val} (hsub : SubjectType T τ) (hk : T.kind τ = .userError variants)
    (hx : Explains τ h facts) (hcov : facts.coveredValue = some name)
    (hname : variants.find? (·.name = name) = some info)
    (hlen : payload.length = info.fields.length)
    (htyped : ∀ p ∈ info.fields.zip payload, HasType T H.typeAt p.2 p.1.2) :
    Takes H h (.error a τ.getName name payload) := by
  have hsuits := hx.suits
  obtain ⟨hguard, ⟨e, hp, he⟩ | ⟨E, subs, _, _, hp, hirr⟩⟩ := hx.covered name hcov
  · simp only [Header.Suits, hp] at hsuits
    have hkind : T.kind e.type = .userError variants := by
      simpa [hk] using hsub.kind_of_compatible (ValueExpr.isType hsuits.1) hsuits.2
    obtain ⟨val, rfl, -⟩ | ⟨E, _, rfl, hE⟩ | ⟨value, _, rfl⟩ := e.of_coveredValue hsuits.1 he
    · exact absurd hkind (by simp [ValueExpr.type, T.kind_bool])
    · exact absurd (hE.symm.trans hkind) nofun
    · exact absurd hkind (by cases value <;> simp [ValueExpr.type, ConstantValue.type, T.kind_int,
        T.kind_int32, T.kind_double, T.kind_bool, T.kind_string])
  · simp only [Header.Suits, hp] at hsuits
    obtain ⟨vs, info', hE, hvs, hinfo, hsuit⟩ := hsuits
    obtain ⟨hkE, hE⟩ := hE.resolve_left (by simp [hk])
    obtain rfl : vs = variants := by simpa [hk] using hkE.symm
    obtain rfl : info' = info := by simpa [hname] using hinfo.symm
    refine takes_of_match hguard fun s s' hm => ?_
    obtain ⟨b, hb⟩ := matchSubs_of_irrefutable (s := s) subs hsuit hirr hlen htyped
    simp [hp, matchHeaderPattern, matchPattern, hE, hb] at hm

end

theorem CompareExpr.visitCompare_eq_ok {node : CompareExpr T σ} {b : Bool}
    (h : node.visitCompare = .ok b) :
    ∃ facts, node.checkArms node.arms = .ok facts ∧ node.exhaustive facts = .ok b := by
  unfold visitCompare at h
  cases hfacts : node.checkArms node.arms with
  | error e =>
    rw [hfacts] at h
    cases h
  | ok facts =>
    refine ⟨facts, rfl, ?_⟩
    by_cases hdup : (facts.filterMap (·.patternKey)).Nodup
    · simpa [hfacts, hdup, bind, Except.bind] using h
    · simp [hfacts, hdup, bind, Except.bind] at h

theorem CompareExpr.exhaustive_eq_ok {node : CompareExpr T σ} {facts : List HeaderFacts}
    (h : node.exhaustive facts = .ok true) : (∃ f ∈ facts, f.catchAll = true) ∨
      (∃ variants, T.kind node.subjectType = .enum variants ∧
        ∀ name ∈ variants, name ∈ coveredValues facts) ∨
      (T.kind node.subjectType = .bool ∧
        ∀ bit : Bool, (if bit then "true" else "false") ∈ coveredValues facts) ∨
      ∃ variants, T.kind node.subjectType = .userError variants ∧
        ∀ v ∈ variants, v.name ∈ coveredValues facts := by
  simp only [exhaustive] at h
  split at h
  · cases h
  · split at h
    · rename_i hcatch
      exact .inl (by simpa using hcatch)
    · refine .inr ?_
      split at h
      · rename_i variants hk
        split at h
        · rename_i hall
          exact .inl ⟨variants, hk, by simpa using hall⟩
        · cases h
      · rename_i hk
        split at h
        · rename_i hall
          exact .inr (.inl ⟨hk, by simpa [and_comm] using hall⟩)
        · cases h
      · rename_i variants hk
        split at h
        · rename_i hall
          exact .inr (.inr ⟨variants, hk, by simpa using hall⟩)
        · cases h
      all_goals cases h

/-- When the checker records a compare as exhaustive, every value of the subject's type selects an
arm, unless a header or a guard panics first. -/
theorem select_of_exhaustive {H : Heap T σ} {node : CompareExpr T σ} {v : Val}
    (hsub : SubjectType T node.subjectType) (hcheck : node.visitCompare = .ok true)
    (hv : HasType T H.typeAt v node.subjectType) (s s' : σ) :
    node.select H v s ≠ some (.noArm, s') := by
  obtain ⟨facts, hfacts, hexhaustive⟩ := CompareExpr.visitCompare_eq_ok hcheck
  obtain ⟨-, hexplains⟩ := CompareExpr.checkArms_eq_ok hsub.ne_pointer hfacts
  have htakes : ∀ {h : Header T σ} {arm : MatchesArm T σ}, arm ∈ node.arms → h ∈ arm.headers →
      Takes H h v → node.select H v s ≠ some (.noArm, s') :=
    fun harm hmem ht heq => by
      obtain ⟨_, _, hc⟩ := exists_arm_of_takes ht _ _ _ _ _ ⟨_, harm, hmem⟩ heq
      cases hc
  -- the header that covers the value takes it
  have hcovered : ∀ name, name ∈ CompareExpr.coveredValues facts →
      (∀ {h f}, Explains node.subjectType h f → f.coveredValue = some name → Takes H h v) →
      node.select H v s ≠ some (.noArm, s') := by
    intro name hname ht
    obtain ⟨f, hf, hcov⟩ := List.mem_filterMap.mp hname
    obtain ⟨arm, harm, h, hmem, hx⟩ := hexplains f hf
    exact htakes harm hmem (ht hx hcov)
  obtain ⟨f, hf, hcatch⟩ | ⟨variants, hk, hall⟩ | ⟨hk, hall⟩ | ⟨variants, hk, hall⟩ :=
    CompareExpr.exhaustive_eq_ok hexhaustive
  · obtain ⟨arm, harm, h, hmem, hx⟩ := hexplains f hf
    exact htakes harm hmem (takes_of_catchAll hx hcatch hv)
  · obtain ⟨bits, rfl, hbits⟩ := hv.of_enum hk
    exact hcovered variants[bits.toNat] (hall _ (List.getElem_mem hbits))
      fun hx hcov => takes_of_enum hsub hk hx hcov (List.getElem?_eq_getElem hbits)
  · obtain ⟨bit, rfl⟩ := hv.of_bool hk
    exact hcovered _ (hall bit) fun hx hcov => takes_of_bool hsub hk hx hcov
  · obtain ⟨a, V, info, payload, rfl, hV, hlen, htyped⟩ := hv.of_userError hk
    refine hcovered V ?_ fun hx hcov => takes_of_userError hsub hk hx hcov hV hlen htyped
    have := hall _ (List.mem_of_find?_eq_some hV)
    rwa [show info.name = V by simpa using List.find?_some hV] at this

end Compare

end TurfLang
