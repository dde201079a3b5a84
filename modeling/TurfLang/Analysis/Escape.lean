import Mathlib.Data.Char
import Mathlib.Data.List.Lex
import Mathlib.Data.Prod.Lex
import TurfLang.Lib.SortedMap
import TurfLang.Sema.Types

/-!
# `Analysis.cpp`: the places of the escape pass

What the pass knows of the references in a function: a provenance for each place, a variable with
the text of a path below it. A map has no entry for what is only implied, and a key that ends in
`#` marks a region that was overwritten.
-/

namespace TurfLang.Escape

/-- `RefProvenance`. -/
inductive RefProvenance
  | stack
  | param
  | heap
  | unknown
  | mayStack
  deriving DecidableEq

/-- A `VariableSymbol`, as far as the pass asks. -/
structure VariableSymbol where
  isParameter : Bool
  type : Option TurfType

/-- What the pass looks up: the symbol at an address, and the registered fields of a struct type. -/
structure Registry where
  symbol : ℕ → VariableSymbol
  structFields : TurfType → Option (List (String × TurfType))

/-! ### Places -/

/-- `PlaceKey`: the address of a symbol, and the text of a path. -/
structure PlaceKey where
  sym : ℕ
  path : List Char
  deriving DecidableEq

namespace PlaceKey

theorem toLex_injective : Function.Injective fun k : PlaceKey => toLex (k.sym, k.path) := by
  rintro ⟨x, p⟩ ⟨y, q⟩ h
  simpa using h

/-- `operator<`: by symbol, and then by text. -/
instance : LinearOrder PlaceKey := LinearOrder.lift' _ toLex_injective

theorem le_iff {a b : PlaceKey} : a ≤ b ↔ a.sym < b.sym ∨ a.sym = b.sym ∧ a.path ≤ b.path :=
  Prod.Lex.le_iff (x := toLex (a.sym, a.path)) (y := toLex (b.sym, b.path))

/-- A key that ends in `#`. -/
def isMarker (k : PlaceKey) : Bool := k.path.getLast? = some '#'

end PlaceKey

/-- The name of a field: no character of it starts a segment or ends a marker. -/
structure FieldName where
  chars : List Char
  plain : ∀ c ∈ chars, c ≠ '.' ∧ c ≠ '[' ∧ c ≠ '#'
  deriving DecidableEq

/-- A segment of a path: `.f`, `[k]`, or the element at an index that is not known. -/
inductive Segment
  | field (name : FieldName)
  | index (k : ℕ)
  | any
  deriving DecidableEq

/-- The text of a segment, as `valuePlaceOf` writes it. -/
def Segment.text : Segment → List Char
  | .field name => '.' :: name.chars
  | .index k => '[' :: (Nat.toDigits 10 k ++ [']'])
  | .any => ['[', '*', ']']

/-- The text of a path. -/
def pathText (segments : List Segment) : List Char := segments.flatMap Segment.text

/-- `ProvMap`. -/
abbrev ProvMap := SortedMap PlaceKey RefProvenance

/-- Whether a segment of a path starts with a character. -/
def startsSegment (c : Char) : Bool := c = '.' || c = '['

/-- `pathSegments`. -/
def pathSegments (path : List Char) : List (List Char) := path.splitBy fun _ c => !startsSegment c

section

variable (R : Registry)

/-- `isRefType`. -/
def isRefType : Option TurfType → Bool
  | some t => t.isReference || t.isNullableReference
  | none => false

/-- `isUnsizedArrayParam`: an array whose size is not known, the size a parameter or none. -/
def isUnsizedArrayParam (s : VariableSymbol) : Bool :=
  s.isParameter &&
    match s.type with
    | some (.array _ .unsized) | some (.array _ (.param _)) => true
    | _ => false

/-- `isTrackableHandle`. -/
def isTrackableHandle (s : VariableSymbol) : Bool :=
  match s.type with
  | none => false
  | some t => t.isPointer || isUnsizedArrayParam s

/-- `stepType`. -/
def stepType (t : Option TurfType) (seg : List Char) : Option TurfType :=
  match t, seg with
  | none, _ | _, [] => none
  | some t, c :: _ =>
    if c = '[' then
      match t with
      | .array e (.fixed _) => some e
      | _ => none
    else do
      let fields ← R.structFields t
      let field ← fields.find? fun f => '.' :: f.1.toList = seg
      return field.2

/-- `typeAtPath`. -/
def typeAtPath (s : VariableSymbol) (path : List Char) : Option TurfType :=
  (pathSegments path).foldl (stepType R) s.type

/-- `implicitProv`. -/
def implicitProv (k : PlaceKey) : RefProvenance :=
  let s := R.symbol k.sym
  if !s.isParameter then .unknown
  else if k.path = [] then if isTrackableHandle s then .param else .unknown
  else if ['[', '*', ']'] <:+: k.path then .unknown
  else if isRefType (typeAtPath R s k.path) then .param else .unknown

/-- Whether a cut of a path is at its start, at its end or between two segments. -/
def atBoundary (path : List Char) (cut : ℕ) : Bool :=
  !(cut < path.length && cut ≠ 0 && !(path[cut]?.any startsSegment))

/-- Whether a region marker stands on the path of a place or above it. -/
def isMarked (m : ProvMap) (k : PlaceKey) : Bool :=
  (List.range (k.path.length + 1)).any fun cut =>
    atBoundary k.path cut && m.contains ⟨k.sym, k.path.take cut ++ ['#']⟩

/-- `getPlace`. -/
def getPlace (m : ProvMap) (k : PlaceKey) : RefProvenance :=
  match m.find? k with
  | some p => p
  | none => if isMarked m k then .unknown else implicitProv R k

/-! ### Merging -/

/-- `isStackish`. -/
def isStackish (p : RefProvenance) : Bool := p = .stack || p = .mayStack

/-- `mergeProv`. -/
def mergeProv (a b : RefProvenance) : RefProvenance :=
  if a = b then a else if isStackish a || isStackish b then .mayStack else .unknown

/-- The `Take` of `meetProv`. -/
def take (a b r : ProvMap) (k : PlaceKey) : ProvMap :=
  if r.contains k then r
  else if k.isMarker then r.insert k .unknown
  else r.insert k (mergeProv (getPlace R a k) (getPlace R b k))

/-- `meetProv`. -/
def meetProv (a b : ProvMap) : ProvMap :=
  b.keys.foldl (take R a b) (a.keys.foldl (take R a b) .empty)

/-- The `newIN` of `runOnCFG`: the meet of what leaves the reached predecessors, in their order. -/
def newIN (outs : List ProvMap) : Option ProvMap :=
  outs.foldl (fun acc out => some (match acc with | none => out | some m => meetProv R m out)) none

/-! ### Writing -/

/-- Whether a key is below a place, as `killUnder` and `holdsStack` see it: its text begins with the
text of the place. -/
def below (x : ℕ) (path : List Char) (k : PlaceKey) : Bool := k.sym = x && path.isPrefixOf k.path

/-- `killUnder`. -/
def killUnder (m : ProvMap) (x : ℕ) (path : List Char) : ProvMap :=
  (m.eraseWhile ⟨x, path⟩ (below x path)).insert ⟨x, path ++ ['#']⟩ .unknown

/-- The search of `holdsStack` for a reference to this frame inside a place. -/
def holdsStackBelow (m : ProvMap) (x : ℕ) (path : List Char) : Bool :=
  (m.walk ⟨x, path⟩ (below x path)).any fun e => !e.1.isMarker && isStackish e.2

end

end TurfLang.Escape
