import TurfLang.Analysis.Algorithms

/-!
# `src/diagnostics/SuggestionIndex.h`: suggestions for misspelled names

The candidates that are not too long or too short go into a trie. The search walks the trie with one
row of the distance table for each node and leaves a branch when the whole row is above the bound.
-/

namespace TurfLang

namespace SuggestionIndex

/-- `std::string`. -/
abbrev Name := List UInt8

/-! ### The trie -/

/-- A node with its `std::map<char, ...>` as entries, in the order of `char`. -/
inductive TrieNode
  | mk (terminal : Bool) (children : List (UInt8 × TrieNode))

def TrieNode.new : TrieNode := .mk false []

/-- `auto &Child = Node->Children[Ch]`, made if it is missing, and what is done to it. -/
def atChild (f : TrieNode → TrieNode) (ch : UInt8) :
    List (UInt8 × TrieNode) → List (UInt8 × TrieNode)
  | [] => [(ch, f .new)]
  | e :: es =>
    if ch = e.1 then (ch, f e.2) :: es
    else if ch.toBitVec.slt e.1.toBitVec then (ch, f .new) :: e :: es
    else e :: atChild f ch es

/-- `Trie::insert`. -/
def TrieNode.insert : TrieNode → Name → TrieNode
  | .mk _ children, [] => .mk true children
  | .mk terminal children, ch :: word =>
    .mk terminal (atChild (fun child => child.insert word) ch children)

/-- The body of the loop over the columns. -/
def rowCell (query : Name) (currentChar prevChar : UInt8) (previousRow prevPreviousRow : List ℤ)
    (currentRow : List ℤ) (i : ℕ) : List ℤ :=
  let insertCost := currentRow.getD (i - 1) 0 + 1
  let deleteCost := previousRow.getD i 0 + 1
  let replaceCost := previousRow.getD (i - 1) 0 +
    if query.getD (i - 1) 0 = currentChar then 0 else 1
  let best := min (min insertCost deleteCost) replaceCost
  let best :=
    if 2 ≤ i ∧ prevChar ≠ 0 ∧ currentChar = query.getD (i - 2) 0 ∧ prevChar = query.getD (i - 1) 0
    then min best (prevPreviousRow.getD (i - 2) 0 + 1) else best
  currentRow ++ [best]

def nextRow (query : Name) (currentChar prevChar : UInt8) (previousRow prevPreviousRow : List ℤ) :
    List ℤ :=
  (List.range query.length).foldl
    (fun row i => rowCell query currentChar prevChar previousRow prevPreviousRow row (i + 1))
    [previousRow.getD 0 0 + 1]

mutual

def searchRecursive (query : Name) (maxDistance : ℤ) :
    TrieNode → (pre : Name) → (currentChar prevChar : UInt8) →
      (previousRow prevPreviousRow : List ℤ) → List (Name × ℤ)
  | .mk terminal children, pre, currentChar, prevChar, previousRow, prevPreviousRow =>
    let currentRow := nextRow query currentChar prevChar previousRow prevPreviousRow
    let back := currentRow.getLastD 0
    let found := if terminal ∧ back ≤ maxDistance then [(pre, back)] else []
    let bestInRow := currentRow.foldl min back
    if maxDistance < bestInRow then found
    else found ++ searchChildren query maxDistance children pre currentChar currentRow previousRow

/-- The loop over `Node->Children`. -/
def searchChildren (query : Name) (maxDistance : ℤ) :
    List (UInt8 × TrieNode) → (pre : Name) → (currentChar : UInt8) →
      (currentRow previousRow : List ℤ) → List (Name × ℤ)
  | [], _, _, _, _ => []
  | (ch, child) :: rest, pre, currentChar, currentRow, previousRow =>
    searchRecursive query maxDistance child (pre ++ [ch]) ch currentChar currentRow previousRow ++
      searchChildren query maxDistance rest pre currentChar currentRow previousRow

end

def TrieNode.children : TrieNode → List (UInt8 × TrieNode)
  | .mk _ children => children

/-- `Trie::search`. -/
def search (root : TrieNode) (query : Name) (maxDistance : ℤ) : List (Name × ℤ) :=
  let initialRow := (List.range (query.length + 1)).map fun i : ℕ => (i : ℤ)
  root.children.flatMap fun child =>
    searchRecursive query maxDistance child.2 [child.1] child.1 0 initialRow initialRow

/-! ### The suggestions -/

def getThreshold (query : Name) : ℤ :=
  let n := query.length
  if n ≤ 4 then 1 else if n ≤ 7 then 2 else max 3 (n / 3 : ℕ)

/-- The loop over the candidates, with `Seen` and the trie. -/
def indexCandidate (query : Name) (st : List Name × TrieNode) (candidate : Name) :
    List Name × TrieNode :=
  if candidate = [] ∨ candidate = query then st
  else if getThreshold query < |(candidate.length : ℤ) - query.length| then st
  else if candidate ∈ st.1 then st
  else (candidate :: st.1, st.2.insert candidate)

/-- The order of the matches. -/
def matchBefore (a b : Name × ℤ) : Prop := if a.2 ≠ b.2 then a.2 < b.2 else a.1 < b.1

instance : DecidableRel matchBefore := fun a b =>
  inferInstanceAs (Decidable (if a.2 ≠ b.2 then a.2 < b.2 else a.1 < b.1))

/-- The loop over the sorted matches, with `Added` and the suggestions. -/
def takeSuggestions (maxResults : ℕ) : List (Name × ℤ) → List Name → List Name → List Name
  | [], _, suggestions => suggestions
  | (name, _) :: rest, added, suggestions =>
    if name ∈ added then takeSuggestions maxResults rest added suggestions
    else
      let suggestions := suggestions ++ [name]
      if suggestions.length = maxResults then suggestions
      else takeSuggestions maxResults rest (name :: added) suggestions

def suggestFromCandidates (query : Name) (candidates : List Name) (maxResults : ℕ) : List Name :=
  if query = [] ∨ candidates = [] ∨ maxResults = 0 then []
  else
    let (_, trieIndex) := candidates.foldl (indexCandidate query) ([], .new)
    let found := search trieIndex query (getThreshold query)
    takeSuggestions maxResults (found.insertionSort fun a b => ¬ matchBefore b a) [] []

end SuggestionIndex

end TurfLang
