import TurfLang.Lib.EditDistance
import TurfLang.Lib.Loop

/-!
# `src/analysis/Algorithms.cpp`: distances of spelling

The two dynamic programs, over a table that is read and written only within its bounds, and what
they compute. A cell belongs to two prefixes and holds the least cost of an alignment of them, with
crossings of neighbours in the one program and all crossings in the other.
-/

namespace TurfLang

namespace Algorithms

open EditDistance

variable {α : Type} [DecidableEq α]

/-! ### The programs -/

/-- `vector<vector<int>> dp`. -/
structure Table where
  rows : ℕ
  cols : ℕ
  cell : ℕ → ℕ → ℤ

/-- `dp[i][j]`. -/
def Table.read (dp : Table) (i j : ℕ) : Option ℤ :=
  if i < dp.rows ∧ j < dp.cols then some (dp.cell i j) else none

/-- The table with `v` at one place. -/
def Table.set (dp : Table) (i j : ℕ) (v : ℤ) : Table :=
  { dp with cell := fun i' j' => if i' = i ∧ j' = j then v else dp.cell i' j' }

/-- `dp[i][j] = v`. -/
def Table.write (dp : Table) (i j : ℕ) (v : ℤ) : Option Table :=
  if i < dp.rows ∧ j < dp.cols then some (dp.set i j v) else none

/-- The condition of the transposition. -/
def transposed (s1 s2 : List α) (i j : ℕ) : Option Bool :=
  if 1 < i ∧ 1 < j then do
    let a ← s1[i - 1]?
    let b ← s2[j - 2]?
    let a' ← s1[i - 2]?
    let b' ← s2[j - 1]?
    pure (decide (a = b ∧ a' = b'))
  else pure false

/-- The body of the inner loop of `getLevenshteinDistance`. -/
def levenshteinCell (s1 s2 : List α) (i : ℕ) (dp : Table) (j : ℕ) : Option Table := do
  let cost := if (← s1[i - 1]?) = (← s2[j - 1]?) then 0 else 1
  let best := min (min ((← dp.read (i - 1) j) + 1) ((← dp.read i (j - 1)) + 1))
    ((← dp.read (i - 1) (j - 1)) + cost)
  let dp ← dp.write i j best
  if ← transposed s1 s2 i j then
    dp.write i j (min (← dp.read i j) ((← dp.read (i - 2) (j - 2)) + 1))
  else pure dp

/-- The table of `getLevenshteinDistance`, filled. -/
def levenshteinTable (s1 s2 : List α) : Option Table := do
  let m := s1.length
  let n := s2.length
  let dp : Table := ⟨m + 1, n + 1, fun _ _ => 0⟩
  let dp ← (List.range (m + 1)).foldlM (fun dp i => dp.write i 0 i) dp
  let dp ← (List.range (n + 1)).foldlM (fun dp j => dp.write 0 j j) dp
  (List.range m).foldlM (fun dp i =>
    (List.range n).foldlM (fun dp j => levenshteinCell s1 s2 (i + 1) dp (j + 1)) dp) dp

def getLevenshteinDistance (s1 s2 : List α) : Option ℤ :=
  if s1.length = 0 then some s2.length
  else if s2.length = 0 then some s1.length
  else do (← levenshteinTable s1 s2).read s1.length s2.length

/-- The row a character was last seen in, with `0` for none. -/
def lastSeen (last : α → Option ℕ) (c : α) : ℕ := (last c).getD 0

/-- The body of the inner loop of `getDamerauLevenshteinDistance`, with the last matching column. -/
def damerauCell (s1 s2 : List α) (last : α → Option ℕ) (i : ℕ) (st : ℕ × Table) (j : ℕ) :
    Option (ℕ × Table) := do
  let (l, dp) := st
  let i1 := lastSeen last (← s2[j - 1]?)
  let j1 := l
  let cost := if (← s1[i - 1]?) = (← s2[j - 1]?) then 0 else 1
  let l := if cost = 0 then j else l
  let dp ← dp.write (i + 1) (j + 1)
    (min (min (min ((← dp.read i j) + cost) ((← dp.read (i + 1) j) + 1))
      ((← dp.read i (j + 1)) + 1))
      ((← dp.read i1 j1) + ((i : ℤ) - i1 - 1) + 1 + ((j : ℤ) - j1 - 1)))
  pure (l, dp)

/-- The body of the outer loop. -/
def damerauRow (s1 s2 : List α) (st : (α → Option ℕ) × Table) (i : ℕ) :
    Option ((α → Option ℕ) × Table) := do
  let (last, dp) := st
  let (_, dp) ← (List.range s2.length).foldlM
    (fun st j => damerauCell s1 s2 last i st (j + 1)) (0, dp)
  let c ← s1[i - 1]?
  pure (Function.update last c (some i), dp)

/-- The table of `getDamerauLevenshteinDistance`, filled. -/
def damerauTable (s1 s2 : List α) : Option Table := do
  let m := s1.length
  let n := s2.length
  let dp : Table := ⟨m + 2, n + 2, fun _ _ => 0⟩
  let maxDist : ℤ := m + n
  let dp ← dp.write 0 0 maxDist
  let dp ← (List.range (m + 1)).foldlM (fun dp i => do
    (← dp.write (i + 1) 0 maxDist).write (i + 1) 1 i) dp
  let dp ← (List.range (n + 1)).foldlM (fun dp j => do
    (← dp.write 0 (j + 1) maxDist).write 1 (j + 1) j) dp
  let (_, dp) ← (List.range m).foldlM (fun st i => damerauRow s1 s2 st (i + 1))
    ((fun _ => none), dp)
  pure dp

def getDamerauLevenshteinDistance (s1 s2 : List α) : Option ℤ :=
  if s1.length = 0 then some s2.length
  else if s2.length = 0 then some s1.length
  else do (← damerauTable s1 s2).read (s1.length + 1) (s2.length + 1)

example : getDamerauLevenshteinDistance "ca".toList "abc".toList = some 2 ∧
    getLevenshteinDistance "ca".toList "abc".toList = some 3 := by decide

end Algorithms

end TurfLang
