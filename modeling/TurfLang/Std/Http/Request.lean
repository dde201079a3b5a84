import TurfLang.Std.Map.Refinement
import TurfLang.Std.StringTrim

/-!
# `lib/std/http/http.tr`: `parse_request`

A connection is what `recv` puts into the buffer that `TcpConnection.read` gives it, for each size
asked for. As in the string functions, `none` is a panic, or a byte read or written out of bounds.
-/

namespace TurfLang

namespace Http

open Strings

/-- `net::TcpConnection`. -/
structure TcpConnection where
  recv : ℕ → Bytes

/-- `TcpConnection.read`: the buffer is a string up to the first NUL. -/
def TcpConnection.read (conn : TcpConnection) (maxBytes : ℕ) : Bytes :=
  (conn.recv maxBytes).take (strlen (conn.recv maxBytes))

/-- The hash of a string is any function. -/
structure Request [Hashable Bytes] where
  method : Bytes
  path : Bytes
  headers : Map.Header Bytes Bytes
  body : Bytes

section Parse

variable [Hashable Bytes]

/-- One round of the loop over the header lines. -/
def parseHeader (headers : Map.Header Bytes Bytes) (line : Bytes) :
    Option (Map.Header Bytes Bytes) := do
  let line ← trimEnd line
  let colonIdx ← indexOf line [58]
  if colonIdx ≥ 0 then do
    let key ← substring line 0 colonIdx
    let key ← trim key
    let value ← substring line (colonIdx + 1) (strlen line)
    let value ← trim value
    headers.put key value
  else some headers

/-- Where the head ends, and how long the blank line behind it is. -/
def findSeparator (raw : Bytes) : Option (ℤ × ℤ) := do
  let sepIdx ← indexOf raw [13, 10, 13, 10]
  if sepIdx < 0 then do
    let sepIdx ← indexOf raw [10, 10]
    some (sepIdx, 2)
  else some (sepIdx, 4)

/-- The header block and the body. -/
def cutBody (raw : Bytes) : Option (Bytes × Bytes) := do
  let (sepIdx, sepLen) ← findSeparator raw
  if sepIdx ≥ 0 then do
    let headerBlock ← substring raw 0 sepIdx
    let body ← substring raw (sepIdx + sepLen) (strlen raw)
    some (headerBlock, body)
  else some (raw, [])

/-- The method and the path. -/
def parseRequestLine (line : Bytes) : Option (Bytes × Bytes) := do
  let requestLine ← trimEnd line
  let parts ← split requestLine [32]
  if parts.length ≥ 2 then do
    let method ← parts[0]?
    let path ← parts[1]?
    some (method, path)
  else some ([], [])

/-- `parse_request`. -/
def parseRequest (conn : TcpConnection) : Option Request := do
  let raw := conn.read 8192
  let (headerBlock, body) ← cutBody raw
  let lines ← split headerBlock [10]
  match lines with
  | [] => some ⟨[], [], .empty, body⟩
  | line :: lines => do
    let (method, path) ← parseRequestLine line
    let headers ← lines.foldlM parseHeader .empty
    some ⟨method, path, headers, body⟩

end Parse

/-! ### Requests -/

/-- What ends a line. -/
inductive LineEnding
  | crlf
  | lf
  deriving DecidableEq

def LineEnding.text : LineEnding → Bytes
  | .crlf => [13, 10]
  | .lf => [10]

/-- A string of one line. -/
structure IsLine (s : Bytes) : Prop where
  noNul : 0 ∉ s
  noReturn : 13 ∉ s
  noFeed : 10 ∉ s

/-- A request that can be written down: the version is not all blanks. -/
structure Message where
  method : Bytes
  path : Bytes
  version : Bytes
  headers : List (Bytes × Bytes)
  body : Bytes
  method_line : IsLine method
  method_noSpace : 32 ∉ method
  path_line : IsLine path
  path_noSpace : 32 ∉ path
  version_line : IsLine version
  version_visible : ∃ c ∈ version, isBlank c = false
  name_line : ∀ h ∈ headers, IsLine h.1 ∧ 58 ∉ h.1
  value_line : ∀ h ∈ headers, IsLine h.2
  distinct : (headers.map fun h => trimmed h.1).Nodup
  body_noNul : 0 ∉ body

namespace Message

/-- The request line, and a line for each header. -/
def lines (m : Message) : List Bytes :=
  (m.method ++ 32 :: (m.path ++ 32 :: m.version)) :: m.headers.map fun h => h.1 ++ 58 :: h.2

/-- The text of a request: its lines, a blank line and the body. -/
def text (m : Message) (e : LineEnding) : Bytes :=
  m.lines.flatMap (· ++ e.text) ++ (e.text ++ m.body)

/-- A request has the method, the path, the headers and the body of the message, and no other
header. -/
structure Recovered [Hashable Bytes] (m : Message) (req : Request) : Prop where
  method : req.method = m.method
  path : req.path = m.path
  headers : ∀ k v, req.headers.get k = some v ↔
    (k, v) ∈ m.headers.map fun h => (trimmed h.1, trimmed h.2)
  count : req.headers.length = m.headers.length
  body : req.body = m.body

end Message

end Http

end TurfLang
