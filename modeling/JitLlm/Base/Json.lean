import JitLlm.Lib.Scan
import JitLlm.Lib.Sorting

/-!
# `base/json.cc` — general JSON, of untrusted bytes

The document is a flat table: the unescaped texts one after another, a node for each value and each
member's name, and the indices of containers' children. A container's children are pending until it
ends, as those of the containers around it are.

The nesting left is the recursion's argument, where the source counts the depth up to its limit.
Offsets and sizes are cut to 32 bits as the nodes' fields are. A node's own index needs no cut:
`newNode` refuses before it could.
-/

namespace JitLlm.Base.Json

open Lib

inductive Kind
  | kNull
  | kFalse
  | kTrue
  | kNumber
  | kString
  | kArray
  | kObject
deriving DecidableEq

structure Limits where
  maxBytes : Nat := 64 * 2 ^ 20
  maxDepth : Nat := 64
  maxValues : Nat := 2 ^ 24
  maxStringBytes : Nat := 256 * 2 ^ 20

structure Error where
  reason : String
  offset : Nat
deriving DecidableEq

/-- A node: `size` is the text's length, or the number of elements or members; `first` the text's
    offset, or the first child's in the list of children. -/
structure Node where
  kind : Kind := .kNull
  integer : Bool := false
  size : Nat := 0
  first : Nat := 0
deriving DecidableEq

structure Document where
  text : List UInt8 := []
  nodes : List Node := []
  kids : List Nat := []
deriving DecidableEq

/-- The parser's own: the document so far, and the children of the containers being parsed. -/
structure Own extends Document where
  pending : List Nat := []

abbrev Parser (α : Type) := Scan Error Own α

def fail {α : Type} (reason : String) (x : Cursor Own) : Except Error α := .error ⟨reason, x.pos⟩

/-! ## UTF-8 -/

def sequenceOf (c : Nat) : Option (Nat × Nat × Nat) :=
  if 0xC2 ≤ c ∧ c ≤ 0xDF then some (2, 0x80, 0xBF)
  else if 0xE0 ≤ c ∧ c ≤ 0xEF then
    some (3, if c = 0xE0 then 0xA0 else 0x80, if c = 0xED then 0x9F else 0xBF)
  else if 0xF0 ≤ c ∧ c ≤ 0xF4 then
    some (4, if c = 0xF0 then 0x90 else 0x80, if c = 0xF4 then 0x8F else 0xBF)
  else none

def continues (length low high : Nat) (rest : List UInt8) : Bool :=
  length ≤ rest.length + 1 &&
    (rest.head?.any fun b => low ≤ b.toNat && b.toNat ≤ high) &&
    ((rest.take (length - 1)).drop 1).all fun b => 0x80 ≤ b.toNat && b.toNat ≤ 0xBF

/-- `FirstInvalidUtf8` from an offset on; the first number is no less than the bytes left. -/
def firstInvalidFrom : Nat → Nat → List UInt8 → Option Nat
  | _, _, [] => none
  | 0, i, _ :: _ => some i
  | n + 1, i, c :: rest =>
    if c.toNat < 0x80 then firstInvalidFrom n (i + 1) rest
    else
      match sequenceOf c.toNat with
      | none => some i
      | some (length, low, high) =>
        if continues length low high rest then
          firstInvalidFrom n (i + length) (rest.drop (length - 1))
        else some i

def firstInvalidUtf8 (bytes : List UInt8) : Option Nat := firstInvalidFrom bytes.length 0 bytes

/-! ## Quoting -/

def hexByte (n : Nat) : UInt8 := UInt8.ofNat (if n < 10 then 0x30 + n else 0x61 + (n - 10))

def quoteByte (c : UInt8) : List UInt8 :=
  if c = 0x22 then [0x5c, 0x22]
  else if c = 0x5c then [0x5c, 0x5c]
  else if c = 0x0a then [0x5c, 0x6e]
  else if c = 0x0d then [0x5c, 0x72]
  else if c = 0x09 then [0x5c, 0x74]
  else if c = 0x08 then [0x5c, 0x62]
  else if c = 0x0c then [0x5c, 0x66]
  else if c < 0x20 then [0x5c, 0x75, 0x30, 0x30, hexByte (c.toNat / 16), hexByte (c.toNat % 16)]
  else [c]

def appendQuoted (text out : List UInt8) : List UInt8 :=
  out ++ 0x22 :: text.flatMap quoteByte ++ [0x22]

/-! ## The table -/

namespace Own

variable (s : Own)

def setNode (index : Nat) (node : Node) : Own := { s with nodes := s.nodes.set index node }

def addText (bytes : List UInt8) : Own := { s with text := s.text ++ bytes }

def addNode : Own := { s with nodes := s.nodes ++ [{}] }

def push (index : Nat) : Own := { s with pending := s.pending ++ [index] }

def textNode (kind : Kind) (integer : Bool) (size : Nat) : Node where
  kind
  integer
  size := size % 2 ^ 32
  first := s.text.length % 2 ^ 32

/-- The node of a container whose children are pending from `base` on. -/
def containerNode (object : Bool) (base : Nat) : Node where
  kind := if object then .kObject else .kArray
  size := (if object then (s.pending.length - base) / 2 else s.pending.length - base) % 2 ^ 32
  first := s.kids.length % 2 ^ 32

/-- The end of a container: what is pending from `base` on are its children. -/
def close (object : Bool) (base index : Nat) : Own where
  text := s.text
  nodes := s.nodes.set index (s.containerNode object base)
  kids := s.kids ++ s.pending.drop base
  pending := s.pending.take base

end Own

def newNode (limits : Limits) : Parser Nat := fun x =>
  if x.own.nodes.length ≥ limits.maxValues || x.own.nodes.length ≥ 2 ^ 32 - 1 then
    fail "too many values" x
  else .ok (x.own.nodes.length, { x with own := x.own.addNode })

def appendText (limits : Limits) (bytes : List UInt8) (x : Cursor Own) :
    Except Error (Cursor Own) :=
  if limits.maxStringBytes - min limits.maxStringBytes x.own.text.length < bytes.length then
    fail "too many string bytes" x
  else .ok { x with own := x.own.addText bytes }

/-! ## Numbers -/

def isSpace (c : UInt8) : Bool := c = 0x20 || c = 0x09 || c = 0x0a || c = 0x0d

def isDigit (c : UInt8) : Bool := 0x30 ≤ c && c ≤ 0x39

def skipSpace : Cursor Own → Cursor Own := Cursor.skipWhile isSpace fun _ s => s

/-- `ParseNumber`'s `digits()`, where there must be one. -/
def digits (x : Cursor Own) : Except Error (Cursor Own) :=
  let y := x.skipWhile isDigit fun _ s => s
  if y.pos = x.pos then fail "invalid number" x else .ok y

def sign (x : Cursor Own) : Cursor Own :=
  if x.rest.head? = some 0x2d then x.advance 1 else x

def whole (x : Cursor Own) : Except Error (Cursor Own) :=
  if x.rest.head? = some 0x30 then .ok (x.advance 1) else digits x

def fraction : Parser Bool := fun x =>
  if x.rest.head? = some 0x2e then do return (true, ← digits (x.advance 1)) else .ok (false, x)

def exponentSign (x : Cursor Own) : Cursor Own :=
  if x.rest.head? = some 0x2b ∨ x.rest.head? = some 0x2d then x.advance 1 else x

def exponent : Parser Bool := fun x =>
  if x.rest.head? = some 0x65 ∨ x.rest.head? = some 0x45 then do
    return (true, ← digits (exponentSign (x.advance 1)))
  else .ok (false, x)

def parseNumber (limits : Limits) : Parser Node := fun x => do
  let y ← whole (sign x)
  let (fractional, y) ← fraction y
  let (exponential, y) ← exponent y
  let node := y.own.textNode .kNumber (!fractional && !exponential) (y.pos - x.pos)
  let y ← appendText limits (x.rest.take (y.pos - x.pos)) y
  return (node, y)

/-! ## Strings -/

def hexValue (c : UInt8) : Option Nat :=
  if 0x30 ≤ c.toNat ∧ c.toNat ≤ 0x39 then some (c.toNat - 0x30)
  else if 0x61 ≤ c.toNat ∧ c.toNat ≤ 0x66 then some (c.toNat - 0x61 + 10)
  else if 0x41 ≤ c.toNat ∧ c.toNat ≤ 0x46 then some (c.toNat - 0x41 + 10)
  else none

def hexUnit : List UInt8 → Option Nat
  | [a, b, c, d] => do
    return ((((← hexValue a) * 16 + (← hexValue b)) * 16 + (← hexValue c)) * 16 + (← hexValue d))
  | _ => none

def hex4 (x : Cursor Own) : Option (Nat × Cursor Own) :=
  match hexUnit (x.rest.take 4) with
  | some value => some (value, x.advance 4)
  | none => none

/-- `AppendUtf8`, to nothing. -/
def utf8Of (cp : Nat) : List UInt8 :=
  if cp < 0x80 then [UInt8.ofNat cp]
  else if cp < 0x800 then
    [UInt8.ofNat (0xC0 ||| cp >>> 6), UInt8.ofNat (0x80 ||| (cp &&& 0x3F))]
  else if cp < 0x10000 then
    [UInt8.ofNat (0xE0 ||| cp >>> 12), UInt8.ofNat (0x80 ||| (cp >>> 6 &&& 0x3F)),
      UInt8.ofNat (0x80 ||| (cp &&& 0x3F))]
  else
    [UInt8.ofNat (0xF0 ||| cp >>> 18), UInt8.ofNat (0x80 ||| (cp >>> 12 &&& 0x3F)),
      UInt8.ofNat (0x80 ||| (cp >>> 6 &&& 0x3F)), UInt8.ofNat (0x80 ||| (cp &&& 0x3F))]

def shortEscape (e : UInt8) : Option UInt8 :=
  if e = 0x22 || e = 0x5c || e = 0x2f then some e
  else if e = 0x62 then some 0x08
  else if e = 0x66 then some 0x0c
  else if e = 0x6e then some 0x0a
  else if e = 0x72 then some 0x0d
  else if e = 0x74 then some 0x09
  else none

def lowSurrogate (high : Nat) : Parser (List UInt8) := fun x =>
  if [0x5c, 0x75].isPrefixOf x.rest then
    match hex4 (x.advance 2) with
    | none => fail "unpaired surrogate escape" (x.advance 2)
    | some (low, y) =>
      if low < 0xDC00 ∨ low > 0xDFFF then fail "unpaired surrogate escape" y
      else .ok (utf8Of (0x10000 + (high - 0xD800) <<< 10 + (low - 0xDC00)), y)
  else fail "unpaired surrogate escape" x

/-- A `\u` escape, past the letter. -/
def unicodeEscape : Parser (List UInt8) := fun x =>
  match hex4 x with
  | none => fail "invalid \\u escape" x
  | some (unit, y) =>
    if 0xDC00 ≤ unit ∧ unit ≤ 0xDFFF then fail "unpaired surrogate escape" y
    else if 0xD800 ≤ unit ∧ unit ≤ 0xDBFF then lowSurrogate unit y
    else .ok (utf8Of unit, y)

def escape : Parser (List UInt8) := fun x =>
  match x.rest with
  | [] => fail "unterminated string" x
  | e :: _ =>
    match shortEscape e with
    | some c => .ok ([c], x.advance 1)
    | none =>
      if e = 0x75 then unicodeEscape (x.advance 1)
      else fail "invalid escape" (x.advance 1)

def isPlain (c : UInt8) : Bool := c ≠ 0x22 && c ≠ 0x5c && 0x20 ≤ c

/-- `ParseString`'s loop, past the closing quote; the number is more than the bytes left. -/
def stringLoop : Nat → List UInt8 → Parser (List UInt8)
  | 0, _, x => fail "unterminated string" x
  | n + 1, scratch, x =>
    let y := x.skipWhile isPlain fun _ s => s
    let scratch := scratch ++ x.rest.takeWhile isPlain
    match y.rest with
    | [] => fail "unterminated string" y
    | c :: _ =>
      if c = 0x22 then .ok (scratch, y.advance 1)
      else if c ≠ 0x5c then fail "control character in a string" y
      else do
        let (piece, y) ← escape (y.advance 1)
        stringLoop n (scratch ++ piece) y

/-- `ParseString`, at the opening quote. -/
def parseString (limits : Limits) : Parser Node := fun x => do
  let (scratch, y) ← stringLoop x.rest.length [] (x.advance 1)
  if scratch.length > 2 ^ 32 - 1 then fail "string too long" y
  else do
    let node := y.own.textNode .kString false scratch.length
    let y ← appendText limits scratch y
    return (node, y)

/-! ## Containers -/

section Containers

variable (limits : Limits) (inner : Nat → Parser Unit)

def parseChild : Parser Unit := fun x => do
  let (index, x) ← newNode limits x
  inner index { x with own := x.own.push index }

def parseMember : Parser Unit := fun x =>
  if x.rest.head? ≠ some 0x22 then fail "member name expected" x
  else do
    let (key, x) ← newNode limits x
    let (node, x) ← parseString limits x
    let x := skipSpace { x with own := (x.own.setNode key node).push key }
    if x.rest.head? ≠ some 0x3a then fail "':' expected" x
    else parseChild limits inner (skipSpace (x.advance 1))

def comma (x : Cursor Own) : Except Error (Cursor Own) := .ok (skipSpace (x.advance 1))

def stuck (object : Bool) (x : Cursor Own) : Error :=
  ⟨if object then "',' or '\x7d' expected" else "',' or ']' expected", x.pos⟩

def closeByte (object : Bool) : UInt8 := if object then 0x7d else 0x5d

/-- `ParseContainer`'s loop, past the closing byte; `item` reads an element or a member. -/
def parseItems (item : Parser Unit) (object : Bool) : Parser (List Unit) := fun x =>
  if x.rest.head? = some (closeByte object) then .ok ([], x.advance 1)
  else Scan.commaLoop item comma skipSpace (closeByte object) (stuck object) x.rest.length [] x

def parseItem (object : Bool) : Parser Unit :=
  if object then parseMember limits inner else parseChild limits inner

def Document.textOf (d : Document) (node : Node) : List UInt8 :=
  (d.text.drop node.first).take node.size

def Document.names (d : Document) (node : Node) : List (List UInt8) :=
  (List.range node.size).map fun i =>
    d.textOf (d.nodes.getD (d.kids.getD ((node.first + 2 * i) % 2 ^ 32) 0) {})

/-- `ParseContainer`, at the bracket. -/
def parseContainer (index : Nat) (object : Bool) : Parser Unit := fun x => do
  let base := x.own.pending.length
  let (_, x) ← parseItems (parseItem limits inner object) object (skipSpace (x.advance 1))
  let node := x.own.containerNode object base
  let x := { x with own := x.own.close object base index }
  if object && 1 < node.size && adjacentEqual (sortBytes (x.own.names node)) then
    fail "duplicate member name" x
  else return ((), x)

end Containers

/-! ## Values -/

/-- The words of `ParseValue`, by their first byte. -/
def wordOf (c : UInt8) : Option (List UInt8 × Kind) :=
  if c = 0x74 then some ([0x74, 0x72, 0x75, 0x65], .kTrue)
  else if c = 0x66 then some ([0x66, 0x61, 0x6c, 0x73, 0x65], .kFalse)
  else if c = 0x6e then some ([0x6e, 0x75, 0x6c, 0x6c], .kNull)
  else none

def place (index : Nat) (p : Parser Node) : Parser Unit := fun x => do
  let (node, x) ← p x
  return ((), { x with own := x.own.setNode index node })

/-- `Consume`, of a word. -/
def parseWord (word : List UInt8) (kind : Kind) : Parser Node := fun x =>
  if word.isPrefixOf x.rest then .ok ({ kind }, x.advance word.length)
  else fail "invalid literal" x

/-- `ParseValue`; `inner` reads what is nested, if that may be. -/
def parseAt (limits : Limits) (inner : Option (Nat → Parser Unit)) (index : Nat) : Parser Unit :=
  fun x =>
    match x.rest with
    | [] => fail "value expected" x
    | c :: _ =>
      if c = 0x7b || c = 0x5b then
        match inner with
        | none => fail "nesting too deep" x
        | some inner => parseContainer limits inner index (c = 0x7b) x
      else if c = 0x22 then place index (parseString limits) x
      else
        match wordOf c with
        | some (word, kind) => place index (parseWord word kind) x
        | none => place index (parseNumber limits) x

/-- `ParseValue`, with so many levels of nesting left. -/
def parseValue (limits : Limits) : Nat → Nat → Parser Unit
  | 0 => parseAt limits none
  | n + 1 => parseAt limits (some (parseValue limits n))

/-! ## Documents -/

def start : Own := { nodes := [{}] }

def run (limits : Limits) (text : List UInt8) : Except Error Document := do
  let (_, x) ← parseValue limits limits.maxDepth 0
    (skipSpace { rest := text, pos := 0, own := start })
  let x := skipSpace x
  if x.rest ≠ [] then fail "text after the value" x
  else return x.own.toDocument

def parse (text : List UInt8) (limits : Limits) : Except Error Document :=
  if text.length > limits.maxBytes then .error ⟨"document too large", 0⟩
  else
    match firstInvalidUtf8 text with
    | some bad => .error ⟨"invalid UTF-8", bad⟩
    | none => run limits text

/-! ## Reading a document -/

namespace Document

variable (d : Document)

/-- `Value::kind`; there is none where there is no node. -/
def kindOf (i : Nat) : Option Kind := (d.nodes[i]?).map Node.kind

def textIf (kind : Kind) (i : Nat) : List UInt8 :=
  match d.nodes[i]? with
  | some node => if node.kind = kind then d.textOf node else []
  | none => []

def string (i : Nat) : List UInt8 := d.textIf .kString i

def number (i : Nat) : List UInt8 := d.textIf .kNumber i

def isInteger (i : Nat) : Bool := (d.nodes[i]?).any fun node => node.kind = .kNumber && node.integer

def size (i : Nat) : Nat :=
  match d.nodes[i]? with
  | some node => if node.kind = .kArray ∨ node.kind = .kObject then node.size else 0
  | none => 0

def kid (i k : Nat) : Option Nat := (d.nodes[i]?).bind fun node => d.kids[node.first + k]?

/-- `Value::at`. -/
def elementAt (i k : Nat) : Option Nat := d.kid i k

def key (i k : Nat) : Option (List UInt8) := (d.kid i (2 * k)).map d.string

def member (i k : Nat) : Option Nat := d.kid i (2 * k + 1)

end Document
end JitLlm.Base.Json
