import JitLlm.Artifact.Schema
import JitLlm.Lib.Scan
import JitLlm.Lib.Sorting
import Mathlib.Data.Nat.Digits.Defs

/-!
# `artifact/json.cc` — the strict JSON of the manifest and the index

A recursive descent over the bytes. Whether the bytes are the canonical encoding is noted on the
way: by the blanks passed over, by a `-0`, a raw DEL, keys out of order and what follows the
document. Caps are counted as containers, separators and strings are met.

A value is a tree, where the source has a table of nodes and of kids; an integer keeps its digits
as written and the value they have, if that fits in 64 signed bits. The nesting left is the
recursion's argument, where the source counts the depth up to its cap.
-/

namespace JitLlm.Artifact.Json

open Lib

def kMaxDepth : Nat := 8
def kMaxContainers : Nat := 2 ^ 19
def kMaxSeparators : Nat := 2 ^ 21
def kMaxStrings : Nat := kMaxSeparators + kMaxContainers + 1
def kMaxIntegerChars : Nat := 20

inductive Value
  | null
  | boolean (b : Bool)
  | integer (raw : List UInt8) (value : Option Int)
  | string (bytes : List UInt8)
  | array (items : List Value)
  | object (members : List (List UInt8 × Value))

/-- The parser's own: what is counted, and whether all was canonical so far. -/
structure Own where
  containers : Nat := 0
  separators : Nat := 0
  strings : Nat := 0
  canonical : Bool := true
deriving DecidableEq

abbrev Parser (α : Type) := Scan Error Own α

def fail {α : Type} (reason : String) (item : Nat) (rule : Rule := .json) : Except Error α :=
  .error ⟨rule, reason, item⟩

/-! ## Bytes -/

def isSpace (c : UInt8) : Bool := c = 0x20 || c = 0x09 || c = 0x0a || c = 0x0d

def isDigit (c : UInt8) : Bool := 0x30 ≤ c && c ≤ 0x39

def Own.blank (w : List UInt8) (s : Own) : Own :=
  { s with canonical := s.canonical && w.isEmpty }

def skipSpace : Cursor Own → Cursor Own := Cursor.skipWhile isSpace Own.blank

/-! ## Scalars -/

def isPlain (c : UInt8) : Bool := c ≠ 0x22 && c ≠ 0x5c && 0x20 ≤ c

/-- `ParseString`, at the opening quote. -/
def parseString : Parser (List UInt8) := fun x =>
  let start := x.pos + 1
  let bytes := (x.rest.drop 1).takeWhile isPlain
  let canonical := x.own.canonical && !bytes.contains 0x7f
  match (x.rest.drop 1).dropWhile isPlain with
  | [] => fail "unterminated string" (start - 1)
  | c :: rest =>
    if c = 0x22 then
      if x.own.strings + 1 > kMaxStrings then fail "more strings than the cap" (start - 1)
      else
        .ok (bytes, {
          rest
          pos := start + bytes.length + 1
          own := { x.own with strings := x.own.strings + 1, canonical } })
    else if c = 0x5c then
      fail "a string escape (canonical strings need none)" (start + bytes.length) .canonical
    else fail "a control character in a string" (start + bytes.length)

/-- The digits' value as `ParseInteger` adds it up, in 64 unsigned bits, and whether that
    overflowed. -/
def magnitude (digits : List UInt8) : Nat × Bool :=
  digits.foldl
    (fun y c =>
      if y.2 then y
      else if y.1 * 10 ≥ 2 ^ 64 then (y.1 * 10 % 2 ^ 64, true)
      else if y.1 * 10 + (c.toNat - 0x30) ≥ 2 ^ 64 then
        ((y.1 * 10 + (c.toNat - 0x30)) % 2 ^ 64, true)
      else (y.1 * 10 + (c.toNat - 0x30), false))
    (0, false)

def kMax : Nat := 2 ^ 63 - 1

/-- The node's `integer`, if it fits. -/
def integerOf (negative : Bool) (digits : List UInt8) : Option Int :=
  let (m, overflow) := magnitude digits
  if !overflow && !negative && m ≤ kMax then some m
  else if !overflow && negative && m ≤ kMax + 1 then some (-m)
  else none

/-- The digits `ParseInteger` takes: a zero, or all there are. -/
def leadingDigits (on : List UInt8) : List UInt8 :=
  if on.head? = some 0x30 then [0x30] else on.takeWhile isDigit

def signed (negative : Bool) (digits : List UInt8) : List UInt8 :=
  if negative then 0x2d :: digits else digits

/-- `ParseInteger` past the sign; `on` is the text from there. -/
def parseDigits (negative : Bool) (on : List UInt8) : Parser Value := fun x =>
  if !on.head?.any isDigit then fail "a malformed number" x.pos
  else
    let digits := leadingDigits on
    let after := on.drop digits.length
    if after.head?.any fun c => c = 0x2e || c = 0x65 || c = 0x45 || isDigit c then
      fail "a number that is not a canonical integer" x.pos
    else
      let raw := signed negative digits
      if raw.length > kMaxIntegerChars then fail "an integer longer than the cap" x.pos
      else
        let value := integerOf negative digits
        .ok (.integer raw value, {
          rest := after
          pos := x.pos + raw.length
          own := { x.own with canonical := x.own.canonical && !(negative && value = some 0) } })

/-- `ParseInteger`, at a minus or a digit. -/
def parseInteger : Parser Value := fun x =>
  if x.rest.head? = some 0x2d then parseDigits true (x.rest.drop 1) x
  else parseDigits false x.rest x

/-- The words of `ParseValue`, in its order. -/
def words : List (List UInt8 × Value) := [
  ([0x74, 0x72, 0x75, 0x65], .boolean true),
  ([0x66, 0x61, 0x6c, 0x73, 0x65], .boolean false),
  ([0x6e, 0x75, 0x6c, 0x6c], .null)]

def parseWord : Parser Value := fun x =>
  match words.find? fun w => w.1.isPrefixOf x.rest with
  | some (word, v) => .ok (v, x.advance word.length)
  | none => fail "not a JSON value" x.pos

/-! ## Containers -/

/-- `CountSeparator`, and the separator passed. -/
def separator (x : Cursor Own) : Except Error (Cursor Own) :=
  if x.own.separators + 1 > kMaxSeparators then fail "more separators than the cap" x.pos
  else .ok ({ x with own := { x.own with separators := x.own.separators + 1 } }.advance 1)

/-- What `ParseArray` and `ParseObject` have in common, from the opening byte past the closing one;
    `item` reads an element or a member. -/
def parseItems {α : Type} (item : Parser α) (close : UInt8) (stuck : Cursor Own → Error) :
    Parser (List α) := fun x =>
  let x := skipSpace (x.advance 1)
  if x.rest.head? = some close then .ok ([], x.advance 1)
  else Scan.commaLoop item separator skipSpace close stuck x.rest.length [] x

def stuckArray (x : Cursor Own) : Error := ⟨.json, "expected ',' or ']'", x.pos⟩

def stuckObject (x : Cursor Own) : Error := ⟨.json, "expected ',' or '\x7d'", x.pos⟩

/-- `ParseArray`, at the bracket; `inner` reads an element. -/
def parseArray (inner : Parser Value) : Parser Value := fun x => do
  let (items, x) ← parseItems inner 0x5d stuckArray x
  return (.array items, x)

/-- One turn of `ParseObject`'s loop past the blanks, to the member's end. -/
def memberAt (inner : Parser Value) : Parser (List UInt8 × Value) := fun x => do
  if x.rest.head? ≠ some 0x22 then fail "expected a key" x.pos
  else do
    let (key, x) ← parseString x
    let x := skipSpace x
    if x.rest.head? ≠ some 0x3a then fail "expected ':'" x.pos
    else do
      let (value, x) ← inner (← separator x)
      return ((key, value), x)

def parseMember (inner : Parser Value) : Parser (List UInt8 × Value) := fun x =>
  memberAt inner (skipSpace x)

def ascending : List (List UInt8) → Bool
  | a :: b :: rest => a < b && ascending (b :: rest)
  | _ => true

/-- `ParseObject`, at the brace. -/
def parseObject (inner : Parser Value) : Parser Value := fun x => do
  let start := x.pos
  let (members, x) ← parseItems (parseMember inner) 0x7d stuckObject x
  let keys := members.map Prod.fst
  if ascending keys then return (.object members, x)
  else if adjacentEqual (sortBytes keys) then
    fail "a duplicate key" start
  else return (.object members, { x with own := { x.own with canonical := false } })

/-- `ParseValue` past the blanks; `inner` reads what is nested, if that may be. -/
def parseAt (inner : Option (Parser Value)) : Parser Value := fun x =>
  match x.rest with
  | [] => fail "unexpected end" x.pos
  | c :: _ =>
    if c = 0x7b || c = 0x5b then
      match inner with
      | none => fail "nesting deeper than the cap" x.pos
      | some inner =>
        if x.own.containers + 1 > kMaxContainers then
          fail "more arrays and objects than the cap" x.pos
        else
          let x := { x with own := { x.own with containers := x.own.containers + 1 } }
          if c = 0x7b then parseObject inner x else parseArray inner x
    else if c = 0x22 then do
      let (bytes, x) ← parseString x
      return (.string bytes, x)
    else if c = 0x2d || isDigit c then parseInteger x
    else parseWord x

/-- `ParseValue`, with so many levels of nesting left. -/
def parseValue : Nat → Parser Value
  | 0, x => parseAt none (skipSpace x)
  | n + 1, x => parseAt (some (parseValue n)) (skipSpace x)

/-! ## Documents -/

structure Document where
  root : Value
  canonical : Bool

def run (text : List UInt8) : Except Error Document :=
  match text.findIdx? fun c => 0x80 ≤ c with
  | some i => fail "non-ASCII byte" i
  | none => do
    let (root, x) ← parseValue kMaxDepth { rest := text, pos := 0, own := {} }
    let after := x.rest.dropWhile isSpace
    if after ≠ [] then fail "data after the document" (text.length - after.length)
    else return { root, canonical := x.own.canonical && x.rest = [0x0a] }

def parse (text : List UInt8) : Except Error Document :=
  if text.length > 2 ^ 32 - 1 then fail "document too large" noItem
  else run text

/-! ## Encoding -/

/-- `std::to_string` of a count. -/
def decimal (n : Nat) : List UInt8 :=
  if n = 0 then [0x30] else (Nat.digits 10 n).reverse.map fun d => 0x30 + UInt8.ofNat d

/-- `std::to_string` of a 64-bit signed integer. -/
def decimalInt (n : Int) : List UInt8 :=
  if n < 0 then 0x2d :: decimal n.natAbs else decimal n.natAbs

def joined : List (List UInt8) → List UInt8
  | [] => []
  | [t] => t
  | t :: rest => t ++ 0x2c :: joined rest

def memberText (m : List UInt8 × List UInt8) : List UInt8 := 0x22 :: m.1 ++ 0x22 :: 0x3a :: m.2

mutual

def serialize : Value → List UInt8
  | .null => [0x6e, 0x75, 0x6c, 0x6c]
  | .boolean false => [0x66, 0x61, 0x6c, 0x73, 0x65]
  | .boolean true => [0x74, 0x72, 0x75, 0x65]
  | .integer _ (some n) => decimalInt n
  | .integer raw none => raw
  | .string bytes => 0x22 :: bytes ++ [0x22]
  | .array items => 0x5b :: joined (serializeItems items) ++ [0x5d]
  | .object members =>
    0x7b :: joined (((serializeMembers members).mergeSort fun a b => decide (a.1 ≤ b.1)).map
      memberText) ++ [0x7d]

def serializeItems : List Value → List (List UInt8)
  | [] => []
  | v :: rest => serialize v :: serializeItems rest

def serializeMembers : List (List UInt8 × Value) → List (List UInt8 × List UInt8)
  | [] => []
  | (key, v) :: rest => (key, serialize v) :: serializeMembers rest

end

end JitLlm.Artifact.Json
