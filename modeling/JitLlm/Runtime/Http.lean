import JitLlm.Lib.Find
import JitLlm.Runtime.Channel
import Mathlib.Data.List.DropRight

/-!
# `runtime/http.cc` — request heads

`FindHeadEnd` and `ParseHead`, over bytes. A `std::string_view` is a list; `find` is the library's
first occurrence and `npos` is `none`. The header loop goes over what is left of the head after the
line it is at, so `head.find("\r\n", start)` is a search in that rest: the head ends in CRLF, so
there is always a line to find.
-/

namespace JitLlm.Runtime.Http

open Lib (find)
open Api (Bytes ascii)

structure Limits where
  maxHeaderBytes : Nat := 16384
  maxHeaders : Nat := 64
  maxTargetBytes : Nat := 2048
  maxBodyBytes : Nat := 4 * 2 ^ 20

/-- `Header`: the name is in lower case. -/
structure Header where
  name : Bytes
  value : Bytes
deriving DecidableEq

/-- `Request`. `body` is filled once it has arrived. -/
structure Request where
  method : Bytes := []
  target : Bytes := []
  path : Bytes := []
  headers : List Header := []
  body : Bytes := []
  http10 : Bool := false
  bodyBytes : Nat := 0
  expectContinue : Bool := false
deriving DecidableEq

structure Failure where
  status : Nat := 400
  message : String
deriving DecidableEq

def fail {α : Type} (status : Nat) (message : String) : Except Failure α :=
  .error { status, message }

def Request.find (r : Request) (lowercase : Bytes) : Option Bytes :=
  (r.headers.find? fun h => h.name = lowercase).map Header.value

/-! ## Characters -/

def cr : UInt8 := 0x0d
def lf : UInt8 := 0x0a
def space : UInt8 := 0x20
def colon : UInt8 := 0x3a

def crlf : Bytes := [cr, lf]

def blankLine : Bytes := [cr, lf, cr, lf]

def lower (c : UInt8) : UInt8 := if 0x41 ≤ c && c ≤ 0x5a then c - 0x41 + 0x61 else c

def equalsIgnoringCase (a b : Bytes) : Bool := a.map lower == b.map lower

def isTokenChar (c : UInt8) : Bool :=
  (0x61 ≤ c && c ≤ 0x7a) || (0x41 ≤ c && c ≤ 0x5a) || (0x30 ≤ c && c ≤ 0x39) ||
    (ascii "!#$%&'*+-.^_`|~").contains c

def isDigit (c : UInt8) : Bool := 0x30 ≤ c && c ≤ 0x39

def isUpper (c : UInt8) : Bool := 0x41 ≤ c && c ≤ 0x5a

def isPrintable (c : UInt8) : Bool := 0x20 < c && c < 0x7f

def isBlank (c : UInt8) : Bool := c == 0x20 || c == 0x09

def isControl (c : UInt8) : Bool := (c < 0x20 && c != 0x09) || c == 0x7f

/-- A decimal Content-Length in an `int64_t`, or -1. -/
def parseLength (text : Bytes) : Int :=
  if text = [] ∨ 18 < text.length ∨ ¬ text.all isDigit then -1
  else text.foldl (fun n c => Int.bmod (n * 10 + (c.toNat - 0x30)) (2 ^ 64)) 0

def trim (value : Bytes) : Bytes := (value.dropWhile isBlank).rdropWhile isBlank

/-! ## The end of a head -/

def tooLong (limits : Limits) : Failure :=
  ⟨413, "the request head is longer than " ++ toString limits.maxHeaderBytes ++ " bytes"⟩

def findHeadEnd (buffer : Bytes) (limits : Limits) : Except Failure (Option Nat) :=
  match find blankLine (buffer.take (limits.maxHeaderBytes + 4)) with
  | none => if limits.maxHeaderBytes ≤ buffer.length then .error (tooLong limits) else .ok none
  | some at' => .ok (some (at' + 4))

/-! ## The head -/

def bareAt (head : Bytes) (i : Nat) : Bool :=
  (head[i]? == some cr && head[i + 1]? != some lf) ||
    (head[i]? == some lf && (i == 0 || head[i - 1]? != some cr))

def parseRequestLine (line : Bytes) (limits : Limits) : Except Failure Request :=
  match find [space] line with
  | none => fail 400 "the request line must be METHOD TARGET HTTP/1.1"
  | some a =>
    match find [space] (line.drop (a + 1)) with
    | none => fail 400 "the request line must be METHOD TARGET HTTP/1.1"
    | some b =>
      if (find [space] (line.drop (a + 1 + b + 1))).isSome then
        fail 400 "the request line must be METHOD TARGET HTTP/1.1"
      else
        let method := line.take a
        let target := (line.drop (a + 1)).take b
        let version := line.drop (a + 1 + b + 1)
        if method = [] ∨ 16 < method.length ∨ ¬ method.all isUpper then
          fail 400 "the method is not valid"
        else if target = [] ∨ target.head? ≠ some 0x2f ∨ limits.maxTargetBytes < target.length ∨
            ¬ target.all isPrintable then
          fail (if limits.maxTargetBytes < target.length then 414 else 400)
            ("the target must be an origin-form path of printable ASCII, at most " ++
              toString limits.maxTargetBytes ++ " bytes")
        else if version ≠ ascii "HTTP/1.1" ∧ version ≠ ascii "HTTP/1.0" then
          fail (if (ascii "HTTP/").isPrefixOf version then 505 else 400) "only HTTP/1.1 is served"
        else
          .ok { method, target
                path := target.take ((find [0x3f] target).getD target.length)
                http10 := version = ascii "HTTP/1.0" }

def parseHeader (line : Bytes) (limits : Limits) (request : Request) (length : Int) :
    Except Failure (Request × Int) :=
  if limits.maxHeaders ≤ request.headers.length then
    fail 413 ("the request has more than " ++ toString limits.maxHeaders ++ " headers")
  else
    match find [colon] line with
    | none => fail 400 "a header line is not valid (or is folded)"
    | some at' =>
      if at' = 0 ∨ ¬ (line.take at').all isTokenChar then
        fail 400 "a header line is not valid (or is folded)"
      else
        let value := trim (line.drop (at' + 1))
        if value.any isControl then fail 400 "a header value holds a control character"
        else
          let name := (line.take at').map lower
          if name = ascii "host" ∧ (request.find (ascii "host")).isSome then
            fail 400 "the request has more than one Host header"
          else if name = ascii "transfer-encoding" then
            fail 501 "request bodies are read only by Content-Length"
          else
            let added := { request with headers := request.headers ++ [{ name, value }] }
            if name = ascii "content-length" then
              let n := parseLength value
              if n < 0 ∨ (0 ≤ length ∧ n ≠ length) then fail 400 "Content-Length is not valid"
              else .ok (added, n)
            else .ok (added, length)

def parseHeaders (limits : Limits) : Nat → Bytes → Request → Int → Except Failure (Request × Int)
  | 0, _, request, length => .ok (request, length)
  | n + 1, rest, request, length =>
    if rest = [] then .ok (request, length)
    else
      let at' := (find crlf rest).getD rest.length
      match parseHeader (rest.take at') limits request length with
      | .error e => .error e
      | .ok (request, length) => parseHeaders limits n (rest.drop (at' + 2)) request length

def finishHead (limits : Limits) (request : Request) (length : Int) : Except Failure Request :=
  if length < 0 ∧ request.method = ascii "POST" then fail 411 "a POST needs Content-Length"
  else
    let request := { request with bodyBytes := (max length 0).toNat }
    if limits.maxBodyBytes < request.bodyBytes then
      fail 413 ("the body is longer than " ++ toString limits.maxBodyBytes ++ " bytes")
    else
      match request.find (ascii "expect") with
      | none => .ok request
      | some expect =>
        if !equalsIgnoringCase expect (ascii "100-continue") then
          fail 417 "only Expect: 100-continue is understood"
        else .ok { request with expectContinue := true }

def parseHead (full : Bytes) (limits : Limits) : Except Failure Request :=
  if limits.maxHeaderBytes + 4 < full.length ∨ ¬ blankLine.isSuffixOf full then
    .error (tooLong limits)
  else
    let head := full.take (full.length - 2)
    if (List.range head.length).any (bareAt head) then fail 400 "request lines must end in CRLF"
    else
      let at' := (find crlf head).getD head.length
      match parseRequestLine (head.take at') limits with
      | .error e => .error e
      | .ok request =>
        match parseHeaders limits head.length (head.drop (at' + 2)) request (-1) with
        | .error e => .error e
        | .ok (request, length) => finishHead limits request length

end JitLlm.Runtime.Http
