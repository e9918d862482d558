import JitLlm.Tokenizer.Vocabulary

/-!
# `tokenizer/tokenizer.cc` — encoding and decoding

Special tokens are matched in the raw text, each fragment between them is split into pieces, and
each piece is merged from its bytes' tokens. A function that appends to `out` answers the list
with what it appended; on an error the source leaves what it had appended, which nothing here
reads.

Positions in a text are suffixes of it where the source walks forward, and `next` and `prev` of
the merge are lists of 32-bit positions, as there.
-/

namespace JitLlm.Tokenizer

inductive SpecialTokens
  | userDefinedOnly
  | parse
deriving DecidableEq

structure EncodeOptions where
  special : SpecialTokens := .userDefinedOnly
  addBosEos : Bool := false
  maxBytes : Nat := 4 * 2 ^ 20
  maxTokens : Nat := 2 ^ 22

structure SpecialSpan where
  offset : Nat := 0
  length : Nat := 0

structure DecodeOptions where
  controlTokens : Bool := false

/-- `text.substr(offset, length)`. -/
def substr (text : Bytes) (offset length : Nat) : Bytes := (text.drop offset).take length

namespace Impl

/-! ## Special tokens -/

/-- `MatchSpecial`'s loop at `node`, `taken` bytes in: the longest token so far and its length. -/
def matchFrom (x : Impl) (special : SpecialTokens) :
    Nat → Bytes → Nat → Nat → TokenId × Nat → TokenId × Nat
  | 0, _, _, _, best => best
  | _, [], _, _, best => best
  | left + 1, c :: rest, node, taken, best =>
    match x.trie.edge node c with
    | none => best
    | some node =>
      let t := x.trie.terminal.getD node (-1)
      if 0 ≤ t ∧ (special = .parse ∨ x.kind t = .userDefined) then
        x.matchFrom special left rest node (taken + 1) (t, taken + 1)
      else x.matchFrom special left rest node (taken + 1) best

/-- `MatchSpecial`: the longest special token `text` starts with, allowed by `special`, or `-1`,
    and its length. -/
def matchSpecial (x : Impl) (text : Bytes) (special : SpecialTokens) : TokenId × Nat :=
  if text.headD 0 ∉ x.specialFirst then (-1, 0)
  else x.matchFrom special maxSpecialBytes text 0 0 (-1, 0)

def emit (id : TokenId) (options : EncodeOptions) (out : List TokenId) (base : Nat) :
    Except Error (List TokenId) :=
  if options.maxTokens ≤ out.length - base then
    fail .outputTooLarge "more tokens than max_tokens" options.maxTokens
  else .ok (out ++ [id])

/-! ## Merging -/

/-- `kNone`. -/
def noPosition : Nat := 2 ^ 32 - 1

/-- What `Merge` works on. The queue is in order, the lowest rank first, then the leftmost. -/
structure Merging where
  symbols : List TokenId
  next : List Nat
  prev : List Nat
  queue : List (Nat × Nat) := []

/-- The order of `std::greater` on a candidate's rank and left position. -/
def Precedes (a b : Nat × Nat) : Prop := a.1 < b.1 ∨ (a.1 = b.1 ∧ a.2 ≤ b.2)

instance : DecidableRel Precedes := fun a b =>
  inferInstanceAs (Decidable (a.1 < b.1 ∨ (a.1 = b.1 ∧ a.2 ≤ b.2)))

namespace Merging

def symbol (m : Merging) (i : Nat) : TokenId := m.symbols.getD i (-1)

def nextOf (m : Merging) (i : Nat) : Nat := m.next.getD i noPosition

def start (symbols : List TokenId) : Merging :=
  let n := symbols.length
  { symbols
    next := (List.range n).map fun i => if i + 1 < n then u32 (i + 1) else noPosition
    prev := (List.range n).map fun i => if 0 < i then u32 (i - 1) else noPosition }

/-- `consider`: the pair at `left`, when it merges. -/
def consider (x : Impl) (m : Merging) (left : Nat) : Merging :=
  if left = noPosition ∨ m.nextOf left = noPosition then m
  else
    match lookup (m.symbol left, m.symbol (m.nextOf left)) x.merges with
    | none => m
    | some (rank, _) => { m with queue := m.queue.orderedInsert Precedes (rank, left) }

/-- The pair at `left` becomes `merged`. -/
def join (x : Impl) (m : Merging) (left : Nat) (merged : TokenId) : Merging :=
  let right := m.nextOf left
  let after := m.nextOf right
  let m : Merging :=
    { m with
      symbols := (m.symbols.set left merged).set right (-1)
      next := m.next.set left after
      prev := if after ≠ noPosition then m.prev.set after left else m.prev }
  consider x (consider x m (m.prev.getD left noPosition)) left

def step (x : Impl) (m : Merging) (rank left : Nat) : Merging :=
  if m.symbol left < 0 ∨ m.nextOf left = noPosition then m
  else
    match lookup (m.symbol left, m.symbol (m.nextOf left)) x.merges with
    | none => m
    | some (rank', merged) => if rank' ≠ rank then m else m.join x left merged

/-- The loop over the queue. A turn takes a candidate, and a merge adds two at most and takes a
    symbol, so three turns a symbol are enough (`run_drains`). -/
def run (x : Impl) : Nat → Merging → Merging
  | 0, m => m
  | turns + 1, m =>
    match m.queue with
    | [] => m
    | (rank, left) :: queue => run x turns (({ m with queue } : Merging).step x rank left)

/-- The symbols `Merge` is left with. -/
def merged (x : Impl) (symbols : List TokenId) : List TokenId :=
  let n := symbols.length
  if 1 < n then
    (run x (3 * n) ((List.range (n - 1)).foldl (fun m i => consider x m (u32 i))
      (start symbols))).symbols
  else symbols

end Merging

def merge (x : Impl) (symbols : List TokenId) (options : EncodeOptions) (out : List TokenId)
    (base : Nat) : Except Error (List TokenId) :=
  (Merging.merged x symbols).foldlM
    (fun out s => if 0 ≤ s then emit s options out base else .ok out) out

/-! ## Text -/

section Text

variable (u : UnicodeData) (x : Impl) (options : EncodeOptions) (base : Nat)

/-- One piece of `EncodeFragment`: the whole token where merges are ignored, or its bytes'. -/
def encodePiece (bytes : Bytes) (out : List TokenId) : Except Error (List TokenId) :=
  match if x.ignoreMerges then x.findNormal (alphabetText bytes) else none with
  | some id => emit id options out base
  | none => x.merge (bytes.map fun b => x.byteToken.getD b.toNat (-1)) options out base

/-- The pieces of the lengths, from code point `start`. -/
def encodePieces (cps : List Nat) : Nat → List Nat → List TokenId → Except Error (List TokenId)
  | _, [], out => .ok out
  | start, length :: rest, out => do
    let out ← x.encodePiece options base (utf8All ((cps.drop start).take length)) out
    encodePieces cps (start + length) rest out

def encodeFragment (text : Bytes) (out : List TokenId) : Except Error (List TokenId) :=
  if text = [] then .ok out
  else do
    let cps ← decodeUtf8 text []
    let cps := if x.normalization = .nfc then u.toNfc cps else cps
    x.encodePieces options base cps 0 (preTokenize u x.preTokenizer cps) out

/-- `EncodeText`'s loop: `fragment` is the text since the last special token, and `rest` what is
    left from `p`. A match takes a byte at least, so the text's length bounds the turns. -/
def encodeFrom (special : SpecialTokens) :
    Nat → Bytes → Bytes → List TokenId → Except Error (List TokenId)
  | 0, fragment, rest, out => x.encodeFragment u options base (fragment ++ rest) out
  | _, fragment, [], out => x.encodeFragment u options base fragment out
  | turns + 1, fragment, c :: rest, out =>
    let (t, length) := x.matchSpecial (c :: rest) special
    if t < 0 then encodeFrom special turns (fragment ++ [c]) rest out
    else do
      let out ← x.encodeFragment u options base fragment out
      let out ← emit t options out base
      encodeFrom special turns [] ((c :: rest).drop length) out

def encodeText (text : Bytes) (special : SpecialTokens) (out : List TokenId) :
    Except Error (List TokenId) :=
  x.encodeFrom u options base special text.length [] text out

/-- `Begin`. -/
def begin' (text : Bytes) (out : List TokenId) : Except Error (List TokenId) :=
  if options.maxBytes < text.length then
    fail .inputTooLarge "text longer than max_bytes" options.maxBytes
  else do
    validateUtf8 text
    match x.bos with
    | some bos => if options.addBosEos && x.addBos then emit bos options out base else .ok out
    | none => .ok out

/-- `End`. -/
def end' (out : List TokenId) : Except Error (List TokenId) :=
  match x.eos with
  | some eos => if options.addBosEos && x.addEos then emit eos options out base else .ok out
  | none => .ok out

end Text

def encode (u : UnicodeData) (x : Impl) (text : Bytes) (options : EncodeOptions)
    (out : List TokenId) : Except Error (List TokenId) := do
  let base := out.length
  let out ← x.begin' options base text out
  let out ← x.encodeText u options base text options.special out
  x.end' options base out

/-- The spans of `EncodeMarked`, the next of index `i`, with the text done up to `at'`: where it is
    done to, `out` and the spans' places in it. -/
def encodeSpans (u : UnicodeData) (x : Impl) (options : EncodeOptions) (base : Nat) (text : Bytes) :
    List SpecialSpan → Nat → Nat → List TokenId → Option (List Nat) →
      Except Error (Nat × List TokenId × Option (List Nat))
  | [], _, at', out, spanTokens => .ok (at', out, spanTokens)
  | s :: rest, i, at', out, spanTokens =>
    if s.offset < at' ∨ s.length = 0 ∨ text.length < s.offset ∨
        text.length - s.offset < s.length then
      fail .specialToken "spans out of order or outside the text" i
    else
      match x.find (substr text s.offset s.length) with
      | none => fail .specialToken "a span is not a special token" i
      | some token =>
        if x.kind token = .normal ∨ x.kind token = .unused then
          fail .specialToken "a span is not a special token" i
        else do
          let out ← x.encodeText u options base (substr text at' (s.offset - at'))
            .userDefinedOnly out
          let spanTokens := spanTokens.map (· ++ [out.length])
          let out ← emit token options out base
          encodeSpans u x options base text rest (i + 1) (s.offset + s.length) out spanTokens

/-- `Tokenizer::EncodeMarked`: `out`, and `span_tokens` when it was given. -/
def encodeMarked (u : UnicodeData) (x : Impl) (text : Bytes) (spans : List SpecialSpan)
    (options : EncodeOptions) (out : List TokenId) (spanTokens : Option (List Nat)) :
    Except Error (List TokenId × Option (List Nat)) := do
  let base := out.length
  let out ← x.begin' options base text out
  let (at', out, spanTokens) ← x.encodeSpans u options base text spans 0 0 out spanTokens
  let out ← x.encodeText u options base (text.drop at') .userDefinedOnly out
  let out ← x.end' options base out
  .ok (out, spanTokens)

/-! ## Decoding -/

def tokenBytes (x : Impl) (options : DecodeOptions) (id : TokenId) : Bytes :=
  match x.kind id with
  | .normal => x.bytes id
  | .userDefined => x.text id
  | .control => if options.controlTokens then x.text id else []
  | .unused => []

/-- `Tokenizer::Decode`, from the token of index `i`. -/
def decodeFromIndex (x : Impl) (options : DecodeOptions) :
    List TokenId → Nat → Bytes → Except Error Bytes
  | [], _, out => .ok out
  | id :: rest, i, out =>
    if id < 0 ∨ x.tokens.length ≤ id.toNat then
      fail .invalidToken "token ID outside the vocabulary" i
    else x.decodeFromIndex options rest (i + 1) (out ++ x.tokenBytes options id)

def decode (x : Impl) (tokens : List TokenId) (options : DecodeOptions) (out : Bytes) :
    Except Error Bytes :=
  x.decodeFromIndex options tokens 0 out

end Impl
end JitLlm.Tokenizer
