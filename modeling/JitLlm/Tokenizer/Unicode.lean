import JitLlm.Lib.Sat
import JitLlm.Lib.Sorting
import Mathlib.Data.Nat.Bitwise

/-!
# `tokenizer/unicode.cc` — strict UTF-8, code point properties and NFC

The tables of the Unicode Character Database (`unicode_data.cc`, six thousand lines of numbers)
are a parameter, `UnicodeData`: nothing proved of the tokenizer depends on how a code point is
classified. What reads the tables is here as the source has it.

A byte is a `UInt8` and a code point a `Nat`. The one fact the encoder needs of this file is
`decodeUtf8_ok`: text that decodes is what its code points encode to.
-/

namespace JitLlm.Tokenizer

open List

/-- `Rule`: what a refused input or vocabulary broke. -/
inductive Rule
  | invalidUtf8
  | inputTooLarge
  | outputTooLarge
  | invalidToken
  | specialToken
  | format
  | unsupported
  | vocabulary
  | bounds
deriving DecidableEq

def noItem : Nat := 2 ^ 64 - 1

structure Error where
  rule : Rule
  reason : String
  item : Nat
deriving DecidableEq

/-- `std::string` and `std::string_view`. -/
abbrev Bytes := List UInt8

/-! ## UTF-8 -/

/-- The lead bytes of two, three and four byte sequences: the length, and the least and the
    greatest second byte. -/
def leadByte (c : Nat) : Option (Nat × Nat × Nat) :=
  if 0xC2 ≤ c ∧ c ≤ 0xDF then some (2, 0x80, 0xBF)
  else if 0xE0 ≤ c ∧ c ≤ 0xEF then
    some (3, if c = 0xE0 then 0xA0 else 0x80, if c = 0xED then 0x9F else 0xBF)
  else if 0xF0 ≤ c ∧ c ≤ 0xF4 then
    some (4, if c = 0xF0 then 0x90 else 0x80, if c = 0xF4 then 0x8F else 0xBF)
  else none

/-- `SequenceAt`'s loop over the bytes after the first, from the `k`th: `good` is `k` throughout.
    Answers the sequence's length, or 0 and the length of its maximal subpart. -/
def continuation (p : Bytes) (length low high : Nat) : Nat → Nat → Nat × Nat
  | 0, _ => (length, 0)
  | left + 1, k =>
    match p[k]? with
    | none => (0, k)
    | some b =>
      if b.toNat < (if k = 1 then low else 0x80) ∨ (if k = 1 then high else 0xBF) < b.toNat then
        (0, k)
      else continuation p length low high left (k + 1)

/-- `SequenceAt`: the length of the well-formed sequence `p` starts with, or 0 and its maximal
    subpart's length. -/
def sequenceAt (p : Bytes) : Nat × Nat :=
  let c := (p.headD 0).toNat
  if c < 0x80 then (1, 0)
  else
    match leadByte c with
    | none => (0, 1)
    | some (length, low, high) => continuation p length low high (length - 1) 1

/-- The code point of a sequence of `length` bytes, at least two. -/
def codePoint (p : Bytes) (length : Nat) : Nat :=
  let at' k := (p.getD k 0).toNat
  if length = 2 then ((at' 0 &&& 0x1F) <<< 6) ||| (at' 1 &&& 0x3F)
  else if length = 3 then
    ((at' 0 &&& 0x0F) <<< 12) ||| ((at' 1 &&& 0x3F) <<< 6) ||| (at' 2 &&& 0x3F)
  else
    ((at' 0 &&& 0x07) <<< 18) ||| ((at' 1 &&& 0x3F) <<< 12) ||| ((at' 2 &&& 0x3F) <<< 6) |||
      (at' 3 &&& 0x3F)

/-- `DecodeUtf8`'s loop at offset `i`, where `p` is left. Every turn takes a byte at least, so the
    text's length bounds the turns. -/
def decodeFrom : Nat → Bytes → Nat → List Nat → Except Error (List Nat)
  | 0, _, _, out => .ok out
  | turns + 1, p, i, out =>
    match p with
    | [] => .ok out
    | c :: _ =>
      if c.toNat < 0x80 then decodeFrom turns (p.drop 1) (i + 1) (out ++ [c.toNat])
      else
        let length := (sequenceAt p).1
        if length = 0 then .error ⟨.invalidUtf8, "ill-formed UTF-8", i⟩
        else decodeFrom turns (p.drop length) (i + length) (out ++ [codePoint p length])

def decodeUtf8 (text : Bytes) (out : List Nat) : Except Error (List Nat) :=
  decodeFrom text.length text 0 out

/-- `ValidateUtf8`'s loop. -/
def validateFrom : Nat → Bytes → Nat → Except Error Unit
  | 0, _, _ => .ok ()
  | turns + 1, p, i =>
    match p with
    | [] => .ok ()
    | c :: _ =>
      if c.toNat < 0x80 then validateFrom turns (p.drop 1) (i + 1)
      else
        let length := (sequenceAt p).1
        if length = 0 then .error ⟨.invalidUtf8, "ill-formed UTF-8", i⟩
        else validateFrom turns (p.drop length) (i + length)

def validateUtf8 (text : Bytes) : Except Error Unit := validateFrom text.length text 0

/-- What `AppendUtf8` appends. The casts to `char` keep the low byte, as `UInt8.ofNat` does. -/
def utf8 (cp : Nat) : Bytes :=
  if cp < 0x80 then [UInt8.ofNat cp]
  else if cp < 0x800 then
    [UInt8.ofNat (0xC0 ||| (cp >>> 6)), UInt8.ofNat (0x80 ||| (cp &&& 0x3F))]
  else if cp < 0x10000 then
    [UInt8.ofNat (0xE0 ||| (cp >>> 12)), UInt8.ofNat (0x80 ||| ((cp >>> 6) &&& 0x3F)),
      UInt8.ofNat (0x80 ||| (cp &&& 0x3F))]
  else
    [UInt8.ofNat (0xF0 ||| (cp >>> 18)), UInt8.ofNat (0x80 ||| ((cp >>> 12) &&& 0x3F)),
      UInt8.ofNat (0x80 ||| ((cp >>> 6) &&& 0x3F)), UInt8.ofNat (0x80 ||| (cp &&& 0x3F))]

def appendUtf8 (cp : Nat) (out : Bytes) : Bytes := out ++ utf8 cp

/-! ## The tables, and Normalization Form C -/

/-- What `unicode_data.cc` holds, as its readers see it: a property byte and a combining class of
    each code point up to U+10FFFF, the canonical decompositions (`none` where `lower_bound` finds
    no entry), and the primary composites. -/
structure UnicodeData where
  properties : Nat → UInt8
  combiningClass : Nat → UInt8
  decomposition : Nat → Option (List Nat)
  composition : Nat → Nat → Option Nat

namespace UnicodeData

variable (u : UnicodeData)

/-- `Properties`: code points above U+10FFFF read as unassigned. -/
def propertiesOf (cp : Nat) : Nat := if 0x10FFFF < cp then 0 else (u.properties cp).toNat

/-- `CombiningClass`. -/
def combiningClassOf (cp : Nat) : Nat := if 0x10FFFF < cp then 0 else (u.combiningClass cp).toNat

/-- `GetCategory`, as its number in `Category`'s order. -/
def category (cp : Nat) : Nat := u.propertiesOf cp &&& 0x1F

/-- `InRange` of the category: `kLu` is 1 and `kLo` 5, `kMn` 6 and `kMe` 8, `kNd` 9 and `kNo` 11,
    `kPc` 12 and `kPo` 18, `kSm` 19 and `kSo` 22. -/
def inRange (cp first last : Nat) : Bool := first ≤ u.category cp && u.category cp ≤ last

def isLetter (cp : Nat) : Bool := u.inRange cp 1 5
def isMark (cp : Nat) : Bool := u.inRange cp 6 8
def isNumber (cp : Nat) : Bool := u.inRange cp 9 11
def isPunctuation (cp : Nat) : Bool := u.inRange cp 12 18
def isSymbol (cp : Nat) : Bool := u.inRange cp 19 22

/-- `IsWhiteSpace`, by `kWhiteSpaceBit`. -/
def isWhiteSpace (cp : Nat) : Bool := u.propertiesOf cp &&& 0x20 != 0

/-- `Decompose`, what it appends: a Hangul syllable by arithmetic, any other by the table. -/
def decompose (cp : Nat) : List Nat :=
  if 0xAC00 ≤ cp ∧ cp < 0xAC00 + 11172 then
    let s := cp - 0xAC00
    [0x1100 + s / 588, 0x1161 + (s % 588) / 28] ++
      (if s % 28 ≠ 0 then [0x11A7 + s % 28] else [])
  else (u.decomposition cp).getD [cp]

/-- `Compose`: the primary composite of `a` and `b`, or 0. -/
def compose (a b : Nat) : Nat :=
  if 0x1100 ≤ a ∧ a < 0x1100 + 19 ∧ 0x1161 ≤ b ∧ b < 0x1161 + 21 then
    0xAC00 + ((a - 0x1100) * 21 + (b - 0x1161)) * 28
  else if 0xAC00 ≤ a ∧ a < 0xAC00 + 11172 ∧ (a - 0xAC00) % 28 = 0 ∧ 0x11A7 < b ∧
      b < 0x11A7 + 28 then
    a + (b - 0x11A7)
  else (u.composition a b).getD 0

/-- `QuickCheckNfc`, from the class of the code point before. `0xC0` is both NFC_QC bits. -/
def quickCheckNfc (last : Nat) : List Nat → Bool
  | [] => true
  | cp :: rest =>
    if cp < 0x300 then quickCheckNfc 0 rest
    else
      let ccc := u.combiningClassOf cp
      if ccc ≠ 0 ∧ ccc < last then false
      else if u.propertiesOf cp &&& 0xC0 ≠ 0 then false
      else quickCheckNfc ccc rest

/-- Canonical ordering: each run of nonzero combining classes sorted by class, stably. `run` is
    the run before, not yet written. -/
def reorder (run : List Nat) : List Nat → List Nat
  | [] => Lib.sortBy u.combiningClassOf run
  | cp :: rest =>
    if u.combiningClassOf cp = 0 then
      Lib.sortBy u.combiningClassOf run ++ cp :: reorder [] rest
    else reorder (run ++ [cp]) rest

/-- The state of the composition loop: the text, the last starter's place, and the class of the
    last code point kept. -/
structure Composing where
  text : List Nat := []
  starter : Option Nat := none
  lastCcc : Nat := 0

def composeStep (c : Composing) (cp : Nat) : Composing :=
  let ccc := u.combiningClassOf cp
  let kept : Composing :=
    { text := c.text ++ [cp], starter := if ccc = 0 then some c.text.length else c.starter,
      lastCcc := ccc }
  match c.starter with
  | none => kept
  | some at' =>
    if c.text.length - 1 = at' ∨ (c.lastCcc ≠ 0 ∧ c.lastCcc < ccc) then
      let composite := u.compose (c.text.getD at' 0) cp
      if composite ≠ 0 then { c with text := c.text.set at' composite } else kept
    else kept

def toNfc (text : List Nat) : List Nat :=
  if u.quickCheckNfc 0 text then text
  else ((u.reorder [] (text.flatMap u.decompose)).foldl u.composeStep {}).text

end UnicodeData

/-! ## Decoding and encoding are inverse -/

variable {p : Bytes} {length low high x a : Nat} {c : UInt8}

theorem continuation_ok : ∀ {left k n : Nat},
    (continuation p length low high left k).1 = n → n ≠ 0 →
    n = length ∧ ∀ j, k ≤ j → j < k + left → ∃ b, p[j]? = some b ∧
      (if j = 1 then low else 0x80) ≤ b.toNat ∧ b.toNat ≤ (if j = 1 then high else 0xBF)
  | 0, k, n, h, hn => by
    simp only [continuation] at h
    exact ⟨h.symm, fun j h1 h2 => absurd h2 (by omega)⟩
  | left + 1, k, n, h, hn => by
    rw [continuation] at h
    rcases hb : p[k]? with _ | b
    · rw [hb] at h
      exact absurd h.symm hn
    simp only [hb] at h
    by_cases hc : b.toNat < (if k = 1 then low else 0x80) ∨ (if k = 1 then high else 0xBF) < b.toNat
    · rw [if_pos hc] at h
      exact absurd h.symm hn
    rw [if_neg hc] at h
    obtain ⟨hl, hall⟩ := continuation_ok h hn
    refine ⟨hl, fun j h1 h2 => ?_⟩
    by_cases hj : j = k
    · rw [hj]
      exact ⟨b, hb, Nat.not_lt.mp fun hlt => hc (.inl hlt), Nat.not_lt.mp fun hlt => hc (.inr hlt)⟩
    · exact hall j (by omega) (by omega)

theorem tail_byte {b : UInt8} (h1 : 0x80 ≤ b.toNat) (h2 : b.toNat ≤ 0xBF)
    (hx : x = b.toNat % 64) : UInt8.ofNat (0x80 ||| x) = b := by
  have hor : (0x80 ||| x) = 0x80 + x := by
    have := Nat.shiftLeft_add_eq_or_of_lt (i := 6) (b := x) (by omega) 2
    simpa using this.symm
  apply UInt8.toNat.inj
  rw [hor, UInt8.toNat_ofNat']
  omega

theorem lead_byte (marker m i : Nat) (hmar : marker = m * 2 ^ i)
    (hle : marker ≤ c.toNat) (hx : x = c.toNat - marker) (hlt : x < 2 ^ i) :
    UInt8.ofNat (marker ||| x) = c := by
  have hor : (marker ||| x) = marker + x := by
    rw [hmar, ← Nat.shiftLeft_eq]
    exact (Nat.shiftLeft_add_eq_or_of_lt hlt m).symm
  apply UInt8.toNat.inj
  rw [hor, UInt8.toNat_ofNat']
  have := c.toNat_lt
  omega

theorem shift_or {b i : Nat} (h : b < 2 ^ i) : (a <<< i) ||| b = a * 2 ^ i + b := by
  rw [← Nat.shiftLeft_add_eq_or_of_lt h, Nat.shiftLeft_eq]

theorem codePoint_two (p : Bytes) :
    codePoint p 2 = (p.getD 0 0).toNat % 32 * 64 + (p.getD 1 0).toNat % 64 := by
  have h1 : ∀ x, x &&& 0x1F = x % 32 := fun x => Nat.and_two_pow_sub_one_eq_mod x 5
  have h2 : ∀ x, x &&& 0x3F = x % 64 := fun x => Nat.and_two_pow_sub_one_eq_mod x 6
  simp only [codePoint, if_true, h1, h2]
  exact shift_or (Nat.mod_lt _ (by decide))

theorem codePoint_three (p : Bytes) :
    codePoint p 3 = (p.getD 0 0).toNat % 16 * 4096 + (p.getD 1 0).toNat % 64 * 64 +
      (p.getD 2 0).toNat % 64 := by
  have h1 : ∀ x, x &&& 0x0F = x % 16 := fun x => Nat.and_two_pow_sub_one_eq_mod x 4
  have h2 : ∀ x, x &&& 0x3F = x % 64 := fun x => Nat.and_two_pow_sub_one_eq_mod x 6
  have h3 : (3 : Nat) ≠ 2 := by decide
  simp only [codePoint, if_true, if_neg h3, h1, h2]
  rw [Nat.or_assoc, shift_or (i := 6) (by omega), shift_or (i := 12) (by omega)]
  omega

theorem codePoint_four (p : Bytes) :
    codePoint p 4 = (p.getD 0 0).toNat % 8 * 262144 + (p.getD 1 0).toNat % 64 * 4096 +
      (p.getD 2 0).toNat % 64 * 64 + (p.getD 3 0).toNat % 64 := by
  have h1 : ∀ x, x &&& 0x07 = x % 8 := fun x => Nat.and_two_pow_sub_one_eq_mod x 3
  have h2 : ∀ x, x &&& 0x3F = x % 64 := fun x => Nat.and_two_pow_sub_one_eq_mod x 6
  have h3 : (4 : Nat) ≠ 2 := by decide
  have h4 : (4 : Nat) ≠ 3 := by decide
  simp only [codePoint, if_neg h3, if_neg h4, h1, h2]
  rw [Nat.or_assoc, Nat.or_assoc, shift_or (i := 6) (by omega),
    shift_or (i := 12) (by omega), shift_or (i := 18) (by omega)]
  omega

theorem low_six (x : Nat) : x &&& 0x3F = x % 64 := Nat.and_two_pow_sub_one_eq_mod x 6

theorem utf8_two {c b : UInt8} (rest : Bytes) (hc : 0xC2 ≤ c.toNat) (hc' : c.toNat ≤ 0xDF)
    (hb : 0x80 ≤ b.toNat) (hb' : b.toNat ≤ 0xBF) :
    utf8 (codePoint (c :: b :: rest) 2) = [c, b] := by
  have hcp := codePoint_two (c :: b :: rest)
  simp only [getD_cons_zero, getD_cons_succ] at hcp
  rw [hcp]
  have h80 : ¬c.toNat % 32 * 64 + b.toNat % 64 < 0x80 := by omega
  have h800 : c.toNat % 32 * 64 + b.toNat % 64 < 0x800 := by omega
  unfold utf8
  rw [if_neg h80, if_pos h800, low_six, Nat.shiftRight_eq_div_pow]
  rw [lead_byte (c := c) 0xC0 6 5 rfl (by omega) (by omega) (by omega), tail_byte hb hb' (by omega)]

theorem utf8_three {c b d : UInt8} (rest : Bytes) (hc : 0xE0 ≤ c.toNat) (hc' : c.toNat ≤ 0xEF)
    (hb : (if c.toNat = 0xE0 then 0xA0 else 0x80) ≤ b.toNat) (hb' : b.toNat ≤ 0xBF)
    (hd : 0x80 ≤ d.toNat) (hd' : d.toNat ≤ 0xBF) :
    utf8 (codePoint (c :: b :: d :: rest) 3) = [c, b, d] := by
  have hcp := codePoint_three (c :: b :: d :: rest)
  simp only [getD_cons_zero, getD_cons_succ] at hcp
  rw [hcp]
  -- the narrower second byte after `0xE0` is what excludes the overlong forms
  have h800 : ¬c.toNat % 16 * 4096 + b.toNat % 64 * 64 + d.toNat % 64 < 0x800 := by
    split at hb <;> omega
  have h80 : ¬c.toNat % 16 * 4096 + b.toNat % 64 * 64 + d.toNat % 64 < 0x80 := by omega
  have hle : c.toNat % 16 * 4096 + b.toNat % 64 * 64 + d.toNat % 64 < 0x10000 := by omega
  have hb1 : 0x80 ≤ b.toNat := by split at hb <;> omega
  unfold utf8
  rw [if_neg h80, if_neg h800, if_pos hle, low_six, low_six, Nat.shiftRight_eq_div_pow,
    Nat.shiftRight_eq_div_pow]
  rw [lead_byte (c := c) 0xE0 14 4 rfl (by omega) (by omega) (by omega),
    tail_byte hb1 hb' (by omega), tail_byte hd hd' (by omega)]

theorem utf8_four {c b d e : UInt8} (rest : Bytes) (hc : 0xF0 ≤ c.toNat) (hc' : c.toNat ≤ 0xF4)
    (hb : (if c.toNat = 0xF0 then 0x90 else 0x80) ≤ b.toNat) (hb' : b.toNat ≤ 0xBF)
    (hd : 0x80 ≤ d.toNat) (hd' : d.toNat ≤ 0xBF) (he : 0x80 ≤ e.toNat) (he' : e.toNat ≤ 0xBF) :
    utf8 (codePoint (c :: b :: d :: e :: rest) 4) = [c, b, d, e] := by
  have hcp := codePoint_four (c :: b :: d :: e :: rest)
  simp only [getD_cons_zero, getD_cons_succ] at hcp
  rw [hcp]
  have h10000 : ¬c.toNat % 8 * 262144 + b.toNat % 64 * 4096 + d.toNat % 64 * 64 +
      e.toNat % 64 < 0x10000 := by
    split at hb <;> omega
  have h800 : ¬c.toNat % 8 * 262144 + b.toNat % 64 * 4096 + d.toNat % 64 * 64 +
      e.toNat % 64 < 0x800 := by omega
  have h80 : ¬c.toNat % 8 * 262144 + b.toNat % 64 * 4096 + d.toNat % 64 * 64 +
      e.toNat % 64 < 0x80 := by omega
  have hb1 : 0x80 ≤ b.toNat := by split at hb <;> omega
  unfold utf8
  rw [if_neg h80, if_neg h800, if_neg h10000, low_six, low_six, low_six,
    Nat.shiftRight_eq_div_pow, Nat.shiftRight_eq_div_pow, Nat.shiftRight_eq_div_pow]
  rw [lead_byte (c := c) 0xF0 30 3 rfl (by omega) (by omega) (by omega),
    tail_byte hb1 hb' (by omega), tail_byte hd hd' (by omega), tail_byte he he' (by omega)]

theorem leadByte_cases {c : Nat} (h : leadByte c = some (length, low, high)) :
    (length = 2 ∧ low = 0x80 ∧ high = 0xBF ∧ 0xC2 ≤ c ∧ c ≤ 0xDF) ∨
    (length = 3 ∧ low = (if c = 0xE0 then 0xA0 else 0x80) ∧
      high = (if c = 0xED then 0x9F else 0xBF) ∧ 0xE0 ≤ c ∧ c ≤ 0xEF) ∨
    (length = 4 ∧ low = (if c = 0xF0 then 0x90 else 0x80) ∧
      high = (if c = 0xF4 then 0x8F else 0xBF) ∧ 0xF0 ≤ c ∧ c ≤ 0xF4) := by
  unfold leadByte at h
  by_cases h2 : 0xC2 ≤ c ∧ c ≤ 0xDF
  · rw [if_pos h2] at h
    cases h
    exact .inl ⟨rfl, rfl, rfl, h2.1, h2.2⟩
  rw [if_neg h2] at h
  by_cases h3 : 0xE0 ≤ c ∧ c ≤ 0xEF
  · rw [if_pos h3] at h
    cases h
    exact .inr (.inl ⟨rfl, rfl, rfl, h3.1, h3.2⟩)
  rw [if_neg h3] at h
  by_cases h4 : 0xF0 ≤ c ∧ c ≤ 0xF4
  · rw [if_pos h4] at h
    cases h
    exact .inr (.inr ⟨rfl, rfl, rfl, h4.1, h4.2⟩)
  rw [if_neg h4] at h
  cases h

theorem cons_of_get {b : UInt8} (h : p[0]? = some b) : ∃ rest, p = b :: rest := by
  cases p with
  | nil => cases h
  | cons x rest => exact ⟨rest, by rw [show x = b by simpa using h]⟩

theorem sequence_utf8 {n : Nat} (hc : ¬c.toNat < 0x80)
    (h : (sequenceAt (c :: p)).1 = n) (hn : n ≠ 0) :
    n ≤ (c :: p).length ∧ utf8 (codePoint (c :: p) n) = (c :: p).take n := by
  have hseq : sequenceAt (c :: p) = match leadByte c.toNat with
      | none => (0, 1)
      | some (length, low, high) => continuation (c :: p) length low high (length - 1) 1 :=
    if_neg hc
  rw [hseq] at h
  rcases hl : leadByte c.toNat with _ | found
  · rw [hl] at h
    exact absurd h.symm hn
  obtain ⟨length, low, high⟩ := found
  rw [hl] at h
  obtain ⟨rfl, hall⟩ := continuation_ok h hn
  rcases leadByte_cases hl with ⟨rfl, rfl, rfl, hc, hc'⟩ | ⟨rfl, rfl, rfl, hc, hc'⟩ |
    ⟨rfl, rfl, rfl, hc, hc'⟩
  · obtain ⟨b, hb, hb1, hb2⟩ := hall 1 (by omega) (by omega)
    obtain ⟨rest, rfl⟩ := cons_of_get hb
    exact ⟨by simp, utf8_two rest hc hc' hb1 hb2⟩
  · have hhigh : (if c.toNat = 0xED then 0x9F else 0xBF) ≤ 0xBF := by split <;> omega
    obtain ⟨b, hb, hb1, hb2⟩ := hall 1 (by omega) (by omega)
    obtain ⟨d, hd, hd1, hd2⟩ := hall 2 (by omega) (by omega)
    obtain ⟨rest, rfl⟩ := cons_of_get hb
    obtain ⟨rest, rfl⟩ := cons_of_get (p := rest) hd
    exact ⟨by simp, utf8_three rest hc hc' hb1 (Nat.le_trans hb2 hhigh) hd1 hd2⟩
  have hhigh : (if c.toNat = 0xF4 then 0x8F else 0xBF) ≤ 0xBF := by split <;> omega
  obtain ⟨b, hb, hb1, hb2⟩ := hall 1 (by omega) (by omega)
  obtain ⟨d, hd, hd1, hd2⟩ := hall 2 (by omega) (by omega)
  obtain ⟨e, he, he1, he2⟩ := hall 3 (by omega) (by omega)
  obtain ⟨rest, rfl⟩ := cons_of_get hb
  obtain ⟨rest, rfl⟩ := cons_of_get (p := rest) hd
  obtain ⟨rest, rfl⟩ := cons_of_get (p := rest) he
  exact ⟨by simp, utf8_four rest hc hc' hb1 (Nat.le_trans hb2 hhigh) hd1 hd2 he1 he2⟩

def utf8All (cps : List Nat) : Bytes := cps.flatMap utf8

@[simp] theorem utf8All_append (a b : List Nat) : utf8All (a ++ b) = utf8All a ++ utf8All b :=
  flatMap_append

theorem utf8_ascii (hc : c.toNat < 0x80) : utf8 c.toNat = [c] := by
  unfold utf8
  rw [if_pos hc]
  simp

theorem decodeFrom_ok : ∀ {turns : Nat} {p : Bytes} {i : Nat} {out out' : List Nat},
    decodeFrom turns p i out = .ok out' → p.length ≤ turns → ∃ cps, out' = out ++ cps ∧ utf8All cps = p
  | 0, p, i, out, out', h, hlen => by
    have hp : p = [] := List.length_eq_zero_iff.mp (by omega)
    refine ⟨[], ?_, hp.symm⟩
    rw [append_nil]
    exact (Except.ok.inj h).symm
  | turns + 1, [], i, out, out', h, hlen => by
    refine ⟨[], ?_, rfl⟩
    rw [append_nil]
    exact (Except.ok.inj h).symm
  | turns + 1, c :: p, i, out, out', h, hlen => by
    rw [decodeFrom] at h
    simp only at h
    by_cases hc : c.toNat < 0x80
    · rw [if_pos hc] at h
      obtain ⟨cps, rfl, hcps⟩ := decodeFrom_ok h (by simp at hlen ⊢; omega)
      refine ⟨c.toNat :: cps, by simp, ?_⟩
      show utf8 c.toNat ++ utf8All cps = c :: p
      rw [utf8_ascii hc, hcps]
      rfl
    rw [if_neg hc] at h
    by_cases hn : (sequenceAt (c :: p)).1 = 0
    · rw [if_pos hn] at h
      cases h
    rw [if_neg hn] at h
    obtain ⟨-, hutf⟩ := sequence_utf8 hc rfl hn
    obtain ⟨cps, rfl, hcps⟩ := decodeFrom_ok h (by
      simp only [length_drop, length_cons] at hlen ⊢
      omega)
    refine ⟨codePoint (c :: p) (sequenceAt (c :: p)).1 :: cps, by simp, ?_⟩
    show utf8 _ ++ utf8All cps = c :: p
    rw [hutf, hcps, take_append_drop]

theorem decodeUtf8_ok {text : Bytes} {out out' : List Nat} (h : decodeUtf8 text out = .ok out') :
    ∃ cps, out' = out ++ cps ∧ utf8All cps = text :=
  decodeFrom_ok h (Nat.le_refl _)

theorem utf8_length_pos (cp : Nat) : 0 < (utf8 cp).length := by
  unfold utf8
  split
  · exact Nat.one_pos
  split
  · exact Nat.two_pos
  · split <;> simp

theorem length_le_utf8All (cps : List Nat) : cps.length ≤ (utf8All cps).length := by
  induction cps with
  | nil => exact Nat.le_refl _
  | cons cp rest =>
    have := utf8_length_pos cp
    show rest.length + 1 ≤ (utf8 cp ++ utf8All rest).length
    rw [length_append]
    omega

theorem utf8_unique {b : Nat} (ha : a < 0x800) (hb : b < 0x800) {r s : Bytes}
    (h : utf8 a ++ r = utf8 b ++ s) : a = b ∧ r = s := by
  have hor : ∀ x, x < 32 → (0xC0 ||| x) = 0xC0 + x := fun x hx => by
    have := Nat.shiftLeft_add_eq_or_of_lt (i := 5) (b := x) hx 6
    simpa using this.symm
  have hor' : ∀ x, x < 64 → (0x80 ||| x) = 0x80 + x := fun x hx => by
    have := Nat.shiftLeft_add_eq_or_of_lt (i := 6) (b := x) hx 2
    simpa using this.symm
  unfold utf8 at h
  simp only [low_six, Nat.shiftRight_eq_div_pow, if_pos ha, if_pos hb] at h
  rw [hor (a / 2 ^ 6) (by omega), hor (b / 2 ^ 6) (by omega), hor' (a % 64) (by omega),
    hor' (b % 64) (by omega)] at h
  split at h <;> split at h <;>
    simp only [cons_append, nil_append, List.cons.injEq, ← UInt8.toNat_inj, UInt8.toNat_ofNat'] at h
  · exact ⟨by omega, h.2⟩
  · omega
  · omega
  · exact ⟨by omega, h.2.2⟩

end JitLlm.Tokenizer
