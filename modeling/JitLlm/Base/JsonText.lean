import JitLlm.Base.Json
import JitLlm.Lib.Utf8

/-!
# The texts of JSON

The grammar of RFC 8259, with what a text says: `IsText n v t`, the bytes `t` are the value `v`,
nested no deeper than `n`, its members' names all different and no surrogate unpaired. Here also
the scalars: what the parser takes as a number or a string is the grammar's, and all of it.
-/

namespace JitLlm.Base.Json

open Lib Option
open List (append_assoc cons_append length_append length_cons nil_append take_left)

inductive Value
  | null
  | boolean (b : Bool)
  | number (raw : List UInt8) (integer : Bool)
  | string (bytes : List UInt8)
  | array (items : List Value)
  | object (members : List (List UInt8 × Value))

/-! ## Numbers -/

def Digits (t : List UInt8) : Prop := t ≠ [] ∧ ∀ b ∈ t, isDigit b = true

def Whole (t : List UInt8) : Prop := t = [0x30] ∨ Digits t ∧ t.head? ≠ some 0x30

def Fraction (there : Bool) (t : List UInt8) : Prop :=
  there = false ∧ t = [] ∨ there = true ∧ ∃ d, t = 0x2e :: d ∧ Digits d

def Exponent (there : Bool) (t : List UInt8) : Prop :=
  there = false ∧ t = [] ∨
    there = true ∧ ∃ e sign d, (e = 0x65 ∨ e = 0x45) ∧ (sign = [] ∨ sign = [0x2b] ∨ sign = [0x2d]) ∧
      t = e :: sign ++ d ∧ Digits d

def NumberText (raw : List UInt8) (integer : Bool) : Prop :=
  ∃ minus int frac exp fractional exponential, (minus = [] ∨ minus = [0x2d]) ∧ Whole int ∧
    Fraction fractional frac ∧ Exponent exponential exp ∧ raw = minus ++ int ++ frac ++ exp ∧
    integer = (!fractional && !exponential)

/-! ## Strings -/

/-- What stands between a string's quotes, and the bytes it is. -/
inductive Chars : List UInt8 → List UInt8 → Prop
  | nil : Chars [] []
  | plain {c t bytes} : isPlain c = true → Chars t bytes → Chars (c :: t) (c :: bytes)
  | short {e c t bytes} : shortEscape e = some c → Chars t bytes →
      Chars (0x5c :: e :: t) (c :: bytes)
  | unit {h u t bytes} : hexUnit h = some u → ¬ (0xD800 ≤ u ∧ u ≤ 0xDFFF) → Chars t bytes →
      Chars (0x5c :: 0x75 :: (h ++ t)) (Utf8.encode u ++ bytes)
  | pair {h u h' u' t bytes} : hexUnit h = some u → 0xD800 ≤ u ∧ u ≤ 0xDBFF →
      hexUnit h' = some u' → 0xDC00 ≤ u' ∧ u' ≤ 0xDFFF → Chars t bytes →
      Chars (0x5c :: 0x75 :: (h ++ 0x5c :: 0x75 :: (h' ++ t)))
        (Utf8.encode (0x10000 + (u - 0xD800) * 1024 + (u' - 0xDC00)) ++ bytes)

def Quoted (bytes t : List UInt8) : Prop := ∃ body, Chars body bytes ∧ t = 0x22 :: body ++ [0x22]

/-! ## Values -/

def Blank (w : List UInt8) : Prop := ∀ b ∈ w, isSpace b = true

inductive Sep {α : Type} (P : α → List UInt8 → Prop) : List α → List UInt8 → Prop
  | last {a t w} : P a t → Blank w → Sep P [a] (t ++ w)
  | next {a as t w w' t'} : P a t → Blank w → Blank w' → Sep P as t' →
      Sep P (a :: as) (t ++ w ++ 0x2c :: w' ++ t')

/-- A container's text: the opening byte, its items, the closing byte. -/
inductive Bracketed {α : Type} (openByte closeByte : UInt8) (P : α → List UInt8 → Prop) :
    List α → List UInt8 → Prop
  | empty {w} : Blank w → Bracketed openByte closeByte P [] (openByte :: w ++ [closeByte])
  | items {as w t} : Blank w → Sep P as t →
      Bracketed openByte closeByte P as (openByte :: w ++ t ++ [closeByte])

def MemberText (P : Value → List UInt8 → Prop) (m : List UInt8 × Value) (t : List UInt8) : Prop :=
  ∃ tk w w' tv, Quoted m.1 tk ∧ Blank w ∧ Blank w' ∧ P m.2 tv ∧ t = tk ++ w ++ 0x3a :: w' ++ tv

def IsText : Nat → Value → List UInt8 → Prop
  | _, .null, t => t = [0x6e, 0x75, 0x6c, 0x6c]
  | _, .boolean true, t => t = [0x74, 0x72, 0x75, 0x65]
  | _, .boolean false, t => t = [0x66, 0x61, 0x6c, 0x73, 0x65]
  | _, .number raw integer, t => t = raw ∧ NumberText raw integer
  | _, .string bytes, t => Quoted bytes t
  | 0, .array _, _ => False
  | n + 1, .array items, t => Bracketed 0x5b 0x5d (IsText n) items t
  | 0, .object _, _ => False
  | n + 1, .object members, t => (members.map Prod.fst).Nodup ∧
      Bracketed 0x7b 0x7d (MemberText (IsText n)) members t

def IsDocument (n : Nat) (v : Value) (text : List UInt8) : Prop :=
  ∃ w t w', Blank w ∧ IsText n v t ∧ Blank w' ∧ text = w ++ t ++ w'

/-! ## What is taken -/

structure Takes (x x' : Cursor Own) (t : List UInt8) : Prop where
  rest : x.rest = t ++ x'.rest
  pos : x'.pos = x.pos + t.length
  own : x'.own = x.own

theorem Takes.none (x : Cursor Own) : Takes x x [] := ⟨rfl, rfl, rfl⟩

theorem Takes.then {x x' x'' : Cursor Own} {t t' : List UInt8} (h : Takes x x' t)
    (h' : Takes x' x'' t') : Takes x x'' (t ++ t') where
  rest := by rw [h.rest, h'.rest, append_assoc]
  pos := by rw [h'.pos, h.pos, length_append, Nat.add_assoc]
  own := h'.own.trans h.own

theorem Takes.one {x : Cursor Own} {c : UInt8} (h : x.rest.head? = some c) :
    Takes x (x.advance 1) [c] := by
  obtain ⟨rest, hrest⟩ := List.head?_eq_some_iff.mp h
  exact ⟨by simp [Cursor.advance, hrest], rfl, rfl⟩

theorem Takes.skip (p : UInt8 → Bool) (x : Cursor Own) :
    Takes x (x.skipWhile p fun _ s => s) (x.rest.takeWhile p) :=
  ⟨(List.takeWhile_append_dropWhile).symm, rfl, rfl⟩

def after (pos : Nat) (s : Own) (t rest : List UInt8) : Cursor Own := ⟨rest, pos + t.length, s⟩

theorem after_append (pos : Nat) (s : Own) (t t' rest : List UInt8) :
    after (pos + t.length) s t' rest = after pos s (t ++ t') rest := by
  simp only [after, length_append, Nat.add_assoc]

theorem advance_cons (c : UInt8) (rest : List UInt8) (pos : Nat) (s : Own) :
    (⟨c :: rest, pos, s⟩ : Cursor Own).advance 1 = ⟨rest, pos + 1, s⟩ := rfl

/-! ## Numbers, read -/

section Numbers

variable {x y : Cursor Own} {t rest : List UInt8} {there : Bool}

theorem digits_sound (h : digits x = .ok y) : ∃ t, Takes x y t ∧ Digits t := by
  unfold digits at h
  simp only at h
  split at h
  · cases h
  rename_i hpos
  cases h
  refine ⟨_, Takes.skip isDigit x, fun hnil => hpos ?_, fun b hb => List.mem_takeWhile_imp hb⟩
  simp [Cursor.skipWhile, hnil]

theorem digits_complete (pos : Nat) (s : Own) (h : Digits t) (hrest : Scan.Stops isDigit rest) :
    digits ⟨t ++ rest, pos, s⟩ = .ok (after pos s t rest) := by
  unfold digits
  rw [Scan.skipWhile_eq pos h.2 hrest]
  have hlen := List.length_pos_iff.mpr h.1
  have hne : ¬ pos + t.length = pos := by omega
  simp only [if_neg hne]
  rfl

theorem sign_sound (x : Cursor Own) : ∃ t, Takes x (sign x) t ∧ (t = [] ∨ t = [0x2d]) := by
  unfold sign
  split
  next hminus =>
    exact ⟨_, .one hminus, .inr rfl⟩
  · exact ⟨[], .none x, .inl rfl⟩

theorem whole_sound (h : whole x = .ok y) : ∃ t, Takes x y t ∧ Whole t := by
  unfold whole at h
  split at h
  next hzero =>
    cases h
    exact ⟨_, .one hzero, .inl rfl⟩
  rename_i hzero
  obtain ⟨t, htakes, hdig⟩ := digits_sound h
  obtain ⟨c, tail, rfl⟩ := List.exists_cons_of_ne_nil hdig.1
  refine ⟨_, htakes, .inr ⟨hdig, fun hc => hzero ?_⟩⟩
  rw [htakes.rest]
  exact hc

theorem whole_complete (pos : Nat) (s : Own) (h : Whole t) (hrest : Scan.Stops isDigit rest) :
    whole ⟨t ++ rest, pos, s⟩ = .ok (after pos s t rest) := by
  unfold whole
  rcases h with rfl | ⟨hdig, hzero⟩
  · rfl
  obtain ⟨c, tail, rfl⟩ := List.exists_cons_of_ne_nil hdig.1
  rw [if_neg (show ¬ (c :: tail ++ rest).head? = some 0x30 from hzero)]
  exact digits_complete pos s hdig hrest

theorem fraction_sound (h : fraction x = .ok (there, y)) : ∃ t, Takes x y t ∧ Fraction there t := by
  unfold fraction at h
  split at h
  next hdot =>
    obtain ⟨y', hy', h⟩ := bind_ok h
    cases Except.ok.inj h
    obtain ⟨t, htakes, hdig⟩ := digits_sound hy'
    exact ⟨_, (Takes.one hdot).then htakes, .inr ⟨rfl, t, rfl, hdig⟩⟩
  cases Except.ok.inj h
  exact ⟨[], .none x, .inl ⟨rfl, rfl⟩⟩

theorem fraction_complete (pos : Nat) (s : Own) (h : Fraction there t)
    (hrest : Scan.Stops isDigit rest) (hdot : rest.head? ≠ some 0x2e) :
    fraction ⟨t ++ rest, pos, s⟩ = .ok (there, after pos s t rest) := by
  unfold fraction
  rcases h with ⟨rfl, rfl⟩ | ⟨rfl, d, rfl, hdig⟩
  · rw [nil_append, if_neg hdot]
    rfl
  rw [if_pos (by rfl)]
  show (do return (true, ← digits ⟨d ++ rest, pos + 1, s⟩)) = _
  rw [digits_complete (pos + 1) s hdig hrest, after, after, length_cons]
  show Except.ok (true, _) = _
  rw [Nat.add_assoc, Nat.add_comm 1]

theorem exponentSign_sound (x : Cursor Own) :
    ∃ t, Takes x (exponentSign x) t ∧ (t = [] ∨ t = [0x2b] ∨ t = [0x2d]) := by
  unfold exponentSign
  split
  next hsign =>
    rcases hsign with hplus | hminus
    · exact ⟨_, .one hplus, .inr (.inl rfl)⟩
    · exact ⟨_, .one hminus, .inr (.inr rfl)⟩
  · exact ⟨[], .none x, .inl rfl⟩

theorem digits_head {d : List UInt8} (h : Digits d) (rest : List UInt8) :
    ∃ c, (d ++ rest).head? = some c ∧ isDigit c = true := by
  obtain ⟨c, tail, rfl⟩ := List.exists_cons_of_ne_nil h.1
  exact ⟨c, rfl, h.2 c List.mem_cons_self⟩

theorem exponentSign_complete {u d : List UInt8} (pos : Nat) (s : Own)
    (hu : u = [] ∨ u = [0x2b] ∨ u = [0x2d]) (hd : Digits d) (rest : List UInt8) :
    exponentSign ⟨u ++ (d ++ rest), pos, s⟩ = after pos s u (d ++ rest) := by
  unfold exponentSign
  rcases hu with rfl | rfl | rfl
  · obtain ⟨c, hc, hdigit⟩ := digits_head hd rest
    rw [if_neg]
    · rfl
    rw [nil_append, hc]
    rintro (heq | heq) <;> obtain rfl := some.inj heq <;> cases hdigit
  · rfl
  · rfl

theorem exponent_sound (h : exponent x = .ok (there, y)) : ∃ t, Takes x y t ∧ Exponent there t := by
  unfold exponent at h
  split at h
  next hlet =>
    obtain ⟨y', hy', h⟩ := bind_ok h
    cases Except.ok.inj h
    obtain ⟨u, hu, hsign⟩ := exponentSign_sound (x.advance 1)
    obtain ⟨d, htakes, hdig⟩ := digits_sound hy'
    rcases hlet with he | he
    · exact ⟨_, (Takes.one he).then (hu.then htakes),
        .inr ⟨rfl, _, u, d, .inl rfl, hsign, rfl, hdig⟩⟩
    exact ⟨_, (Takes.one he).then (hu.then htakes), .inr ⟨rfl, _, u, d, .inr rfl, hsign, rfl, hdig⟩⟩
  cases Except.ok.inj h
  exact ⟨[], .none x, .inl ⟨rfl, rfl⟩⟩

theorem exponent_complete (pos : Nat) (s : Own) (h : Exponent there t)
    (hrest : Scan.Stops isDigit rest) (hlet : rest.head? ≠ some 0x65 ∧ rest.head? ≠ some 0x45) :
    exponent ⟨t ++ rest, pos, s⟩ = .ok (there, after pos s t rest) := by
  unfold exponent
  rcases h with ⟨rfl, rfl⟩ | ⟨rfl, e, u, d, he, hu, rfl, hdig⟩
  · rw [nil_append, if_neg (not_or.mpr hlet)]
    rfl
  have hpos : (e :: u ++ d ++ rest).head? = some 0x65 ∨
      (e :: u ++ d ++ rest).head? = some 0x45 := by
    rcases he with rfl | rfl
    · exact .inl rfl
    · exact .inr rfl
  rw [if_pos hpos]
  show (do return (true, ← digits (exponentSign ⟨u ++ d ++ rest, pos + 1, s⟩))) = _
  rw [append_assoc, exponentSign_complete (pos + 1) s hu hdig]
  show (do return (true, ← digits ⟨d ++ rest, pos + 1 + u.length, s⟩)) = _
  rw [digits_complete _ s hdig hrest, after_append]
  show Except.ok (true, _) = Except.ok (true, _)
  congr 2
  simp only [after, length_append, length_cons]
  congr 1
  omega

def Ends (rest : List UInt8) : Prop :=
  ∀ b, rest.head? = some b → isDigit b = false ∧ b ≠ 0x2e ∧ b ≠ 0x65 ∧ b ≠ 0x45

theorem Ends.digit (h : Ends rest) : Scan.Stops isDigit rest := fun b hb => (h b hb).1

theorem Ends.letter (h : Ends rest) : rest.head? ≠ some 0x65 ∧ rest.head? ≠ some 0x45 :=
  ⟨fun hb => (h _ hb).2.2.1 rfl, fun hb => (h _ hb).2.2.2 rfl⟩

theorem Exponent.ends (h : Exponent there t) (hrest : Ends rest) :
    Scan.Stops isDigit (t ++ rest) ∧ (t ++ rest).head? ≠ some 0x2e := by
  rcases h with ⟨-, rfl⟩ | ⟨-, e, u, d, he, -, rfl, -⟩
  · exact ⟨hrest.digit, fun hb => (hrest _ hb).2.1 rfl⟩
  constructor
  · intro b hb
    cases hb
    rcases he with rfl | rfl <;> rfl
  intro hb
  cases hb
  rcases he with he | he <;> cases he

theorem Fraction.ends {tail : List UInt8} (h : Fraction there t)
    (htail : Scan.Stops isDigit tail) : Scan.Stops isDigit (t ++ tail) := by
  rcases h with ⟨-, rfl⟩ | ⟨-, d, rfl, -⟩
  · exact htail
  intro b hb
  cases hb
  rfl

theorem Whole.head (h : Whole t) (rest : List UInt8) :
    ∃ c, (t ++ rest).head? = some c ∧ isDigit c = true := by
  rcases h with rfl | ⟨hdig, -⟩
  · exact ⟨0x30, rfl, rfl⟩
  · exact digits_head hdig rest

theorem sign_complete {u : List UInt8} (pos : Nat) (s : Own) (hu : u = [] ∨ u = [0x2d])
    (ht : Whole t) (rest : List UInt8) :
    sign ⟨u ++ (t ++ rest), pos, s⟩ = after pos s u (t ++ rest) := by
  unfold sign
  rcases hu with rfl | rfl
  · obtain ⟨c, hc, hdigit⟩ := ht.head rest
    rw [if_neg]
    · rfl
    rw [nil_append, hc]
    intro heq
    cases heq
    cases hdigit
  · rfl

end Numbers

/-! ## Texts added -/

section Texts

variable {limits : Limits} {x y : Cursor Own} {bytes : List UInt8}

theorem appendText_sound (h : appendText limits bytes x = .ok y)
    (hfits : x.own.text.length ≤ limits.maxStringBytes) :
    y = { x with own := x.own.addText bytes } ∧
      x.own.text.length + bytes.length ≤ limits.maxStringBytes := by
  unfold appendText at h
  split at h
  · cases h
  rename_i hroom
  cases h
  exact ⟨rfl, by omega⟩

theorem appendText_complete (h : x.own.text.length + bytes.length ≤ limits.maxStringBytes) :
    appendText limits bytes x = .ok { x with own := x.own.addText bytes } := by
  unfold appendText
  rw [if_neg (by omega)]

end Texts

section ParseNumber

variable {limits : Limits} {x y : Cursor Own} {raw rest : List UInt8} {node : Node} {integer : Bool}

theorem parseNumber_sound (h : parseNumber limits x = .ok (node, y))
    (hfits : x.own.text.length ≤ limits.maxStringBytes) :
    ∃ raw integer, x.rest = raw ++ y.rest ∧ y.pos = x.pos + raw.length ∧ NumberText raw integer ∧
      node = x.own.textNode .kNumber integer raw.length ∧ y.own = x.own.addText raw ∧
      x.own.text.length + raw.length ≤ limits.maxStringBytes := by
  obtain ⟨y1, hy1, h⟩ := bind_ok h
  obtain ⟨⟨fractional, y2⟩, hy2, h⟩ := bind_ok h
  obtain ⟨⟨exponential, y3⟩, hy3, h⟩ := bind_ok h
  obtain ⟨y4, hy4, h⟩ := bind_ok h
  cases Except.ok.inj h
  obtain ⟨minus, hminus, hsign⟩ := sign_sound x
  obtain ⟨int, hint, hwhole⟩ := whole_sound hy1
  obtain ⟨frac, hfrac, hfract⟩ := fraction_sound hy2
  obtain ⟨exp, hexp, hexponent⟩ := exponent_sound hy3
  have htakes := ((hminus.then hint).then hfrac).then hexp
  have hlen : y3.pos - x.pos = (minus ++ int ++ frac ++ exp).length := by
    rw [htakes.pos]
    omega
  have htake : x.rest.take (y3.pos - x.pos) = minus ++ int ++ frac ++ exp := by
    rw [hlen, htakes.rest, take_left]
  rw [htake] at hy4
  obtain ⟨rfl, hroom⟩ := appendText_sound hy4 (by rw [htakes.own]; exact hfits)
  refine ⟨_, !fractional && !exponential, htakes.rest, htakes.pos,
    ⟨minus, int, frac, exp, _, _, hsign, hwhole, hfract, hexponent, rfl, rfl⟩, ?_, ?_, ?_⟩
  · rw [hlen, htakes.own]
  · show y3.own.addText _ = _
    rw [htakes.own]
  rw [htakes.own] at hroom
  exact hroom

theorem parseNumber_complete {s : Own} (pos : Nat) (h : NumberText raw integer) (hrest : Ends rest)
    (hroom : s.text.length + raw.length ≤ limits.maxStringBytes) :
    parseNumber limits ⟨raw ++ rest, pos, s⟩ =
      .ok (s.textNode .kNumber integer raw.length, after pos (s.addText raw) raw rest) := by
  obtain ⟨minus, int, frac, exp, fractional, exponential, hsign, hwhole, hfrac, hexponent, rfl,
    rfl⟩ := h
  obtain ⟨hdigit, hdot⟩ := hexponent.ends hrest
  have htext : minus ++ int ++ frac ++ exp ++ rest = minus ++ (int ++ (frac ++ (exp ++ rest))) := by
    simp
  unfold parseNumber
  rw [htext, sign_complete pos s hsign hwhole]
  unfold after
  rw [whole_complete _ s hwhole (hfrac.ends hdigit), ok_bind]
  unfold after
  rw [fraction_complete _ s hfrac hdigit hdot, ok_bind]
  unfold after
  simp only
  rw [exponent_complete _ s hexponent hrest.digit hrest.letter, ok_bind]
  unfold after
  have hlen : pos + minus.length + int.length + frac.length + exp.length - pos =
      (minus ++ int ++ frac ++ exp).length := by
    simp only [length_append]
    omega
  have hpos : pos + minus.length + int.length + frac.length + exp.length =
      pos + (minus ++ int ++ frac ++ exp).length := by omega
  have htake : (minus ++ (int ++ (frac ++ (exp ++ rest)))).take
      (minus ++ int ++ frac ++ exp).length = minus ++ int ++ frac ++ exp := by
    rw [← htext, take_left]
  simp only [hlen, htake]
  rw [appendText_complete hroom, ok_bind, hpos]
  rfl

end ParseNumber

/-! ## Escapes, read -/

section Escapes

variable {x y : Cursor Own} {h rest piece : List UInt8} {u cp : Nat} {c : UInt8}

theorem or_low (i : Nat) {a b : Nat} (hb : b < 2 ^ i) : 2 ^ i * a ||| b = 2 ^ i * a + b :=
  (Nat.two_pow_add_eq_or_of_lt hb a).symm

theorem or_cont (n : Nat) : 0x80 ||| (n &&& 0x3F) = 0x80 + n % 64 := by
  rw [show 0x3F = 2 ^ 6 - 1 from rfl, Nat.and_two_pow_sub_one_eq_mod]
  exact or_low 7 (a := 1) (Nat.lt_of_lt_of_le (Nat.mod_lt _ (by decide)) (by decide))

theorem utf8Of_eq (hcp : cp < 0x110000) : utf8Of cp = Utf8.encode cp := by
  unfold utf8Of Utf8.encode
  simp only [or_cont, Nat.shiftRight_eq_div_pow, Nat.reducePow]
  split
  · rfl
  split
  · rw [show 0xC0 ||| cp / 64 = 0xC0 + cp / 64 from or_low 6 (a := 3) (by omega)]
  split
  · rw [show 0xE0 ||| cp / 4096 = 0xE0 + cp / 4096 from or_low 5 (a := 7) (by omega)]
  · rw [show 0xF0 ||| cp / 262144 = 0xF0 + cp / 262144 from or_low 4 (a := 15) (by omega)]

theorem hexValue_lt (h : hexValue c = some u) : u < 16 ∧ c.toNat < 0x80 := by
  unfold hexValue at h
  split at h
  · cases h
    omega
  split at h
  · cases h
    omega
  split at h
  · cases h
    omega
  · cases h

theorem hexUnit_spec (hu : hexUnit h = some u) :
    h.length = 4 ∧ u < 0x10000 ∧ ∀ b ∈ h, b.toNat < 0x80 := by
  unfold hexUnit at hu
  split at hu
  next a b c d =>
    simp only [bind_eq_bind, pure_def, bind_eq_some_iff, some.injEq] at hu
    obtain ⟨va, ha, vb, hb, vc, hc, vd, hd, rfl⟩ := hu
    have := hexValue_lt ha
    have := hexValue_lt hb
    have := hexValue_lt hc
    have := hexValue_lt hd
    refine ⟨rfl, by omega, fun y hy => ?_⟩
    simp only [List.mem_cons, List.not_mem_nil, or_false] at hy
    rcases hy with rfl | rfl | rfl | rfl <;> omega
  · cases hu

theorem hex4_sound (hx : hex4 x = some (u, y)) : ∃ h, Takes x y h ∧ hexUnit h = some u := by
  unfold hex4 at hx
  split at hx
  next value hvalue =>
    cases some.inj hx
    have hlen := (hexUnit_spec hvalue).1
    refine ⟨_, ⟨(List.take_append_drop 4 x.rest).symm, ?_, rfl⟩, hvalue⟩
    rw [hlen]
    rfl
  · cases hx

theorem hex4_complete (pos : Nat) (s : Own) (rest : List UInt8) (hu : hexUnit h = some u) :
    hex4 ⟨h ++ rest, pos, s⟩ = some (u, after pos s h rest) := by
  have hlen := (hexUnit_spec hu).1
  unfold hex4
  simp only [← hlen, take_left, hu]
  simp only [Cursor.advance, List.drop_left, after]

theorem Takes.two {x : Cursor Own} {w : List UInt8} (h : w.isPrefixOf x.rest = true) :
    Takes x (x.advance w.length) w := by
  obtain ⟨rest, hrest⟩ := List.isPrefixOf_iff_prefix.mp h
  exact ⟨by simp [Cursor.advance, ← hrest], rfl, rfl⟩

def Escapes (t piece : List UInt8) : Prop :=
  ∀ {t' bytes}, Chars t' bytes → Chars (0x5c :: (t ++ t')) (piece ++ bytes)

theorem lowSurrogate_sound (hu : hexUnit h = some u) (hhigh : 0xD800 ≤ u ∧ u ≤ 0xDBFF)
    (hx : lowSurrogate u x = .ok (piece, y)) :
    ∃ t, Takes x y t ∧ Escapes (0x75 :: (h ++ t)) piece := by
  unfold lowSurrogate at hx
  obtain ⟨hlead, hx⟩ := then_ok hx
  split at hx
  · cases hx
  rename_i low y' hy'
  split at hx
  · cases hx
  rename_i hlow
  obtain ⟨rfl, rfl⟩ := Prod.mk.inj (Except.ok.inj hx)
  obtain ⟨h', htakes, hu'⟩ := hex4_sound hy'
  refine ⟨_, (Takes.two hlead).then htakes, fun {t' bytes} hchars => ?_⟩
  rw [Nat.shiftLeft_eq, utf8Of_eq (by omega)]
  have := Chars.pair hu hhigh hu' (by omega) hchars
  simpa using this

theorem unicodeEscape_sound (hx : unicodeEscape x = .ok (piece, y)) :
    ∃ t, Takes x y t ∧ Escapes (0x75 :: t) piece := by
  unfold unicodeEscape at hx
  split at hx
  · cases hx
  rename_i unit y' hy'
  obtain ⟨h, htakes, hu⟩ := hex4_sound hy'
  have hlt := (hexUnit_spec hu).2.1
  split at hx
  · cases hx
  rename_i hlow
  split at hx
  next hhigh =>
    obtain ⟨t, htakes', hesc⟩ := lowSurrogate_sound hu hhigh hx
    exact ⟨_, htakes.then htakes', hesc⟩
  rename_i hhigh
  cases Except.ok.inj hx
  refine ⟨h, htakes, fun {t' bytes} hchars => ?_⟩
  rw [utf8Of_eq (by omega)]
  exact Chars.unit hu (by omega) hchars

theorem escape_sound (hx : escape x = .ok (piece, y)) : ∃ t, Takes x y t ∧ Escapes t piece := by
  unfold escape at hx
  split at hx
  · cases hx
  rename_i e tail hrest
  have hone : Takes x (x.advance 1) [e] := Takes.one (by rw [hrest]; rfl)
  split at hx
  next c hshort =>
    cases Except.ok.inj hx
    exact ⟨_, hone, fun hchars => Chars.short hshort hchars⟩
  obtain ⟨hlet, hx⟩ := then_ok hx
  subst hlet
  obtain ⟨t, htakes, hesc⟩ := unicodeEscape_sound hx
  exact ⟨_, hone.then htakes, hesc⟩

/-! ### All of them -/

variable (pos : Nat) (s : Own) (rest : List UInt8)

theorem escape_short {e : UInt8} (h : shortEscape e = some c) :
    escape ⟨e :: rest, pos, s⟩ = .ok ([c], ⟨rest, pos + 1, s⟩) := by
  simp only [escape, h]
  rfl

theorem escape_letter : escape ⟨0x75 :: rest, pos, s⟩ = unicodeEscape ⟨rest, pos + 1, s⟩ := rfl

theorem escape_unit (hu : hexUnit h = some u) (hnot : ¬ (0xD800 ≤ u ∧ u ≤ 0xDFFF)) :
    escape ⟨0x75 :: (h ++ rest), pos, s⟩ = .ok (Utf8.encode u, after (pos + 1) s h rest) := by
  have hlt := (hexUnit_spec hu).2.1
  rw [escape_letter, unicodeEscape, hex4_complete (pos + 1) s rest hu]
  simp only
  rw [if_neg (by omega), if_neg (by omega), utf8Of_eq (by omega)]

theorem escape_pair {h' : List UInt8} {u' : Nat} (hu : hexUnit h = some u)
    (hhigh : 0xD800 ≤ u ∧ u ≤ 0xDBFF) (hu' : hexUnit h' = some u')
    (hlow : 0xDC00 ≤ u' ∧ u' ≤ 0xDFFF) :
    escape ⟨0x75 :: (h ++ 0x5c :: 0x75 :: (h' ++ rest)), pos, s⟩ =
      .ok (Utf8.encode (0x10000 + (u - 0xD800) * 1024 + (u' - 0xDC00)),
        after (pos + 1 + h.length + 2) s h' rest) := by
  rw [escape_letter, unicodeEscape, hex4_complete (pos + 1) s _ hu]
  simp only
  rw [if_neg (by omega), if_pos hhigh]
  unfold lowSurrogate after
  have hlead : [0x5c, 0x75].isPrefixOf (0x5c :: 0x75 :: (h' ++ rest)) = true := rfl
  have hskip : (⟨0x5c :: 0x75 :: (h' ++ rest), pos + 1 + h.length, s⟩ : Cursor Own).advance 2 =
      ⟨h' ++ rest, pos + 1 + h.length + 2, s⟩ := rfl
  rw [if_pos hlead, hskip, hex4_complete _ s rest hu']
  simp only
  rw [if_neg (by omega), Nat.shiftLeft_eq, utf8Of_eq (by omega)]
  rfl

end Escapes

/-! ## Strings, read -/

section Strings

variable {limits : Limits} {x y : Cursor Own} {scratch bytes body rest t : List UInt8} {node : Node}

theorem Chars.run {w : List UInt8} (hw : ∀ b ∈ w, isPlain b = true) (h : Chars t bytes) :
    Chars (w ++ t) (w ++ bytes) := by
  induction w with
  | nil => exact h
  | cons c w ih =>
    exact .plain (hw c List.mem_cons_self) (ih fun b hb => hw b (List.mem_cons_of_mem _ hb))

theorem stringLoop_sound (n : Nat) : ∀ {scratch : List UInt8} {x : Cursor Own},
    stringLoop n scratch x = .ok (bytes, y) →
    ∃ body b, Takes x y (body ++ [0x22]) ∧ bytes = scratch ++ b ∧ Chars body b := by
  induction n with
  | zero =>
    intro scratch x h
    cases h
  | succ n ih =>
    intro scratch x h
    unfold stringLoop at h
    have hskip := Takes.skip isPlain x
    have hplain : ∀ b ∈ x.rest.takeWhile isPlain, isPlain b = true :=
      fun b hb => List.mem_takeWhile_imp hb
    simp only at h
    split at h
    · cases h
    rename_i c tail hrest
    have hone := Takes.one (x := x.skipWhile isPlain fun _ s => s) (c := c) (by rw [hrest]; rfl)
    split at h
    next hquote =>
      subst hquote
      cases Except.ok.inj h
      refine ⟨_, _, hskip.then hone, rfl, ?_⟩
      have := Chars.nil.run hplain
      simpa using this
    split at h
    · cases h
    rename_i hslash
    have hslash : c = 0x5c := Decidable.not_not.mp hslash
    subst hslash
    obtain ⟨⟨piece, y'⟩, hpiece, h⟩ := bind_ok h
    obtain ⟨t, htakes, hesc⟩ := escape_sound hpiece
    obtain ⟨body, b, htakes', hbytes, hchars⟩ := ih h
    refine ⟨x.rest.takeWhile isPlain ++ 0x5c :: (t ++ body),
      x.rest.takeWhile isPlain ++ (piece ++ b), ?_, ?_, (hesc hchars).run hplain⟩
    · have := ((hskip.then hone).then htakes).then htakes'
      simpa using this
    rw [hbytes]
    simp

theorem stringLoop_plain {c : UInt8} (hc : isPlain c = true) (n : Nat) (scratch rest : List UInt8)
    (pos : Nat) (s : Own) : stringLoop (n + 1) scratch ⟨c :: rest, pos, s⟩ =
      stringLoop (n + 1) (scratch ++ [c]) ⟨rest, pos + 1, s⟩ := by
  have hskip : (⟨c :: rest, pos, s⟩ : Cursor Own).skipWhile isPlain (fun _ s => s) =
      (⟨rest, pos + 1, s⟩ : Cursor Own).skipWhile isPlain fun _ s => s := by
    simp only [Cursor.skipWhile, List.dropWhile_cons, List.takeWhile_cons, hc, if_true,
      length_cons, Cursor.mk.injEq, and_true, true_and]
    omega
  have htake : scratch ++ (c :: rest).takeWhile isPlain =
      scratch ++ [c] ++ rest.takeWhile isPlain := by
    simp [hc]
  unfold stringLoop
  simp only [hskip, htake]

theorem skip_special {c : UInt8} (hc : isPlain c = false) (rest : List UInt8) (pos : Nat)
    (s : Own) : (⟨c :: rest, pos, s⟩ : Cursor Own).skipWhile isPlain (fun _ s => s) =
      ⟨c :: rest, pos, s⟩ := by
  simp [Cursor.skipWhile, hc]

theorem stringLoop_quote (n : Nat) (scratch rest : List UInt8) (pos : Nat) (s : Own) :
    stringLoop (n + 1) scratch ⟨0x22 :: rest, pos, s⟩ = .ok (scratch, ⟨rest, pos + 1, s⟩) := by
  unfold stringLoop
  rw [skip_special rfl]
  simp [isPlain, Cursor.advance]

theorem stringLoop_escape (n : Nat) (scratch rest : List UInt8) (pos : Nat) (s : Own) :
    stringLoop (n + 1) scratch ⟨0x5c :: rest, pos, s⟩ =
      escape ⟨rest, pos + 1, s⟩ >>= fun y => stringLoop n (scratch ++ y.1) y.2 := by
  conv_lhs => unfold stringLoop
  rw [skip_special rfl]
  simp [isPlain, Cursor.advance]

theorem stringLoop_complete (h : Chars body bytes) : ∀ (n : Nat) (scratch rest : List UInt8)
    (pos : Nat) (s : Own), body.length < n → stringLoop n scratch ⟨body ++ 0x22 :: rest, pos, s⟩ =
      .ok (scratch ++ bytes, after pos s (body ++ [0x22]) rest) := by
  induction h with
  | nil =>
    intro n scratch rest pos s hn
    obtain ⟨n, rfl⟩ := Nat.exists_eq_succ_of_ne_zero (Nat.ne_zero_of_lt hn)
    rw [nil_append, stringLoop_quote, List.append_nil]
    rfl
  | plain hc _ ih =>
    intro n scratch rest pos s hn
    obtain ⟨n, rfl⟩ := Nat.exists_eq_succ_of_ne_zero (Nat.ne_zero_of_lt hn)
    rw [cons_append, stringLoop_plain hc, ih _ _ _ _ _ (Nat.lt_of_succ_lt hn)]
    simp only [after, append_assoc, cons_append, nil_append, length_cons]
    congr 3
    omega
  | short hshort _ ih =>
    intro n scratch rest pos s hn
    obtain ⟨n, rfl⟩ := Nat.exists_eq_succ_of_ne_zero (Nat.ne_zero_of_lt hn)
    simp only [length_cons] at hn
    rw [cons_append, cons_append, stringLoop_escape, escape_short _ _ _ hshort, ok_bind]
    simp only
    rw [ih n _ _ _ _ (by omega)]
    simp only [after, append_assoc, cons_append, nil_append, length_cons]
    congr 3
    omega
  | unit hu hnot _ ih =>
    intro n scratch rest pos s hn
    obtain ⟨n, rfl⟩ := Nat.exists_eq_succ_of_ne_zero (Nat.ne_zero_of_lt hn)
    simp only [length_cons, length_append] at hn
    rw [cons_append, cons_append, append_assoc, stringLoop_escape,
      escape_unit _ _ _ hu hnot, ok_bind]
    simp only [after]
    rw [ih n _ _ _ _ (by omega)]
    simp only [after, append_assoc, cons_append, length_cons, length_append]
    congr 3
    omega
  | pair hu hhigh hu' hlow _ ih =>
    intro n scratch rest pos s hn
    obtain ⟨n, rfl⟩ := Nat.exists_eq_succ_of_ne_zero (Nat.ne_zero_of_lt hn)
    simp only [length_cons, length_append] at hn
    simp only [cons_append, append_assoc]
    rw [stringLoop_escape, escape_pair _ _ _ hu hhigh hu' hlow, ok_bind]
    simp only [after]
    rw [ih n _ _ _ _ (by omega)]
    simp only [after, append_assoc, length_cons, length_append]
    congr 3
    omega

theorem parseString_sound (hquote : x.rest.head? = some 0x22)
    (h : parseString limits x = .ok (node, y)) (hfits : x.own.text.length ≤ limits.maxStringBytes) :
    ∃ bytes t, x.rest = t ++ y.rest ∧ y.pos = x.pos + t.length ∧ Quoted bytes t ∧
      node = x.own.textNode .kString false bytes.length ∧ y.own = x.own.addText bytes ∧
      x.own.text.length + bytes.length ≤ limits.maxStringBytes := by
  obtain ⟨⟨scratch, y1⟩, hloop, h⟩ := bind_ok h
  obtain ⟨body, b, htakes, hscratch, hchars⟩ := stringLoop_sound _ hloop
  obtain rfl : scratch = b := hscratch
  have htakes := (Takes.one hquote).then htakes
  simp only at h
  split at h
  · cases h
  obtain ⟨y2, hy2, h⟩ := bind_ok h
  cases Except.ok.inj h
  obtain ⟨rfl, hroom⟩ := appendText_sound hy2 (by rw [htakes.own]; exact hfits)
  refine ⟨scratch, 0x22 :: body ++ [0x22], htakes.rest, htakes.pos, ⟨body, hchars, rfl⟩, ?_, ?_, ?_⟩
  · rw [htakes.own]
  · show y1.own.addText _ = _
    rw [htakes.own]
  rw [htakes.own] at hroom
  exact hroom

theorem parseString_complete {s : Own} (pos : Nat) (rest : List UInt8) (h : Quoted bytes t)
    (hroom : s.text.length + bytes.length ≤ limits.maxStringBytes)
    (hbits : limits.maxStringBytes < 2 ^ 32) : parseString limits ⟨t ++ rest, pos, s⟩ =
      .ok (s.textNode .kString false bytes.length, after pos (s.addText bytes) t rest) := by
  obtain ⟨body, hchars, rfl⟩ := h
  unfold parseString
  have htext : 0x22 :: body ++ [0x22] ++ rest = 0x22 :: (body ++ 0x22 :: rest) := by simp
  rw [htext, advance_cons, stringLoop_complete hchars _ _ _ _ _ (by
    simp only [length_cons, length_append]
    omega), ok_bind]
  simp only [nil_append]
  rw [if_neg (by omega)]
  unfold after
  rw [appendText_complete hroom, ok_bind]
  congr 2
  simp only [length_append, length_cons, Cursor.mk.injEq, true_and, and_true]
  omega

end Strings
end JitLlm.Base.Json
