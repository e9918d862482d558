import JitLlm.Artifact.Json
import Mathlib.Algebra.Group.Defs
import Mathlib.Tactic.Abel

/-!
# The texts the strict parser reads

The grammar, with what is counted of a value and whether a text is written as the canonical
encoder would: `Written n v c t`, the bytes `t` are the value `v`, nested no deeper than `n`, and
`c` says whether they are canonical. The parser reads exactly these, and adds up exactly what is
counted.
-/

namespace JitLlm.Artifact.Json

open Lib
open List (append_assoc head?_eq_some_iff length_append length_cons length_nil mem_cons_self)

/-! ## Counting -/

/-- The containers, separators and strings of a text. -/
@[ext] structure Counts where
  containers : Nat := 0
  separators : Nat := 0
  strings : Nat := 0
deriving DecidableEq

instance : Zero Counts := ⟨{}⟩

instance : Add Counts where
  add k k' := ⟨k.containers + k'.containers, k.separators + k'.separators, k.strings + k'.strings⟩

instance : AddCommMonoid Counts where
  add_assoc k k' k'' := by ext <;> exact Nat.add_assoc _ _ _
  zero_add k := by ext <;> exact Nat.zero_add _
  add_zero k := by ext <;> exact Nat.add_zero _
  add_comm k k' := by ext <;> exact Nat.add_comm _ _
  nsmul := nsmulRec

@[simp] theorem Counts.add_containers (k k' : Counts) :
    (k + k').containers = k.containers + k'.containers := rfl

@[simp] theorem Counts.add_separators (k k' : Counts) :
    (k + k').separators = k.separators + k'.separators := rfl

@[simp] theorem Counts.add_strings (k k' : Counts) :
    (k + k').strings = k.strings + k'.strings := rfl

structure Counts.Within (k : Counts) : Prop where
  containers : k.containers ≤ kMaxContainers
  separators : k.separators ≤ kMaxSeparators
  strings : k.strings ≤ kMaxStrings

theorem Counts.Within.left {k k' : Counts} (h : (k + k').Within) : k.Within :=
  ⟨Nat.le_trans (Nat.le_add_right _ _) h.containers,
    Nat.le_trans (Nat.le_add_right _ _) h.separators,
    Nat.le_trans (Nat.le_add_right _ _) h.strings⟩

def Own.counts (s : Own) : Counts := ⟨s.containers, s.separators, s.strings⟩

def Own.after (s : Own) (k : Counts) (c : Bool) : Own where
  containers := s.containers + k.containers
  separators := s.separators + k.separators
  strings := s.strings + k.strings
  canonical := s.canonical && c

@[simp] theorem Own.after_counts (s : Own) (k : Counts) (c : Bool) :
    (s.after k c).counts = s.counts + k := rfl

@[simp] theorem Own.after_canonical (s : Own) (k : Counts) (c : Bool) :
    (s.after k c).canonical = (s.canonical && c) := rfl

theorem Own.after_after (s : Own) (k k' : Counts) (c c' : Bool) :
    (s.after k c).after k' c' = s.after (k + k') (c && c') := by
  simp [Own.after, Nat.add_assoc, Bool.and_assoc]

theorem Own.after_zero (s : Own) : s.after 0 true = s :=
  congrArg (Own.mk s.containers s.separators s.strings) (Bool.and_true _)

theorem Own.blank_eq (w : List UInt8) (s : Own) : Own.blank w s = s.after 0 w.isEmpty := rfl

mutual

def Value.counts : Value → Counts
  | .null => 0
  | .boolean _ => 0
  | .integer _ _ => 0
  | .string _ => { strings := 1 }
  | .array items => { containers := 1, separators := items.length - 1 } + itemsCounts items
  | .object members => { containers := 1, separators := members.length - 1 } + membersCounts members

def itemsCounts : List Value → Counts
  | [] => 0
  | v :: rest => v.counts + itemsCounts rest

def membersCounts : List (List UInt8 × Value) → Counts
  | [] => 0
  | (_, v) :: rest => { separators := 1, strings := 1 } + v.counts + membersCounts rest

end

/-! ## Texts -/

def Blank (w : List UInt8) : Prop := ∀ b ∈ w, isSpace b = true

inductive Sep {α : Type} (P : α → Bool → List UInt8 → Prop) : List α → Bool → List UInt8 → Prop
  | last {a c t w} : P a c t → Blank w → Sep P [a] (c && w.isEmpty) (t ++ w)
  | next {a as c c' t w w' t'} : P a c t → Blank w → Blank w' → Sep P as c' t' →
      Sep P (a :: as) (c && w.isEmpty && (w'.isEmpty && c')) (t ++ w ++ 0x2c :: w' ++ t')

/-- A container's text: the opening byte, its items, the closing byte. -/
inductive Bracketed {α : Type} (openByte closeByte : UInt8) (P : α → Bool → List UInt8 → Prop) :
    List α → Bool → List UInt8 → Prop
  | empty {w} : Blank w → Bracketed openByte closeByte P [] w.isEmpty (openByte :: w ++ [closeByte])
  | items {as c w t} : Blank w → Sep P as c t →
      Bracketed openByte closeByte P as (w.isEmpty && c) (openByte :: w ++ t ++ [closeByte])

def Quoted (bytes t : List UInt8) : Prop :=
  (∀ b ∈ bytes, isPlain b = true) ∧ t = 0x22 :: bytes ++ [0x22]

/-- An integer's text: a minus or none, a zero or digits that do not begin with one, and no longer
    than the cap. -/
structure IntegerText (negative : Bool) (digits raw : List UInt8) : Prop where
  text : raw = signed negative digits
  digit : ∀ b ∈ digits, isDigit b = true
  nonempty : digits ≠ []
  leading : digits.head? = some 0x30 → digits = [0x30]
  short : raw.length ≤ kMaxIntegerChars

def MemberText (P : Value → Bool → List UInt8 → Prop) (m : List UInt8 × Value) (c : Bool)
    (t : List UInt8) : Prop :=
  ∃ w w' cv tv tk, Quoted m.1 tk ∧ Blank w ∧ Blank w' ∧ P m.2 cv tv ∧
    t = tk ++ w ++ 0x3a :: w' ++ tv ∧
    c = (!m.1.contains 0x7f && w.isEmpty && (w'.isEmpty && cv))

def Written : Nat → Value → Bool → List UInt8 → Prop
  | _, .null, c, t => c = true ∧ t = [0x6e, 0x75, 0x6c, 0x6c]
  | _, .boolean true, c, t => c = true ∧ t = [0x74, 0x72, 0x75, 0x65]
  | _, .boolean false, c, t => c = true ∧ t = [0x66, 0x61, 0x6c, 0x73, 0x65]
  | _, .integer raw value, c, t => t = raw ∧ ∃ negative digits,
      IntegerText negative digits raw ∧ value = integerOf negative digits ∧
      c = !(negative && value = some 0)
  | _, .string bytes, c, t => Quoted bytes t ∧ c = !bytes.contains 0x7f
  | 0, .array _, _, _ => False
  | n + 1, .array items, c, t => Bracketed 0x5b 0x5d (Written n) items c t
  | 0, .object _, _, _ => False
  | n + 1, .object members, c, t => (members.map Prod.fst).Nodup ∧
      ∃ c', Bracketed 0x7b 0x7d (MemberText (Written n)) members c' t ∧
        c = (c' && ascending (members.map Prod.fst))

/-! ## Scalars -/

section Scalars

/-- What a scanner of texts does: `P` says which, with whether they are canonical, and `size` what
    is counted. -/
def Reading {α : Type} (P : α → Bool → List UInt8 → Prop) (size : α → Counts) (a : α)
    (s s' : Own) (t : List UInt8) : Prop :=
  ∃ c, P a c t ∧ (s.counts + size a).Within ∧ s' = s.after (size a) c

def Ends (rest : List UInt8) : Prop :=
  (rest.head?.any fun c => c = 0x2e || c = 0x65 || c = 0x45 || isDigit c) = false

variable {x x' : Cursor Own} {bytes digits raw on : List UInt8} {negative : Bool}

theorem parseString_sound
    (hquote : x.rest.head? = some 0x22) (h : parseString x = .ok (bytes, x')) :
    ∃ t, x.rest = t ++ x'.rest ∧ x'.pos = x.pos + t.length ∧ Quoted bytes t ∧
      x.own.strings + 1 ≤ kMaxStrings ∧
      x'.own = x.own.after { strings := 1 } (!bytes.contains 0x7f) := by
  obtain ⟨rest, hrest⟩ := head?_eq_some_iff.mp hquote
  unfold parseString at h
  simp only [hrest, List.drop_one, List.tail_cons] at h
  have hsplit : rest.takeWhile isPlain ++ rest.dropWhile isPlain = rest :=
    List.takeWhile_append_dropWhile
  split at h
  · cases h
  rename_i c rest' hdrop
  split at h
  next hc =>
    split at h
    · cases h
    rename_i hcap
    cases Except.ok.inj h
    refine ⟨0x22 :: rest.takeWhile isPlain ++ [0x22], ?_, ?_,
      ⟨fun b hb => List.mem_takeWhile_imp hb, rfl⟩, Nat.not_lt.mp hcap, rfl⟩
    · have hbody : rest = rest.takeWhile isPlain ++ 0x22 :: rest' := by
        rw [← hc, ← hdrop, hsplit]
      rw [hrest]
      simpa using hbody
    simp only [length_append, length_cons, length_nil]
    omega
  · split at h <;> cases h

theorem parseString_complete {t : List UInt8} (rest : List UInt8) (s : Own) (pos : Nat)
    (hquoted : Quoted bytes t) (hcap : s.strings + 1 ≤ kMaxStrings) :
    parseString ⟨t ++ rest, pos, s⟩ =
      .ok (bytes, ⟨rest, pos + t.length, s.after { strings := 1 } (!bytes.contains 0x7f)⟩) := by
  obtain ⟨hplain, rfl⟩ := hquoted
  have htake : (bytes ++ 0x22 :: rest).takeWhile isPlain = bytes := by
    rw [List.takeWhile_append_of_pos hplain]
    simp [isPlain]
  have hdrop : (bytes ++ 0x22 :: rest).dropWhile isPlain = 0x22 :: rest := by
    rw [List.dropWhile_append_of_pos hplain]
    simp [isPlain]
  have hbody : ((0x22 :: bytes ++ [0x22]) ++ rest).drop 1 = bytes ++ 0x22 :: rest := by simp
  have hlen : pos + 1 + bytes.length + 1 = pos + (0x22 :: bytes ++ [0x22]).length := by
    simp only [length_append, length_cons, length_nil]
    omega
  simp only [parseString, hbody, htake, hdrop, if_true, if_neg (Nat.not_lt.mpr hcap), hlen]
  rfl

theorem leadingDigits_append (on : List UInt8) :
    leadingDigits on ++ on.drop (leadingDigits on).length = on := by
  unfold leadingDigits
  split
  next hzero =>
    obtain ⟨rest, rfl⟩ := head?_eq_some_iff.mp hzero
    rfl
  have hsplit : on.takeWhile isDigit ++ on.dropWhile isDigit = on := List.takeWhile_append_dropWhile
  have hdrop : (on.takeWhile isDigit ++ on.dropWhile isDigit).drop
      (on.takeWhile isDigit).length = on.dropWhile isDigit := List.drop_left
  rw [hsplit] at hdrop
  rw [hdrop, hsplit]

theorem leadingDigits_digit {b : UInt8} (hb : b ∈ leadingDigits on) : isDigit b = true := by
  unfold leadingDigits at hb
  split at hb
  · rw [List.mem_singleton.mp hb]
    rfl
  · exact List.mem_takeWhile_imp hb

theorem leadingDigits_ne_nil (h : on.head?.any isDigit = true) : leadingDigits on ≠ [] := by
  rcases on with _ | ⟨d, _⟩
  · cases h
  have hd : isDigit d = true := h
  unfold leadingDigits
  split
  · simp
  · simp [hd]

theorem leadingDigits_leading (h : (leadingDigits on).head? = some 0x30) :
    leadingDigits on = [0x30] := by
  unfold leadingDigits at h ⊢
  split
  · rfl
  rename_i hnot
  rw [if_neg hnot] at h
  rcases on with _ | _
  · cases h
  rw [List.takeWhile_cons] at h
  split at h
  · exact absurd h hnot
  · cases h

theorem leadingDigits_eq {rest : List UInt8} (hdigit : ∀ b ∈ digits, isDigit b = true)
    (hne : digits ≠ []) (hlead : digits.head? = some 0x30 → digits = [0x30])
    (hends : Ends rest) : leadingDigits (digits ++ rest) = digits := by
  obtain ⟨d, tail, rfl⟩ := List.exists_cons_of_ne_nil hne
  unfold leadingDigits
  split
  next hzero =>
    exact (hlead hzero).symm
  rw [List.takeWhile_append_of_pos hdigit]
  rcases rest with _ | ⟨b, _⟩
  · simp
  have hb : isDigit b = false := by
    have := hends
    simp only [Ends, List.head?_cons, Option.any_some, Bool.or_eq_false_iff] at this
    exact this.2
  simp [hb]

theorem parseDigits_sound {v : Value} (negative : Bool) (hon : x.rest = signed negative on)
    (h : parseDigits negative on x = .ok (v, x')) :
    ∃ raw value, v = .integer raw value ∧ x.rest = raw ++ x'.rest ∧
      x'.pos = x.pos + raw.length ∧ ∃ digits, IntegerText negative digits raw ∧
        value = integerOf negative digits ∧
        x'.own = x.own.after 0 (!(negative && value = some 0)) := by
  unfold parseDigits at h
  simp only at h
  split at h
  · cases h
  rename_i hdigit
  have hdigit : on.head?.any isDigit = true := by simpa using hdigit
  split at h
  · cases h
  split at h
  · cases h
  rename_i hcap
  cases Except.ok.inj h
  refine ⟨_, _, rfl, ?_, rfl, leadingDigits on, ⟨rfl, fun b hb => leadingDigits_digit hb,
    leadingDigits_ne_nil hdigit, leadingDigits_leading, Nat.not_lt.mp hcap⟩, rfl, rfl⟩
  rw [hon]
  have happ := leadingDigits_append on
  cases negative with
  | true => exact (congrArg (0x2d :: ·) happ).symm
  | false => exact happ.symm

theorem parseInteger_sound {v : Value} (h : parseInteger x = .ok (v, x')) :
    ∃ raw value, v = .integer raw value ∧ x.rest = raw ++ x'.rest ∧
      x'.pos = x.pos + raw.length ∧ ∃ negative digits, IntegerText negative digits raw ∧
        value = integerOf negative digits ∧
        x'.own = x.own.after 0 (!(negative && value = some 0)) := by
  unfold parseInteger at h
  split at h
  next hminus =>
    obtain ⟨rest, hrest⟩ := head?_eq_some_iff.mp hminus
    rw [hrest] at h
    obtain ⟨raw, value, hv, htext, hpos, digits, hint⟩ := parseDigits_sound true hrest h
    exact ⟨raw, value, hv, htext, hpos, true, digits, hint⟩
  obtain ⟨raw, value, hv, htext, hpos, digits, hint⟩ := parseDigits_sound false rfl h
  exact ⟨raw, value, hv, htext, hpos, false, digits, hint⟩

theorem parseDigits_complete {rest : List UInt8} {x : Cursor Own}
    (hint : IntegerText negative digits raw) (hends : Ends rest) :
    parseDigits negative (digits ++ rest) x =
      .ok (.integer raw (integerOf negative digits), ⟨rest, x.pos + raw.length,
        x.own.after 0 (!(negative && integerOf negative digits = some 0))⟩) := by
  have htaken := leadingDigits_eq hint.digit hint.nonempty hint.leading hends
  have hfirst : (digits ++ rest).head?.any isDigit = true := by
    obtain ⟨d, tail, rfl⟩ := List.exists_cons_of_ne_nil hint.nonempty
    exact hint.digit d mem_cons_self
  have hafter : (digits ++ rest).drop digits.length = rest := by simp
  have hcap : ¬ (signed negative digits).length > kMaxIntegerChars :=
    Nat.not_lt.mpr (hint.text ▸ hint.short)
  unfold parseDigits
  simp only [hfirst, htaken, hafter]
  rw [if_neg (by simp), if_neg (by simpa [Ends] using hends), if_neg hcap, hint.text]
  rfl

theorem parseInteger_complete {rest : List UInt8} {s : Own}
    (pos : Nat) (hint : IntegerText negative digits raw) (hends : Ends rest) :
    parseInteger ⟨raw ++ rest, pos, s⟩ =
      .ok (.integer raw (integerOf negative digits), ⟨rest, pos + raw.length,
        s.after 0 (!(negative && integerOf negative digits = some 0))⟩) := by
  unfold parseInteger
  cases negative with
  | true =>
    have htext : raw = 0x2d :: digits := hint.text
    have hparse := parseDigits_complete (x := ⟨raw ++ rest, pos, s⟩) hint hends
    simpa [htext] using hparse
  | false =>
    have htext : raw = digits := hint.text
    have hparse := parseDigits_complete (x := ⟨raw ++ rest, pos, s⟩) hint hends
    rw [if_neg]
    · simpa [htext] using hparse
    obtain ⟨d, tail, rfl⟩ := List.exists_cons_of_ne_nil hint.nonempty
    intro hminus
    have hd := hint.digit d mem_cons_self
    rw [htext] at hminus
    obtain rfl : d = 0x2d := by simpa using hminus
    cases hd

end Scalars

/-! ## Lists -/

section Lists

variable {α : Type} {P : α → Bool → List UInt8 → Prop} {size : α → Counts} {as : List α}
    {q : Parser α} {stuck : Cursor Own → Error} {b close first : UInt8}
  {s s' : Own} {t : List UInt8}

def sizes (size : α → Counts) : List α → Counts
  | [] => 0
  | [a] => size a
  | a :: rest => size a + { separators := 1 } + sizes size rest

def Comma (s s' : Own) (u : List UInt8) : Prop :=
  ∃ w, u = 0x2c :: w ∧ Blank w ∧ s.separators + 1 ≤ kMaxSeparators ∧
    s' = s.after { separators := 1 } w.isEmpty

theorem Sep.ne_nil {c : Bool} (h : Sep P as c t) : as ≠ [] := by
  cases h <;> simp

theorem sizes_cons (a : α) (h : as ≠ []) :
    sizes size (a :: as) = size a + { separators := 1 } + sizes size as := by
  obtain ⟨b, rest, rfl⟩ := List.exists_cons_of_ne_nil h
  rfl

theorem listed_iff_sep :
    Scan.Listed (Reading P size) (Scan.Skipped isSpace Own.blank) Comma as s s' t ↔
      Reading (Sep P) (sizes size) as s s' t := by
  constructor
  · intro h
    induction h with
    | last hR hW =>
      obtain ⟨c, hP, hwit, rfl⟩ := hR
      obtain ⟨hblank, rfl⟩ := hW
      refine ⟨_, .last hP hblank, hwit, ?_⟩
      rw [Own.blank_eq, Own.after_after, add_zero]
      rfl
    | next hR hW hC _ ih =>
      obtain ⟨c, hP, -, rfl⟩ := hR
      obtain ⟨hblank, rfl⟩ := hW
      obtain ⟨w', rfl, hblank', -, rfl⟩ := hC
      obtain ⟨c', hsep, hwit, rfl⟩ := ih
      refine ⟨_, .next hP hblank hblank' hsep, ?_, ?_⟩
      · simpa only [Own.blank_eq, Own.after_counts, sizes_cons _ hsep.ne_nil, add_zero,
          add_assoc] using hwit
      simp only [Own.blank_eq, Own.after_after, sizes_cons _ hsep.ne_nil, zero_add, add_assoc,
        Bool.and_assoc]
  rintro ⟨c, hsep, hwit, rfl⟩
  induction hsep generalizing s with
  | @last a c t w hP hblank =>
    have heq : s.after (sizes size [a]) (c && w.isEmpty) = Own.blank w (s.after (size a) c) := by
      rw [Own.blank_eq, Own.after_after, add_zero]
      rfl
    rw [heq]
    exact .last ⟨c, hP, hwit, rfl⟩ ⟨hblank, rfl⟩
  | @next a as c c' t w w' t' hP hblank hblank' hsep ih =>
    rw [sizes_cons _ hsep.ne_nil, ← add_assoc] at hwit
    have hstep : ((s.after (size a) c).after 0 w.isEmpty).after { separators := 1 } w'.isEmpty =
        s.after (size a + { separators := 1 }) (c && w.isEmpty && w'.isEmpty) := by
      simp only [Own.after_after, add_zero, Bool.and_assoc]
    have hmid : (s.counts + (size a + { separators := 1 })).Within := by
      exact hwit.left
    have hrest := ih (s := s.after (size a + { separators := 1 })
      (c && w.isEmpty && w'.isEmpty)) (by
        exact hwit)
    have hend : (s.after (size a + { separators := 1 }) (c && w.isEmpty && w'.isEmpty)).after
        (sizes size as) c' =
          s.after (sizes size (a :: as)) (c && w.isEmpty && (w'.isEmpty && c')) := by
      rw [Own.after_after, sizes_cons _ hsep.ne_nil, Bool.and_assoc (c && w.isEmpty)]
    rw [← hend]
    refine .next (u := 0x2c :: w') ⟨c, hP, ?_, rfl⟩ ⟨hblank, rfl⟩ ⟨w', rfl, hblank', ?_, ?_⟩ hrest
    · exact (add_assoc s.counts _ _ ▸ hmid).left
    · exact hmid.separators
    · rw [Own.blank_eq, hstep]

variable {x x' : Cursor Own}

theorem separator_sound (h : separator x = .ok x') : x.own.separators + 1 ≤ kMaxSeparators ∧
      x' = { x.advance 1 with own := x.own.after { separators := 1 } true } := by
  unfold separator at h
  split at h
  · cases h
  rename_i hcap
  refine ⟨Nat.not_lt.mp hcap, (Except.ok.inj h).symm.trans ?_⟩
  simp [Cursor.advance, Own.after]

theorem separator_complete (b : UInt8) (rest : List UInt8) {s : Own} (pos : Nat)
    (hcap : s.separators + 1 ≤ kMaxSeparators) :
    separator ⟨b :: rest, pos, s⟩ = .ok ⟨rest, pos + 1, s.after { separators := 1 } true⟩ := by
  unfold separator
  rw [if_neg (Nat.not_lt.mpr hcap)]
  simp [Cursor.advance, Own.after]

theorem blank_nil (s : Own) : Own.blank [] s = s := Own.after_zero s

theorem skipSpace_idem (x : Cursor Own) : skipSpace (skipSpace x) = skipSpace x :=
  Scan.skipWhile_idem x blank_nil

theorem skipSpace_of_stops {x : Cursor Own} (h : Scan.Stops isSpace x.rest) : skipSpace x = x :=
  Scan.skipWhile_of_stops blank_nil h

theorem skipSpace_sound (x : Cursor Own) : ∃ w, x.rest = w ++ (skipSpace x).rest ∧
    (skipSpace x).pos = x.pos + w.length ∧ Blank w ∧ (skipSpace x).own = x.own.after 0 w.isEmpty :=
  Scan.skipWhile_sound x

theorem skipSpace_stops (x : Cursor Own) : Scan.Stops isSpace (skipSpace x).rest :=
  Scan.skipWhile_stops x

theorem skipSpace_eq {w rest : List UInt8} {s : Own} (pos : Nat) (hw : Blank w)
    (hrest : Scan.Stops isSpace rest) :
    skipSpace ⟨w ++ rest, pos, s⟩ = ⟨rest, pos + w.length, s.after 0 w.isEmpty⟩ :=
  Scan.skipWhile_eq pos hw hrest

def Own.Fine (s : Own) : Prop := s.counts.Within

theorem Reading.fine {a : α} (h : Reading P size a s s' t) : s'.Fine := by
  obtain ⟨c, -, hwit, rfl⟩ := h
  exact hwit

theorem comma_sound (hbyte : x.rest.head? = some Scan.commaByte)
    (h : skipSpace <$> separator x = .ok x') :
    ∃ u, x.rest = u ++ x'.rest ∧ x'.pos = x.pos + u.length ∧ Comma x.own x'.own u := by
  obtain ⟨x1, hx1, hskip⟩ := map_ok h
  obtain ⟨hcap, rfl⟩ := separator_sound hx1
  obtain ⟨rest, hrest⟩ := head?_eq_some_iff.mp hbyte
  obtain ⟨w, hw, hpos, hblank, hown⟩ := skipSpace_sound
    { x.advance 1 with own := x.own.after { separators := 1 } true }
  rw [hskip] at hw hpos hown
  refine ⟨0x2c :: w, ?_, ?_, w, rfl, hblank, hcap, ?_⟩
  · have hafter : rest = w ++ x'.rest := by simpa [Cursor.advance, hrest] using hw
    rw [hrest, List.cons_append, ← hafter]
    rfl
  · refine hpos.trans ?_
    show x.pos + 1 + w.length = x.pos + (w.length + 1)
    omega
  refine hown.trans ?_
  rw [Own.after_after, add_zero, Bool.true_and]

theorem loop_sound (hq : Scan.Sound Own.Fine q (Reading P size)) {close : UInt8}
    {n : Nat} (hfine : x.own.Fine) (hstops : Scan.Stops isSpace x.rest)
    (h : Scan.commaLoop (fun x => q (skipSpace x)) separator skipSpace close stuck n [] x =
      .ok (as, x')) : ∃ t, x.rest = t ++ close :: x'.rest ∧ x'.pos = x.pos + t.length + 1 ∧
      Reading (Sep P) (sizes size) as x.own x'.own t := by
  rw [Scan.commaLoop_lead skipSpace_idem, skipSpace_of_stops hstops] at h
  have hblank : ∀ s s' w, Own.Fine s → Scan.Skipped isSpace Own.blank s s' w → s'.Fine := by
    rintro s s' w hI ⟨-, rfl⟩
    exact hI
  have hbet : ∀ s s' u, Own.Fine s → Comma s s' u → s'.Fine := by
    rintro s s' u hI ⟨w, -, -, hcap, rfl⟩
    exact ⟨hI.containers, hcap, hI.strings⟩
  obtain ⟨as', t, has, hrest, hpos, hlis⟩ := Scan.commaLoop_sound hq
    (fun a s s' t _ hR => hR.fine) hblank hbet skipSpace_sound
    (fun x x' hbyte hcomma => comma_sound hbyte hcomma) n [] x hfine h
  obtain rfl : as = as' := by simpa using has
  exact ⟨t, hrest, hpos, listed_iff_sep.mp hlis⟩

theorem ends_of_blank {w rest : List UInt8} (hw : Blank w)
    (hb : Ends (b :: rest)) : Ends (w ++ b :: rest) := by
  rcases w with _ | ⟨c, _⟩
  · exact hb
  have hc : isSpace c = true := hw c mem_cons_self
  simp only [isSpace, Bool.or_eq_true, decide_eq_true_eq] at hc
  rcases hc with ((rfl | rfl) | rfl) | rfl <;> rfl

def Closes (b : UInt8) : Prop := b = 0x2c ∨ b = 0x5d ∨ b = 0x7d

theorem Closes.ends {rest : List UInt8} (h : Closes b) : Ends (b :: rest) := by
  rcases h with rfl | rfl | rfl <;> rfl

theorem Closes.stops {rest : List UInt8} (h : Closes b) : Scan.Stops isSpace (b :: rest) := by
  intro c hc
  cases hc
  rcases h with rfl | rfl | rfl <;> rfl

theorem loop_complete (hq : Scan.Complete q (Reading P size) Ends)
    (hstart : ∀ a c t rest, P a c t → Scan.Stops isSpace (t ++ rest)) {close : UInt8}
    (hclose : close = 0x5d ∨ close = 0x7d) (stuck : Cursor Own → Error) (rest : List UInt8)
    (pos : Nat) (h : Reading (Sep P) (sizes size) as s s' t) :
    Scan.commaLoop (fun x => q (skipSpace x)) separator skipSpace close stuck
        (t ++ close :: rest).length [] ⟨t ++ close :: rest, pos, s⟩ =
      .ok (as, ⟨rest, pos + t.length + 1, s'⟩) := by
  have hcloses : ∀ b, b = Scan.commaByte ∨ b = close → Closes b := by
    rintro b (rfl | rfl)
    · exact .inl rfl
    · exact .inr hclose
  have hlis := listed_iff_sep.mpr h
  have hstops : Scan.Stops isSpace (t ++ close :: rest) := by
    obtain ⟨c, hsep, -⟩ := h
    cases hsep with
    | last hP =>
      rw [append_assoc]
      exact hstart _ _ _ _ hP
    | next hP =>
      simp only [append_assoc]
      exact hstart _ _ _ _ hP
  rw [Scan.commaLoop_lead skipSpace_idem, skipSpace_of_stops hstops]
  have hlen : as.length ≤ (t ++ close :: rest).length := by
    have hle := hlis.length_le fun hC => by
      obtain ⟨w, rfl, -⟩ := hC
      simp
    simp only [length_append, length_cons]
    omega
  refine (Scan.commaLoop_complete (N := Scan.Stops isSpace) (G := Scan.Stops isSpace) ?_ hq
    ?_ ?_ ?_ ?_ ?_ ?_ _ [] rest pos hlis hlen).trans rfl
  · rcases hclose with rfl | rfl <;> decide
  · rintro s s' w rest pos ⟨hw, rfl⟩ hrest
    exact skipSpace_eq pos hw hrest
  · rintro s s' u rest pos ⟨w, rfl, hw, hcap, rfl⟩ hrest
    rw [List.cons_append, separator_complete _ _ pos hcap]
    show Except.ok (skipSpace ⟨w ++ rest, pos + 1, s.after { separators := 1 } true⟩) = _
    rw [skipSpace_eq _ hw hrest, Own.after_after, add_zero, Bool.true_and, length_cons,
      Nat.add_assoc, Nat.add_comm 1]
  · rintro s s' u ⟨w, rfl, -⟩
    rfl
  · rintro s s' w b rest ⟨hw, -⟩ hb
    exact ends_of_blank hw (hcloses b hb).ends
  · intro b rest hb
    exact (hcloses b hb).stops
  rintro a s s' t rest ⟨c, hP, -⟩
  exact hstart a c t rest hP

theorem parseItems_sound (hq : Scan.Sound Own.Fine q (Reading P size)) (hfine : x.own.Fine)
    (hfirst : x.rest.head? = some first)
    (h : parseItems (fun x => q (skipSpace x)) close stuck x = .ok (as, x')) :
    ∃ t, x.rest = t ++ x'.rest ∧ x'.pos = x.pos + t.length ∧
      Reading (Bracketed first close P) (sizes size) as x.own x'.own t := by
  obtain ⟨rest, hrest⟩ := head?_eq_some_iff.mp hfirst
  obtain ⟨w, hw, hpos, hblank, hown⟩ := skipSpace_sound (x.advance 1)
  have hw : rest = w ++ (skipSpace (x.advance 1)).rest := by
    simpa [Cursor.advance, hrest] using hw
  have hpos : (skipSpace (x.advance 1)).pos = x.pos + 1 + w.length := hpos
  have hown : (skipSpace (x.advance 1)).own = x.own.after 0 w.isEmpty := hown
  unfold parseItems at h
  simp only at h
  split at h
  next hclose =>
    obtain ⟨rest', hrest'⟩ := head?_eq_some_iff.mp hclose
    cases Except.ok.inj h
    refine ⟨first :: w ++ [close], ?_, ?_, _, .empty hblank, ?_, hown⟩
    · show x.rest = first :: w ++ [close] ++ (skipSpace (x.advance 1)).rest.drop 1
      rw [hrest, hw, hrest']
      simp
    · show (skipSpace (x.advance 1)).pos + 1 = _
      simp only [length_append, length_cons, length_nil]
      omega
    · exact hfine
  have hfine' : (skipSpace (x.advance 1)).own.Fine := by
    exact hfine
  obtain ⟨t, hrest', hpos', c, hsep, hwit, hown'⟩ := loop_sound hq hfine' (skipSpace_stops _) h
  rw [hown] at hwit hown'
  refine ⟨first :: w ++ t ++ [close], ?_, ?_, _, .items hblank hsep, ?_, ?_⟩
  · rw [hrest, hw, hrest']
    simp
  · rw [hpos', hpos]
    simp only [length_append, length_cons, length_nil]
    omega
  · simpa only [Own.after_counts, add_zero] using hwit
  · rw [hown', Own.after_after, zero_add]

theorem parseItems_complete (hq : Scan.Complete q (Reading P size) Ends)
    (hstart : ∀ a c t rest, P a c t → Scan.Stops isSpace (t ++ rest))
    (hfresh : ∀ a c t close rest, P a c t → close = 0x5d ∨ close = 0x7d →
      (t ++ rest).head? ≠ some close)
    (hclose : close = 0x5d ∨ close = 0x7d) (stuck : Cursor Own → Error) (rest : List UInt8)
    (pos : Nat) (h : Reading (Bracketed first close P) (sizes size) as s s' t) :
    parseItems (fun x => q (skipSpace x)) close stuck ⟨t ++ rest, pos, s⟩ =
      .ok (as, ⟨rest, pos + t.length, s'⟩) := by
  have hcloses : Closes close := .inr hclose
  obtain ⟨c, hbrack, hwit, rfl⟩ := h
  cases hbrack with
  | @empty w hblank =>
    have hskip : skipSpace (Cursor.advance ⟨(first :: w ++ [close]) ++ rest, pos, s⟩ 1) =
        ⟨close :: rest, pos + 1 + w.length, s.after 0 w.isEmpty⟩ := by
      have heq : Cursor.advance ⟨(first :: w ++ [close]) ++ rest, pos, s⟩ 1 =
          ⟨w ++ close :: rest, pos + 1, s⟩ := by simp [Cursor.advance]
      rw [heq, skipSpace_eq _ hblank hcloses.stops]
    unfold parseItems
    simp only [hskip, List.head?_cons, if_true]
    simp only [Cursor.advance, List.drop_one, List.tail_cons, length_append, length_cons,
      length_nil, Except.ok.injEq, Prod.mk.injEq, Cursor.mk.injEq, true_and, sizes, and_true]
    omega
  | @items _ c w t hblank hsep =>
    have hhead : Scan.Stops isSpace (t ++ close :: rest) ∧
        (t ++ close :: rest).head? ≠ some close := by
      cases hsep with
      | last hP =>
        rw [append_assoc]
        exact ⟨hstart _ _ _ _ hP, hfresh _ _ _ _ _ hP hclose⟩
      | next hP =>
        simp only [append_assoc]
        exact ⟨hstart _ _ _ _ hP, hfresh _ _ _ _ _ hP hclose⟩
    have hskip : skipSpace (Cursor.advance ⟨(first :: w ++ t ++ [close]) ++ rest, pos, s⟩ 1) =
        ⟨t ++ close :: rest, pos + 1 + w.length, s.after 0 w.isEmpty⟩ := by
      have heq : Cursor.advance ⟨(first :: w ++ t ++ [close]) ++ rest, pos, s⟩ 1 =
          ⟨w ++ (t ++ close :: rest), pos + 1, s⟩ := by simp [Cursor.advance]
      rw [heq, skipSpace_eq _ hblank hhead.1]
    have hloop := loop_complete hq hstart hclose stuck rest
      (pos + 1 + w.length) (s := s.after 0 w.isEmpty) ⟨c, hsep, by
        simpa only [Own.after_counts, add_zero] using hwit, rfl⟩
    unfold parseItems
    simp only [hskip, if_neg hhead.2, hloop, Own.after_after, zero_add]
    simp only [length_append, length_cons, length_nil, Except.ok.injEq,
      Prod.mk.injEq, Cursor.mk.injEq, true_and, and_true]
    omega

end Lists

/-! ## Keys -/

section Keys

theorem ascending_pairwise : ∀ {keys : List (List UInt8)}, ascending keys = true ↔
    keys.Pairwise (· < ·)
  | [] => by simp [ascending]
  | [a] => by simp [ascending]
  | a :: b :: rest => by
    rw [ascending, Bool.and_eq_true, decide_eq_true_eq, ascending_pairwise,
      List.pairwise_cons (a := a)]
    constructor
    · rintro ⟨hab, hrest⟩
      refine ⟨fun c hc => ?_, hrest⟩
      rcases List.mem_cons.mp hc with rfl | hc
      · exact hab
      · exact List.lt_trans hab ((List.pairwise_cons.mp hrest).1 c hc)
    rintro ⟨hfirst, hrest⟩
    exact ⟨hfirst b mem_cons_self, hrest⟩

theorem nodup_of_ascending {keys : List (List UInt8)} (h : ascending keys = true) : keys.Nodup :=
  (ascending_pairwise.mp h).imp fun {a b} hlt (heq : a = b) => List.lt_irrefl b (heq ▸ hlt)

end Keys

/-! ## Values -/

section Values

variable {n : Nat} {v : Value} {c : Bool} {t rest : List UInt8} {s s' : Own}

def memberCounts (m : List UInt8 × Value) : Counts := { separators := 1, strings := 1 } + m.2.counts

theorem sizes_eq {α : Type} (size : α → Counts) (total : List α → Counts) (hnil : total [] = 0)
    (hcons : ∀ a as, total (a :: as) = size a + total as) : ∀ as : List α,
      sizes size as = { separators := as.length - 1 } + total as
  | [] => by
    rw [hnil]
    rfl
  | [a] => by
    rw [hcons, hnil, add_zero]
    exact (zero_add _).symm
  | a :: b :: rest => by
    rw [sizes_cons a (by simp), sizes_eq size total hnil hcons (b :: rest), hcons a]
    ext <;> simp
    omega

theorem array_counts (items : List Value) :
    (Value.array items).counts = { containers := 1 } + sizes Value.counts items := by
  rw [sizes_eq Value.counts itemsCounts rfl (fun _ _ => rfl), Value.counts]
  ext <;> simp

theorem object_counts (members : List (List UInt8 × Value)) :
    (Value.object members).counts = { containers := 1 } + sizes memberCounts members := by
  rw [sizes_eq memberCounts membersCounts rfl (fun _ _ => rfl), Value.counts]
  ext <;> simp

theorem written_null : Written n .null c t ↔ c = true ∧ t = [0x6e, 0x75, 0x6c, 0x6c] := by
  cases n <;> simp [Written]

theorem written_true : Written n (.boolean true) c t ↔ c = true ∧ t = [0x74, 0x72, 0x75, 0x65] := by
  cases n <;> simp [Written]

theorem written_false :
    Written n (.boolean false) c t ↔ c = true ∧ t = [0x66, 0x61, 0x6c, 0x73, 0x65] := by
  cases n <;> simp [Written]

theorem written_integer {raw : List UInt8} {value : Option Int} :
    Written n (.integer raw value) c t ↔ t = raw ∧ ∃ negative digits,
      IntegerText negative digits raw ∧ value = integerOf negative digits ∧
      c = !(negative && value = some 0) := by
  cases n <;> simp [Written]

theorem written_string {bytes : List UInt8} :
    Written n (.string bytes) c t ↔ Quoted bytes t ∧ c = !bytes.contains 0x7f := by
  cases n <;> simp [Written]

theorem written_array {items : List Value} :
    Written (n + 1) (.array items) c t ↔ Bracketed 0x5b 0x5d (Written n) items c t := by
  simp [Written]

theorem written_object {members : List (List UInt8 × Value)} :
    Written (n + 1) (.object members) c t ↔ (members.map Prod.fst).Nodup ∧
      ∃ c', Bracketed 0x7b 0x7d (MemberText (Written n)) members c' t ∧
        c = (c' && ascending (members.map Prod.fst)) := by
  simp [Written]

/-- `ParseValue` past the blanks, with so many levels of nesting left. -/
def bare : Nat → Parser Value
  | 0 => parseAt none
  | n + 1 => parseAt (some (parseValue n))

theorem parseValue_eq (n : Nat) : parseValue n = fun x => bare n (skipSpace x) := by
  cases n <;> rfl

end Values
end JitLlm.Artifact.Json
