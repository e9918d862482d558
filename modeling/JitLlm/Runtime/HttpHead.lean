import JitLlm.Lib.Utf8
import JitLlm.Runtime.Http
import Mathlib.Data.List.Forall2

/-!
# What a request head says

`ParseHead` against the text it reads. A head is lines, each with its CRLF, and a blank one
(`joined`); `FieldLine` is what a header line is for the header it gives. `parseHead_iff` has the
two directions: the lines are the text's only reading, and a text of such lines is read. The
headers go in one at a time (`Chain`), so what holds of all of them is an induction over it.
-/

namespace JitLlm.Runtime.Http

open List

open Lib (find find_some find_one find_append find_none)
open Lib.Utf8 (forall_byte)
open Api (Bytes ascii)

/-! ## Bytes -/

theorem lower_lower (c : UInt8) : lower (lower c) = lower c :=
  forall_byte (P := fun c => lower (lower c) = lower c) (by decide +kernel) c

variable {c : UInt8} {xs text line : Bytes} {r : Request} {limits : Limits}

theorem isTokenChar_lower (h : isTokenChar c = true) : isTokenChar (lower c) = true :=
  forall_byte (P := fun c => isTokenChar c = true → isTokenChar (lower c) = true)
    (by decide +kernel) c h

theorem isTokenChar_plain (h : isTokenChar c = true) : c ≠ cr ∧ c ≠ lf ∧ c ≠ colon := by
  refine ⟨?_, ?_, ?_⟩
  all_goals
    rintro rfl
    exact absurd h (by decide)

theorem isBlank_plain (h : isBlank c = true) : c ≠ cr ∧ c ≠ lf := by
  constructor
  all_goals
    rintro rfl
    exact absurd h (by decide)

theorem not_isControl_plain (h : isControl c = false) : c ≠ cr ∧ c ≠ lf := by
  constructor
  all_goals
    rintro rfl
    exact absurd h (by decide)

theorem isDigit_value (h : isDigit c = true) : 0x30 ≤ c.toNat ∧ c.toNat ≤ 0x39 :=
  forall_byte (P := fun c => isDigit c = true → 0x30 ≤ c.toNat ∧ c.toNat ≤ 0x39)
    (by decide +kernel) c h

/-! ## Lines -/

def IsLine (l : Bytes) : Prop := cr ∉ l ∧ lf ∉ l

def joined (lines : List Bytes) : Bytes := lines.flatMap (· ++ crlf)

theorem joined_cons (l : Bytes) (lines : List Bytes) :
    joined (l :: lines) = l ++ crlf ++ joined lines := by
  simp [joined]

structure Paired (xs : Bytes) : Prop where
  ofCr : ∀ i, xs[i]? = some cr → xs[i + 1]? = some lf
  ofLf : ∀ i, xs[i]? = some lf → ∃ j, i = j + 1 ∧ xs[j]? = some cr

theorem bareAt_iff {i : Nat} : bareAt xs i = false ↔ (xs[i]? = some cr → xs[i + 1]? = some lf) ∧
      (xs[i]? = some lf → ∃ j, i = j + 1 ∧ xs[j]? = some cr) := by
  cases i <;> simp [bareAt]

theorem paired_iff : (List.range xs.length).any (bareAt xs) = false ↔ Paired xs := by
  constructor
  · intro h
    have hall : ∀ i, bareAt xs i = false := by
      intro i
      by_cases hi : i < xs.length
      · exact Bool.eq_false_iff.mpr (any_eq_false.mp h i (mem_range.mpr hi))
      have hnone : xs[i]? = none := getElem?_eq_none (by omega)
      simp [bareAt, hnone]
    exact ⟨fun i => (bareAt_iff.mp (hall i)).1, fun i => (bareAt_iff.mp (hall i)).2⟩
  intro h
  rw [any_eq_false]
  intro i _
  rw [bareAt_iff.mpr ⟨h.ofCr i, h.ofLf i⟩]
  exact Bool.false_ne_true

theorem Paired.first (h : Paired xs) {a : Nat} (ha : find crlf xs = some a) :
    xs = xs.take a ++ crlf ++ xs.drop (a + 2) ∧ IsLine (xs.take a) ∧ Paired (xs.drop (a + 2)) := by
  obtain ⟨heq, hle⟩ := find_some ha
  have hcr : cr ∉ xs.take a := by
    intro hmem
    obtain ⟨i, hi, hget⟩ := getElem_of_mem hmem
    rw [length_take] at hi
    rw [getElem_take] at hget
    have hcr : xs[i]? = some cr := by rw [getElem?_eq_getElem (by omega), hget]
    have hlf := h.ofCr i hcr
    have hp : crlf <+: xs.drop i := by
      obtain ⟨hlen, hget'⟩ := List.getElem?_eq_some_iff.mp hlf
      rw [drop_eq_getElem_cons (by omega), drop_eq_getElem_cons hlen, hget, hget']
      exact prefix_append crlf _
    have := Lib.find_first ha i hp
    omega
  have hat : xs[a]? = some cr ∧ xs[a + 1]? = some lf := by
    obtain ⟨ys, hys⟩ := Lib.find_at ha
    have h0 := congrArg (fun l => l[0]?) hys
    have h1 := congrArg (fun l => l[1]?) hys
    simp only [crlf, cons_append, nil_append, getElem?_drop] at h0 h1
    exact ⟨h0.symm, h1.symm⟩
  refine ⟨heq, ⟨hcr, fun hmem => ?_⟩, fun i hi => ?_, fun i hi => ?_⟩
  · obtain ⟨i, hi, hget⟩ := getElem_of_mem hmem
    rw [length_take] at hi
    rw [getElem_take] at hget
    obtain ⟨j, rfl, hj⟩ := h.ofLf i (by rw [getElem?_eq_getElem (by omega), hget])
    refine hcr (mem_iff_getElem?.mpr ⟨j, ?_⟩)
    rw [getElem?_take_of_lt (by omega), hj]
  · rw [getElem?_drop] at hi ⊢
    exact h.ofCr _ hi
  rw [getElem?_drop] at hi
  obtain ⟨j, hj, hcr'⟩ := h.ofLf _ hi
  cases i with
  | zero =>
    -- what is before the rest is an LF, not the CR an LF needs
    obtain rfl : j = a + 1 := by omega
    rw [hat.2] at hcr'
    cases hcr'
  | succ i =>
    obtain rfl : j = a + 2 + i := by omega
    exact ⟨i, rfl, by rw [getElem?_drop, hcr']⟩

theorem Paired.cons {l rest : Bytes} (hl : IsLine l) (h : Paired rest) :
    Paired (l ++ crlf ++ rest) := by
  have hcr : ∀ i, i < l.length → (l ++ crlf ++ rest)[i]? ≠ some cr := by
    intro i hi hget
    rw [append_assoc, getElem?_append_left hi] at hget
    exact hl.1 (mem_of_getElem? hget)
  have hlf : ∀ i, i < l.length → (l ++ crlf ++ rest)[i]? ≠ some lf := by
    intro i hi hget
    rw [append_assoc, getElem?_append_left hi] at hget
    exact hl.2 (mem_of_getElem? hget)
  have hat : (l ++ crlf ++ rest)[l.length]? = some cr := by
    rw [append_assoc, getElem?_append_right (Nat.le_refl _), Nat.sub_self]
    rfl
  have hat' : (l ++ crlf ++ rest)[l.length + 1]? = some lf := by
    rw [append_assoc, getElem?_append_right (by omega), Nat.add_sub_cancel_left]
    rfl
  have hpast : ∀ k, (l ++ crlf ++ rest)[l.length + 2 + k]? = rest[k]? := by
    intro k
    rw [getElem?_append_right (by simp [crlf])]
    congr 1
    simp [crlf]
  constructor
  · intro i hi
    rcases Nat.lt_trichotomy i l.length with hlt | rfl | hgt
    · exact absurd hi (hcr i hlt)
    · exact hat'
    rcases Nat.eq_or_lt_of_le hgt with rfl | hgt
    · rw [hat'] at hi
      cases hi
    obtain ⟨k, rfl⟩ := Nat.exists_eq_add_of_le (show l.length + 2 ≤ i by omega)
    rw [hpast] at hi
    rw [Nat.add_assoc, hpast]
    exact h.ofCr k hi
  intro i hi
  rcases Nat.lt_trichotomy i l.length with hlt | rfl | hgt
  · exact absurd hi (hlf i hlt)
  · rw [hat] at hi
    cases hi
  rcases Nat.eq_or_lt_of_le hgt with rfl | hgt
  · exact ⟨l.length, rfl, hat⟩
  obtain ⟨k, rfl⟩ := Nat.exists_eq_add_of_le (show l.length + 2 ≤ i by omega)
  rw [hpast] at hi
  obtain ⟨j, rfl, hj⟩ := h.ofLf k hi
  exact ⟨l.length + 2 + j, rfl, by rw [hpast, hj]⟩

theorem paired_joined {lines : List Bytes} (h : ∀ l ∈ lines, IsLine l) : Paired (joined lines) := by
  induction lines with
  | nil => exact ⟨fun i hi => by simp [joined] at hi, fun i hi => by simp [joined] at hi⟩
  | cons l lines ih =>
    exact .cons (h l mem_cons_self) (ih fun l' hl' => h l' (mem_cons_of_mem _ hl'))

theorem find_crlf {l : Bytes} (hl : IsLine l) (rest : Bytes) :
    find crlf (l ++ crlf ++ rest) = some l.length :=
  find_append hl.1 rest

theorem Paired.lines (h : Paired xs) (hlast : xs ≠ [] → crlf <:+ xs) :
    ∃ lines, xs = joined lines ∧ ∀ l ∈ lines, IsLine l := by
  induction hn : xs.length using Nat.strongRecOn generalizing xs with
  | ind n ih =>
    by_cases hxs : xs = []
    · exact ⟨[], hxs, nofun⟩
    obtain ⟨ys, hys⟩ := hlast hxs
    rcases ha : find crlf xs with _ | a
    · refine absurd ?_ (find_none ha ys.length)
      rw [← hys, drop_left]
    obtain ⟨heq, hline, hrest⟩ := h.first ha
    have hle : a + 2 ≤ xs.length := (find_some ha).2
    have hsuf : xs.drop (a + 2) ≠ [] → crlf <:+ xs.drop (a + 2) := by
      intro hne
      have hlen : 2 ≤ (xs.drop (a + 2)).length := by
        by_contra hlt
        have hone : (xs.drop (a + 2)).length = 1 := by
          have := length_pos_of_ne_nil hne
          omega
        -- one byte would be the last LF alone
        have hlf : (xs.drop (a + 2))[0]? = some lf := by
          rw [getElem?_drop]
          have hlast : xs[xs.length - 1]? = some lf := by
            rw [← hys]
            simp [crlf]
          rw [length_drop] at hone
          rwa [show a + 2 + 0 = xs.length - 1 by omega]
        obtain ⟨j, hj, -⟩ := hrest.ofLf 0 hlf
        omega
      refine suffix_of_suffix_length_le ⟨ys, hys⟩ (drop_suffix _ _) hlen
    obtain ⟨lines, hlines, hall⟩ := ih _ (by rw [length_drop]; omega) hrest hsuf rfl
    refine ⟨xs.take a :: lines, ?_, ?_⟩
    · rw [joined_cons, ← hlines]
      exact heq
    intro l hl
    rcases mem_cons.mp hl with rfl | hl
    · exact hline
    · exact hall l hl

/-! ## Values -/

theorem trim_eq {lead value trail : Bytes} (hlead : ∀ b ∈ lead, isBlank b = true)
    (hvalue : trim value = value) (htrail : ∀ b ∈ trail, isBlank b = true) :
    trim (lead ++ value ++ trail) = value := by
  have hstart : value.dropWhile isBlank = value := by
    have hlen := congrArg List.length hvalue
    have hle := ( rdropWhile_prefix isBlank (l := value.dropWhile isBlank)).length_le
    have hle' := (dropWhile_suffix isBlank (l := value)).length_le
    exact (dropWhile_suffix isBlank).eq_of_length (by
      simp only [trim] at hlen
      omega)
  have hend : value.rdropWhile isBlank = value := by
    unfold trim at hvalue
    rwa [hstart] at hvalue
  have hdrop : ∀ (l r : Bytes), (∀ b ∈ l, isBlank b = true) →
      (l ++ r).dropWhile isBlank = r.dropWhile isBlank := fun l r hl =>
    dropWhile_append_of_pos hl
  unfold trim
  rw [append_assoc, hdrop _ _ hlead]
  rcases value with _ | ⟨b, value⟩
  · rw [nil_append, dropWhile_eq_nil_iff.mpr htrail]
    rfl
  have hb : ¬ isBlank b = true := by
    intro hb
    rw [dropWhile_cons_of_pos hb] at hstart
    have := congrArg List.length hstart
    have := (dropWhile_suffix isBlank (l := value)).length_le
    simp only [length_cons] at *
    omega
  rw [cons_append, dropWhile_cons_of_neg hb, ← cons_append]
  unfold List.rdropWhile at hend ⊢
  rw [reverse_append, hdrop _ _ (fun x hx => htrail x (mem_reverse.mp hx))]
  exact hend

theorem trim_trim (value : Bytes) : trim (trim value) = trim value := by
  have hstart : (trim value).dropWhile isBlank = trim value := by
    rcases ht : trim value with _ | ⟨b, t⟩
    · rfl
    obtain ⟨ys, hys⟩ := rdropWhile_prefix isBlank (l := value.dropWhile isBlank)
    have hd : value.dropWhile isBlank = b :: (t ++ ys) := by
      rw [← hys]
      exact congrArg (· ++ ys) ht
    have hb := head?_dropWhile_not isBlank value
    rw [hd] at hb
    exact dropWhile_cons_of_neg (by simpa using hb)
  show ((trim value).dropWhile isBlank).rdropWhile isBlank = trim value
  rw [hstart]
  exact rdropWhile_idempotent isBlank _

theorem trim_spec (value : Bytes) : ∃ lead trail, value = lead ++ trim value ++ trail ∧
    (∀ b ∈ lead, isBlank b = true) ∧ ∀ b ∈ trail, isBlank b = true := by
  refine ⟨value.takeWhile isBlank, (value.dropWhile isBlank).rtakeWhile isBlank, ?_, ?_, ?_⟩
  · unfold trim
    rw [append_assoc, rdropWhile_append_rtakeWhile, takeWhile_append_dropWhile]
  · exact fun b hb => mem_takeWhile_imp hb
  · exact fun b hb => mem_rtakeWhile_imp hb

/-! ## Content-Length -/

def decimal (text : Bytes) : Nat := text.foldl (fun n c => n * 10 + (c.toNat - 0x30)) 0

structure IsLength (text : Bytes) (n : Nat) : Prop where
  some : text ≠ []
  short : text.length ≤ 18
  digits : ∀ c ∈ text, isDigit c = true
  value : decimal text = n

theorem foldl_length (hdig : ∀ c ∈ text, isDigit c = true) :
    ∀ (n k : Nat), n < 10 ^ k → k + text.length ≤ 18 →
      text.foldl (fun n c => Int.bmod (n * 10 + (c.toNat - 0x30)) (2 ^ 64)) (n : Int) =
        (text.foldl (fun n c => n * 10 + (c.toNat - 0x30)) n : Nat) ∧
      text.foldl (fun n c => n * 10 + (c.toNat - 0x30)) n < 10 ^ (k + text.length) := by
  induction text with
  | nil => exact fun n k hn _ => ⟨rfl, hn⟩
  | cons c text ih =>
    intro n k hn hk
    obtain ⟨hlow, hhigh⟩ := isDigit_value (hdig c mem_cons_self)
    rw [length_cons] at hk
    have hstep : n * 10 + (c.toNat - 0x30) < 10 ^ (k + 1) := by
      omega
    have hpow : 10 ^ (k + 1) ≤ 10 ^ 18 := Nat.pow_le_pow_right (by decide) (by omega)
    have hbmod : Int.bmod ((n : Int) * 10 + (c.toNat - 0x30)) (2 ^ 64) =
        ((n * 10 + (c.toNat - 0x30) : Nat) : Int) := by
      rw [show ((n : Int) * 10 + (c.toNat - 0x30)) =
        ((n * 10 + (c.toNat - 0x30) : Nat) : Int) by omega]
      exact Int.bmod_eq_of_le (by omega) (by omega)
    obtain ⟨heq, hlt⟩ := ih (fun c' hc' => hdig c' (mem_cons_of_mem _ hc')) _ (k + 1) hstep
      (by omega)
    refine ⟨?_, ?_⟩
    · rw [foldl_cons, hbmod, heq, foldl_cons]
    rw [foldl_cons, length_cons, ← Nat.add_assoc, Nat.add_right_comm]
    exact hlt

theorem parseLength_iff {n : Int} (hn : 0 ≤ n) : parseLength text = n ↔ IsLength text n.toNat := by
  unfold parseLength
  split
  next hbad =>
    constructor
    · omega
    intro h
    rcases hbad with hnil | hlong | hdigit
    · exact absurd hnil h.some
    · have := h.short
      omega
    · exact absurd (all_eq_true.mpr h.digits) hdigit
  rename_i hgood
  simp only [not_or, Nat.not_lt, Decidable.not_not] at hgood
  obtain ⟨hsome, hshort, hdig⟩ := hgood
  have hdig := all_eq_true.mp hdig
  obtain ⟨heq, -⟩ := foldl_length hdig 0 0 (by decide) (by omega)
  rw [show (0 : Int) = ((0 : Nat) : Int) from rfl, heq]
  constructor
  · rintro rfl
    exact ⟨hsome, hshort, hdig, rfl⟩
  intro h
  have : decimal text = n.toNat := h.value
  show ((decimal text : Nat) : Int) = n
  omega

theorem IsLength.lt {n : Nat} (h : IsLength text n) : n < 10 ^ 18 := by
  obtain ⟨-, hlt⟩ := foldl_length h.digits 0 0 (by decide) (by have := h.short; omega)
  rw [← h.value]
  exact Nat.lt_of_lt_of_le hlt (Nat.pow_le_pow_right (by decide) (by have := h.short; omega))

/-! ## Header lines -/

/-- A line that gives a header: a name, a colon, and the value with blanks around it. -/
structure FieldLine (line : Bytes) (h : Header) : Prop where
  parts : ∃ name lead trail, line = name ++ colon :: (lead ++ h.value ++ trail) ∧ name ≠ [] ∧
    (∀ c ∈ name, isTokenChar c = true) ∧ (∀ b ∈ lead, isBlank b = true) ∧
    (∀ b ∈ trail, isBlank b = true) ∧ h.name = name.map lower
  trimmed : trim h.value = h.value
  plain : ∀ c ∈ h.value, isControl c = false

structure Admits (limits : Limits) (seen : List Header) (length : Int) (h : Header)
    (length' : Int) : Prop where
  count : seen.length < limits.maxHeaders
  host : h.name = ascii "host" → ∀ h' ∈ seen, h'.name ≠ ascii "host"
  coding : h.name ≠ ascii "transfer-encoding"
  sized : h.name = ascii "content-length" → 0 ≤ parseLength h.value ∧
    (0 ≤ length → parseLength h.value = length) ∧ length' = parseLength h.value
  other : h.name ≠ ascii "content-length" → length' = length

theorem find_isSome {name : Bytes} : (r.find name).isSome ↔ ∃ h ∈ r.headers, h.name = name := by
  simp [Request.find]

theorem FieldLine.name {h : Header} (hf : FieldLine line h) :
    ∃ a, find [colon] line = some a ∧ a ≠ 0 ∧ (∀ c ∈ line.take a, isTokenChar c = true) ∧
      h.name = (line.take a).map lower ∧ h.value = trim (line.drop (a + 1)) := by
  obtain ⟨name, lead, trail, rfl, hname, htoken, hlead, htrail, hlower⟩ := hf.parts
  refine ⟨name.length, ?_, ?_, ?_, ?_, ?_⟩
  · have hcolon : colon ∉ name := fun hmem => (isTokenChar_plain (htoken _ hmem)).2.2 rfl
    have hfind : find [colon] (name ++ [colon] ++ (lead ++ h.value ++ trail)) = some name.length :=
      find_append hcolon _
    simpa using hfind
  · exact fun hzero => hname (length_eq_zero_iff.mp hzero)
  · rw [take_left]
    exact htoken
  · rw [take_left]
    exact hlower
  rw [drop_append, drop_eq_nil_of_le (by omega), Nat.add_sub_cancel_left]
  exact (trim_eq hlead hf.trimmed htrail).symm

theorem parseHeader_iff {r r' : Request} {length length' : Int} :
    parseHeader line limits r length = .ok (r', length') ↔
      ∃ h, FieldLine line h ∧ Admits limits r.headers length h length' ∧
        r' = { r with headers := r.headers ++ [h] } := by
  constructor
  · intro hparse
    unfold parseHeader at hparse
    split at hparse
    · cases hparse
    rename_i hcount
    split at hparse
    · cases hparse
    rename_i a ha
    split at hparse
    · cases hparse
    rename_i hname
    simp only [not_or, Decidable.not_not] at hname
    obtain ⟨heq, -⟩ := find_one ha
    simp only at hparse
    split at hparse
    · cases hparse
    rename_i hcon
    split at hparse
    · cases hparse
    rename_i hhost
    split at hparse
    · cases hparse
    rename_i hcod
    have hfield : FieldLine line ⟨(line.take a).map lower, trim (line.drop (a + 1))⟩ := by
      obtain ⟨lead, trail, hvalue, hlead, htrail⟩ := trim_spec (line.drop (a + 1))
      refine ⟨⟨line.take a, lead, trail, ?_, ?_, all_eq_true.mp hname.2, hlead, htrail, rfl⟩,
        trim_trim _, ?_⟩
      · exact heq.trans (congrArg (fun v => line.take a ++ colon :: v) hvalue)
      · intro hnil
        have hlen := congrArg List.length hnil
        have := (find_some ha).2
        rw [length_take, length_nil] at hlen
        exact hname.1 (by omega)
      intro c hc
      by_contra hne
      exact hcon (any_eq_true.mpr ⟨c, hc, by simpa using hne⟩)
    have hhost' : (line.take a).map lower = ascii "host" →
        ∀ h' ∈ r.headers, h'.name ≠ ascii "host" := fun hname h' hh' heq =>
      hhost ⟨hname, find_isSome.mpr ⟨h', hh', heq⟩⟩
    split at hparse
    next hlength =>
      split at hparse
      · cases hparse
      rename_i hvalid
      simp only [not_or, Int.not_lt, not_and, Decidable.not_not] at hvalid
      cases hparse
      exact ⟨_, hfield, ⟨by omega, hhost', hcod, fun _ => ⟨hvalid.1, hvalid.2, rfl⟩,
        fun hne => absurd hlength hne⟩, rfl⟩
    rename_i hlength
    cases hparse
    exact ⟨_, hfield, ⟨by omega, hhost', hcod, fun heq => absurd heq hlength, fun _ => rfl⟩, rfl⟩
  rintro ⟨h, hfield, hadm, rfl⟩
  obtain ⟨a, ha, hzero, htoken, hname, hvalue⟩ := hfield.name
  have hcount := hadm.count
  have hnone : ¬ (ascii "host" = h.name ∧ (r.find (ascii "host")).isSome) := by
    rintro ⟨heq, hsome⟩
    obtain ⟨h', hh', heq'⟩ := find_isSome.mp hsome
    exact hadm.host heq.symm h' hh' heq'
  unfold parseHeader
  rw [if_neg (by omega), ha]
  simp only
  rw [if_neg (by simpa [hzero] using htoken), ← hvalue, ← hname, if_neg, if_neg, if_neg hadm.coding]
  · split
    next hlength =>
      obtain ⟨hpos, hsame, rfl⟩ := hadm.sized hlength
      rw [if_neg]
      rintro (hneg | ⟨hle, hne⟩)
      · omega
      · exact hne (hsame hle)
    rename_i hlength
    rw [hadm.other hlength]
  · exact fun hboth => hnone ⟨hboth.1.symm, hboth.2⟩
  intro hany
  obtain ⟨c, hc, hcon⟩ := any_eq_true.mp hany
  rw [hfield.plain c hc] at hcon
  cases hcon

/-! ## All of them -/

inductive Chain (limits : Limits) : List Header → Int → List Header → Int → Prop
  | nil {seen length} : Chain limits seen length [] length
  | cons {seen length h length' hs length''} : Admits limits seen length h length' →
      Chain limits (seen ++ [h]) length' hs length'' → Chain limits seen length (h :: hs) length''

theorem parseHeaders_iff {lines : List Bytes} (hlines : ∀ l ∈ lines, IsLine l) :
    ∀ {n : Nat} {r r' : Request} {length length' : Int}, lines.length ≤ n →
      (parseHeaders limits n (joined lines) r length = .ok (r', length') ↔
        ∃ hs, List.Forall₂ FieldLine lines hs ∧ Chain limits r.headers length hs length' ∧
          r' = { r with headers := r.headers ++ hs }) := by
  induction lines with
  | nil =>
    intro n r r' length length' _
    have hrun : parseHeaders limits n (joined []) r length = .ok (r, length) := by
      cases n <;> rfl
    rw [hrun]
    constructor
    · intro h
      cases h
      exact ⟨[], .nil, .nil, by rw [append_nil]⟩
    rintro ⟨hs, hfor, hchain, rfl⟩
    cases hfor
    cases hchain
    rw [append_nil]
  | cons l lines ih =>
    intro n r r' length length' hn
    obtain ⟨n, rfl⟩ : ∃ m, n = m + 1 := ⟨n - 1, by rw [length_cons] at hn; omega⟩
    have hl := hlines l mem_cons_self
    have hrests : ∀ l' ∈ lines, IsLine l' := fun l' hl' => hlines l' (mem_cons_of_mem _ hl')
    have hn : lines.length ≤ n := Nat.le_of_succ_le_succ hn
    have hne : joined (l :: lines) ≠ [] := by
      rw [joined_cons]
      simp [crlf]
    have hrest : (l ++ crlf ++ joined lines).drop (l.length + 2) = joined lines :=
      drop_left' (by simp [crlf])
    have htake : (l ++ crlf ++ joined lines).take l.length = l := by
      rw [append_assoc, take_left]
    rw [parseHeaders, if_neg hne, joined_cons, find_crlf hl]
    simp only [Option.getD_some, hrest, htake]
    constructor
    · intro h
      split at h
      · cases h
      rename_i r1 length1 hhead
      obtain ⟨hd, hfield, hadm, rfl⟩ := parseHeader_iff.mp hhead
      obtain ⟨hs, hfor, hchain, rfl⟩ := (ih hrests hn).mp h
      refine ⟨hd :: hs, .cons hfield hfor, .cons hadm hchain, ?_⟩
      simp
    rintro ⟨hs, hfor, hchain, rfl⟩
    cases hfor with
    | cons hfield hfor =>
      cases hchain with
      | cons hadm hchain =>
        rw [parseHeader_iff.mpr ⟨_, hfield, hadm, rfl⟩]
        exact (ih hrests hn).mpr ⟨_, hfor, hchain, by simp⟩

/-! ## The request line -/

def version (http10 : Bool) : Bytes := if http10 then ascii "HTTP/1.0" else ascii "HTTP/1.1"

def requestLine (r : Request) : Bytes :=
  r.method ++ space :: (r.target ++ space :: version r.http10)

structure Asked (limits : Limits) (r : Request) : Prop where
  method : r.method ≠ [] ∧ r.method.length ≤ 16 ∧ ∀ c ∈ r.method, isUpper c = true
  target : r.target.head? = some 0x2f ∧ r.target.length ≤ limits.maxTargetBytes ∧
    ∀ c ∈ r.target, isPrintable c = true

theorem parseRequestLine_ok (h : parseRequestLine line limits = .ok r) :
    line = requestLine r ∧ Asked limits r ∧ r.headers = [] ∧ r.body = [] := by
  unfold parseRequestLine at h
  split at h
  · cases h
  rename_i a ha
  split at h
  · cases h
  rename_i b hb
  split at h
  · cases h
  simp only at h
  split at h
  · cases h
  rename_i hmet
  split at h
  · cases h
  rename_i htar
  split at h
  · cases h
  rename_i hver
  obtain rfl := Except.ok.inj h
  simp only [not_or, Nat.not_lt, Decidable.not_not] at hmet htar
  refine ⟨?_, ⟨⟨hmet.1, hmet.2.1, all_eq_true.mp hmet.2.2⟩,
    htar.2.1, htar.2.2.1, all_eq_true.mp htar.2.2.2⟩, rfl, rfl⟩
  have hline := (find_one ha).1
  have hrest := (find_one hb).1
  have hlast : line.drop (a + 1 + b + 1) =
      version (decide (line.drop (a + 1 + b + 1) = ascii "HTTP/1.0")) := by
    unfold version
    split
    next heq =>
      exact of_decide_eq_true heq
    rename_i hne
    by_contra hne'
    exact hver ⟨hne', fun heq => hne (decide_eq_true heq)⟩
  unfold requestLine
  rw [← hlast]
  rw [drop_drop, show a + 1 + (b + 1) = a + 1 + b + 1 by omega] at hrest
  rw [← hrest]
  exact hline

/-! ## The head -/

theorem joined_append (lines lines' : List Bytes) :
    joined (lines ++ lines') = joined lines ++ joined lines' := by
  simp [joined]

theorem length_le_joined (lines : List Bytes) : lines.length ≤ (joined lines).length := by
  induction lines with
  | nil => exact Nat.le_refl _
  | cons =>
    rw [joined_cons]
    simp only [length_append, length_cons, crlf]
    omega

theorem parseHead_iff {full : Bytes} :
    parseHead full limits = .ok r ↔ ∃ (r0 : Request) (first : Bytes) (lines : List Bytes)
      (hs : List Header) (length : Int),
      full = joined (first :: lines) ++ crlf ∧ full.length ≤ limits.maxHeaderBytes + 4 ∧
      (∀ l ∈ first :: lines, IsLine l) ∧ parseRequestLine first limits = .ok r0 ∧
      List.Forall₂ FieldLine lines hs ∧ Chain limits [] (-1) hs length ∧
      finishHead limits { r0 with headers := hs } length = .ok r := by
  constructor
  · intro h
    unfold parseHead at h
    split at h
    · cases h
    rename_i hfull
    simp only [not_or, Nat.not_lt, Decidable.not_not] at hfull
    simp only at h
    split at h
    · cases h
    rename_i hbare
    obtain ⟨ys, hys⟩ := isSuffixOf_iff_suffix.mp hfull.2
    have hhead : full.take (full.length - 2) = ys ++ crlf := by
      rw [← hys, show ys ++ blankLine = (ys ++ crlf) ++ crlf by simp [blankLine, crlf]]
      exact take_left' (by simp [crlf])
    rw [hhead] at h hbare
    have hpaired := paired_iff.mp (Bool.eq_false_iff.mpr hbare)
    obtain ⟨lines, hlines, hall⟩ := hpaired.lines fun _ => ⟨ys, rfl⟩
    rw [hlines] at h
    rcases lines with _ | ⟨first, lines⟩
    · have := congrArg List.length hlines
      simp [joined, crlf] at this
    have hfirst := hall first mem_cons_self
    have hlen := length_le_joined lines
    have hrest : (first ++ crlf ++ joined lines).drop (first.length + 2) = joined lines :=
      drop_left' (by simp [crlf])
    have htake : (first ++ crlf ++ joined lines).take first.length = first := by
      rw [append_assoc, take_left]
    rw [joined_cons, find_crlf hfirst] at h
    simp only [Option.getD_some, hrest, htake] at h
    split at h
    · cases h
    rename_i r0 hr0
    split at h
    · cases h
    rename_i r1 length hheaders
    obtain ⟨hs, hfor, hchain, rfl⟩ := (parseHeaders_iff
      (fun l hl => hall l (mem_cons_of_mem _ hl)) (by
        simp only [length_append]
        omega)).mp hheaders
    obtain ⟨-, -, hnil, -⟩ := parseRequestLine_ok hr0
    rw [hnil, nil_append] at h
    rw [hnil] at hchain
    refine ⟨r0, first, lines, hs, length, ?_, hfull.1, hall, hr0, hfor, hchain, h⟩
    rw [← hlines, ← hys]
    simp [blankLine, crlf]
  rintro ⟨r0, first, lines, hs, length, rfl, hlen, hall, hr0, hfor, hchain, hfin⟩
  have hfirst := hall first mem_cons_self
  have hends : blankLine <:+ joined (first :: lines) ++ crlf := by
    obtain ⟨init, last, hlast⟩ : ∃ init last, first :: lines = init ++ [last] :=
      ⟨(first :: lines).dropLast, _, (dropLast_concat_getLast (cons_ne_nil _ _)).symm⟩
    rw [hlast, joined_append]
    exact ⟨joined init ++ last, by simp [joined, blankLine, crlf]⟩
  have hhead : (joined (first :: lines) ++ crlf).take
      ((joined (first :: lines) ++ crlf).length - 2) = joined (first :: lines) :=
    take_left' (by simp [crlf])
  have hrest : (first ++ crlf ++ joined lines).drop (first.length + 2) = joined lines :=
    drop_left' (by simp [crlf])
  have htake : (first ++ crlf ++ joined lines).take first.length = first := by
    rw [append_assoc, take_left]
  have hcount := length_le_joined lines
  obtain ⟨-, -, hnil, -⟩ := parseRequestLine_ok hr0
  unfold parseHead
  rw [if_neg (by
    rintro (hlong | hnot)
    · omega
    · exact hnot (isSuffixOf_iff_suffix.mpr hends))]
  simp only [hhead]
  rw [paired_iff.mpr (paired_joined hall), if_neg Bool.false_ne_true, joined_cons, find_crlf hfirst]
  simp only [Option.getD_some, hrest, htake, hr0]
  rw [(parseHeaders_iff (fun l hl => hall l (mem_cons_of_mem _ hl)) (by
    simp only [length_append]
    omega)).mpr ⟨hs, hfor, hnil ▸ hchain, rfl⟩]
  simp only [hnil, nil_append]
  exact hfin

end JitLlm.Runtime.Http
