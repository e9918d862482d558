import JitLlm.Artifact.HeaderSound
import JitLlm.Artifact.JsonCanonical

/-!
# Listed sizes are exact

A size that an index lists is below 2^63, so one that is accepted is exact. An EXL3 part's feature
counts may be beyond 64 bits, and are compared by their digits.
-/

namespace JitLlm.Artifact

open Base Lib

/-! ## Sixteen times, by the digits -/

open Json (worth worth_concat digitOf_lt IntegerText)

/-- A turn of `IsSixteenTimes`'s loop, over the quotient and the remainder so far. -/
def sixteenthStep (y : Nat × Nat) (c : UInt8) : Nat × Nat :=
  let current := (y.2 * 10 + (c.toNat - 0x30)) % 2 ^ 64
  ((y.1 * 10 + current / 16) % 2 ^ 64, current % 16)

/-- `IsSixteenTimes` of the digits as written. -/
def isSixteenTimesText (raw : List UInt8) (n : Nat) : Bool :=
  if raw.head?.all fun c => c = 0x2d then false
  else
    let (quotient, remainder) := raw.foldl sixteenthStep (0, 0)
    remainder = 0 && quotient = n

/-- Neither sum of a turn wraps. -/
def StepFits (y : Nat × Nat) (c : UInt8) : Prop :=
  y.2 * 10 + (c.toNat - 0x30) < 2 ^ 64 ∧
    y.1 * 10 + (y.2 * 10 + (c.toNat - 0x30)) / 16 < 2 ^ 64

variable {negative : Bool} {digits raw : List UInt8} {x : Rest} {files : Files} {o o' : Opener}
    {i : Nat}

theorem worth_lt (hdigit : ∀ d ∈ digits, Json.isDigit d = true) : worth digits < 10 ^ digits.length := by
  induction digits using List.reverseRecOn with
  | nil => decide
  | append_singleton digits d ih =>
    have hd : d.toNat - 0x30 < 10 := digitOf_lt (hdigit d (by simp))
    have hlt := ih fun b hb => hdigit b (by simp [hb])
    rw [worth_concat, List.length_append, List.length_singleton, Nat.pow_succ]
    omega

theorem sixteenthStep_eq {y : Nat × Nat} {c : UInt8} (h : StepFits y c) :
    sixteenthStep y c = (y.1 * 10 + (y.2 * 10 + (c.toNat - 0x30)) / 16,
      (y.2 * 10 + (c.toNat - 0x30)) % 16) := by
  unfold sixteenthStep
  simp only [Nat.mod_eq_of_lt h.1, Nat.mod_eq_of_lt h.2]

/-- Of at most twenty digits the loop has the exact sixteenth so far, and each turn fits. -/
theorem sixteenth_eq (hdigit : ∀ d ∈ digits, Json.isDigit d = true) (hlen : digits.length ≤ 20) :
    digits.foldl sixteenthStep (0, 0) = (worth digits / 16, worth digits % 16) ∧
      ∀ front d, front ++ [d] <+: digits → StepFits (front.foldl sixteenthStep (0, 0)) d := by
  induction digits using List.reverseRecOn with
  | nil => simp [worth]
  | append_singleton digits d ih =>
    rw [List.length_append, List.length_singleton] at hlen
    have hd : d.toNat - 0x30 < 10 := digitOf_lt (hdigit d (by simp))
    have hdigit' : ∀ b ∈ digits, Json.isDigit b = true := fun b hb => hdigit b (by simp [hb])
    have hlt : worth digits < 10 ^ 19 :=
      (worth_lt hdigit').trans_le (Nat.pow_le_pow_right (by decide) (by omega))
    obtain ⟨heq, hfits⟩ := ih hdigit' (by omega)
    have hfit : StepFits (digits.foldl sixteenthStep (0, 0)) d := by
      rw [heq]
      unfold StepFits
      omega
    constructor
    · rw [List.foldl_append, List.foldl_cons, List.foldl_nil, sixteenthStep_eq hfit, heq,
        worth_concat, Prod.mk.injEq]
      omega
    intro front c hfront
    rcases List.prefix_concat_iff.mp hfront with hfront | hfront
    · obtain ⟨rfl, hc⟩ := List.append_inj' hfront rfl
      cases hc
      exact hfit
    · exact hfits front c hfront

theorem isSixteenTimesText_iff (h : IntegerText negative digits raw)
    (hcanon : negative = true → worth digits ≠ 0) (n : Nat) : isSixteenTimesText raw n =
      isSixteenTimes (.integer (if negative then -(worth digits : Int) else worth digits)) n := by
  obtain ⟨rfl, hdigit, hne, -, hshort⟩ := h
  cases negative with
  | true =>
    have hpos := hcanon rfl
    have hne : ¬ -(worth digits : Int) = 16 * n := by omega
    simp [isSixteenTimesText, isSixteenTimes, Json.signed, hne]
  | false =>
    obtain ⟨d, rest, rfl⟩ := List.exists_cons_of_ne_nil hne
    have hd : d ≠ 0x2d := by
      rintro rfl
      exact absurd (hdigit _ List.mem_cons_self) (by decide)
    have hfold := (sixteenth_eq hdigit hshort).1
    simp only [isSixteenTimesText, isSixteenTimes, Json.signed, List.head?_cons, Option.all_some,
      hd, decide_false, Bool.false_eq_true, if_false, hfold]
    rw [← Bool.decide_and, decide_eq_decide]
    omega

/-! ## What is listed -/

theorem checkInt_integer {reason : String} {lo hi : Int} {n : Nat} (hlo : 0 ≤ lo)
    (h : checkInt v lo hi reason i = .ok n) : v.integer? = some (n : Int) := by
  unfold checkInt at h
  split at h
  next k hk =>
    split at h
    · cases h
    cases h
    rw [hk, Int.toNat_of_nonneg (by omega)]
  · cases h

/-- Below 2^63 a size is not saturated. -/
theorem listed_exact {n exact : Nat} {w : Value} {reason : String}
    (h : checkInt w 1 maxInt reason i = .ok n) (hn : n = min uint64Max exact) :
    n = exact ∧ (bytesOf n).value = exact ∧ w.integer? = some (exact : Int) := by
  have hle := (checkInt_ok (by decide) h).2
  simp only [maxInt] at hle
  have heq : n = exact := by
    simp only [uint64Max] at hn
    omega
  subst heq
  exact ⟨rfl, bytesOf_value (by omega), checkInt_integer (by decide) h⟩

/-- Every size of an accepted descriptor is exact or saturated; those of an accepted resource are
    exact, and as listed; and digits are compared exactly, without a wrap. -/
theorem stored_sizes_exact : (∀ v rep, parseRepresentation v = .ok rep → Sized v rep) ∧
    (∀ (x : Rest) files o v i o', checkResource (x.whole files) o v i = .ok o' →
      ∃ r, o'.resources = o.resources ++ [r] ∧ Sized (get v "repr") r.repr ∧
        r.bytes.value = exactBytes r.repr ∧
        (get v "bytes").integer? = some (exactBytes r.repr : Int) ∧
        r.readable.value = exactBytes r.repr + overRead r.repr ∧
        (get v "readable_bytes").integer? = some ((exactBytes r.repr + overRead r.repr : Nat) : Int)) ∧
    (∀ negative digits raw, IntegerText negative digits raw →
      (negative = true → worth digits ≠ 0) →
      (∀ n : Nat, isSixteenTimesText raw n = true ↔
        (if negative then -(worth digits : Int) else worth digits) = 16 * n) ∧
      ∀ front d, front ++ [d] <+: digits → StepFits (front.foldl sixteenthStep (0, 0)) d) := by
  refine ⟨fun v rep h => parseRepresentation_sized h, ?_, ?_⟩
  · intro x files o v i o' h
    obtain ⟨name, _, gid, texts, _, _, rep, offset, -, -, -, hrep, hbytes, hread, -, -, rfl⟩ :=
      checkResource_ok h
    have hsized := representationAt_sized hrep
    obtain ⟨-, hb, hlb⟩ := listed_exact hbytes hsized.bytes
    obtain ⟨-, hr, hlr⟩ := listed_exact hread hsized.readable
    exact ⟨_, rfl, hsized, hb, hlb, hr, hlr⟩
  intro negative digits raw h hcanon
  refine ⟨fun n => ?_, ?_⟩
  · rw [isSixteenTimesText_iff h hcanon n]
    exact decide_eq_true_iff
  have hshort : digits.length ≤ 20 := by
    have := h.short
    rw [h.text] at this
    unfold Json.signed Json.kMaxIntegerChars at this
    split at this
    · simp only [List.length_cons] at this
      omega
    · exact this
  exact (sixteenth_eq h.digit hshort).2

end JitLlm.Artifact
