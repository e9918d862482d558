import Mathlib.Data.List.Basic
import Mathlib.Order.Basic

/-!
# UTF-8

What the bytes of a Unicode scalar value are, and which bytes are a sequence of them. `Row` is the
table of well-formed sequences of more than one byte, which are exactly the encodings. A text is
cut at an ASCII byte without harm: what is on either side is a text.
-/

namespace JitLlm.Lib.Utf8

open List

def IsScalar (cp : Nat) : Prop := cp < 0x110000 ∧ ¬ (0xD800 ≤ cp ∧ cp < 0xE000)

def encode (cp : Nat) : List UInt8 :=
  if cp < 0x80 then [UInt8.ofNat cp]
  else if cp < 0x800 then [UInt8.ofNat (0xC0 + cp / 64), UInt8.ofNat (0x80 + cp % 64)]
  else if cp < 0x10000 then
    [UInt8.ofNat (0xE0 + cp / 4096), UInt8.ofNat (0x80 + cp / 64 % 64),
      UInt8.ofNat (0x80 + cp % 64)]
  else
    [UInt8.ofNat (0xF0 + cp / 262144), UInt8.ofNat (0x80 + cp / 4096 % 64),
      UInt8.ofNat (0x80 + cp / 64 % 64), UInt8.ofNat (0x80 + cp % 64)]

def Valid (bytes : List UInt8) : Prop :=
  ∃ cps : List Nat, (∀ cp ∈ cps, IsScalar cp) ∧ bytes = cps.flatMap encode

def Tail (b : UInt8) : Prop := 0x80 ≤ b.toNat ∧ b.toNat ≤ 0xBF

def Row (c : UInt8) : List UInt8 → Prop
  | [b] => (0xC2 ≤ c.toNat ∧ c.toNat ≤ 0xDF) ∧ Tail b
  | [b, d] => (0xE0 ≤ c.toNat ∧ c.toNat ≤ 0xEF) ∧ Tail b ∧ Tail d ∧
      (c.toNat = 0xE0 → 0xA0 ≤ b.toNat) ∧ (c.toNat = 0xED → b.toNat ≤ 0x9F)
  | [b, d, e] => (0xF0 ≤ c.toNat ∧ c.toNat ≤ 0xF4) ∧ Tail b ∧ Tail d ∧ Tail e ∧
      (c.toNat = 0xF0 → 0x90 ≤ b.toNat) ∧ (c.toNat = 0xF4 → b.toNat ≤ 0x8F)
  | _ => False

theorem forall_byte {P : UInt8 → Prop} (h : ∀ i : Fin 256, P (UInt8.ofNat i)) (c : UInt8) :
    P c := by
  have hc := h ⟨c.toNat, c.toNat_lt⟩
  simpa using hc

variable {c : UInt8} {tail a b w rest bytes : List UInt8} {cp : Nat}

theorem ofNat_eq {n : Nat} (h : n = c.toNat) : UInt8.ofNat n = c := by
  subst h
  exact UInt8.ofNat_toNat

theorem toNat_ofNat {n : Nat} (h : n < 256) : (UInt8.ofNat n).toNat = n :=
  UInt8.toNat_ofNat_of_lt' h

theorem Row.encodes (h : Row c tail) : ∃ cp, IsScalar cp ∧ 0x80 ≤ cp ∧ encode cp = c :: tail := by
  unfold Row at h
  split at h
  next b =>
    obtain ⟨⟨hc, hc'⟩, hb, hb'⟩ := h
    refine ⟨(c.toNat - 0xC0) * 64 + (b.toNat - 0x80), ⟨by omega, by omega⟩, by omega, ?_⟩
    unfold encode
    rw [if_neg (by omega), if_pos (by omega), ofNat_eq (c := c) (by omega),
      ofNat_eq (c := b) (by omega)]
  next b d =>
    obtain ⟨⟨hc, hc'⟩, ⟨hb, hb'⟩, ⟨hd, hd'⟩, hlow, hhigh⟩ := h
    refine ⟨(c.toNat - 0xE0) * 4096 + (b.toNat - 0x80) * 64 + (d.toNat - 0x80),
      ⟨by omega, by omega⟩, by omega, ?_⟩
    unfold encode
    rw [if_neg (by omega), if_neg (by omega), if_pos (by omega), ofNat_eq (c := c) (by omega),
      ofNat_eq (c := b) (by omega), ofNat_eq (c := d) (by omega)]
  next b d e =>
    obtain ⟨⟨hc, hc'⟩, ⟨hb, hb'⟩, ⟨hd, hd'⟩, ⟨he, he'⟩, hlow, hhigh⟩ := h
    refine ⟨(c.toNat - 0xF0) * 262144 + (b.toNat - 0x80) * 4096 + (d.toNat - 0x80) * 64 +
      (e.toNat - 0x80), ⟨by omega, by omega⟩, by omega, ?_⟩
    unfold encode
    rw [if_neg (by omega), if_neg (by omega), if_neg (by omega), ofNat_eq (c := c) (by omega),
      ofNat_eq (c := b) (by omega), ofNat_eq (c := d) (by omega), ofNat_eq (c := e) (by omega)]
  · exact h.elim

theorem tail_byte (n : Nat) : Tail (UInt8.ofNat (0x80 + n % 64)) := by
  have hlt : 0x80 + n % 64 < 256 := by omega
  unfold Tail
  rw [toNat_ofNat hlt]
  omega

theorem encode_row (h : IsScalar cp) (hcp : 0x80 ≤ cp) :
    ∃ c tail, encode cp = c :: tail ∧ Row c tail := by
  obtain ⟨hmax, hsur⟩ := h
  unfold encode
  rw [if_neg (by omega)]
  split
  · refine ⟨_, _, rfl, ?_, tail_byte _⟩
    rw [toNat_ofNat (by omega)]
    omega
  split
  · have hb := toNat_ofNat (show 0x80 + cp / 64 % 64 < 256 by omega)
    refine ⟨_, _, rfl, ?_, tail_byte _, tail_byte _, ?_, ?_⟩
    · rw [toNat_ofNat (by omega)]
      omega
    · rw [toNat_ofNat (by omega), hb]
      omega
    rw [toNat_ofNat (by omega), hb]
    omega
  have hb := toNat_ofNat (show 0x80 + cp / 4096 % 64 < 256 by omega)
  refine ⟨_, _, rfl, ?_, tail_byte _, tail_byte _, tail_byte _, ?_, ?_⟩
  · rw [toNat_ofNat (by omega)]
    omega
  · rw [toNat_ofNat (by omega), hb]
    omega
  rw [toNat_ofNat (by omega), hb]
  omega

theorem encode_ascii (h : cp < 0x80) : encode cp = [UInt8.ofNat cp] := if_pos h

/-! ## Texts -/

theorem Valid.nil : Valid [] := ⟨[], nofun, rfl⟩

theorem Valid.append (ha : Valid a) (hb : Valid b) : Valid (a ++ b) := by
  obtain ⟨as, has, rfl⟩ := ha
  obtain ⟨bs, hbs, rfl⟩ := hb
  refine ⟨as ++ bs, fun cp h => ?_, (flatMap_append).symm⟩
  rcases List.mem_append.mp h with h | h
  · exact has cp h
  · exact hbs cp h

theorem valid_encode (h : IsScalar cp) : Valid (encode cp) :=
  ⟨[cp], fun _ hmem => List.mem_singleton.mp hmem ▸ h, (append_nil _).symm⟩

theorem valid_ascii (h : c.toNat < 0x80) : Valid [c] := by
  have henc : encode c.toNat = [c] := by rw [encode_ascii h, UInt8.ofNat_toNat]
  rw [← henc]
  exact valid_encode ⟨by omega, by omega⟩

theorem valid_asciis (h : ∀ c ∈ w, c.toNat < 0x80) : Valid w := by
  induction w with
  | nil => exact .nil
  | cons c w ih =>
    exact (valid_ascii (h c mem_cons_self)).append (ih fun b hb => h b (mem_cons_of_mem _ hb))

theorem Valid.cases (h : Valid bytes) :
    bytes = [] ∨ (∃ c rest, bytes = c :: rest ∧ c.toNat < 0x80 ∧ Valid rest) ∨
      ∃ c tail rest, bytes = c :: tail ++ rest ∧ Row c tail ∧ Valid rest := by
  obtain ⟨cps, hcps, rfl⟩ := h
  rcases cps with _ | ⟨cp, cps⟩
  · exact .inl rfl
  have hrest : Valid (cps.flatMap encode) := ⟨cps, fun cp' h => hcps cp' (mem_cons_of_mem _ h), rfl⟩
  have hscalar := hcps cp mem_cons_self
  rw [flatMap_cons]
  by_cases hlt : cp < 0x80
  · refine .inr (.inl ⟨UInt8.ofNat cp, _, by rw [encode_ascii hlt]; rfl, ?_, hrest⟩)
    rw [toNat_ofNat (by omega)]
    exact hlt
  obtain ⟨c, tail, henc, hrow⟩ := encode_row hscalar (Nat.not_lt.mp hlt)
  exact .inr (.inr ⟨c, tail, _, by rw [henc], hrow, hrest⟩)

theorem Row.high (h : Row c tail) : ∀ b ∈ c :: tail, 0x80 ≤ b.toNat := by
  unfold Row at h
  split at h
  · obtain ⟨hc, hb⟩ := h
    intro x hx
    simp only [mem_cons, not_mem_nil, or_false] at hx
    rcases hx with rfl | rfl
    · omega
    · exact hb.1
  · obtain ⟨hc, hb, hd, -⟩ := h
    intro x hx
    simp only [mem_cons, not_mem_nil, or_false] at hx
    rcases hx with rfl | rfl | rfl
    · omega
    · exact hb.1
    · exact hd.1
  · obtain ⟨hc, hb, hd, he, -⟩ := h
    intro x hx
    simp only [mem_cons, not_mem_nil, or_false] at hx
    rcases hx with rfl | rfl | rfl | rfl
    · omega
    · exact hb.1
    · exact hd.1
    · exact he.1
  · exact h.elim

def Ascii (rest : List UInt8) : Prop := ∀ c, rest.head? = some c → c.toNat < 0x80

/-- `rest` begins with no tail byte. -/
def Lead (rest : List UInt8) : Prop := ∀ c, rest.head? = some c → ¬ Tail c

theorem Ascii.lead (h : Ascii rest) : Lead rest := by
  intro c hc ht
  have := h c hc
  have := ht.1
  omega

theorem Row.tails (h : Row c tail) : ∀ b ∈ tail, Tail b := by
  unfold Row at h
  split at h
  · simpa using h.2
  · simpa using ⟨h.2.1, h.2.2.1⟩
  · simpa using ⟨h.2.1, h.2.2.1, h.2.2.2.1⟩
  · cases h

theorem Row.lead (h : Row c tail) : ¬ Tail c := by
  intro ht
  have := ht.2
  unfold Row at h
  split at h
  · have := h.1.1
    omega
  · have := h.1.1
    omega
  · have := h.1.1
    omega
  · cases h

theorem Valid.lead (h : Valid bytes) : Lead bytes := by
  intro b hb ht
  rcases h.cases with rfl | ⟨c, rest, rfl, hc, -⟩ | ⟨c, tail, rest, rfl, hrow, -⟩
  · cases hb
  · cases hb
    have := ht.1
    omega
  cases hb
  exact hrow.lead ht

theorem Valid.splitLead (h : Valid (a ++ b)) (hb : Lead b) : Valid a ∧ Valid b := by
  induction hn : a.length using Nat.strongRecOn generalizing a with
  | _ n ih =>
    rcases a with _ | ⟨x, a⟩
    · exact ⟨.nil, h⟩
    rcases h.cases with hnil | ⟨c, rest, heq, hc, hrest⟩ | ⟨c, tail, rest, heq, hrow, hrest⟩
    · cases hnil
    · cases heq
      obtain ⟨ha, hb'⟩ := ih a.length (by rw [← hn]; exact Nat.lt_succ_self _) hrest rfl
      exact ⟨(valid_ascii hc).append ha, hb'⟩
    -- the row's bytes are none of the second part's, which begins with no tail byte
    obtain ⟨rfl, htails⟩ := List.cons.inj heq
    rcases List.append_eq_append_iff.mp htails with ⟨w, htail, hb'⟩ | ⟨w, ha, hrest'⟩
    · cases w with
      | nil =>
        rw [append_nil] at htail
        subst htail hb'
        obtain ⟨cp, hscalar, -, henc⟩ := hrow.encodes
        exact ⟨henc ▸ valid_encode hscalar, hrest⟩
      | cons y =>
        have hy := hb y (by rw [hb']; rfl)
        exact absurd (hrow.tails y (by rw [htail]; simp)) hy
    subst ha hrest'
    obtain ⟨ha, hb'⟩ := ih w.length (by
      rw [← hn, length_cons, length_append]
      omega) hrest rfl
    obtain ⟨cp, hscalar, -, henc⟩ := hrow.encodes
    refine ⟨?_, hb'⟩
    rw [← cons_append, ← henc]
    exact (valid_encode hscalar).append ha

theorem Valid.split (h : Valid (a ++ b)) (hb : Ascii b) : Valid a ∧ Valid b := h.splitLead hb.lead

theorem Valid.drop_ascii (h : Valid (w ++ rest)) (hw : ∀ c ∈ w, c.toNat < 0x80) : Valid rest := by
  induction w with
  | nil => exact h
  | cons c w ih =>
    rcases h.cases with hnil | ⟨b, rest', heq, -, hrest⟩ | ⟨b, tail, rest', heq, hrow, -⟩
    · cases hnil
    · cases heq
      exact ih hrest fun b hb => hw b (mem_cons_of_mem _ hb)
    rw [cons_append, cons_append] at heq
    obtain ⟨rfl, -⟩ := List.cons.inj heq
    have := hrow.high c mem_cons_self
    have := hw c mem_cons_self
    omega

end JitLlm.Lib.Utf8
