import JitLlm.Lib.Selection
import Mathlib.Data.Prod.Lex
import Mathlib.Logic.Function.Iterate
import Mathlib.Algebra.Order.Field.Rat
import Mathlib.Order.Nat

/-!
# The numbers a draw takes

`Philox4x32` and the counters `UniformAt` gives it. A round multiplies two of the four words by
odd constants, keeps the low halves as they are and mixes the high halves into the other two;
since an odd number is invertible modulo 2^32 the low halves give the multiplied words back,
these give the high halves, and the other two words follow. So a block determines its counter,
and two draws of one seed meet only if they name the same stream and position.
-/

namespace JitLlm.Execution

open List

/-- Four 32-bit words: a counter, or the block drawn for it. -/
structure Words4 where
  c0 : BitVec 32
  c1 : BitVec 32
  c2 : BitVec 32
  c3 : BitVec 32
deriving DecidableEq, Repr

structure Words2 where
  k0 : BitVec 32
  k1 : BitVec 32
deriving DecidableEq, Repr

namespace Philox

def kM0 : BitVec 64 := 0xD2511F53#64
def kM1 : BitVec 64 := 0xCD9E8D57#64
def kW0 : BitVec 32 := 0x9E3779B9#32
def kW1 : BitVec 32 := 0xBB67AE85#32

/-- The upper half of a product, as `static_cast<std::uint32_t>(p >> 32U)` takes it. -/
def hi (p : BitVec 64) : BitVec 32 := (p >>> 32).setWidth 32

/-- The lower half of a product, as `static_cast<std::uint32_t>(p)` takes it. -/
def lo (p : BitVec 64) : BitVec 32 := p.setWidth 32

/-- The body of `Philox4x32`'s loop, the counter's part. -/
def round (c : Words4) (k : Words2) : Words4 :=
  let p0 := kM0 * c.c0.setWidth 64
  let p1 := kM1 * c.c2.setWidth 64
  ⟨hi p1 ^^^ c.c1 ^^^ k.k0, lo p1, hi p0 ^^^ c.c3 ^^^ k.k1, lo p0⟩

/-- The body of `Philox4x32`'s loop, the key's part. -/
def bump (k : Words2) : Words2 := ⟨k.k0 + kW0, k.k1 + kW1⟩

/-- One turn of `Philox4x32`'s loop. -/
def turn (s : Words4 × Words2) : Words4 × Words2 := (round s.1 s.2, bump s.2)

end Philox

def philox4x32 (counter : Words4) (key : Words2) : Words4 := (Philox.turn^[10] (counter, key)).1

/-! ## A round can be undone -/

namespace Philox

def inv0 : BitVec 32 := 0x991A7CDB#32
def inv1 : BitVec 32 := 0x6D7CAE67#32

theorem lo_mul (m : BitVec 64) (x : BitVec 32) : lo (m * x.setWidth 64) = lo m * x := by
  unfold lo
  rw [BitVec.setWidth_mul _ _ (by decide)]
  simp

theorem lo_mul_cancel {m : BitVec 64} {i : BitVec 32} (h : i * lo m = 1#32) (x : BitVec 32) :
    i * lo (m * x.setWidth 64) = x ∧ lo (m * (i * x).setWidth 64) = x := by
  have h' : lo m * i = 1#32 := by rw [BitVec.mul_comm]; exact h
  refine ⟨?_, ?_⟩
  · rw [lo_mul, ← BitVec.mul_assoc, h, BitVec.one_mul]
  · rw [lo_mul, ← BitVec.mul_assoc, h', BitVec.one_mul]

def unround (d : Words4) (k : Words2) : Words4 :=
  let c0 := inv0 * d.c3
  let c2 := inv1 * d.c1
  ⟨c0, d.c0 ^^^ k.k0 ^^^ hi (kM1 * c2.setWidth 64), c2,
    d.c2 ^^^ k.k1 ^^^ hi (kM0 * c0.setWidth 64)⟩

theorem xor_chain (h x k : BitVec 32) : h ^^^ x ^^^ k ^^^ k ^^^ h = x := by
  rw [BitVec.xor_assoc _ k k, BitVec.xor_self, BitVec.xor_zero, BitVec.xor_comm h x,
    BitVec.xor_assoc, BitVec.xor_self, BitVec.xor_zero]

theorem unround_round (c : Words4) (k : Words2) : unround (round c k) k = c := by
  have h0 := (lo_mul_cancel (m := kM0) (i := inv0) (by decide) c.c0).1
  have h1 := (lo_mul_cancel (m := kM1) (i := inv1) (by decide) c.c2).1
  simp only [unround, round, h0, h1, xor_chain]

theorem xor_chain' (h x k : BitVec 32) : h ^^^ (x ^^^ k ^^^ h) ^^^ k = x := by
  rw [BitVec.xor_comm h, BitVec.xor_assoc _ h h, BitVec.xor_self, BitVec.xor_zero,
    BitVec.xor_assoc, BitVec.xor_self, BitVec.xor_zero]

theorem round_unround (d : Words4) (k : Words2) : round (unround d k) k = d := by
  have h0 := (lo_mul_cancel (m := kM0) (i := inv0) (by decide) d.c3).2
  have h1 := (lo_mul_cancel (m := kM1) (i := inv1) (by decide) d.c1).2
  simp only [unround, round, h0, h1, xor_chain']

theorem round_bijective (k : Words2) : Function.Bijective fun c => round c k :=
  Function.bijective_iff_has_inverse.mpr
    ⟨fun d => unround d k, fun c => unround_round c k, fun d => round_unround d k⟩

theorem turns_bijective (n : Nat) : ∀ k, Function.Bijective fun c => (turn^[n] (c, k)).1 := by
  induction n with
  | zero => intro k; exact Function.bijective_id
  | succ n ih =>
    intro k
    exact (ih (bump k)).comp (round_bijective k)

end Philox

/-! ## Draws -/

structure SamplingKey where
  seed : BitVec 64
  stream : BitVec 64
  position : BitVec 64
deriving DecidableEq, Repr

def low (x : BitVec 64) : BitVec 32 := x.setWidth 32
def high (x : BitVec 64) : BitVec 32 := (x >>> 32).setWidth 32

/-- `UniformAt`'s counter. -/
def SamplingKey.counter (key : SamplingKey) : Words4 :=
  ⟨low key.position, high key.position, low key.stream, high key.stream⟩

/-- `UniformAt`'s key. -/
def seedWords (seed : BitVec 64) : Words2 := ⟨low seed, high seed⟩

/-- The block `UniformAt` draws. -/
def SamplingKey.block (key : SamplingKey) : Words4 := philox4x32 key.counter (seedWords key.seed)

/-- `UniformAt`: the upper 27 bits of the block's first word and the upper 26 of its second. -/
def uniformAt (key : SamplingKey) : ℚ :=
  let r := key.block
  let bits := ((r.c0 >>> 5).setWidth 64 <<< 26) ||| (r.c1 >>> 6).setWidth 64
  (bits.toNat : ℚ) / 2 ^ 53

def kAcceptStream : BitVec 64 := 1#64 <<< 63

/-- The key of `VerifyDraft`'s acceptance draw; its replacement draw takes the key itself. -/
def SamplingKey.accept (key : SamplingKey) : SamplingKey :=
  { key with stream := key.stream ^^^ kAcceptStream }

theorem halves_inj {x y : BitVec 64} (hl : low x = low y) (hh : high x = high y) : x = y := by
  have hx := congrArg BitVec.toNat hl
  have hy := congrArg BitVec.toNat hh
  simp only [low, high, BitVec.toNat_setWidth, BitVec.toNat_ushiftRight,
    Nat.shiftRight_eq_div_pow] at hx hy
  apply BitVec.eq_of_toNat_eq
  omega

theorem counter_inj {key key' : SamplingKey} (h : key.counter = key'.counter) :
    key.stream = key'.stream ∧ key.position = key'.position := by
  simp only [SamplingKey.counter, Words4.mk.injEq] at h
  obtain ⟨hpl, hph, hsl, hsh⟩ := h
  exact ⟨halves_inj hsl hsh, halves_inj hpl hph⟩

theorem philox4x32_bijective (k : Words2) : Function.Bijective fun c => philox4x32 c k :=
  Philox.turns_bijective 10 k

theorem block_inj (key key' : SamplingKey) (hs : key.seed = key'.seed)
    (h : key.block = key'.block) : key = key' := by
  rw [SamplingKey.block, SamplingKey.block, hs] at h
  have hc : key.counter = key'.counter := (philox4x32_bijective (seedWords key'.seed)).1 h
  obtain ⟨hst, hp⟩ := counter_inj hc
  cases key
  cases key'
  simp only [SamplingKey.mk.injEq]
  exact ⟨hs, hst, hp⟩

theorem accept_stream_ge {s : BitVec 64} (h : s.toNat < 2 ^ 63) :
    2 ^ 63 ≤ (s ^^^ kAcceptStream).toNat := by
  have hb : s.msb = false := by
    rw [BitVec.msb_eq_false_iff_two_mul_lt]
    omega
  have hm : (s ^^^ kAcceptStream).msb = true := by
    rw [BitVec.msb_xor, hb]
    decide
  have := BitVec.msb_eq_true_iff_two_mul_ge.mp hm
  omega

/-- Under one seed the counters and the blocks are in bijection, so draws of different streams or
    positions take different blocks, and a draft's acceptance never takes the block of a
    replacement. -/
theorem blocks_never_shared (seed : BitVec 64) :
    (Function.Bijective fun c => philox4x32 c (seedWords seed)) ∧ (∀ s p s' p', (s, p) ≠ (s', p') →
      (SamplingKey.mk seed s p).block ≠ (SamplingKey.mk seed s' p').block) ∧
    ∀ s p s' p', s.toNat < 2 ^ 63 → s'.toNat < 2 ^ 63 →
      (SamplingKey.mk seed s p).accept.block ≠ (SamplingKey.mk seed s' p').block := by
  refine ⟨philox4x32_bijective _, ?_, ?_⟩
  · intro s p s' p' hne h
    have hk := block_inj ⟨seed, s, p⟩ ⟨seed, s', p'⟩ rfl h
    simp only [SamplingKey.mk.injEq, true_and] at hk
    exact hne (Prod.ext hk.1 hk.2)
  intro s p s' p' hs hs' h
  have hk := block_inj (SamplingKey.accept ⟨seed, s, p⟩) ⟨seed, s', p'⟩ rfl h
  simp only [SamplingKey.accept, SamplingKey.mk.injEq, true_and] at hk
  have hge := accept_stream_ge hs
  rw [hk.1] at hge
  exact absurd hs' (by omega)

theorem blocks_never_shared_first :
    (SamplingKey.mk 7#64 0#64 0#64).block ≠ (SamplingKey.mk 7#64 0#64 1#64).block ∧
    (SamplingKey.mk 7#64 0#64 5#64).accept.block ≠ (SamplingKey.mk 7#64 1#64 5#64).block :=
  ⟨(blocks_never_shared 7#64).2.1 _ _ _ _ (by decide),
    (blocks_never_shared 7#64).2.2 0#64 _ _ _ (by decide) (by decide)⟩

/-! ## Top-k -/

structure SamplingCandidate (α : Type*) where
  value : α
  id : Int
deriving DecidableEq, Repr

/-- The logits of a step, as many as an `std::int32_t` can number. -/
structure Logits (α : Type*) where
  values : List α
  numbered : values.length ≤ 2 ^ 31

/-- `static_cast<std::int32_t>` of an index. -/
def toInt32 (i : Nat) : Int := (i : Int).bmod (2 ^ 32)

theorem toInt32_of_lt {i : Nat} (h : i < 2 ^ 31) : toInt32 i = i := by
  unfold toInt32
  rw [Int.bmod_eq_of_le] <;> omega

section TopK

variable {α : Type*} {c : SamplingCandidate α} {cap k : Nat}

/-- Every logit from index `i` on, as a candidate. -/
def candidatesFrom : Nat → List α → List (SamplingCandidate α)
  | _, [] => []
  | i, x :: xs => ⟨x, i⟩ :: candidatesFrom (i + 1) xs

def Logits.candidates (logits : Logits α) : List (SamplingCandidate α) :=
  candidatesFrom 0 logits.values

theorem id_of_mem_candidatesFrom (xs : List α) : ∀ {i : Nat} {c : SamplingCandidate α},
    c ∈ candidatesFrom i xs → (i : Int) ≤ c.id := by
  induction xs with
  | nil => intro i c h; simp [candidatesFrom] at h
  | cons x xs ih =>
    intro i c h
    rcases mem_cons.mp h with rfl | h
    · exact le_refl _
    have := ih h
    omega

theorem candidatesFrom_nodup (xs : List α) : ∀ i, (candidatesFrom i xs).Nodup := by
  induction xs with
  | nil => intro i; exact nodup_nil
  | cons x xs ih =>
    intro i
    refine nodup_cons.mpr ⟨?_, ih _⟩
    intro h
    have := id_of_mem_candidatesFrom xs h
    push_cast at this
    omega

variable [LinearOrder α]

def before (a b : SamplingCandidate α) : Bool :=
  decide (b.value < a.value) || (decide (a.value = b.value) && decide (a.id < b.id))

/-- Candidates in the order `Before` gives them: the greater value, then the lower ID. -/
instance : LinearOrder (SamplingCandidate α) :=
  LinearOrder.lift' (fun c => toLex (OrderDual.toDual c.value, c.id)) (by
    intro a b h
    have h' := congrArg ofLex h
    cases a
    cases b
    simpa using h')

theorem lt_iff_before {a b : SamplingCandidate α} : a < b ↔ before a b = true := by
  have h : a < b ↔ toLex (OrderDual.toDual a.value, a.id) < toLex (OrderDual.toDual b.value, b.id) :=
    Iff.rfl
  rw [h, Prod.Lex.toLex_lt_toLex]
  simp [before, OrderDual.toDual_lt_toDual]

variable [OrderBot α]

/-- `TopK`'s buffer and the value it keeps out. -/
structure Scratch (α : Type*) where
  buf : List (SamplingCandidate α)
  floor : α

/-- The least value of a buffer, as `std::ranges::min_element` finds it. -/
def minValue (buf : List (SamplingCandidate α)) : α :=
  ((buf.map SamplingCandidate.value).min?).getD ⊥

/-- The body of `TopK`'s loop at index `i`. -/
def topKStep (nth : Lib.NthElement (SamplingCandidate α)) (cap k i : Nat) (x : α)
    (s : Scratch α) : Scratch α :=
  if s.floor < x then
    let buf := s.buf ++ [⟨x, toInt32 i⟩]
    if buf.length = cap then
      let kept := nth.cut k buf
      ⟨kept, minValue kept⟩
    else ⟨buf, s.floor⟩
  else s

/-- `TopK`'s loop from index `i` on. -/
def topKLoop (nth : Lib.NthElement (SamplingCandidate α)) (cap k : Nat) :
    Nat → List α → Scratch α → Scratch α
  | _, [], s => s
  | i, x :: xs, s => topKLoop nth cap k (i + 1) xs (topKStep nth cap k i x s)

/-- `TopK` with a buffer of `cap` candidates. -/
def topKIn (nth : Lib.NthElement (SamplingCandidate α)) (cap k : Nat) (logits : Logits α) :
    List (SamplingCandidate α) :=
  let s := topKLoop nth cap k 0 logits.values ⟨[], ⊥⟩
  if s.buf.length > k then nth.cut k s.buf else s.buf

def topK (nth : Lib.NthElement (SamplingCandidate α)) (k : Nat) (logits : Logits α) :
    List (SamplingCandidate α) := topKIn nth (max (2 * k) 1024) k logits

def above (l : List (SamplingCandidate α)) : List (SamplingCandidate α) :=
  l.filter fun c => ⊥ < c.value

/-- `buf` holds, once each, exactly the `k` candidates that rank first. -/
structure IsFirst (k : Nat) (logits : Logits α) (buf : List (SamplingCandidate α)) : Prop where
  nodup : buf.Nodup
  length : buf.length = k
  mem : ∀ c, c ∈ buf ↔ c ∈ logits.candidates ∧ Lib.rank logits.candidates c < k

/-- What holds before index `i`: the buffer keeps enough of the candidates seen, and a floor above
    the least value is reached by `k` of those kept. -/
structure Selecting (k i : Nat) (seen : List (SamplingCandidate α)) (s : Scratch α) : Prop where
  keeps : Lib.Keeps k seen s.buf
  ids : ∀ c ∈ seen, c.id < i
  floor : s.floor = ⊥ ∨ k ≤ s.buf.countP fun c => s.floor ≤ c.value

theorem minValue_le {buf : List (SamplingCandidate α)} (h : c ∈ buf) : minValue buf ≤ c.value := by
  unfold minValue
  have hm : c.value ∈ buf.map SamplingCandidate.value := mem_map_of_mem h
  cases he : (buf.map SamplingCandidate.value).min? with
  | none => exact bot_le
  | some m => exact (List.min?_eq_some_iff.mp he).2 _ hm

theorem Selecting.step (nth : Lib.NthElement (SamplingCandidate α)) {i : Nat}
    {seen : List (SamplingCandidate α)} {s : Scratch α} (h : Selecting k i seen s) (hk : 1 ≤ k)
    (hcap : k ≤ cap) (hi : i < 2 ^ 31) (x : α) :
    Selecting k (i + 1) (seen ++ above [⟨x, i⟩]) (topKStep nth cap k i x s) := by
  have hids : ∀ c ∈ seen ++ above [⟨x, (i : Int)⟩], c.id < ((i + 1 : Nat) : Int) := by
    intro c hc
    rcases mem_append.mp hc with hc | hc
    · have := h.ids c hc
      omega
    have hc' := mem_singleton.mp (mem_of_mem_filter hc)
    rw [hc']
    push_cast
    omega
  unfold topKStep
  rw [toInt32_of_lt hi]
  split
  next hx =>
    have hbot : ⊥ < x := lt_of_le_of_lt bot_le hx
    have hab : above [(⟨x, i⟩ : SamplingCandidate α)] = [⟨x, i⟩] := by simp [above, hbot]
    rw [hab] at hids ⊢
    have hnew : (⟨x, i⟩ : SamplingCandidate α) ∉ seen := by
      intro hm
      exact lt_irrefl _ (h.ids _ hm)
    have hpush := h.keeps.push hnew
    dsimp only
    split
    next hlen =>
      have hle : k ≤ (s.buf ++ [(⟨x, i⟩ : SamplingCandidate α)]).length := by omega
      refine ⟨hpush.cut nth hk hle, hids, .inr ?_⟩
      apply le_of_eq
      rw [countP_eq_length.mpr, nth.cut_length hle]
      intro c hc
      simpa using minValue_le hc
    refine ⟨hpush, hids, h.floor.imp_right ?_⟩
    intro hf
    exact hf.trans (sublist_append_left s.buf _).countP_le
  next hx =>
    rcases h.floor with hf | hf
    · have hab : above [(⟨x, i⟩ : SamplingCandidate α)] = [] := by
        rw [hf] at hx
        simp [above, not_bot_lt_iff.mp hx]
      rw [hab] at hids ⊢
      rw [append_nil] at hids ⊢
      exact ⟨h.keeps, hids, .inl hf⟩
    refine ⟨?_, hids, .inr hf⟩
    have hbeaten : k ≤ Lib.rank s.buf ⟨x, i⟩ := by
      refine hf.trans (countP_mono_left ?_)
      intro c hc hv
      simp only [decide_eq_true_eq] at hv ⊢
      have hid := h.ids c (h.keeps.subset c hc)
      rw [lt_iff_before]
      simp only [before, Bool.or_eq_true, Bool.and_eq_true, decide_eq_true_eq]
      rcases ((not_lt.mp hx).trans hv).lt_or_eq with hlt | heq
      · exact .inl hlt
      · exact .inr ⟨heq.symm, hid⟩
    by_cases hbot : ⊥ < x
    · have hab : above [(⟨x, i⟩ : SamplingCandidate α)] = [⟨x, i⟩] := by simp [above, hbot]
      rw [hab]
      exact h.keeps.skip hbeaten
    have hab : above [(⟨x, i⟩ : SamplingCandidate α)] = [] := by
      simp [above, not_bot_lt_iff.mp hbot]
    rw [hab, append_nil]
    exact h.keeps

theorem above_cons (c : SamplingCandidate α) (l : List (SamplingCandidate α)) :
    above (c :: l) = above [c] ++ above l := by
  unfold above
  rw [← filter_append]
  rfl

theorem Selecting.loop (nth : Lib.NthElement (SamplingCandidate α)) (hk : 1 ≤ k)
    (hcap : k ≤ cap) (xs : List α) : ∀ {i : Nat} {seen : List (SamplingCandidate α)}
    {s : Scratch α}, Selecting k i seen s → i + xs.length ≤ 2 ^ 31 →
      Selecting k (i + xs.length) (seen ++ above (candidatesFrom i xs))
        (topKLoop nth cap k i xs s) := by
  induction xs with
  | nil =>
    intro i seen s h _
    simpa [candidatesFrom, topKLoop, above] using h
  | cons x xs ih =>
    intro i seen s h hlen
    simp only [length_cons] at hlen ⊢
    have hs := ih (h.step nth hk hcap (by omega) x) (by omega)
    rw [candidatesFrom, above_cons, topKLoop, ← append_assoc]
    have he : i + (xs.length + 1) = i + 1 + xs.length := by omega
    rw [he]
    exact hs

theorem above_length (xs : List α) : ∀ i,
    (above (candidatesFrom i xs)).length = xs.countP (⊥ < ·) := by
  induction xs with
  | nil => intro i; rfl
  | cons x xs ih =>
    intro i
    rw [candidatesFrom, above_cons, length_append, ih, countP_cons]
    by_cases hx : ⊥ < x <;> simp [above, hx, Nat.add_comm]

theorem rank_above_iff {l : List (SamplingCandidate α)} (hn : l.Nodup)
    (hmore : k < (above l).length) :
    c ∈ above l ∧ Lib.rank (above l) c < k ↔ c ∈ l ∧ Lib.rank l c < k := by
  have hsub : ∀ x ∈ above l, x ∈ l := fun x hx => mem_of_mem_filter hx
  have hna : (above l).Nodup := hn.filter _
  constructor
  · intro ⟨hc, hr⟩
    refine ⟨hsub c hc, lt_of_le_of_lt (Lib.rank_le_of_subset hn ?_) hr⟩
    intro x hx hxc
    have hcv : ⊥ < c.value := by simpa [above] using (mem_filter.mp hc).2
    refine mem_filter.mpr ⟨hx, ?_⟩
    rw [lt_iff_before] at hxc
    simp only [before, Bool.or_eq_true, Bool.and_eq_true, decide_eq_true_eq] at hxc ⊢
    rcases hxc with hxc | hxc
    · exact hcv.trans hxc
    rw [hxc.1]
    exact hcv
  intro ⟨hc, hr⟩
  have hle : Lib.rank (above l) c ≤ Lib.rank l c :=
    Lib.rank_le_of_subset hna fun x hx _ => hsub x hx
  refine ⟨?_, by omega⟩
  by_contra hnot
  have hcv : c.value = ⊥ := by
    simp only [above, mem_filter, decide_eq_true_eq, not_and, not_bot_lt_iff] at hnot
    exact hnot hc
  have hall : Lib.rank (above l) c = (above l).length := by
    apply Lib.rank_eq_length
    intro x hx
    have hxv : ⊥ < x.value := by simpa [above] using (mem_filter.mp hx).2
    rw [lt_iff_before]
    simp [before, hcv, hxv]
  omega

theorem topKIn_isFirst (nth : Lib.NthElement (SamplingCandidate α)) (hk : 1 ≤ k)
    (hcap : k ≤ cap) (logits : Logits α) (hmore : k < logits.values.countP (⊥ < ·)) :
    IsFirst k logits (topKIn nth cap k logits) := by
  have hstart : Selecting k 0 [] (⟨[], ⊥⟩ : Scratch α) :=
    ⟨⟨nodup_nil, by simp, by simp⟩, by simp, .inl rfl⟩
  have hend := (hstart.loop nth hk hcap logits.values (by
    have := logits.numbered
    omega)).keeps
  have hnodup := candidatesFrom_nodup logits.values 0
  have hna : (above (candidatesFrom 0 logits.values)).Nodup := hnodup.filter _
  have habove : k < (above (candidatesFrom 0 logits.values)).length := by
    rw [above_length]
    exact hmore
  have hfull : ∀ {buf : List (SamplingCandidate α)},
      Lib.Keeps k (above (candidatesFrom 0 logits.values)) buf → buf.length = k →
      IsFirst k logits buf := by
    intro buf hb hlen
    refine ⟨hb.nodup, hlen, fun c => ?_⟩
    rw [hb.exact_of_length hlen hna]
    exact rank_above_iff hnodup habove
  unfold topKIn
  dsimp only
  split
  next hlong =>
    exact hfull (hend.cut nth hk hlong.le) (nth.cut_length hlong.le)
  rename_i hshort
  refine hfull hend (le_antisymm (not_lt.mp hshort) ?_)
  -- With fewer than `k` kept nothing was left out, and more than `k` were seen.
  by_contra hlt
  have hall : ∀ c ∈ above (candidatesFrom 0 logits.values),
      c ∈ (topKLoop nth cap k 0 logits.values ⟨[], ⊥⟩).buf := by
    intro c hc
    by_contra hnot
    have := (hend.beaten c hc hnot).trans countP_le_length
    omega
  have := (List.Nodup.subperm hna hall).length_le
  omega

/-- Top-k selection is exact, for any capacity that holds `k` and for the code's own. -/
theorem topK_exact (nth : Lib.NthElement (SamplingCandidate α)) (k : Nat) (hk : 1 ≤ k)
    (logits : Logits α) (hmore : k < logits.values.countP (⊥ < ·)) :
    IsFirst k logits (topK nth k logits) ∧
    ∀ cap, k ≤ cap → IsFirst k logits (topKIn nth cap k logits) :=
  ⟨topKIn_isFirst nth hk (by omega) logits hmore,
    fun _ hcap => topKIn_isFirst nth hk hcap logits hmore⟩

theorem topK_exact_ties : IsFirst 2 (⟨[0, 5, 3, 5, 5, 1], by decide⟩ : Logits Nat)
      (topKIn (Lib.NthElement.bySort _) 3 2 ⟨[0, 5, 3, 5, 5, 1], by decide⟩) :=
  (topK_exact (Lib.NthElement.bySort _) 2 (by decide) ⟨[0, 5, 3, 5, 5, 1], by decide⟩
    (by decide)).2 3 (by decide)

end TopK
end JitLlm.Execution
