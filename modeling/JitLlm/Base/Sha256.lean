import JitLlm.Lib.Fips180

/-!
# `base/sha256.cc` — streaming SHA-256

`buffer` is the part of the source's `buffer_` below `buffered_`. An object that is updated or
finished after `Finish` ends the process, which is `none` here.

However a message is cut into updates, the object stands where one update with all of it would
have brought it (`Absorbed`), and the padding is two more updates.
-/

namespace JitLlm.Base

open Lib List
open Lib.Fips180 (Word Words)

def kRound : List Word :=
  [0x428a2f98, 0x71374491, 0xb5c0fbcf, 0xe9b5dba5, 0x3956c25b, 0x59f111f1, 0x923f82a4, 0xab1c5ed5,
    0xd807aa98, 0x12835b01, 0x243185be, 0x550c7dc3, 0x72be5d74, 0x80deb1fe, 0x9bdc06a7, 0xc19bf174,
    0xe49b69c1, 0xefbe4786, 0x0fc19dc6, 0x240ca1cc, 0x2de92c6f, 0x4a7484aa, 0x5cb0a9dc, 0x76f988da,
    0x983e5152, 0xa831c66d, 0xb00327c8, 0xbf597fc7, 0xc6e00bf3, 0xd5a79147, 0x06ca6351, 0x14292967,
    0x27b70a85, 0x2e1b2138, 0x4d2c6dfc, 0x53380d13, 0x650a7354, 0x766a0abb, 0x81c2c92e, 0x92722c85,
    0xa2bfe8a1, 0xa81a664b, 0xc24b8b70, 0xc76c51a3, 0xd192e819, 0xd6990624, 0xf40e3585, 0x106aa070,
    0x19a4c116, 0x1e376c08, 0x2748774c, 0x34b0bcb5, 0x391c0cb3, 0x4ed8aa4a, 0x5b9cca4f, 0x682e6ff3,
    0x748f82ee, 0x78a5636f, 0x84c87814, 0x8cc70208, 0x90befffa, 0xa4506ceb, 0xbef9a3f7, 0xc67178f2]

def wide (byte : UInt8) : Word := BitVec.ofNat 32 byte.toNat

/-- `LoadBigEndian`, at some place of a block. -/
def loadBigEndian (block : List UInt8) (i : Nat) : Word :=
  (wide (block.getD i 0) <<< 24) ||| (wide (block.getD (i + 1) 0) <<< 16) |||
    (wide (block.getD (i + 2) 0) <<< 8) ||| wide (block.getD (i + 3) 0)

structure Sha256 where
  state : Words :=
    ⟨0x6a09e667, 0xbb67ae85, 0x3c6ef372, 0xa54ff53a, 0x510e527f, 0x9b05688c, 0x1f83d9ab, 0x5be0cd19⟩
  buffer : List UInt8 := []
  length : BitVec 64 := 0
  finished : Bool := false

namespace Sha256

/-- The second loop of `Block`: one more word of `w`. -/
def extend (w : List Word) (i : Nat) : List Word :=
  let at_ j := w.getD j 0
  let s0 := (at_ (i - 15)).rotateRight 7 ^^^ (at_ (i - 15)).rotateRight 18 ^^^ (at_ (i - 15) >>> 3)
  let s1 := (at_ (i - 2)).rotateRight 17 ^^^ (at_ (i - 2)).rotateRight 19 ^^^ (at_ (i - 2) >>> 10)
  w ++ [at_ (i - 16) + s0 + at_ (i - 7) + s1]

/-- `w`. -/
def words (block : List UInt8) : List Word :=
  (List.range' 16 48).foldl extend ((List.range 16).map fun i => loadBigEndian block (4 * i))

/-- The third loop of `Block`: one round. -/
def turn (w : List Word) (v : Words) (i : Nat) : Words :=
  let s1 := v.e.rotateRight 6 ^^^ v.e.rotateRight 11 ^^^ v.e.rotateRight 25
  let choose := (v.e &&& v.f) ^^^ (~~~v.e &&& v.g)
  let t1 := v.h + s1 + choose + kRound.getD i 0 + w.getD i 0
  let s0 := v.a.rotateRight 2 ^^^ v.a.rotateRight 13 ^^^ v.a.rotateRight 22
  let majority := (v.a &&& v.b) ^^^ (v.a &&& v.c) ^^^ (v.b &&& v.c)
  let t2 := s0 + majority
  ⟨t1 + t2, v.a, v.b, v.c, v.d + t1, v.e, v.f, v.g⟩

def block (state : Words) (block : List UInt8) : Words :=
  let v := (List.range 64).foldl (turn (words block)) state
  ⟨state.a + v.a, state.b + v.b, state.c + v.c, state.d + v.d, state.e + v.e, state.f + v.f,
    state.g + v.g, state.h + v.h⟩

/-- `Update`'s loop over whole blocks, which runs no more often than there are bytes. -/
def blocks : Nat → Words → List UInt8 → Words × List UInt8
  | 0, state, data => (state, data)
  | fuel + 1, state, data =>
    if data.length ≥ 64 then blocks fuel (block state (data.take 64)) (data.drop 64)
    else (state, data)

def update (s : Sha256) (bytes : List UInt8) : Option Sha256 :=
  if s.finished then none
  else if bytes.isEmpty then some s
  else
    let length := s.length + BitVec.ofNat 64 bytes.length
    if s.buffer.length > 0 then
      let take := min bytes.length (64 - s.buffer.length)
      let buffer := s.buffer ++ bytes.take take
      let data := bytes.drop take
      if buffer.length < 64 then some { s with buffer, length }
      else
        let (state, rest) := blocks data.length (block s.state buffer) data
        some { s with state, buffer := rest, length }
    else
      let (state, rest) := blocks bytes.length s.state bytes
      some { s with state, buffer := rest, length }

def kPad : List UInt8 := 0x80 :: List.replicate 63 0

/-- The four bytes `Finish` makes of a word. -/
def wordBytes (w : Word) : List UInt8 :=
  [UInt8.ofNat (w >>> 24).toNat, UInt8.ofNat (w >>> 16).toNat, UInt8.ofNat (w >>> 8).toNat,
    UInt8.ofNat w.toNat]

def finish (s : Sha256) : Option (List UInt8) :=
  if s.finished then none
  else do
    let bits := s.length * 8
    let pad := if s.buffer.length < 56 then 56 - s.buffer.length else 120 - s.buffer.length
    let s ← s.update (kPad.take pad)
    let length := (List.range 8).map fun i => UInt8.ofNat (bits >>> (56 - 8 * i)).toNat
    let s ← s.update length
    return [s.state.a, s.state.b, s.state.c, s.state.d, s.state.e, s.state.f, s.state.g,
      s.state.h].flatMap wordBytes

/-! ## A block -/

theorem kRound_eq (i : Nat) (h : i < 64) : kRound.getD i 0 = Fips180.roundConstant i := by
  have hall : ∀ i, i < 64 → kRound.getD i 0 = Fips180.roundConstant i := by decide +kernel
  exact hall i h

theorem initial_eq : ({} : Sha256).state = Fips180.initial := by decide +kernel

theorem or_bytes (a b c d : Nat) (hb : b < 256) (hc : c < 256) (hd : d < 256) :
    a <<< 24 ||| b <<< 16 ||| c <<< 8 ||| d = a * 2 ^ 24 + b * 2 ^ 16 + c * 2 ^ 8 + d := by
  have h1 : a <<< 24 ||| b <<< 16 = (a <<< 8 + b) <<< 16 := by
    rw [← Nat.shiftLeft_add_eq_or_of_lt (a := a) (show b <<< 16 < 2 ^ 24 by
      rw [Nat.shiftLeft_eq]; omega)]
    omega
  have h2 : (a <<< 8 + b) <<< 16 ||| c <<< 8 = ((a <<< 8 + b) <<< 8 + c) <<< 8 := by
    rw [← Nat.shiftLeft_add_eq_or_of_lt (show c <<< 8 < 2 ^ 16 by rw [Nat.shiftLeft_eq]; omega)]
    omega
  rw [h1, h2, ← Nat.shiftLeft_add_eq_or_of_lt (show d < 2 ^ 8 by omega)]
  omega

theorem toNat_wide_shiftLeft (a : UInt8) {k : Nat} (hk : k ≤ 24) :
    (wide a <<< k).toNat = a.toNat <<< k := by
  have ha := a.toNat_lt
  have hpow : 2 ^ k ≤ 2 ^ 24 := Nat.pow_le_pow_right (by decide) hk
  have hlt : a.toNat <<< k < 2 ^ 32 := by
    rw [Nat.shiftLeft_eq]
    calc a.toNat * 2 ^ k ≤ a.toNat * 2 ^ 24 := Nat.mul_le_mul_left _ hpow
      _ < 2 ^ 32 := by omega
  unfold wide
  rw [BitVec.toNat_shiftLeft, BitVec.toNat_ofNat, Nat.mod_eq_of_lt (a := a.toNat) (by omega),
    Nat.mod_eq_of_lt hlt]

theorem loadBigEndian_eq (block : List UInt8) (i : Nat) :
    loadBigEndian block (4 * i) = Fips180.wordAt block i := by
  unfold loadBigEndian Fips180.wordAt
  generalize block.getD (4 * i) 0 = a
  generalize block.getD (4 * i + 1) 0 = b
  generalize block.getD (4 * i + 2) 0 = c
  generalize block.getD (4 * i + 3) 0 = d
  have ha := a.toNat_lt
  have hb := b.toNat_lt
  have hc := c.toNat_lt
  have hd := d.toNat_lt
  have hwide : (wide d).toNat = d.toNat := by
    rw [wide, BitVec.toNat_ofNat, Nat.mod_eq_of_lt (by omega)]
  apply BitVec.eq_of_toNat_eq
  rw [BitVec.toNat_or, BitVec.toNat_or, BitVec.toNat_or, toNat_wide_shiftLeft a (by decide),
    toNat_wide_shiftLeft b (by decide), toNat_wide_shiftLeft c (by decide), hwide,
    or_bytes a.toNat b.toNat c.toNat d.toNat (by omega) (by omega) (by omega),
    BitVec.toNat_ofNat, Nat.mod_eq_of_lt (by omega)]

theorem extend_schedule (block : List UInt8) (n : Nat) :
    ((List.range' 16 n).foldl extend ((List.range 16).map fun i => loadBigEndian block (4 * i))) =
      (List.range (16 + n)).map (Fips180.schedule block) := by
  induction n with
  | zero =>
    refine map_congr_left fun i hi => ?_
    rw [loadBigEndian_eq]
    unfold Fips180.schedule
    rw [if_pos (List.mem_range.mp hi)]
  | succ n ih =>
    rw [List.range'_concat, foldl_append, ih, ← Nat.add_assoc, range_succ, map_append]
    have hat : ∀ j, j < 16 + n →
        ((List.range (16 + n)).map (Fips180.schedule block)).getD j 0 = Fips180.schedule block j := by
      intro j hj
      rw [getD_eq_getElem?_getD, getElem?_map, getElem?_range hj]
      rfl
    simp only [foldl_cons, foldl_nil, extend, Nat.one_mul, map_cons, map_nil]
    rw [hat _ (by omega), hat _ (by omega), hat _ (by omega), hat _ (by omega)]
    refine congrArg _ (congrArg (fun w => [w]) ?_)
    rw [Fips180.schedule.eq_def block (16 + n), if_neg (by omega)]
    unfold Fips180.sigma0 Fips180.sigma1
    ac_rfl

theorem block_eq (v : Words) (data : List UInt8) : block v data = Fips180.compress v data := by
  have hturn : ∀ (l : List Nat), (∀ i ∈ l, i < 64) → ∀ u, l.foldl (turn (words data)) u =
      l.foldl (fun v t => Fips180.round v (Fips180.roundConstant t) (Fips180.schedule data t)) u := by
    intro l hl u
    refine foldl_ext _ _ _ fun u i hi => ?_
    have hword : (words data).getD i 0 = Fips180.schedule data i := by
      unfold words
      rw [extend_schedule, getD_eq_getElem?_getD, getElem?_map, getElem?_range (hl i hi)]
      rfl
    unfold turn
    simp only [hword, kRound_eq i (hl i hi)]
    rfl
  unfold block Fips180.compress
  rw [hturn _ fun i hi => List.mem_range.mp hi]
  rfl

/-! ## Updates -/

theorem blocks_eq {fuel : Nat} {data : List UInt8} (h : data.length ≤ fuel) (v : Words) :
    blocks fuel v data = Fips180.absorb v data := by
  induction fuel generalizing v data with
  | zero =>
    rw [Fips180.absorb_short v (by omega)]
    rfl
  | succ fuel ih =>
    unfold blocks
    by_cases hlen : data.length ≥ 64
    · rw [if_pos hlen, Fips180.absorb_block v hlen, block_eq]
      exact ih (by rw [length_drop]; omega) _
    · rw [if_neg hlen, Fips180.absorb_short v (by omega)]

structure Absorbed (s : Sha256) (m : List UInt8) : Prop where
  absorbed : (s.state, s.buffer) = Fips180.absorb Fips180.initial m
  length : s.length = BitVec.ofNat 64 m.length
  finished : s.finished = false

theorem absorbed_new : Absorbed {} [] where
  absorbed := by rw [initial_eq]; rfl
  length := rfl
  finished := rfl

variable {s : Sha256} {m : List UInt8}

theorem Absorbed.buffer_lt (h : Absorbed s m) : s.buffer.length < 64 := by
  have hlt := Fips180.absorb_left_lt Fips180.initial m
  rw [← h.absorbed] at hlt
  exact hlt

theorem update_eq {bytes : List UInt8} (hfin : s.finished = false)
    (hbuf : s.buffer.length < 64) (hbytes : bytes ≠ []) : s.update bytes = some { s with
      state := (Fips180.absorb s.state (s.buffer ++ bytes)).1
      buffer := (Fips180.absorb s.state (s.buffer ++ bytes)).2
      length := s.length + BitVec.ofNat 64 bytes.length } := by
  have hempty : bytes.isEmpty = false := List.isEmpty_eq_false_iff.mpr hbytes
  unfold update
  simp only [hfin, hempty, Bool.false_eq_true, if_false]
  by_cases hnil : s.buffer.length > 0
  · rw [if_pos hnil]
    generalize htake : min bytes.length (64 - s.buffer.length) = take
    have hsplit : s.buffer ++ bytes = (s.buffer ++ bytes.take take) ++ bytes.drop take := by
      rw [append_assoc, take_append_drop]
    have hlen : (s.buffer ++ bytes.take take).length = s.buffer.length + take := by
      rw [length_append, length_take]
      omega
    by_cases hfull : (s.buffer ++ bytes.take take).length < 64
    · have hdrop : bytes.drop take = [] := by
        rw [drop_eq_nil_iff]
        omega
      rw [if_pos hfull, hsplit, hdrop, append_nil, Fips180.absorb_short _ hfull]
    have hblock : (s.buffer ++ bytes.take take).length = 64 := by omega
    have habs : Fips180.absorb s.state (s.buffer ++ bytes) =
        Fips180.absorb (Fips180.compress s.state (s.buffer ++ bytes.take take))
          (bytes.drop take) := by
      rw [Fips180.absorb_block _ (by rw [hsplit, length_append]; omega), hsplit,
        take_left' hblock, drop_left' hblock]
    rw [if_neg hfull, blocks_eq (Nat.le_refl _), block_eq, habs]
  have hbuf : s.buffer = [] := eq_nil_of_length_eq_zero (by omega)
  rw [if_neg hnil, blocks_eq (Nat.le_refl _), hbuf, nil_append]

theorem Absorbed.update (h : Absorbed s m) (bytes : List UInt8) :
    ∃ s', s.update bytes = some s' ∧ Absorbed s' (m ++ bytes) := by
  by_cases hbytes : bytes = []
  · refine ⟨s, ?_, ?_⟩
    · unfold Sha256.update
      rw [h.finished, hbytes]
      rfl
    rw [hbytes, append_nil]
    exact h
  refine ⟨_, update_eq h.finished h.buffer_lt hbytes, ?_, ?_, h.finished⟩
  · have hstate := congrArg Prod.fst h.absorbed
    have hbuf := congrArg Prod.snd h.absorbed
    simp only at hstate hbuf
    rw [Fips180.absorb_append Fips180.initial m bytes, ← hstate, ← hbuf]
  show s.length + BitVec.ofNat 64 bytes.length = _
  rw [h.length, length_append, BitVec.ofNat_add]

theorem updates_absorbed (h : Absorbed s m) (parts : List (List UInt8)) :
    ∃ s', parts.foldlM Sha256.update s = some s' ∧ Absorbed s' (m ++ parts.flatten) := by
  induction parts generalizing s m with
  | nil => exact ⟨s, rfl, by simpa using h⟩
  | cons bytes parts ih =>
    obtain ⟨s1, hupd, h1⟩ := h.update bytes
    obtain ⟨s', hfold, h'⟩ := ih h1
    refine ⟨s', ?_, ?_⟩
    · rw [foldlM_cons, hupd]
      exact hfold
    rw [flatten_cons, ← append_assoc]
    exact h'

/-! ## The digest -/

theorem wordBytes_eq (w : Word) : wordBytes w = Fips180.bigEndian 4 w.toNat := by
  unfold wordBytes Fips180.bigEndian
  simp only [BitVec.toNat_ushiftRight, Nat.shiftRight_eq_div_pow, List.range, List.range.loop,
    map_cons, map_nil, Nat.reduceSub, Nat.reducePow, Nat.div_one]

theorem lengthBytes_eq {bits : BitVec 64} {v : Nat} (h : bits.toNat = v) :
    ((List.range 8).map fun i => UInt8.ofNat (bits >>> (56 - 8 * i)).toNat) =
      Fips180.bigEndian 8 v := by
  refine map_congr_left fun i hi => ?_
  have hpow : 2 ^ (56 - 8 * i) = 256 ^ (8 - 1 - i) := by
    rw [show 56 - 8 * i = 8 * (8 - 1 - i) by omega, Nat.pow_mul]
  rw [BitVec.toNat_ushiftRight, Nat.shiftRight_eq_div_pow, h, hpow]

theorem kPad_take (n : Nat) : kPad.take (if n % 64 < 56 then 56 - n % 64 else 120 - n % 64) =
      0x80 :: List.replicate (Fips180.zeros n) 0 := by
  have hcount : (if n % 64 < 56 then 56 - n % 64 else 120 - n % 64) = Fips180.zeros n + 1 := by
    unfold Fips180.zeros Fips180.zeroBits
    split <;> omega
  have hmin : min (Fips180.zeros n) 63 = Fips180.zeros n := by
    unfold Fips180.zeros Fips180.zeroBits
    omega
  rw [hcount]
  unfold kPad
  rw [take_succ_cons, take_replicate, hmin]

theorem Absorbed.buffer_length (h : Absorbed s m) : s.buffer.length = m.length % 64 := by
  have hbuf := congrArg Prod.snd h.absorbed
  simp only [Fips180.absorb] at hbuf
  rw [hbuf, length_drop]
  omega

theorem Absorbed.finish (h : Absorbed s m)
    (hlen : m.length < 2 ^ 61) : s.finish = some (Fips180.digest m) := by
  have hbits : (s.length * 8).toNat = 8 * m.length := by
    rw [h.length, BitVec.toNat_mul, BitVec.toNat_ofNat]
    simp only [BitVec.ofNat_eq_ofNat, BitVec.toNat_ofNat]
    omega
  obtain ⟨s1, hpad, h1⟩ := h.update (0x80 :: List.replicate (Fips180.zeros m.length) 0)
  obtain ⟨s2, hlast, h2⟩ := h1.update (Fips180.bigEndian 8 (8 * m.length))
  unfold Sha256.finish
  rw [h.finished, h.buffer_length]
  simp only [Bool.false_eq_true, if_false]
  rw [kPad_take m.length, lengthBytes_eq hbits, hpad, Option.bind_eq_bind, Option.bind_some, hlast]
  have hstate := congrArg Prod.fst h2.absorbed
  have hmes : m ++ 0x80 :: List.replicate (Fips180.zeros m.length) 0 ++
      Fips180.bigEndian 8 (8 * m.length) = Fips180.pad m := rfl
  rw [hmes] at hstate
  simp only [Fips180.absorb] at hstate
  rw [Option.bind_some, hstate]
  unfold Fips180.digest Words.bytes
  exact congrArg some (flatMap_congr fun w _ => wordBytes_eq w)

/-- However a message is cut into updates, `Finish` answers its digest. -/
theorem finish_digest (parts : List (List UInt8)) (hlength : parts.flatten.length < 2 ^ 61) :
    (parts.foldlM Sha256.update {}).bind Sha256.finish = some (Fips180.digest parts.flatten) := by
  obtain ⟨s, hfold, h⟩ := updates_absorbed absorbed_new parts
  rw [hfold, Option.bind_some]
  exact h.finish hlength

/-- `"abc"` in three updates, one of them empty. -/
theorem finish_digest_abc :
    (([[0x61], [], [0x62, 0x63]] : List (List UInt8)).foldlM Sha256.update {}).bind Sha256.finish =
      some (Fips180.digest [0x61, 0x62, 0x63]) :=
  finish_digest [[0x61], [], [0x62, 0x63]] (by decide)

example : (([[0x61], [], [0x62, 0x63]] : List (List UInt8)).foldlM Sha256.update {}).bind
    Sha256.finish = some [0xba, 0x78, 0x16, 0xbf, 0x8f, 0x01, 0xcf, 0xea, 0x41, 0x41, 0x40, 0xde,
      0x5d, 0xae, 0x22, 0x23, 0xb0, 0x03, 0x61, 0xa3, 0x96, 0x17, 0x7a, 0x9c, 0xb4, 0x10, 0xff, 0x61,
      0xf2, 0x00, 0x15, 0xad] := by decide +kernel

end Sha256
end JitLlm.Base
