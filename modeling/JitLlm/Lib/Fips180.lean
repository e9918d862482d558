import Mathlib.Algebra.GroupWithZero.Nat
import Mathlib.Data.List.Basic

/-!
# FIPS 180-4: SHA-256 of a message

The standard's own terms, for messages of whole bytes: the functions of section 4.1.2, the
constants of 4.2.2 and 5.3.3 as the fractions of roots they are defined to be, the padding of
5.1.1 and the computation of 6.2.2.
-/

namespace JitLlm.Lib.Fips180

open List

abbrev Word := BitVec 32

/-! ## Functions -/

def ch (x y z : Word) : Word := (x &&& y) ^^^ (~~~x &&& z)

def maj (x y z : Word) : Word := (x &&& y) ^^^ (x &&& z) ^^^ (y &&& z)

/-- `Σ₀`. -/
def bigSigma0 (x : Word) : Word := x.rotateRight 2 ^^^ x.rotateRight 13 ^^^ x.rotateRight 22

/-- `Σ₁`. -/
def bigSigma1 (x : Word) : Word := x.rotateRight 6 ^^^ x.rotateRight 11 ^^^ x.rotateRight 25

/-- `σ₀`. -/
def sigma0 (x : Word) : Word := x.rotateRight 7 ^^^ x.rotateRight 18 ^^^ (x >>> 3)

/-- `σ₁`. -/
def sigma1 (x : Word) : Word := x.rotateRight 17 ^^^ x.rotateRight 19 ^^^ (x >>> 10)

/-! ## Constants -/

def primes : List Nat :=
  [2, 3, 5, 7, 11, 13, 17, 19, 23, 29, 31, 37, 41, 43, 47, 53, 59, 61, 67, 71, 73, 79, 83, 89, 97,
    101, 103, 107, 109, 113, 127, 131, 137, 139, 149, 151, 157, 163, 167, 173, 179, 181, 191, 193,
    197, 199, 211, 223, 227, 229, 233, 239, 241, 251, 257, 263, 269, 271, 277, 281, 283, 293, 307,
    311]

/-- The greatest `c + r` with `r` below `2 ^ bits` whose power `k` is at most `n`. -/
def root (k n : Nat) : Nat → Nat → Nat
  | 0, c => c
  | bits + 1, c => root k n bits (if (c + 2 ^ bits) ^ k ≤ n then c + 2 ^ bits else c)

/-- The first 32 bits of the fractional part of the root `k` of `p`. -/
def rootFraction (k p : Nat) : Word := BitVec.ofNat 32 (root k (p * 2 ^ (32 * k)) 40 0)

/-- The constant `K` of round `t`: from the cube root of a prime. -/
def roundConstant (t : Nat) : Word := rootFraction 3 (primes.getD t 0)

structure Words where
  a : Word
  b : Word
  c : Word
  d : Word
  e : Word
  f : Word
  g : Word
  h : Word
deriving DecidableEq

def initial : Words :=
  ⟨rootFraction 2 2, rootFraction 2 3, rootFraction 2 5, rootFraction 2 7, rootFraction 2 11,
    rootFraction 2 13, rootFraction 2 17, rootFraction 2 19⟩

/-! ## Padding -/

/-- The low `n` bytes of a number, the highest first. -/
def bigEndian (n v : Nat) : List UInt8 :=
  (List.range n).map fun i => UInt8.ofNat (v / 256 ^ (n - 1 - i))

/-- The smallest `k` with `l + 1 + k ≡ 448 (mod 512)`. -/
def zeroBits (l : Nat) : Nat := (959 - l % 512) % 512

/-- The zero bytes after the one that carries the `1` bit and the first seven zero bits. -/
def zeros (length : Nat) : Nat := (zeroBits (8 * length) - 7) / 8

/-- The message, a `1` bit, zero bits, and its length in bits as a 64-bit number. -/
def pad (m : List UInt8) : List UInt8 :=
  m ++ 0x80 :: List.replicate (zeros m.length) 0 ++ bigEndian 8 (8 * m.length)

/-! ## Computation -/

/-- Word `i` of a block, its bytes the highest first. -/
def wordAt (block : List UInt8) (i : Nat) : Word :=
  BitVec.ofNat 32 ((block.getD (4 * i) 0).toNat * 2 ^ 24 + (block.getD (4 * i + 1) 0).toNat * 2 ^ 16 +
    (block.getD (4 * i + 2) 0).toNat * 2 ^ 8 + (block.getD (4 * i + 3) 0).toNat)

/-- The message schedule `W`. -/
def schedule (block : List UInt8) (t : Nat) : Word :=
  if t < 16 then wordAt block t
  else sigma1 (schedule block (t - 2)) + schedule block (t - 7) + sigma0 (schedule block (t - 15)) +
    schedule block (t - 16)
termination_by t

def round (v : Words) (k w : Word) : Words :=
  let t1 := v.h + bigSigma1 v.e + ch v.e v.f v.g + k + w
  let t2 := bigSigma0 v.a + maj v.a v.b v.c
  ⟨t1 + t2, v.a, v.b, v.c, v.d + t1, v.e, v.f, v.g⟩

def Words.add (x y : Words) : Words :=
  ⟨x.a + y.a, x.b + y.b, x.c + y.c, x.d + y.d, x.e + y.e, x.f + y.f, x.g + y.g, x.h + y.h⟩

def compress (v : Words) (block : List UInt8) : Words :=
  v.add ((List.range 64).foldl (fun v t => round v (roundConstant t) (schedule block t)) v)

/-- The hash value after `n` blocks. -/
def hashBlocks : Nat → Words → List UInt8 → Words
  | 0, v, _ => v
  | n + 1, v, data => hashBlocks n (compress v (data.take 64)) (data.drop 64)

def Words.bytes (v : Words) : List UInt8 :=
  [v.a, v.b, v.c, v.d, v.e, v.f, v.g, v.h].flatMap fun w => bigEndian 4 w.toNat

def digest (m : List UInt8) : List UInt8 :=
  (hashBlocks ((pad m).length / 64) initial (pad m)).bytes

/-! ## Blocks one after another -/

theorem hashBlocks_add (n k : Nat) (v : Words) (data : List UInt8) :
    hashBlocks (n + k) v data = hashBlocks k (hashBlocks n v data) (data.drop (64 * n)) := by
  induction n generalizing v data with
  | zero => simp [hashBlocks]
  | succ n ih =>
    rw [Nat.succ_add]
    simp only [hashBlocks]
    rw [ih, drop_drop, Nat.mul_succ, Nat.add_comm (64 * n) 64]

variable {data : List UInt8}

theorem hashBlocks_append {n : Nat} (h : 64 * n ≤ data.length) (v : Words)
    (rest : List UInt8) : hashBlocks n v (data ++ rest) = hashBlocks n v data := by
  induction n generalizing v data with
  | zero => rfl
  | succ n ih =>
    simp only [hashBlocks]
    rw [take_append_of_le_length (by omega), drop_append_of_le_length (by omega)]
    exact ih (by rw [length_drop]; omega) _

def absorb (v : Words) (data : List UInt8) : Words × List UInt8 :=
  (hashBlocks (data.length / 64) v data, data.drop (64 * (data.length / 64)))

theorem absorb_left_lt (v : Words) (data : List UInt8) : (absorb v data).2.length < 64 := by
  unfold absorb
  rw [length_drop]
  omega

theorem absorb_append (v : Words) (m data : List UInt8) :
    absorb v (m ++ data) = absorb (absorb v m).1 ((absorb v m).2 ++ data) := by
  have hle : 64 * (m.length / 64) ≤ m.length := Nat.mul_div_le _ _
  have hcount : (m ++ data).length / 64 =
      m.length / 64 + ((m.drop (64 * (m.length / 64))) ++ data).length / 64 := by
    simp only [length_append, length_drop]
    omega
  unfold absorb
  rw [hcount, hashBlocks_add, hashBlocks_append hle, drop_append_of_le_length hle,
    Nat.mul_add, ← drop_drop, drop_append_of_le_length hle]

theorem absorb_short (v : Words) (h : data.length < 64) : absorb v data = (v, data) := by
  unfold absorb
  rw [Nat.div_eq_of_lt h]
  rfl

theorem absorb_block (v : Words) (h : 64 ≤ data.length) :
    absorb v data = absorb (compress v (data.take 64)) (data.drop 64) := by
  have hcount : data.length / 64 = (data.drop 64).length / 64 + 1 := by
    rw [length_drop]
    omega
  unfold absorb
  rw [hcount, drop_drop, Nat.mul_succ, Nat.add_comm (64 * _) 64]
  rfl

end JitLlm.Lib.Fips180
