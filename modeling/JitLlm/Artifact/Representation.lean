import JitLlm.Artifact.Open

/-!
# `artifact/representation.cc` — what a tensor's bytes are

A descriptor is read rule for rule, and gives the bytes a tensor takes and the bytes a backend may
read of it. Sizes are of 64 bits, and saturate at each step: so the whole is the exact size, or the
largest count.
-/

namespace JitLlm.Artifact

open Base Lib

/-! ## The tables -/

structure GgmlType where
  name : String
  id : Nat
  blockElements : Nat
  blockBytes : Nat

def qk : Nat := 256

def ggmlTypes : List GgmlType := [
  ⟨"F32", 0, 1, 4⟩,
  ⟨"F16", 1, 1, 2⟩,
  ⟨"Q4_0", 2, 32, 18⟩,
  ⟨"Q4_1", 3, 32, 20⟩,
  ⟨"Q5_0", 6, 32, 22⟩,
  ⟨"Q5_1", 7, 32, 24⟩,
  ⟨"Q8_0", 8, 32, 34⟩,
  ⟨"Q8_1", 9, 32, 40⟩,
  ⟨"Q2_K", 10, qk, 2 + 2 + qk / 16 + qk / 4⟩,
  ⟨"Q3_K", 11, qk, 2 + qk / 4 + qk / 8 + 12⟩,
  ⟨"Q4_K", 12, qk, 2 + 2 + qk / 2 + 12⟩,
  ⟨"Q5_K", 13, qk, 2 + 2 + qk / 2 + qk / 8 + 12⟩,
  ⟨"Q6_K", 14, qk, 2 + qk / 2 + qk / 4 + qk / 16⟩,
  ⟨"Q8_K", 15, qk, 4 + qk + qk / 8⟩,
  ⟨"IQ2_XXS", 16, qk, 2 + qk / 4⟩,
  ⟨"IQ2_XS", 17, qk, 2 + qk / 4 + qk / 32⟩,
  ⟨"IQ3_XXS", 18, qk, 2 + qk / 4 + qk / 8⟩,
  ⟨"IQ1_S", 19, qk, 2 + qk / 8 + qk / 16⟩,
  ⟨"IQ4_NL", 20, 32, 18⟩,
  ⟨"IQ3_S", 21, qk, 2 + qk / 4 + qk / 8 + qk / 32 + 4⟩,
  ⟨"IQ2_S", 22, qk, 2 + qk / 4 + qk / 16⟩,
  ⟨"IQ4_XS", 23, qk, 2 + 2 + qk / 2 + qk / 64⟩,
  ⟨"I8", 24, 1, 1⟩,
  ⟨"I16", 25, 1, 2⟩,
  ⟨"I32", 26, 1, 4⟩,
  ⟨"I64", 27, 1, 8⟩,
  ⟨"F64", 28, 1, 8⟩,
  ⟨"IQ1_M", 29, qk, qk / 8 + qk / 16 + qk / 32⟩,
  ⟨"BF16", 30, 1, 2⟩,
  ⟨"TQ1_0", 34, qk, 2 + 4 * 13⟩,
  ⟨"TQ2_0", 35, qk, 2 + 64⟩,
  ⟨"MXFP4", 39, 32, 17⟩,
  ⟨"NVFP4", 40, 64, 36⟩,
  ⟨"Q1_0", 41, 128, 18⟩,
  ⟨"Q2_0", 42, 64, 18⟩]

structure Dtype where
  name : String
  bytes : Nat

def dtypes : List Dtype := [
  ⟨"BOOL", 1⟩, ⟨"U8", 1⟩, ⟨"I8", 1⟩, ⟨"F8_E5M2", 1⟩, ⟨"F8_E4M3", 1⟩,
  ⟨"I16", 2⟩, ⟨"U16", 2⟩, ⟨"F16", 2⟩, ⟨"BF16", 2⟩, ⟨"I32", 4⟩,
  ⟨"U32", 4⟩, ⟨"F32", 4⟩, ⟨"I64", 8⟩, ⟨"U64", 8⟩, ⟨"F64", 8⟩]

def exl3Roles : List String := ["trellis", "suh", "svh", "mcg"]

def codebookMcg : String := "mcg"

def maxGgmlDims : Nat := 4

def maxShapeDims : Nat := 8

def ggmlRowPadding : Nat := 512

/-! ## Sizes -/

def mul (a b : Nat) : Nat := if a * b > uint64Max then uint64Max else a * b

theorem mul_le (a b : Nat) : mul a b ≤ uint64Max := by
  unfold mul
  split <;> omega

/-- `Product`'s loop. -/
def productFrom (out : Nat) : List Nat → Nat
  | [] => out
  | v :: vs => if v = 0 then 0 else productFrom (mul out v) vs

def product (values : List Nat) : Nat := productFrom 1 values

def ggmlRowBytes (type : GgmlType) (elements : Nat) : Nat :=
  mul (elements / type.blockElements) type.blockBytes

/-! ## Descriptors -/

/-- `Fail`, of no item. -/
def failRepr {α : Type} (reason : String) : Except Error α := .error ⟨.repr, reason, noItem⟩

/-- `FindGgmlType` of a value, if that is a string. -/
def findGgmlType (v : Value) : Option GgmlType :=
  v.string?.bind fun name => ggmlTypes.find? fun t => t.name = name

/-- `FindDtype` of a value, if that is a string. -/
def findDtype (v : Value) : Option Dtype :=
  v.string?.bind fun name => dtypes.find? fun d => d.name = name

/-- The dimensions of a list, each an integer no less than `least`. -/
def dimsOf (least : Int) (reason : String) : List Value → Except Error (List Nat)
  | [] => .ok []
  | v :: vs =>
    match v.integer? with
    | none => failRepr reason
    | some n =>
      if n < least then failRepr reason
      else do
        let rest ← dimsOf least reason vs
        .ok (n.toNat :: rest)

def parseGgml (v : Value) : Except Error Representation := do
  checkObject v ["family", "type", "ne"] [] "ggml representation keys" noItem
  match findGgmlType (get v "type") with
  | none => failRepr "unknown ggml type"
  | some type =>
    let ne := get v "ne"
    checkList ne 1 "ggml ne must be a list" noItem
    if ne.size > maxGgmlDims then failRepr "ggml ne has more than 4 dimensions"
    else do
      let dims ← dimsOf 1 "ggml ne must be positive integers" ne.items
      let row := dims.headD 0
      if row % type.blockElements ≠ 0 then failRepr "ggml row not a multiple of the block"
      else
        let bytes := mul (ggmlRowBytes type row) (product dims.tail)
        let readable :=
          if type.blockElements > 1 ∧ row % ggmlRowPadding ≠ 0 then
            satAdd bytes (ggmlRowBytes type (ggmlRowPadding - row % ggmlRowPadding))
          else bytes
        .ok { family := .ggml, type := type.name, dims, bytes, readable }

/-- `IsSixteenTimes`. The source divides the digits by 16, of which there are at most 20, so that
    neither the quotient nor the remainder wraps. -/
def isSixteenTimes (v : Value) (n : Nat) : Bool :=
  match v with
  | .integer k => k = 16 * n
  | _ => false

/-- `Exl3Consistent`: the part with a trellis's fields filled in, if it is supported. -/
def exl3Consistent (rep : Representation) (v : Value) : Option Representation :=
  let shape := rep.dims
  if rep.role = "trellis" then
    match (get v "k_bits").integer?, shape with
    | some k, [rows, columns, tile] =>
      if rep.type ≠ "I16" ∨ (get v "codebook").string?.getD "" ≠ codebookMcg ∨
          (k ≠ 4 ∧ k ≠ 5 ∧ k ≠ 6 ∧ k ≠ 8) ∨ tile ≠ 16 * k.toNat then none
      else if !isSixteenTimes (get v "in_features") rows ||
          !isSixteenTimes (get v "out_features") columns then none
      else some { rep with
        kBits := k.toNat
        inFeatures := mul 16 rows
        outFeatures := mul 16 columns
        codebook := codebookMcg }
    | _, _ => none
  else if rep.role = "suh" ∨ rep.role = "svh" then
    if rep.type = "F16" ∧ shape.length = 1 then some rep else none
  else if rep.role = "mcg" then
    if rep.type = "I32" ∧ shape = [] then some rep else none
  else none

def checkTensorKeys (v : Value) (exl3 : Bool) : Except Error Unit :=
  let trellis := (v.find "role").any fun role => isString role "trellis"
  if !exl3 then
    checkObject v ["family", "dtype", "shape"] [] "plain representation keys" noItem
  else if trellis then
    checkObject v ["family", "dtype", "shape", "role", "k_bits", "in_features", "out_features",
      "codebook"] [] "exl3 representation keys" noItem
  else
    checkObject v ["family", "dtype", "shape", "role"] [] "exl3 representation keys" noItem

def exl3Role (v : Value) : Except Error String :=
  match (get v "role").string? with
  | none => failRepr "exl3 role and codebook must be strings"
  | some role =>
    if (v.find "codebook").any fun codebook => codebook.string?.isNone then
      failRepr "exl3 role and codebook must be strings"
    else .ok (if role ∈ exl3Roles then role else "")

/-- `rep.role`, of a part that has one. -/
def tensorRole (v : Value) (family : Family) : Except Error String :=
  if family = .exl3 then exl3Role v else .ok ""

def checkExl3 (rep : Representation) (v : Value) : Except Error Representation :=
  if rep.family ≠ .exl3 then .ok rep
  else if rep.role = "" then failRepr "unsupported or inconsistent exl3 part"
  else
    match exl3Consistent rep v with
    | some rep => .ok rep
    | none => failRepr "unsupported or inconsistent exl3 part"

def parseTensor (v : Value) (family : Family) : Except Error Representation := do
  checkTensorKeys v (family = .exl3)
  match findDtype (get v "dtype") with
  | none => failRepr "unknown dtype"
  | some dtype => do
    let role ← tensorRole v family
    let shape := get v "shape"
    checkList shape 0 "shape must be a list" noItem
    if shape.size > maxShapeDims then failRepr "shape has more than 8 dimensions"
    else do
      let dims ← dimsOf 0 "shape must be non-negative integers" shape.items
      let bytes := mul (product dims) dtype.bytes
      let rep ← checkExl3 { family, type := dtype.name, dims, bytes, readable := bytes, role } v
      if rep.bytes = 0 then failRepr "empty tensor" else .ok rep

def parseRepresentation (v : Value) : Except Error Representation :=
  if !v.isObject then failRepr "representation is not an object"
  else
    match (v.find "family").bind Value.string? with
    | none => failRepr "representation family must be a string"
    | some "ggml" => parseGgml v
    | some "exl3" => parseTensor v .exl3
    | some "plain" => parseTensor v .plain
    | some _ => failRepr "unknown representation family"

/-! ## Sizes are exact, or saturated -/

theorem mul_eq (a b : Nat) : mul a b = min uint64Max (a * b) := by
  unfold mul
  split <;> omega

theorem min_mul_min (m a b : Nat) : min m (min m a * b) = min m (a * b) := by
  by_cases ha : a ≤ m
  · rw [Nat.min_eq_right ha]
  rcases Nat.eq_zero_or_pos b with rfl | hb
  · rfl
  have hm : m ≤ m * b := Nat.le_mul_of_pos_right m hb
  have hab : m * b ≤ a * b := Nat.mul_le_mul_right b (by omega)
  rw [Nat.min_eq_left (by omega : m ≤ a)]
  omega

theorem mul_min (a b : Nat) : mul (min uint64Max a) (min uint64Max b) = min uint64Max (a * b) := by
  rw [mul_eq, min_mul_min, Nat.mul_comm, min_mul_min, Nat.mul_comm]

theorem productFrom_eq (out : Nat) (values : List Nat) (h : out ≤ uint64Max) :
    productFrom out values = min uint64Max (out * values.prod) := by
  induction values generalizing out with
  | nil =>
    rw [List.prod_nil, Nat.mul_one, Nat.min_eq_right h]
    rfl
  | cons v vs ih =>
    unfold productFrom
    split
    next hv => simp [hv]
    next hv => rw [ih _ (mul_le _ _), mul_eq, min_mul_min, List.prod_cons, Nat.mul_assoc]

theorem product_eq (values : List Nat) : product values = min uint64Max values.prod := by
  rw [product, productFrom_eq 1 values (by decide), Nat.one_mul]

/-- The bytes of `elements` in whole blocks. -/
def GgmlType.blocks (type : GgmlType) (elements : Nat) : Nat :=
  elements / type.blockElements * type.blockBytes

def typeOf (rep : Representation) : Option GgmlType := ggmlTypes.find? fun t => t.name = rep.type

def dtypeOf (rep : Representation) : Option Dtype := dtypes.find? fun d => d.name = rep.type

/-- A tensor's size: rows of whole blocks, or elements, times the other dimensions. -/
def exactBytes (rep : Representation) : Nat :=
  match rep.family with
  | .ggml => (typeOf rep).elim 0 fun type => type.blocks (rep.dims.headD 0) * rep.dims.tail.prod
  | _ => (dtypeOf rep).elim 0 fun dtype => rep.dims.prod * dtype.bytes

/-- What a backend may read past a quantized row: up to a multiple of the padding. -/
def overRead (rep : Representation) : Nat :=
  match rep.family with
  | .ggml => (typeOf rep).elim 0 fun type =>
    let past := rep.dims.headD 0 % ggmlRowPadding
    if type.blockElements > 1 ∧ past ≠ 0 then type.blocks (ggmlRowPadding - past) else 0
  | _ => 0

/-- The dimensions are those `v` lists; the sizes are exact, or saturated. -/
structure Sized (v : Value) (rep : Representation) : Prop where
  dims : (get v (if rep.family = .ggml then "ne" else "shape")).items.map Value.integer? =
    rep.dims.map fun n : Nat => some (n : Int)
  bytes : rep.bytes = min uint64Max (exactBytes rep)
  readable : rep.readable = min uint64Max (exactBytes rep + overRead rep)

variable {v : Value} {rep : Representation}

theorem Sized.readable_le (h : Sized v rep) : rep.bytes ≤ rep.readable := by
  rw [h.bytes, h.readable]
  omega

theorem dimsOf_ok {least : Int} {reason : String} {vs : List Value} {dims : List Nat}
    (hleast : 0 ≤ least) (h : dimsOf least reason vs = .ok dims) :
    vs.map Value.integer? = dims.map fun n : Nat => some (n : Int) := by
  induction vs generalizing dims with
  | nil =>
    cases h
    rfl
  | cons u us ih =>
    unfold dimsOf at h
    split at h
    · cases h
    rename_i n hn
    split at h
    · cases h
    obtain ⟨rest, hrest, h⟩ := bind_ok h
    cases h
    rw [List.map_cons, List.map_cons, ih hrest, hn, Int.toNat_of_nonneg (by omega)]

theorem findGgmlType_self {type : GgmlType} (h : findGgmlType v = some type) :
    ggmlTypes.find? (fun t => t.name = type.name) = some type := by
  obtain ⟨name, -, h⟩ := Option.bind_eq_some_iff.mp h
  have hname : type.name = name := by simpa using List.find?_some h
  rw [hname]
  exact h

theorem findDtype_self {dtype : Dtype} (h : findDtype v = some dtype) :
    dtypes.find? (fun d => d.name = dtype.name) = some dtype := by
  obtain ⟨name, -, h⟩ := Option.bind_eq_some_iff.mp h
  have hname : dtype.name = name := by simpa using List.find?_some h
  rw [hname]
  exact h

theorem ggmlRowBytes_eq (type : GgmlType) (n : Nat) :
    ggmlRowBytes type n = min uint64Max (type.blocks n) := mul_eq _ _

theorem parseGgml_sized (h : parseGgml v = .ok rep) : Sized v rep := by
  obtain ⟨_, -, h⟩ := bind_ok h
  split at h
  · cases h
  rename_i type htype
  obtain ⟨_, -, h⟩ := bind_ok h
  split at h
  · cases h
  obtain ⟨dims, hdims, h⟩ := bind_ok h
  simp only at h
  split at h
  · cases h
  cases h
  have hself := findGgmlType_self htype
  have hbytes : mul (ggmlRowBytes type (dims.headD 0)) (product dims.tail) =
      min uint64Max (type.blocks (dims.headD 0) * dims.tail.prod) := by
    rw [ggmlRowBytes_eq, product_eq, mul_min]
  refine ⟨dimsOf_ok (by decide) hdims, ?_, ?_⟩
  · simp only [exactBytes, typeOf, hself, Option.elim_some]
    exact hbytes
  simp only [exactBytes, overRead, typeOf, hself, Option.elim_some, hbytes]
  split
  · rw [ggmlRowBytes_eq, satAdd_eq]
    omega
  · rfl

/-- An EXL3 part's fields are filled in, and no other. -/
def SameSizes (rep rep' : Representation) : Prop :=
  rep'.family = rep.family ∧ rep'.type = rep.type ∧ rep'.dims = rep.dims ∧
    rep'.bytes = rep.bytes ∧ rep'.readable = rep.readable

theorem exl3Consistent_same {rep rep' : Representation} (h : exl3Consistent rep v = some rep') :
    SameSizes rep rep' := by
  unfold exl3Consistent at h
  unfold SameSizes
  grind

theorem checkExl3_same {rep rep' : Representation} (h : checkExl3 rep v = .ok rep') :
    SameSizes rep rep' := by
  unfold checkExl3 at h
  split at h
  · cases h
    exact ⟨rfl, rfl, rfl, rfl, rfl⟩
  split at h
  · cases h
  split at h
  next hcon =>
    cases h
    exact exl3Consistent_same hcon
  · cases h

theorem parseTensor_sized {family : Family} (hfamily : family ≠ .ggml)
    (h : parseTensor v family = .ok rep) : Sized v rep := by
  obtain ⟨_, -, h⟩ := bind_ok h
  split at h
  · cases h
  rename_i dtype hdtype
  obtain ⟨role, -, h⟩ := bind_ok h
  obtain ⟨_, -, h⟩ := bind_ok h
  split at h
  · cases h
  obtain ⟨dims, hdims, h⟩ := bind_ok h
  obtain ⟨_, hrep, h⟩ := bind_ok h
  split at h
  · cases h
  cases h
  obtain ⟨hfam, htype, hdim, hbytes, hread⟩ := checkExl3_same hrep
  simp only at hfam htype hdim hbytes hread
  have hsize : mul (product dims) dtype.bytes = min uint64Max (dims.prod * dtype.bytes) := by
    rw [mul_eq, product_eq, min_mul_min]
  have hexact : exactBytes rep = dims.prod * dtype.bytes ∧ overRead rep = 0 := by
    have hself := findDtype_self hdtype
    cases family with
    | ggml => exact absurd rfl hfamily
    | exl3 | plain => simp [exactBytes, overRead, dtypeOf, hfam, htype, hdim, hself]
  refine ⟨?_, ?_, ?_⟩
  · rw [hfam, if_neg hfamily, hdim]
    exact dimsOf_ok (by decide) hdims
  · rw [hbytes, hexact.1, hsize]
  · rw [hread, hexact.1, hexact.2, hsize, Nat.add_zero]

theorem parseRepresentation_sized (h : parseRepresentation v = .ok rep) : Sized v rep := by
  unfold parseRepresentation at h
  split at h
  · cases h
  split at h
  · cases h
  · exact parseGgml_sized h
  · exact parseTensor_sized (by decide) h
  · exact parseTensor_sized (by decide) h
  · cases h

end JitLlm.Artifact
