import JitLlm.Artifact.Header
import JitLlm.Lib.Fips180
import Mathlib.Data.List.Pairwise
import Mathlib.Data.List.Sort

/-!
# Implementations and plans

`execution/registry.cc`: the implementations a build compiled, and plans that name one for each of
their operations with the identity it had. What an identity is the digest of determines every field
it is built from, and a plan resolves just where every step's implementation is still the one it
names.
-/

namespace JitLlm.Execution

open Lib List
open Artifact (ascii littleEndian)

inductive Operation where
  | rmsNorm | rmsNormMul | add | mul | matMul | getRows | setRows | rope | ropeSetRows | softMax
  | cont | swiGlu | mulMatAdd | mulMatGlu | quantLinear | quantMultiLinear | convert | flashAttn
  | biasAdd | mulMatId | sub | div | scale | unary | clamp | fill | «repeat» | concat | sumRows
  | argsort | topK | swiGluClamp | ssmConv | gatedDeltaNet | lightningIndexer | hcComb | hcPre
  | hcPost | hcCombine | hcNorm | hcMix | moeGlu | moeCombine | moeRoute | quantize | normGate
  | headNormRope | layerNormModulate | gatedResidual | gatedResidualNorm | eulerStep | conv2d
  | channelNorm | upsample | dupUpAdd
deriving DecidableEq

def operationName : Operation → String
  | .rmsNorm => "rms_norm" | .rmsNormMul => "rms_norm_mul" | .add => "add" | .mul => "mul"
  | .matMul => "mul_mat" | .getRows => "get_rows" | .setRows => "set_rows" | .rope => "rope"
  | .ropeSetRows => "rope_set_rows" | .softMax => "soft_max" | .cont => "cont"
  | .swiGlu => "swiglu" | .mulMatAdd => "mul_mat_add" | .mulMatGlu => "mul_mat_glu"
  | .quantLinear => "quant_linear" | .quantMultiLinear => "quant_multi_linear"
  | .convert => "convert" | .flashAttn => "flash_attn" | .biasAdd => "bias_add"
  | .mulMatId => "mul_mat_id" | .sub => "sub" | .div => "div" | .scale => "scale"
  | .unary => "unary" | .clamp => "clamp" | .fill => "fill" | .repeat => "repeat"
  | .concat => "concat" | .sumRows => "sum_rows" | .argsort => "argsort" | .topK => "top_k"
  | .swiGluClamp => "swiglu_clamp" | .ssmConv => "ssm_conv" | .gatedDeltaNet => "gated_delta_net"
  | .lightningIndexer => "lightning_indexer" | .hcComb => "dsv4_hc_comb" | .hcPre => "dsv4_hc_pre"
  | .hcPost => "dsv4_hc_post" | .hcCombine => "hc_combine" | .hcNorm => "hc_norm"
  | .hcMix => "hc_mix" | .moeGlu => "moe_glu" | .moeCombine => "moe_combine"
  | .moeRoute => "moe_route" | .quantize => "quantize" | .normGate => "norm_gate"
  | .headNormRope => "head_norm_rope" | .layerNormModulate => "layer_norm_modulate"
  | .gatedResidual => "gated_residual" | .gatedResidualNorm => "gated_residual_norm"
  | .eulerStep => "euler_step" | .conv2d => "conv2d" | .channelNorm => "channel_norm"
  | .upsample => "upsample" | .dupUpAdd => "dup_up_add"

/-- The bytes of a `std::string`. -/
structure Text where
  bytes : List UInt8
  size : bytes.length < 2 ^ 64
deriving DecidableEq

structure Implementation where
  name : Text
  operation : Operation
  source : Text
  revision : Text
  build : Text
  variant : Text
deriving DecidableEq

/-! ## Identities -/

/-- `Field`: the length, then the text. -/
def field (text : List UInt8) : List UInt8 := littleEndian text.length ++ text

/-- What `IdentityOf` hashes. -/
def Implementation.hashed (i : Implementation) : List UInt8 :=
  field (ascii "jitllm.implementation.v0") ++ (field i.name.bytes ++
    (field (ascii (operationName i.operation)) ++ (field i.source.bytes ++
      (field i.revision.bytes ++ (field i.build.bytes ++ field i.variant.bytes)))))

def Sha256Digest : Type := { bytes : List UInt8 // bytes.length = 32 }
deriving DecidableEq

def sha256 (bytes : List UInt8) : Sha256Digest :=
  ⟨Fips180.digest bytes, by simp [Fips180.digest, Fips180.Words.bytes, Fips180.bigEndian]⟩

def identityOf (i : Implementation) : Sha256Digest := sha256 i.hashed

structure Step where
  operation : Operation
  implementation : Text
  identity : Sha256Digest

def Step.hashed (s : Step) : List UInt8 :=
  field (ascii (operationName s.operation)) ++ (field s.implementation.bytes ++ s.identity.val)

/-- What `Plan::Build` hashes. -/
def hashedPlan (steps : List Step) : List UInt8 :=
  field (ascii "jitllm.plan.v0") ++ (field (ascii (toString steps.length)) ++
    steps.flatMap Step.hashed)

/-! ## The registry -/

inductive PlanError where
  | invalid | unsupported | stale | wrongOperation

structure PlanRejection where
  error : PlanError
  operation : Nat
  detail : List UInt8

def rejected {α : Type} (error : PlanError) (operation : Nat) (detail : List UInt8) :
    Except PlanRejection α := .error ⟨error, operation, detail⟩

def kMaxImplementations : Nat := 256

def kMaxName : Nat := 128

def kMaxOperations : Nat := 2 ^ 16

def validName (name : List UInt8) : Bool :=
  !name.isEmpty && name.length ≤ kMaxName && name.all fun c =>
    (0x61 ≤ c && c ≤ 0x7a) || (0x30 ≤ c && c ≤ 0x39) || c == 0x2e || c == 0x5f

/-- The indices of the implementations in the order of their names. -/
def byNameOf (is : List Implementation) : List (Fin is.length) :=
  (finRange is.length).insertionSort fun i j => is[i].name.bytes ≤ is[j].name.bytes

/-- The index of an implementation with the name of the one after it. -/
def adjacentFind (is : List Implementation) : List (Fin is.length) → Option (Fin is.length)
  | i :: j :: rest =>
    if is[i].name = is[j].name then some i else adjacentFind is (j :: rest)
  | _ => none

/-- `Registry`; the identities it keeps are `IdentityOf` its implementations. -/
structure Registry where
  implementations : List Implementation
  named : ∀ i ∈ implementations, validName i.name.bytes = true
  distinct : adjacentFind implementations (byNameOf implementations) = none

namespace Registry

def create (is : List Implementation) : Except PlanRejection Registry :=
  if is.length > kMaxImplementations then
    rejected .invalid 0 (ascii s!"{is.length} implementations, more than {kMaxImplementations}")
  else if hnamed : ∀ i ∈ is, validName i.name.bytes = true then
    match hdistinct : adjacentFind is (byNameOf is) with
    | some i => rejected .invalid 0 (ascii "two implementations named " ++ is[i].name.bytes)
    | none => .ok ⟨is, hnamed, hdistinct⟩
  else rejected .invalid 0 (ascii ("an implementation name that is empty, too long " ++
    "or not lower-case letters, digits, '.' and '_'"))

variable (r : Registry)

abbrev Index : Type := Fin r.implementations.length

def find (name : Text) : Option r.Index :=
  match (byNameOf r.implementations).find? fun i => ¬ r.implementations[i].name.bytes < name.bytes with
  | some i => if r.implementations[i].name = name then some i else none
  | none => none

def lookup (operation : Operation) (name : Text) (position : Nat) :
    Except PlanRejection r.Index :=
  if !validName name.bytes then
    rejected .invalid position (ascii "not an implementation name")
  else
    match r.find name with
    | none => rejected .unsupported position
        (ascii "no implementation " ++ name.bytes ++ ascii " in this build")
    | some found =>
      let implemented := r.implementations[found].operation
      if implemented ≠ operation then
        rejected .wrongOperation position (name.bytes ++ ascii " implements " ++
          ascii (operationName implemented) ++ ascii ", not " ++ ascii (operationName operation))
      else .ok found

end Registry

/-! ## Plans -/

structure Choice where
  operation : Operation
  implementation : Text

structure Plan where
  steps : List Step
  identity : Sha256Digest

structure BoundPlan where
  bound : List Implementation
  identity : Sha256Digest

def toHex (digest : Sha256Digest) : List UInt8 :=
  digest.val.flatMap fun byte => ascii (String.ofList (Nat.toDigits 16 (256 + byte.toNat)).tail)

namespace Registry

variable (r : Registry)

def stepsFrom (position : Nat) : List Choice → Except PlanRejection (List Step)
  | [] => .ok []
  | choice :: rest => do
    let found ← r.lookup choice.operation choice.implementation position
    let i := r.implementations[found]
    return ⟨choice.operation, i.name, identityOf i⟩ :: (← stepsFrom (position + 1) rest)

/-- `Plan::Build`. -/
def plan (choices : List Choice) : Except PlanRejection Plan :=
  if choices.isEmpty ∨ choices.length > kMaxOperations then
    rejected .invalid 0 (ascii s!"{choices.length} operations; a plan has 1 to {kMaxOperations}")
  else do
    let steps ← r.stepsFrom 0 choices
    return ⟨steps, sha256 (hashedPlan steps)⟩

def bindFrom (position : Nat) : List Step → Except PlanRejection (List Implementation)
  | [] => .ok []
  | step :: rest => do
    let found ← r.lookup step.operation step.implementation position
    let i := r.implementations[found]
    if identityOf i ≠ step.identity then
      rejected .stale position (i.name.bytes ++ ascii " is " ++ toHex (identityOf i) ++
        ascii " in this build; the plan was made for " ++ toHex step.identity)
    else return i :: (← bindFrom (position + 1) rest)

def resolve (plan : Plan) : Except PlanRejection BoundPlan := do
  return ⟨← r.bindFrom 0 plan.steps, plan.identity⟩

end Registry

/-! ## What an identity determines -/

theorem littleEndian_inj {n m : Nat} (hn : n < 2 ^ 64) (hm : m < 2 ^ 64)
    (h : littleEndian n = littleEndian m) : n = m := by
  have hbyte : ∀ k < 8, n / 2 ^ (8 * k) % 256 = m / 2 ^ (8 * k) % 256 := by
    intro k hk
    have heq := map_inj_left.mp h k (mem_range.mpr hk)
    have hnat := congrArg UInt8.toNat heq
    rwa [UInt8.toNat_ofNat', UInt8.toNat_ofNat', Nat.shiftRight_eq_div_pow,
      Nat.shiftRight_eq_div_pow] at hnat
  have hmod : ∀ k ≤ 8, n % 2 ^ (8 * k) = m % 2 ^ (8 * k) := by
    intro k hk
    induction k with
    | zero => rw [Nat.mul_zero, Nat.pow_zero, Nat.mod_one, Nat.mod_one]
    | succ k ih =>
      rw [Nat.mul_succ, Nat.pow_add, Nat.mod_mul, Nat.mod_mul, ih (Nat.le_of_succ_le hk), hbyte k hk]
  have hall := hmod 8 (Nat.le_refl 8)
  rwa [Nat.mod_eq_of_lt hn, Nat.mod_eq_of_lt hm] at hall

variable {a b rest rest' : List UInt8} {is : List Implementation}

theorem field_inj (ha : a.length < 2 ^ 64) (hb : b.length < 2 ^ 64)
    (h : field a ++ rest = field b ++ rest') : a = b ∧ rest = rest' := by
  unfold field at h
  rw [append_assoc, append_assoc] at h
  obtain ⟨hlength, h⟩ := append_inj h (by simp [littleEndian])
  exact append_inj h (littleEndian_inj ha hb hlength)

def operations : List Operation := (range 55).map Operation.ofNat

theorem operation_inj {o o' : Operation}
    (h : field (ascii (operationName o)) ++ rest = field (ascii (operationName o')) ++ rest') :
    o = o' ∧ rest = rest' := by
  have hall : ∀ o, o ∈ operations := fun o => by cases o <;> decide
  have hsmall : ∀ o ∈ operations, (ascii (operationName o)).length < 2 ^ 64 := by decide +kernel
  have hnodup : (operations.map fun o => ascii (operationName o)).Nodup := by decide +kernel
  obtain ⟨hname, hrest⟩ := field_inj (hsmall o (hall o)) (hsmall o' (hall o')) h
  exact ⟨inj_on_of_nodup_map hnodup (hall o) (hall o') hname, hrest⟩

theorem text_eq {t t' : Text} (h : t.bytes = t'.bytes) : t = t' := by
  cases t
  cases h
  rfl

theorem text_inj {t t' : Text} (h : field t.bytes ++ rest = field t'.bytes ++ rest') :
    t = t' ∧ rest = rest' := by
  obtain ⟨hbytes, hrest⟩ := field_inj t.size t'.size h
  exact ⟨text_eq hbytes, hrest⟩

theorem implementation_inj {i j : Implementation} (h : i.hashed = j.hashed) : i = j := by
  obtain ⟨hname, h⟩ := text_inj (append_cancel_left h)
  obtain ⟨hoperation, h⟩ := operation_inj h
  obtain ⟨hsource, h⟩ := text_inj h
  obtain ⟨hrevision, h⟩ := text_inj h
  obtain ⟨hbuild, h⟩ := text_inj h
  have hvariant : i.variant = j.variant := (text_inj (congrArg (· ++ []) h)).1
  cases i
  cases j
  simp_all

theorem step_inj {s t : Step} (h : s.hashed ++ rest = t.hashed ++ rest') :
    s = t ∧ rest = rest' := by
  unfold Step.hashed at h
  simp only [append_assoc] at h
  obtain ⟨hoperation, h⟩ := operation_inj h
  obtain ⟨hname, h⟩ := text_inj h
  obtain ⟨hbytes, hrest⟩ := append_inj h (s.identity.property.trans t.identity.property.symm)
  have hidentity : s.identity = t.identity := Subtype.ext hbytes
  refine ⟨?_, hrest⟩
  cases s
  cases t
  simp_all

theorem Step.hashed_ne_nil (s : Step) : s.hashed ≠ [] := by
  intro h
  have hlength := congrArg length h
  simp [Step.hashed, field, littleEndian] at hlength

theorem steps_inj : ∀ {steps steps' : List Step},
    steps.flatMap Step.hashed = steps'.flatMap Step.hashed → steps = steps'
  | [], [], _ => rfl
  | [], t :: _, h => absurd (append_eq_nil_iff.mp h.symm).1 t.hashed_ne_nil
  | s :: _, [], h => absurd (append_eq_nil_iff.mp h).1 s.hashed_ne_nil
  | s :: rest, t :: rest', h => by
    have hhead : s = t := (step_inj h).1
    have htail : rest = rest' :=
      steps_inj (show rest.flatMap Step.hashed = rest'.flatMap Step.hashed from (step_inj h).2)
    rw [hhead, htail]

theorem plan_inj {steps steps' : List Step} (hsize : steps.length < 2 ^ 64)
    (hsize' : steps'.length < 2 ^ 64) (h : hashedPlan steps = hashedPlan steps') :
    steps = steps' := by
  have hcount : ∀ {n}, n < 2 ^ 64 → (ascii (toString n)).length < 2 ^ 64 := by
    intro n hn
    have hle : (Nat.repr n).length ≤ 20 := (Nat.length_repr_le_iff (by decide)).mpr (by omega)
    rw [ascii, length_map, String.length_toList]
    exact Nat.lt_of_le_of_lt hle (by decide)
  exact steps_inj (field_inj (hcount hsize) (hcount hsize') (append_cancel_left h)).2

/-! ## Resolving -/

theorem exists_forall₂ {α β : Type} {R : α → β → Prop} (l : List β) :
    (∃ u, Forall₂ R u l) ↔ ∀ b ∈ l, ∃ a, R a b := by
  induction l with
  | nil => exact ⟨fun _ => forall_mem_nil _, fun _ => ⟨[], .nil⟩⟩
  | cons b l ih =>
    rw [forall_mem_cons, ← ih]
    constructor
    · rintro ⟨_, _ | ⟨hab, hrest⟩⟩
      exact ⟨⟨_, hab⟩, _, hrest⟩
    rintro ⟨⟨a, hab⟩, u, hu⟩
    exact ⟨a :: u, .cons hab hu⟩

/-- `i` is what a step names, as it was when the plan was made. -/
structure Binds (i : Implementation) (s : Step) : Prop where
  name : i.name = s.implementation
  operation : i.operation = s.operation
  identity : identityOf i = s.identity

theorem create_ok {r : Registry} (h : Registry.create is = .ok r) : r.implementations = is := by
  unfold Registry.create at h
  split at h
  · cases h
  split at h
  · split at h
    · cases h
    cases h
    rfl
  · cases h

theorem byNameOf_sorted (is : List Implementation) : (byNameOf is).Pairwise fun i j =>
    is[i].name.bytes ≤ is[j].name.bytes := by
  have : Std.Total fun i j : Fin is.length => is[i].name.bytes ≤ is[j].name.bytes :=
    ⟨fun i j => List.le_total _ _⟩
  have : IsTrans (Fin is.length) fun i j => is[i].name.bytes ≤ is[j].name.bytes :=
    ⟨fun i j k hij hjk => List.le_trans hij hjk⟩
  exact pairwise_insertionSort _ _

theorem mem_byNameOf (is : List Implementation) (i : Fin is.length) : i ∈ byNameOf is :=
  (perm_insertionSort _ _).mem_iff.mpr (mem_finRange i)

theorem adjacentFind_none : ∀ {l : List (Fin is.length)},
    (l.Pairwise fun i j => is[i].name.bytes ≤ is[j].name.bytes) → adjacentFind is l = none →
      l.Pairwise fun i j => is[i].name ≠ is[j].name
  | [], _, _ => .nil
  | [i], _, _ => pairwise_singleton _ _
  | i :: j :: rest, hsorted, h => by
    obtain ⟨hfirst, hrest⟩ := pairwise_cons.mp hsorted
    rw [adjacentFind] at h
    split at h
    · cases h
    rename_i hne
    refine pairwise_cons.mpr ⟨?_, adjacentFind_none hrest h⟩
    intro k hk heq
    -- Between two equal names, the neighbour's is equal too.
    have hle : is[j].name.bytes ≤ is[i].name.bytes := by
      rcases mem_cons.mp hk with rfl | hk
      · exact heq ▸ List.le_refl _
      · exact heq ▸ (pairwise_cons.mp hrest).1 k hk
    exact hne (text_eq (List.le_antisymm (hfirst j mem_cons_self) hle))

namespace Registry

variable {r : Registry} {name : Text} {i : r.Index}

theorem name_inj {j : r.Index} (h : r.implementations[i].name = r.implementations[j].name) :
    i = j := by
  have hpair := adjacentFind_none (byNameOf_sorted r.implementations) r.distinct
  have : Std.Symm fun i j : r.Index =>
      r.implementations[i].name ≠ r.implementations[j].name := ⟨fun _ _ h => h.symm⟩
  by_contra hne
  exact hpair.forall (mem_byNameOf _ i) (mem_byNameOf _ j) hne h

theorem find_iff : r.find name = some i ↔ r.implementations[i].name = name := by
  unfold find
  constructor
  · intro h
    split at h
    · split at h
      · cases h
        assumption
      · cases h
    · cases h
  rintro rfl
  split
  next j hj =>
    obtain ⟨hnot, before, after, hlist, hbefore⟩ := find?_eq_some_iff_append.mp hj
    have hle : r.implementations[j].name.bytes ≤ r.implementations[i].name.bytes := by
      have hmem := mem_byNameOf r.implementations i
      have hsorted := byNameOf_sorted r.implementations
      rw [hlist] at hmem hsorted
      rcases mem_append.mp hmem with hmem | hmem
      · simpa using hbefore i hmem
      rcases mem_cons.mp hmem with rfl | hmem
      · exact List.le_refl _
      · exact (pairwise_cons.mp (pairwise_append.mp hsorted).2.1).1 i hmem
    have hname : r.implementations[j].name = r.implementations[i].name :=
      text_eq (List.le_antisymm hle (List.not_lt.mp (by simpa using hnot)))
    rw [if_pos hname, name_inj hname]
  rename_i hnone
  simpa using find?_eq_none.mp hnone i (mem_byNameOf _ i)

theorem lookup_iff {operation : Operation} {position : Nat} :
    r.lookup operation name position = .ok i ↔
      r.implementations[i].name = name ∧ r.implementations[i].operation = operation := by
  rw [← find_iff]
  unfold lookup
  split
  next hinvalid =>
    refine iff_of_false (fun h => by cases h) ?_
    rintro ⟨hfind, -⟩
    have hvalid := r.named _ (getElem_mem i.isLt)
    rw [show r.implementations[i.val].name = name from find_iff.mp hfind] at hvalid
    simp [hvalid] at hinvalid
  split
  next hnone => simp [hnone, rejected]
  rename_i found hfound
  rw [hfound]
  simp only
  split
  next hne =>
    refine iff_of_false (fun h => by cases h) ?_
    rintro ⟨hsame, hoperation⟩
    cases hsame
    exact hne hoperation
  rename_i heq
  rw [not_not] at heq
  constructor
  · intro h
    cases h
    exact ⟨rfl, heq⟩
  rintro ⟨hsame, -⟩
  rw [Option.some.inj hsame]

theorem bindFrom_iff {steps : List Step} : ∀ {position : Nat} {l : List Implementation},
    r.bindFrom position steps = .ok l ↔
      Forall₂ (fun i s => i ∈ r.implementations ∧ Binds i s) l steps := by
  induction steps with
  | nil =>
    intro position l
    rw [forall₂_nil_right_iff]
    exact ⟨fun h => (Except.ok.inj h).symm, fun h => h ▸ rfl⟩
  | cons s rest ih =>
    intro position l
    rw [bindFrom]
    constructor
    · intro h
      obtain ⟨found, hfound, h⟩ := bind_ok h
      obtain ⟨hname, hoperation⟩ := lookup_iff.mp hfound
      simp only at h
      split at h
      · cases h
      rename_i hidentity
      obtain ⟨l', hl', h⟩ := bind_ok h
      cases h
      exact .cons ⟨getElem_mem _, hname, hoperation, not_not.mp hidentity⟩ (ih.mp hl')
    rintro (_ | ⟨⟨hmem, hbinds⟩, hrest⟩)
    obtain ⟨k, hk, rfl⟩ := getElem_of_mem hmem
    have hfound : r.lookup s.operation s.implementation position = .ok ⟨k, hk⟩ :=
      lookup_iff.mpr ⟨hbinds.name, hbinds.operation⟩
    rw [hfound]
    show (if identityOf r.implementations[k] ≠ s.identity then _ else _) = _
    rw [if_neg (not_not.mpr hbinds.identity), ih.mpr hrest]
    rfl

end Registry

/-- **An identity pins what a plan relied on.** -/
theorem identity_pins : (∀ i j : Implementation, i.hashed = j.hashed → i = j) ∧
    (∀ s t : List Step, s.length < 2 ^ 64 → t.length < 2 ^ 64 → hashedPlan s = hashedPlan t →
      s = t) ∧
    ∀ (is : List Implementation) (r : Registry), Registry.create is = .ok r → ∀ plan : Plan,
      ((∃ bound, r.resolve plan = .ok bound) ↔ ∀ s ∈ plan.steps, ∃ i ∈ is, Binds i s) ∧
      ∀ bound, r.resolve plan = .ok bound → bound.identity = plan.identity ∧
        Forall₂ (fun i s => i ∈ is ∧ Binds i s) bound.bound plan.steps := by
  refine ⟨fun i j => implementation_inj, fun s t => plan_inj, ?_⟩
  rintro is r hcreate plan
  obtain rfl := create_ok hcreate
  have hok : ∀ {bound}, r.resolve plan = .ok bound ↔ bound.identity = plan.identity ∧
      Forall₂ (fun i s => i ∈ r.implementations ∧ Binds i s) bound.bound plan.steps := by
    intro bound
    unfold Registry.resolve
    constructor
    · intro h
      obtain ⟨l, hl, h⟩ := bind_ok h
      cases h
      exact ⟨rfl, Registry.bindFrom_iff.mp hl⟩
    rintro ⟨hidentity, hbound⟩
    rw [Registry.bindFrom_iff.mpr hbound, ← hidentity]
    rfl
  refine ⟨?_, fun bound => hok.mp⟩
  have hsteps := exists_forall₂ (R := fun i s => i ∈ r.implementations ∧ Binds i s) plan.steps
  rw [← hsteps]
  exact ⟨fun ⟨bound, h⟩ => ⟨bound.bound, (hok.mp h).2⟩,
    fun ⟨l, hl⟩ => ⟨⟨l, plan.identity⟩, hok.mpr ⟨rfl, hl⟩⟩⟩

/-- A registry of one implementation, and a plan of one step. -/
theorem identity_pins_one : ∃ (i : Implementation) (r : Registry) (bound : BoundPlan),
    Registry.create [i] = .ok r ∧
      r.resolve ⟨[⟨i.operation, i.name, identityOf i⟩], identityOf i⟩ = .ok bound := by
  let text : Text := ⟨[0x61], by decide⟩
  let i : Implementation := ⟨text, .add, text, text, text, text⟩
  obtain ⟨r, hr⟩ : ∃ r, Registry.create [i] = .ok r := ⟨_, rfl⟩
  obtain ⟨bound, hbound⟩ := (identity_pins.2.2 [i] r hr
    ⟨[⟨i.operation, i.name, identityOf i⟩], identityOf i⟩).1.mpr fun s hs => by
      rw [mem_singleton.mp hs]
      exact ⟨i, mem_singleton_self i, rfl, rfl, rfl⟩
  exact ⟨i, r, bound, hr, hbound⟩

end JitLlm.Execution
