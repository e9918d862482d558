import JitLlm.Artifact.JsonRead
import Mathlib.Data.Nat.Digits.Lemmas

/-!
# The canonical encoding

A text written canonically is the encoding of its value; and the encoding of a value that was read
is written canonically, but for a value of its own: an object's members in order, and no `-0`.
-/

namespace JitLlm.Artifact.Json

open Lib List

/-! ## Integers -/

section Integers

variable {digits raw : List UInt8} {negative : Bool}

def worth (digits : List UInt8) : Nat := digits.foldl (fun m d => m * 10 + (d.toNat - 0x30)) 0

theorem worth_concat (digits : List UInt8) (d : UInt8) :
    worth (digits ++ [d]) = worth digits * 10 + (d.toNat - 0x30) := by
  simp [worth]

theorem magnitude_eq (digits : List UInt8) :
    (magnitude digits).2 = false → magnitude digits = (worth digits, false) := by
  induction digits using List.reverseRecOn with
  | nil => intro _; rfl
  | append_singleton digits d ih =>
    intro h
    have hstep : magnitude (digits ++ [d]) =
        (if (magnitude digits).2 then magnitude digits
        else if (magnitude digits).1 * 10 ≥ 2 ^ 64 then ((magnitude digits).1 * 10 % 2 ^ 64, true)
        else if (magnitude digits).1 * 10 + (d.toNat - 0x30) ≥ 2 ^ 64 then
          (((magnitude digits).1 * 10 + (d.toNat - 0x30)) % 2 ^ 64, true)
        else ((magnitude digits).1 * 10 + (d.toNat - 0x30), false)) := by
      simp [magnitude]
    rw [hstep] at h ⊢
    split at h
    next hover =>
      rw [hover] at h
      cases h
    rename_i hover
    rw [if_neg hover]
    split at h
    · cases h
    split at h
    · cases h
    rename_i hten hsum
    rw [if_neg hten, if_neg hsum, worth_concat, ih (Bool.eq_false_iff.mpr hover)]

theorem integerOf_worth {k : Int} (h : integerOf negative digits = some k) :
    k = if negative then -(worth digits : Int) else worth digits := by
  unfold integerOf at h
  simp only at h
  split at h
  next hcond =>
    simp only [Bool.and_eq_true, Bool.not_eq_true', decide_eq_true_eq] at hcond
    obtain ⟨⟨hover, hneg⟩, -⟩ := hcond
    rw [magnitude_eq digits hover] at h
    rw [hneg, ← Option.some.inj h]
    rfl
  split at h
  next hcond =>
    simp only [Bool.and_eq_true, Bool.not_eq_true', decide_eq_true_eq] at hcond
    obtain ⟨⟨hover, hneg⟩, -⟩ := hcond
    rw [magnitude_eq digits hover] at h
    rw [hneg, ← Option.some.inj h]
    rfl
  · cases h

def digitOf (d : UInt8) : Nat := d.toNat - 0x30

theorem digitOf_lt {d : UInt8} (h : isDigit d = true) : digitOf d < 10 := by
  simp only [isDigit, Bool.and_eq_true, decide_eq_true_eq, UInt8.le_iff_toNat_le] at h
  have hle : d.toNat ≤ 0x39 := h.2
  unfold digitOf
  omega

theorem digit_digitOf {d : UInt8} (h : isDigit d = true) : 0x30 + UInt8.ofNat (digitOf d) = d := by
  simp only [isDigit, Bool.and_eq_true, decide_eq_true_eq, UInt8.le_iff_toNat_le] at h
  have hle : d.toNat ≤ 0x39 := h.2
  have hge : 0x30 ≤ d.toNat := h.1
  apply UInt8.toNat_inj.mp
  have hlt : digitOf d < 256 := by unfold digitOf; omega
  rw [UInt8.toNat_add, UInt8.toNat_ofNat_of_lt' hlt]
  show (0x30 + (d.toNat - 0x30)) % 256 = d.toNat
  omega

theorem worth_ofDigits (digits : List UInt8) :
    worth digits = Nat.ofDigits 10 (digits.reverse.map digitOf) := by
  induction digits using List.reverseRecOn with
  | nil => rfl
  | append_singleton digits d ih =>
    rw [worth_concat, reverse_append, reverse_singleton, singleton_append,
      map_cons, Nat.ofDigits_cons, ih, Nat.mul_comm, Nat.add_comm]
    rfl

theorem decimal_worth (hdigit : ∀ d ∈ digits, isDigit d = true) (hne : digits ≠ [])
    (hlead : digits.head? = some 0x30 → digits = [0x30]) : decimal (worth digits) = digits := by
  by_cases hzero : digits = [0x30]
  · subst hzero
    rfl
  obtain ⟨d, rest, rfl⟩ := exists_cons_of_ne_nil hne
  have hd : d ≠ 0x30 := fun heq => hzero (hlead (by rw [heq]; rfl))
  have hdpos : digitOf d ≠ 0 := by
    intro heq
    have hback := digit_digitOf (hdigit d mem_cons_self)
    rw [heq] at hback
    exact hd hback.symm
  have hround : Nat.digits 10 (worth (d :: rest)) = (d :: rest).reverse.map digitOf := by
    rw [worth_ofDigits]
    apply Nat.digits_ofDigits 10 (by decide)
    · intro l hl
      obtain ⟨b, hb, rfl⟩ := mem_map.mp hl
      exact digitOf_lt (hdigit b (mem_reverse.mp hb))
    intro hnil
    simpa using hdpos
  have hworth : worth (d :: rest) ≠ 0 := by
    intro heq
    rw [heq] at hround
    simp at hround
  unfold decimal
  rw [if_neg hworth, hround, ← map_reverse, reverse_reverse, map_map]
  refine (map_congr_left fun b hb => ?_).trans (map_id _)
  exact digit_digitOf (hdigit b hb)

theorem decimalInt_eq {k : Int} (h : IntegerText negative digits raw)
    (hvalue : integerOf negative digits = some k) (hzero : ¬ (negative = true ∧ k = 0)) :
    decimalInt k = raw := by
  have hk := integerOf_worth hvalue
  have hdec := decimal_worth h.digit h.nonempty h.leading
  rw [h.text]
  unfold decimalInt
  cases negative with
  | true =>
    have hk : k = -(worth digits : Int) := hk
    have hneg : k < 0 := by
      have : k ≠ 0 := fun heq => hzero ⟨rfl, heq⟩
      omega
    have habs : k.natAbs = worth digits := by omega
    rw [if_pos hneg, habs, hdec]
    rfl
  | false =>
    have hk : k = (worth digits : Int) := hk
    have habs : k.natAbs = worth digits := by omega
    rw [if_neg (by omega), habs, hdec]
    rfl

end Integers

/-! ## Lists -/

section Lists

variable {α : Type} {P P' : α → Bool → List UInt8 → Prop} {as : List α} {c : Bool} {t : List UInt8}
  {openByte closeByte : UInt8} {f : α → List UInt8}

theorem Sep.imp (hP : ∀ a c t, P a c t → P' a c t) (h : Sep P as c t) : Sep P' as c t := by
  induction h with
  | last ha hblank => exact .last (hP _ _ _ ha) hblank
  | next ha hblank hblank' _ ih => exact .next (hP _ _ _ ha) hblank hblank' ih

theorem Bracketed.imp (hP : ∀ a c t, P a c t → P' a c t)
    (h : Bracketed openByte closeByte P as c t) : Bracketed openByte closeByte P' as c t := by
  cases h with
  | empty hblank => exact .empty hblank
  | items hblank hsep => exact .items hblank (hsep.imp hP)

theorem MemberText.imp {P P' : Value → Bool → List UInt8 → Prop}
    (hP : ∀ {v c t}, P v c t → P' v c t) {m : List UInt8 × Value} (h : MemberText P m c t) :
    MemberText P' m c t := by
  obtain ⟨w, w', cv, tv, tk, hquoted, hblank, hblank', hv, ht, hc⟩ := h
  exact ⟨w, w', cv, tv, tk, hquoted, hblank, hblank', hP hv, ht, hc⟩

theorem Sep.mem (h : Sep P as c t) {a : α} (ha : a ∈ as) : ∃ c' t', P a c' t' ∧ t' ⊆ t := by
  induction h with
  | last hP =>
    obtain rfl := mem_singleton.mp ha
    exact ⟨_, _, hP, fun b hb => mem_append_left _ hb⟩
  | @next _ _ _ _ t w w' t' hP _ _ _ ih =>
    rcases mem_cons.mp ha with rfl | ha
    · exact ⟨_, t, hP, fun b hb => by simp [hb]⟩
    obtain ⟨c', u, hu, hsub⟩ := ih ha
    exact ⟨c', u, hu, fun b hb => by simp [hsub hb]⟩

theorem Bracketed.mem (h : Bracketed openByte closeByte P as c t) {a : α} (ha : a ∈ as) :
    ∃ c' t', P a c' t' ∧ t' ⊆ t := by
  cases h with
  | empty => cases ha
  | items _ hsep =>
    obtain ⟨c', u, hu, hsub⟩ := hsep.mem ha
    exact ⟨c', u, hu, fun b hb => by simp [hsub hb]⟩

theorem joined_cons {u : List UInt8} {us : List (List UInt8)} (h : us ≠ []) :
    joined (u :: us) = u ++ 0x2c :: joined us := by
  obtain ⟨v, vs, rfl⟩ := exists_cons_of_ne_nil h
  rfl

theorem Sep.joined_eq (h : Sep P as c t) (hc : c = true)
    (hf : ∀ a ∈ as, ∀ u, P a true u → u = f a) : t = joined (as.map f) := by
  induction h with
  | @last a c t w hP hblank =>
    simp only [Bool.and_eq_true, List.isEmpty_iff] at hc
    obtain ⟨rfl, rfl⟩ := hc
    rw [List.append_nil, hf a List.mem_cons_self t hP]
    rfl
  | @next a as c c' t w w' t' hP hblank hblank' hsep ih =>
    simp only [Bool.and_eq_true, List.isEmpty_iff] at hc
    obtain ⟨⟨rfl, rfl⟩, rfl, rfl⟩ := hc
    rw [List.map_cons, joined_cons (by simpa using hsep.ne_nil),
      ← ih rfl fun b hb => hf b (List.mem_cons_of_mem _ hb), hf a List.mem_cons_self t hP]
    simp

theorem Sep.of_joined {β : Type} {g : β → α} {f : β → List UInt8} {bs : List β} (hne : bs ≠ [])
    (hf : ∀ b ∈ bs, P (g b) true (f b)) : Sep P (bs.map g) true (joined (bs.map f)) := by
  induction bs with
  | nil => exact absurd rfl hne
  | cons b bs ih =>
    have hblank : Blank [] := fun b hb => absurd hb not_mem_nil
    have hb := hf b mem_cons_self
    rcases bs with _ | ⟨b', bs⟩
    · have h := Sep.last hb hblank
      simpa [joined] using h
    have htail := ih (cons_ne_nil _ _) fun b hb => hf b (mem_cons_of_mem _ hb)
    have h := Sep.next hb hblank hblank htail
    simpa [joined_cons] using h

theorem Bracketed.joined_eq (h : Bracketed openByte closeByte P as true t)
    (hf : ∀ a ∈ as, ∀ u, P a true u → u = f a) :
    t = openByte :: joined (as.map f) ++ [closeByte] := by
  generalize hc : true = c at h
  cases h with
  | empty =>
    have hw := List.isEmpty_iff.mp hc.symm
    rw [hw]
    rfl
  | items _ hsep =>
    have hc := hc.symm
    rw [Bool.and_eq_true, List.isEmpty_iff] at hc
    rw [hc.1, hsep.joined_eq hc.2 hf]
    simp

theorem Bracketed.of_joined {β : Type} {g : β → α} {f : β → List UInt8} {bs : List β}
    (hf : ∀ b ∈ bs, P (g b) true (f b)) : Bracketed openByte closeByte P (bs.map g) true
      (openByte :: joined (bs.map f) ++ [closeByte]) := by
  have hblank : Blank [] := fun b hb => absurd hb not_mem_nil
  by_cases hne : bs = []
  · subst hne
    exact .empty hblank
  have h : Bracketed openByte closeByte P _ _ _ := .items hblank (Sep.of_joined hne hf)
  simpa using h

end Lists

/-! ## Values -/

mutual

def normal : Value → Value
  | .null => .null
  | .boolean b => .boolean b
  | .integer _ (some n) => .integer (decimalInt n) (some n)
  | .integer raw none => .integer raw none
  | .string bytes => .string bytes
  | .array items => .array (normalItems items)
  | .object members =>
    .object ((normalMembers members).mergeSort fun a b => decide (a.1 ≤ b.1))

def normalItems : List Value → List Value
  | [] => []
  | v :: rest => normal v :: normalItems rest

def normalMembers : List (List UInt8 × Value) → List (List UInt8 × Value)
  | [] => []
  | (key, v) :: rest => (key, normal v) :: normalMembers rest

end

mutual

def Value.bytes : Value → List UInt8
  | .null => []
  | .boolean _ => []
  | .integer _ _ => []
  | .string bytes => bytes
  | .array items => itemsBytes items
  | .object members => membersBytes members

def itemsBytes : List Value → List UInt8
  | [] => []
  | v :: rest => v.bytes ++ itemsBytes rest

def membersBytes : List (List UInt8 × Value) → List UInt8
  | [] => []
  | (key, v) :: rest => key ++ v.bytes ++ membersBytes rest

end

mutual

/-- The same value: of integers that fit only the number counts, of members not the order. -/
inductive Same : Value → Value → Prop
  | null : Same .null .null
  | boolean (b : Bool) : Same (.boolean b) (.boolean b)
  | integer {raw raw' : List UInt8} {value : Option Int} : (value = none → raw = raw') →
      Same (.integer raw value) (.integer raw' value)
  | string (bytes : List UInt8) : Same (.string bytes) (.string bytes)
  | array {items items' : List Value} : SameItems items items' → Same (.array items) (.array items')
  | object {members members' : List (List UInt8 × Value)} : SameMembers members members' →
      Same (.object members) (.object members')

inductive SameItems : List Value → List Value → Prop
  | nil : SameItems [] []
  | cons {v v' : Value} {rest rest' : List Value} : Same v v' → SameItems rest rest' →
      SameItems (v :: rest) (v' :: rest')

inductive SameMembers : List (List UInt8 × Value) → List (List UInt8 × Value) → Prop
  | nil : SameMembers [] []
  | cons {key : List UInt8} {v v' : Value} {rest before after : List (List UInt8 × Value)} :
      Same v v' → SameMembers rest (before ++ after) →
      SameMembers ((key, v) :: rest) (before ++ (key, v') :: after)

end

section Values

variable {n : Nat} {v : Value} {c : Bool} {t : List UInt8} {items : List Value}
    {members : List (List UInt8 × Value)}

theorem serializeItems_eq (items : List Value) : serializeItems items = items.map serialize := by
  induction items with
  | nil => rfl
  | cons v rest ih => rw [serializeItems, ih, map_cons]

def withText (m : List UInt8 × Value) : List UInt8 × List UInt8 := (m.1, serialize m.2)

theorem serializeMembers_eq (members : List (List UInt8 × Value)) :
    serializeMembers members = members.map withText := by
  induction members with
  | nil => rfl
  | cons m rest ih => rw [serializeMembers, ih, map_cons]; rfl

theorem normalItems_eq (items : List Value) : normalItems items = items.map normal := by
  induction items with
  | nil => rfl
  | cons v rest ih => rw [normalItems, ih, map_cons]

def withNormal (m : List UInt8 × Value) : List UInt8 × Value := (m.1, normal m.2)

theorem normalMembers_eq (members : List (List UInt8 × Value)) :
    normalMembers members = members.map withNormal := by
  induction members with
  | nil => rfl
  | cons m rest ih => rw [normalMembers, ih, map_cons]; rfl

theorem mem_itemsBytes {b : UInt8} : b ∈ itemsBytes items ↔ ∃ v ∈ items, b ∈ v.bytes := by
  induction items with
  | nil => simp [itemsBytes]
  | cons v rest ih => simp [itemsBytes, ih]

theorem mem_membersBytes {b : UInt8} :
    b ∈ membersBytes members ↔ ∃ m ∈ members, b ∈ m.1 ∨ b ∈ m.2.bytes := by
  induction members with
  | nil => simp [membersBytes]
  | cons m rest ih => simp [membersBytes, ih, or_assoc]

def sorted (members : List (List UInt8 × Value)) : List (List UInt8 × Value) :=
  members.mergeSort fun a b => decide (a.1 ≤ b.1)

theorem serialize_object (members : List (List UInt8 × Value)) : serialize (.object members) =
      0x7b :: joined ((sorted members).map fun m => memberText (withText m)) ++ [0x7d] := by
  have hsort : (sorted members).map withText =
      (members.map withText).mergeSort fun a b => decide (a.1 ≤ b.1) :=
    map_mergeSort fun _ _ _ _ => rfl
  rw [serialize, serializeMembers_eq, ← hsort, map_map]
  rfl

theorem normal_object (members : List (List UInt8 × Value)) :
    normal (.object members) = .object ((sorted members).map withNormal) := by
  have hsort : (sorted members).map withNormal =
      (members.map withNormal).mergeSort fun a b => decide (a.1 ≤ b.1) :=
    map_mergeSort fun _ _ _ _ => rfl
  rw [normal, normalMembers_eq, hsort]

theorem sorted_of_ascending
    (h : ascending (members.map Prod.fst) = true) : sorted members = members := by
  apply List.mergeSort_of_pairwise
  have hpair := List.pairwise_map.mp (ascending_pairwise.mp h)
  exact hpair.imp fun hlt => decide_eq_true (List.le_of_lt hlt)

theorem ascending_sorted
    (h : (members.map Prod.fst).Nodup) : ascending ((sorted members).map Prod.fst) = true := by
  have hsort : (sorted members).map Prod.fst = sortBytes (members.map Prod.fst) :=
    List.map_mergeSort fun _ _ _ _ => rfl
  rw [hsort, ascending_pairwise]
  have hnodup : (sortBytes (members.map Prod.fst)).Nodup := (sortBytes_perm _).nodup_iff.mpr h
  refine ((sortBytes_sorted (members.map Prod.fst)).and hnodup).imp ?_
  rintro a b ⟨hle, hne⟩
  exact Decidable.not_not.mp fun hnot => hne (List.le_antisymm hle (List.not_lt.mp hnot))

theorem written_induction {Q : Nat → Value → Bool → List UInt8 → Prop}
    (hnull : ∀ n, Q n .null true [0x6e, 0x75, 0x6c, 0x6c])
    (htrue : ∀ n, Q n (.boolean true) true [0x74, 0x72, 0x75, 0x65])
    (hfalse : ∀ n, Q n (.boolean false) true [0x66, 0x61, 0x6c, 0x73, 0x65])
    (hint : ∀ n negative digits raw, IntegerText negative digits raw →
      Q n (.integer raw (integerOf negative digits))
        (!(negative && integerOf negative digits = some 0)) raw)
    (hstring : ∀ n bytes t, Quoted bytes t → Q n (.string bytes) (!bytes.contains 0x7f) t)
    (harray : ∀ n items c t, Bracketed 0x5b 0x5d (Q n) items c t → Q (n + 1) (.array items) c t)
    (hobj : ∀ n members c t, (members.map Prod.fst).Nodup →
      Bracketed 0x7b 0x7d (MemberText (Q n)) members c t →
      Q (n + 1) (.object members) (c && ascending (members.map Prod.fst)) t)
    (n : Nat) : ∀ {v : Value} {c : Bool} {t : List UInt8}, Written n v c t → Q n v c t := by
  have hscalar : ∀ n v c t, Written n v c t → (∀ items, v ≠ .array items) →
      (∀ members, v ≠ .object members) → Q n v c t := by
    intro n v c t h hno hno'
    cases v with
    | null =>
      obtain ⟨rfl, rfl⟩ := written_null.mp h
      exact hnull n
    | boolean b =>
      cases b with
      | true =>
        obtain ⟨rfl, rfl⟩ := written_true.mp h
        exact htrue n
      | false =>
        obtain ⟨rfl, rfl⟩ := written_false.mp h
        exact hfalse n
    | integer =>
      obtain ⟨rfl, negative, digits, htext, rfl, rfl⟩ := written_integer.mp h
      exact hint n negative digits t htext
    | string bytes =>
      obtain ⟨hquoted, rfl⟩ := written_string.mp h
      exact hstring n bytes t hquoted
    | array items => exact absurd rfl (hno items)
    | object members => exact absurd rfl (hno' members)
  induction n with
  | zero =>
    intro v c t h
    refine hscalar 0 v c t h ?_ ?_
    · rintro items rfl
      exact (nomatch h)
    rintro members rfl
    exact (nomatch h)
  | succ n ih =>
    intro v c t h
    cases v with
    | array items => exact harray n items c t ((written_array.mp h).imp fun _ _ _ => ih)
    | object members =>
      obtain ⟨hnodup, c', htext, rfl⟩ := written_object.mp h
      exact hobj n members c' t hnodup (htext.imp fun _ _ _ => MemberText.imp ih)
    | _ =>
      refine hscalar _ _ c t h ?_ ?_ <;>
      · intro _ heq
        cases heq

theorem Written.serialize_eq (h : Written n v true t) : t = serialize v := by
  have hall : ∀ {v c t}, Written n v c t → c = true → t = serialize v := by
    refine written_induction (Q := fun _ v c t => c = true → t = serialize v) ?_ ?_ ?_ ?_ ?_ ?_ ?_ n
    · intro n _
      rfl
    · intro n _
      rfl
    · intro n _
      rfl
    · intro n negative digits raw htext hc
      rcases hvalue : integerOf negative digits with _ | _
      · rfl
      refine (decimalInt_eq htext hvalue ?_).symm
      rintro ⟨rfl, rfl⟩
      rw [hvalue] at hc
      cases hc
    · intro n bytes t hquoted _
      exact hquoted.2
    · intro n items c t htext hc
      subst hc
      rw [serialize, serializeItems_eq]
      exact htext.joined_eq fun v _ u hu => hu rfl
    intro n members c t hnodup htext hc
    rw [Bool.and_eq_true] at hc
    obtain ⟨rfl, hasc⟩ := hc
    rw [serialize_object, sorted_of_ascending hasc]
    refine htext.joined_eq fun m _ u hu => ?_
    obtain ⟨w, w', cv, tv, tk, ⟨-, rfl⟩, -, -, htv, rfl, hc⟩ := hu
    simp only [Bool.true_eq, Bool.and_eq_true, List.isEmpty_iff] at hc
    obtain ⟨⟨-, rfl⟩, rfl, rfl⟩ := hc
    rw [htv rfl]
    simp [memberText, withText]
  exact hall h rfl

theorem Written.bytes_subset (h : Written n v c t) : v.bytes ⊆ t := by
  refine written_induction (Q := fun _ v _ t => v.bytes ⊆ t) ?_ ?_ ?_ ?_ ?_ ?_ ?_ n h
  · intro n
    exact nil_subset _
  · intro n
    exact nil_subset _
  · intro n
    exact nil_subset _
  · intro n negative digits raw _
    exact nil_subset _
  · rintro n bytes t ⟨-, rfl⟩ b hb
    exact mem_append_left _ (mem_cons_of_mem _ hb)
  · intro n items c t htext b hb
    obtain ⟨v, hv, hb⟩ := mem_itemsBytes.mp hb
    obtain ⟨c', t', hsub, hsub'⟩ := htext.mem hv
    exact hsub' (hsub hb)
  intro n members c t _ htext b hb
  obtain ⟨m, hm, hb⟩ := mem_membersBytes.mp hb
  obtain ⟨c', t', ⟨w, w', cv, tv, tk, ⟨-, rfl⟩, -, -, htv, rfl, -⟩, hsub⟩ := htext.mem hm
  apply hsub
  rcases hb with hb | hb
  · simp [hb]
  · simp [htv hb]

theorem Written.normal (h : Written n v c t) (hdel : 0x7f ∉ v.bytes) :
    Written n (normal v) true (serialize v) := by
  refine written_induction (Q := fun n v _ _ => 0x7f ∉ v.bytes →
    Written n (Json.normal v) true (serialize v)) ?_ ?_ ?_ ?_ ?_ ?_ ?_ n h hdel
  · intro n _
    exact written_null.mpr ⟨rfl, rfl⟩
  · intro n _
    exact written_true.mpr ⟨rfl, rfl⟩
  · intro n _
    exact written_false.mpr ⟨rfl, rfl⟩
  · intro n negative digits raw htext _
    rcases hvalue : integerOf negative digits with _ | k
    · refine written_integer.mpr ⟨rfl, negative, digits, htext, hvalue.symm, ?_⟩
      simp
    by_cases hzero : negative = true ∧ k = 0
    · obtain ⟨rfl, rfl⟩ := hzero
      refine written_integer.mpr ⟨rfl, false, [0x30], ?_, by decide, rfl⟩
      exact ⟨rfl, forall_mem_singleton.mpr rfl, cons_ne_nil _ _, fun _ => rfl, by decide⟩
    have hraw := decimalInt_eq htext hvalue hzero
    refine written_integer.mpr ⟨rfl, negative, digits, hraw ▸ htext, hvalue.symm, ?_⟩
    have hnot : ¬ (negative && decide (some k = some 0)) = true := by simpa using hzero
    rw [Bool.eq_false_iff.mpr hnot]
    rfl
  · intro n bytes t hquoted hdel
    refine written_string.mpr ⟨⟨hquoted.1, rfl⟩, ?_⟩
    have hnot : 0x7f ∉ bytes := hdel
    simpa using hnot
  · intro n items c t htext hdel
    have hnes : ∀ v ∈ items, Written n (Json.normal v) true (serialize v) := by
      intro v hv
      obtain ⟨c', t', hQ, -⟩ := htext.mem hv
      exact hQ fun hb => hdel (mem_itemsBytes.mpr ⟨v, hv, hb⟩)
    rw [Json.normal, normalItems_eq, serialize, serializeItems_eq]
    exact written_array.mpr (.of_joined hnes)
  intro n members c t hnodup htext hdel
  have hnes : ∀ m ∈ sorted members, MemberText (Written n) (withNormal m) true
      (memberText (withText m)) := by
    intro m hm
    have hm : m ∈ members := (mergeSort_perm _ _).mem_iff.mp hm
    obtain ⟨c', t', ⟨w, w', cv, tv, tk, hquoted, -, -, hQ, -, -⟩, -⟩ := htext.mem hm
    have hblank : Blank [] := fun b hb => absurd hb not_mem_nil
    have hkey : 0x7f ∉ m.1 := fun hb => hdel (mem_membersBytes.mpr ⟨m, hm, .inl hb⟩)
    have hvalue := hQ fun hb => hdel (mem_membersBytes.mpr ⟨m, hm, .inr hb⟩)
    refine ⟨[], [], true, serialize m.2, _, ⟨hquoted.1, rfl⟩, hblank, hblank, hvalue, ?_, ?_⟩
    · simp [memberText, withText, withNormal]
    · simpa [withNormal] using hkey
  have hkeys : ((sorted members).map withNormal).map Prod.fst = (sorted members).map Prod.fst := by
    rw [map_map]
    rfl
  have hsor := ascending_sorted hnodup
  rw [normal_object, serialize_object]
  refine written_object.mpr ⟨?_, true, .of_joined hnes, ?_⟩
  · rw [hkeys]
    exact nodup_of_ascending hsor
  rw [hkeys, hsor]
  rfl

/-! ### What is counted, and what is the same -/

theorem itemsCounts_eq (items : List Value) : itemsCounts items = (items.map Value.counts).sum := by
  induction items with
  | nil => rfl
  | cons v rest ih => rw [itemsCounts, ih, map_cons, sum_cons]

theorem membersCounts_eq (members : List (List UInt8 × Value)) :
    membersCounts members = (members.map memberCounts).sum := by
  induction members with
  | nil => rfl
  | cons m rest ih =>
    rw [membersCounts, ih, map_cons, sum_cons]
    rfl

theorem sorted_perm (members : List (List UInt8 × Value)) : (sorted members).Perm members :=
  mergeSort_perm _ _

def Kept (v : Value) : Prop := (normal v).counts = v.counts ∧ Same v (normal v)

theorem SameMembers.perm {members order order' : List (List UInt8 × Value)}
    (h : SameMembers members order) (hperm : order.Perm order') : SameMembers members order' := by
  induction members generalizing order order' with
  | nil =>
    cases h
    obtain rfl := hperm.nil_eq
    exact .nil
  | cons m rest ih =>
    obtain ⟨key, v⟩ := m
    cases h with
    | @cons _ _ v' _ before after hv hrest =>
      have hmem : (key, v') ∈ order' := hperm.mem_iff.mp (by simp)
      obtain ⟨before', after', rfl⟩ := append_of_mem hmem
      refine .cons hv (ih hrest ?_)
      have hmid := (perm_middle.symm.trans hperm).trans perm_middle
      exact hmid.cons_inv

theorem kept_items (h : ∀ v ∈ items, Kept v) : Kept (.array items) := by
  constructor
  · rw [normal, normalItems_eq, Value.counts, Value.counts, itemsCounts_eq, itemsCounts_eq,
      map_map, length_map]
    have hmap : items.map (Value.counts ∘ normal) = items.map Value.counts :=
      map_congr_left fun v hv => (h v hv).1
    rw [hmap]
  rw [normal, normalItems_eq]
  refine .array ?_
  induction items with
  | nil => exact .nil
  | cons v rest ih =>
    exact .cons (h v mem_cons_self).2 (ih fun v hv => h v (mem_cons_of_mem _ hv))

theorem same_members (h : ∀ m ∈ members, Kept m.2) :
    SameMembers members (members.map withNormal) := by
  induction members with
  | nil => exact .nil
  | cons m rest ih =>
    have hrest : SameMembers rest ([] ++ rest.map withNormal) :=
      ih fun m hm => h m (mem_cons_of_mem _ hm)
    exact .cons (h m mem_cons_self).2 hrest

theorem kept_members (h : ∀ m ∈ members, Kept m.2) : Kept (.object members) := by
  constructor
  · have hperm : ((sorted members).map withNormal).Perm (members.map withNormal) :=
      (sorted_perm members).map withNormal
    have hmap : (members.map withNormal).map memberCounts = members.map memberCounts := by
      rw [map_map]
      refine map_congr_left fun m hm => ?_
      show _ + (normal m.2).counts = _ + m.2.counts
      rw [(h m hm).1]
    rw [normal_object, Value.counts, Value.counts, membersCounts_eq, membersCounts_eq,
      (hperm.map memberCounts).sum_eq, hmap, hperm.length_eq, length_map]
  rw [normal_object]
  exact .object ((same_members h).perm ((sorted_perm members).map withNormal).symm)

theorem Written.kept (h : Written n v c t) : Kept v := by
  refine written_induction (Q := fun _ v _ _ => Kept v) ?_ ?_ ?_ ?_ ?_ ?_ ?_ n h
  · intro n
    exact ⟨rfl, .null⟩
  · intro n
    exact ⟨rfl, .boolean true⟩
  · intro n
    exact ⟨rfl, .boolean false⟩
  · intro n negative digits raw _
    cases integerOf negative digits with
    | none => exact ⟨rfl, .integer fun _ => rfl⟩
    | some => exact ⟨rfl, .integer nofun⟩
  · intro n bytes t _
    exact ⟨rfl, .string bytes⟩
  · intro n items c t htext
    refine kept_items fun v hv => ?_
    obtain ⟨_, _, hv, -⟩ := htext.mem hv
    exact hv
  intro n members c t _ htext
  refine kept_members fun m hm => ?_
  obtain ⟨_, _, ⟨_, _, _, _, _, -, -, -, hm, -⟩, -⟩ := htext.mem hm
  exact hm

end Values
end JitLlm.Artifact.Json
