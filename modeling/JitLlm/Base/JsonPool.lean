import JitLlm.Base.JsonText

/-!
# A value in the table

`fill v index s` is the table with the value put at a node that is there for it: its children, in
the order of the text, at nodes of their own. The table grows by one node for each value and name
below, by their texts, and keeps all else; and what is read from it again is the value.
-/

namespace JitLlm.Base.Json

open Lib List

/-! ## The values of a value -/

namespace Value

def children : Value → List Value
  | .array items => items
  | .object members => members.flatMap fun m => [.string m.1, m.2]
  | _ => []

def ownText : Value → List UInt8
  | .number raw _ => raw
  | .string bytes => bytes
  | _ => []

mutual

def all : Value → List Value
  | .array items => .array items :: allItems items
  | .object members => .object members :: allMembers members
  | .null => [.null]
  | .boolean b => [.boolean b]
  | .number raw integer => [.number raw integer]
  | .string bytes => [.string bytes]

def allItems : List Value → List Value
  | [] => []
  | v :: rest => v.all ++ allItems rest

def allMembers : List (List UInt8 × Value) → List Value
  | [] => []
  | (key, v) :: rest => .string key :: v.all ++ allMembers rest

end

theorem allItems_eq (items : List Value) : allItems items = items.flatMap all := by
  induction items with
  | nil => rfl
  | cons v rest ih => rw [allItems, ih, flatMap_cons]

theorem allMembers_eq (members : List (List UInt8 × Value)) :
    allMembers members = (members.flatMap fun m => [.string m.1, m.2]).flatMap all := by
  induction members with
  | nil => rfl
  | cons m rest ih =>
    rw [allMembers, ih]
    simp [all]

theorem all_eq (v : Value) : v.all = v :: v.children.flatMap all := by
  cases v with
  | array => rw [all, allItems_eq]; rfl
  | object => rw [all, allMembers_eq]; rfl
  | _ => simp [all, children]

theorem children_induction {P : Value → Prop} (h : ∀ v, (∀ c ∈ v.children, P c) → P v) (v : Value) :
    P v := by
  have hleaf : ∀ v : Value, v.children = [] → P v := by
    intro v hnil
    refine h v fun c hc => ?_
    rw [hnil] at hc
    cases hc
  refine @Value.rec P (fun items => ∀ c ∈ items, P c) (fun members => ∀ m ∈ members, P m.2)
    (fun m => P m.2) (hleaf _ rfl) (fun _ => hleaf _ rfl) (fun _ _ => hleaf _ rfl)
    (fun _ => hleaf _ rfl) ?_ ?_ ?_ ?_ ?_ ?_ ?_ v
  · exact fun items ih => h _ ih
  · intro members ih
    refine h _ fun c hc => ?_
    obtain ⟨m, hm, hc⟩ := mem_flatMap.mp hc
    rcases mem_cons.mp hc with rfl | hc
    · exact hleaf _ rfl
    obtain rfl := mem_singleton.mp hc
    exact ih m hm
  · exact fun c hc => (nomatch hc)
  · intro v rest hv hrest c hc
    rcases mem_cons.mp hc with rfl | hc
    · exact hv
    · exact hrest c hc
  · exact fun m hm => (nomatch hm)
  · intro m rest hm hrest c hc
    rcases mem_cons.mp hc with rfl | hc
    · exact hm
    · exact hrest c hc
  · exact fun _ _ hv => hv

end Value

/-! ## Filling -/

def Own.child (s : Own) : Own := s.addNode.push s.nodes.length

def Own.putText (s : Own) (kind : Kind) (integer : Bool) (bytes : List UInt8) (index : Nat) : Own :=
  (s.addText bytes).setNode index (s.textNode kind integer bytes.length)

mutual

def fill : Value → Nat → Own → Own
  | .null, index, s => s.setNode index {}
  | .boolean b, index, s => s.setNode index { kind := if b then .kTrue else .kFalse }
  | .number raw integer, index, s => s.putText .kNumber integer raw index
  | .string bytes, index, s => s.putText .kString false bytes index
  | .array items, index, s => (fillItems items s).close false s.pending.length index
  | .object members, index, s => (fillMembers members s).close true s.pending.length index

def fillItems : List Value → Own → Own
  | [], s => s
  | v :: rest, s => fillItems rest (fill v s.nodes.length s.child)

def fillMembers : List (List UInt8 × Value) → Own → Own
  | [], s => s
  | (key, v) :: rest, s =>
    let named := s.child.putText .kString false key s.nodes.length
    fillMembers rest (fill v named.nodes.length named.child)

end

def fillAll (vs : List Value) (s : Own) : Own :=
  vs.foldl (fun s v => fill v s.nodes.length s.child) s

@[simp] theorem fillAll_nil (s : Own) : fillAll [] s = s := rfl

@[simp] theorem fillAll_cons (v : Value) (vs : List Value) (s : Own) :
    fillAll (v :: vs) s = fillAll vs (fill v s.nodes.length s.child) := rfl

theorem fillAll_append (vs vs' : List Value) (s : Own) :
    fillAll (vs ++ vs') s = fillAll vs' (fillAll vs s) := foldl_append

theorem fillItems_eq (items : List Value) : ∀ s, fillItems items s = fillAll items s := by
  induction items with
  | nil => exact fun s => rfl
  | cons v rest ih => exact fun s => ih _

theorem fillMembers_eq (members : List (List UInt8 × Value)) : ∀ s, fillMembers members s =
    fillAll (members.flatMap fun m => [.string m.1, m.2]) s := by
  induction members with
  | nil => exact fun s => rfl
  | cons m rest ih =>
    intro s
    rw [fillMembers, ih]
    simp [fill]

theorem fill_array (items : List Value) (index : Nat) (s : Own) :
    fill (.array items) index s = (fillAll items s).close false s.pending.length index := by
  rw [fill, fillItems_eq]

theorem fill_object (members : List (List UInt8 × Value)) (index : Nat) (s : Own) :
    fill (.object members) index s = (fillAll (Value.object members).children s).close true
      s.pending.length index := by
  rw [fill, fillMembers_eq]
  rfl

/-! ## What the table keeps -/

structure Grown (index : Nat) (v : Value) (s s' : Own) : Prop where
  nodes : s'.nodes.length + 1 = s.nodes.length + v.all.length
  kids : s'.kids.length + 1 = s.kids.length + v.all.length
  kidsKept : s.kids <+: s'.kids
  text : s'.text = s.text ++ v.all.flatMap Value.ownText
  pending : s'.pending = s.pending
  kept : ∀ j, j < s.nodes.length → j ≠ index → s'.nodes[j]? = s.nodes[j]?

structure GrownAll (vs : List Value) (s s' : Own) : Prop where
  nodes : s'.nodes.length = s.nodes.length + (vs.flatMap Value.all).length
  kids : s'.kids.length + vs.length = s.kids.length + (vs.flatMap Value.all).length
  kidsKept : s.kids <+: s'.kids
  text : s'.text = s.text ++ (vs.flatMap Value.all).flatMap Value.ownText
  pending : ∃ ids, s'.pending = s.pending ++ ids ∧ ids.length = vs.length
  kept : ∀ j, j < s.nodes.length → s'.nodes[j]? = s.nodes[j]?

theorem getElem?_set_other {nodes : List Node} {index j : Nat} {node : Node} (h : j ≠ index) :
    (nodes.set index node)[j]? = nodes[j]? := getElem?_set_ne (Ne.symm h)

theorem fillAll_grown {vs : List Value}
    (h : ∀ v ∈ vs, ∀ index s, Grown index v s (fill v index s)) :
    ∀ s, GrownAll vs s (fillAll vs s) := by
  induction vs with
  | nil => exact fun s => ⟨rfl, rfl, prefix_refl _, (append_nil _).symm,
      ⟨[], (append_nil _).symm, rfl⟩, fun _ _ => rfl⟩
  | cons v vs ih =>
    intro s
    have hv := h v mem_cons_self s.nodes.length s.child
    have hrest := ih (fun c hc => h c (mem_cons_of_mem _ hc)) (fill v s.nodes.length s.child)
    have hnodes : s.child.nodes.length = s.nodes.length + 1 := length_append
    obtain ⟨ids, hids, hlength⟩ := hrest.pending
    rw [fillAll_cons]
    constructor
    · have := hv.nodes
      rw [hrest.nodes, flatMap_cons, length_append]
      omega
    · have hkids := hv.kids
      have := hrest.kids
      have hsame : s.child.kids = s.kids := rfl
      rw [hsame] at hkids
      rw [flatMap_cons, length_append, length_cons]
      omega
    · exact (show s.kids <+: _ from hv.kidsKept).trans hrest.kidsKept
    · rw [hrest.text, hv.text, flatMap_cons, flatMap_append, ← append_assoc]
      rfl
    · refine ⟨s.nodes.length :: ids, ?_, by rw [length_cons, length_cons, hlength]⟩
      rw [hids, hv.pending]
      show s.pending ++ [s.nodes.length] ++ ids = _
      rw [append_assoc, singleton_append]
    intro j hj
    have hlen := hv.nodes
    rw [hrest.kept j (by omega), hv.kept j (by omega) (by omega)]
    exact getElem?_append_left hj

variable {index : Nat}

variable {v : Value}

theorem close_grown {s s' : Own} (object : Bool)
    (h : GrownAll v.children s s') (htext : v.ownText = []) :
    Grown index v s (s'.close object s.pending.length index) := by
  obtain ⟨ids, hids, hlen⟩ := h.pending
  have hall : v.all.length = (v.children.flatMap Value.all).length + 1 := by
    rw [Value.all_eq, length_cons]
  have hdrop : s'.pending.drop s.pending.length = ids := by rw [hids, drop_left]
  constructor
  · show (s'.nodes.set _ _).length + 1 = _
    rw [length_set, h.nodes, hall, Nat.add_assoc]
  · show (s'.kids ++ s'.pending.drop _).length + 1 = _
    rw [hdrop, length_append, hlen, h.kids, hall, Nat.add_assoc]
  · exact h.kidsKept.trans (prefix_append _ _)
  · show s'.text = _
    rw [h.text, Value.all_eq, flatMap_cons, htext, nil_append]
  · show s'.pending.take _ = _
    rw [hids, take_left]
  intro j hj hne
  exact (getElem?_set_other hne).trans (h.kept j hj)

theorem putText_grown {s : Own} (kind : Kind) (integer : Bool)
    (hall : v.all = [v]) : Grown index v s (s.putText kind integer v.ownText index) := by
  constructor
  · show (s.nodes.set _ _).length + 1 = _
    rw [length_set, hall]
    rfl
  · show s.kids.length + 1 = _
    rw [hall]
    rfl
  · exact prefix_refl _
  · rw [hall, flatMap_singleton]
    rfl
  · rfl
  · exact fun j _ hne => getElem?_set_other hne

theorem setNode_grown {s : Own} (node : Node) (hall : v.all = [v])
    (htext : v.ownText = []) : Grown index v s (s.setNode index node) := by
  constructor
  · show (s.nodes.set _ _).length + 1 = _
    rw [length_set, hall]
    rfl
  · show s.kids.length + 1 = _
    rw [hall]
    rfl
  · exact prefix_refl _
  · rw [hall, flatMap_singleton, htext, append_nil]
    rfl
  · rfl
  · exact fun j _ hne => getElem?_set_other hne

theorem fill_grown (v : Value) : ∀ index s, Grown index v s (fill v index s) := by
  induction v using Value.children_induction with
  | h v ih =>
    intro index s
    have hchil := fillAll_grown ih s
    cases v with
    | null | boolean => exact setNode_grown _ (by simp [Value.all]) rfl
    | number raw integer =>
      exact putText_grown (v := .number raw integer) _ _ (by simp [Value.all])
    | string bytes =>
      exact putText_grown (v := .string bytes) _ _ (by simp [Value.all])
    | array =>
      rw [fill_array]
      exact close_grown false hchil rfl
    | object =>
      rw [fill_object]
      exact close_grown true hchil rfl

theorem grownAll (vs : List Value) (s : Own) : GrownAll vs s (fillAll vs s) :=
  fillAll_grown (fun v _ => fill_grown v) s

/-! ## What is read again -/

def Heads (d : Document) (node : Node) : Value → Prop
  | .null => node.kind = .kNull
  | .boolean b => node.kind = if b then .kTrue else .kFalse
  | .number raw integer => node.kind = .kNumber ∧ node.integer = integer ∧
      node.size = raw.length ∧ d.textOf node = raw
  | .string bytes => node.kind = .kString ∧ node.size = bytes.length ∧ d.textOf node = bytes
  | .array items => node.kind = .kArray ∧ node.size = items.length
  | .object members => node.kind = .kObject ∧ node.size = members.length

/-- The value is at the node, with all its nodes among those of `P`. -/
inductive Reads (d : Document) (P : Nat → Prop) : Nat → Value → Prop
  | mk {i : Nat} {v : Value} {node : Node} (kid : Nat → Nat) : P i → d.nodes[i]? = some node →
      Heads d node v → (∀ k, k < v.children.length → d.kids[node.first + k]? = some (kid k)) →
      (∀ k (h : k < v.children.length), Reads d P (kid k) v.children[k]) → Reads d P i v

section Reads

variable {d d' : Document} {P Q : Nat → Prop} {i : Nat} {v : Value} {node : Node}
    {bytes : List UInt8} {s : Own} {members : List (List UInt8 × Value)}

theorem textOf_kept (htext : d.text <+: d'.text)
    (hsize : node.size = bytes.length) (h : d.textOf node = bytes) : d'.textOf node = bytes := by
  obtain ⟨more, hmore⟩ := htext
  unfold Document.textOf at h ⊢
  have hlen : node.size ≤ (d.text.drop node.first).length := by
    rw [hsize, ← h, length_take]
    exact Nat.min_le_right _ _
  rcases Nat.eq_zero_or_pos node.size with hzero | hpos
  · rw [hzero] at h ⊢
    exact h
  rw [length_drop] at hlen
  rw [← hmore, drop_append_of_le_length (by omega), take_append_of_le_length (by
    rw [length_drop]
    exact hlen)]
  exact h

theorem Heads.mono (h : Heads d node v) (htext : d.text <+: d'.text) : Heads d' node v := by
  cases v with
  | number =>
    obtain ⟨hkind, hint, hsize, hraw⟩ := h
    exact ⟨hkind, hint, hsize, textOf_kept htext hsize hraw⟩
  | string =>
    obtain ⟨hkind, hsize, hbytes⟩ := h
    exact ⟨hkind, hsize, textOf_kept htext hsize hbytes⟩
  | _ => exact h

theorem Reads.mono (h : Reads d P i v)
    (hnodes : ∀ j, P j → j < d.nodes.length → d'.nodes[j]? = d.nodes[j]?)
    (hkids : d.kids <+: d'.kids) (htext : d.text <+: d'.text) (hPQ : ∀ j, P j → Q j) :
    Reads d' Q i v := by
  induction h with
  | @mk i v node kid hP hnode hheads hkid _ ih =>
    have hlt := (List.getElem?_eq_some_iff.mp hnode).1
    refine .mk kid (hPQ _ hP) ((hnodes _ hP hlt).trans hnode) (hheads.mono htext) ?_ ih
    intro k hk
    obtain ⟨more, hmore⟩ := hkids
    have hkid := hkid k hk
    rw [← hmore, getElem?_append_left (List.getElem?_eq_some_iff.mp hkid).1]
    exact hkid

structure Small (s : Own) : Prop where
  nodes : s.nodes.length < 2 ^ 32
  text : s.text.length < 2 ^ 32
  kids : s.kids.length + s.pending.length < s.nodes.length

theorem Small.child (h : Small s) (hnodes : s.nodes.length + 1 < 2 ^ 32) : Small s.child where
  nodes := by
    show (s.nodes ++ [_]).length < _
    rw [length_append]
    exact hnodes
  text := h.text
  kids := by
    have := h.kids
    show s.kids.length + (s.pending ++ [_]).length < (s.nodes ++ [_]).length
    simp only [length_append, length_singleton]
    omega

theorem Value.all_pos (v : Value) : 0 < v.all.length := by
  rw [Value.all_eq]
  exact Nat.succ_pos _

variable {index : Nat}

theorem Small.fill (h : Small s) (hnodes : (Json.fill v index s).nodes.length < 2 ^ 32)
    (htext : (Json.fill v index s).text.length < 2 ^ 32) : Small (Json.fill v index s) where
  nodes := hnodes
  text := htext
  kids := by
    have hgrown := fill_grown v index s
    have := hgrown.nodes
    have := hgrown.kids
    have := h.kids
    rw [hgrown.pending]
    omega

theorem fillAll_reads {vs : List Value}
    (ih : ∀ v ∈ vs, ∀ index s, index < s.nodes.length → Small s → Small (fill v index s) →
      Reads (fill v index s).toDocument (fun j => j = index ∨ s.nodes.length ≤ j) index v) :
    ∀ s, Small s → (fillAll vs s).nodes.length < 2 ^ 32 → (fillAll vs s).text.length < 2 ^ 32 →
      ∃ ids, (fillAll vs s).pending = s.pending ++ ids ∧ ids.length = vs.length ∧
        ∀ k (h : k < ids.length) (h' : k < vs.length),
          Reads (fillAll vs s).toDocument (fun j => s.nodes.length ≤ j) ids[k] vs[k] := by
  induction vs with
  | nil => exact fun s _ _ _ => ⟨[], (append_nil _).symm, rfl, fun k h => (nomatch h)⟩
  | cons v vs ihs =>
    intro s hsmall hnodes htext
    rw [fillAll_cons] at hnodes htext ⊢
    have hgrown := fill_grown v s.nodes.length s.child
    have hrest := grownAll vs (fill v s.nodes.length s.child)
    have hall := v.all_pos
    have hchildLen : s.child.nodes.length = s.nodes.length + 1 := length_append
    have hle := hrest.nodes
    have hle' := hgrown.nodes
    have hchild : Small s.child := hsmall.child (by omega)
    have hfil : Small (fill v s.nodes.length s.child) := hchild.fill (by omega) (by
      rw [hrest.text, length_append] at htext
      omega)
    have hfirst := ih v mem_cons_self s.nodes.length s.child (by omega) hchild hfil
    obtain ⟨ids, hids, hlen, hreads⟩ := ihs (fun c hc => ih c (mem_cons_of_mem _ hc)) _
      hfil hnodes htext
    refine ⟨s.nodes.length :: ids, ?_, by rw [length_cons, length_cons, hlen], ?_⟩
    · rw [hids, hgrown.pending]
      show s.pending ++ [s.nodes.length] ++ ids = _
      rw [append_assoc, singleton_append]
    intro k hk hk'
    cases k with
    | zero =>
      refine hfirst.mono (fun j _ hj => hrest.kept j hj) hrest.kidsKept ?_ ?_
      · exact ⟨_, hrest.text.symm⟩
      intro j hj
      omega
    | succ k =>
      refine (hreads k (by simpa using hk) (by simpa using hk')).mono (fun _ _ _ => rfl)
        (prefix_refl _) (prefix_refl _) ?_
      intro j hj
      omega

theorem leaf_reads (node : Node) (hindex : index < s.nodes.length)
    (hchil : v.children = []) (hP : P index) (hheads : Heads d node v)
    (hnodes : d.nodes = s.nodes.set index node) : Reads d P index v := by
  refine .mk (fun _ => 0) hP ?_ hheads (fun k hk => ?_) (fun k hk => ?_)
  · rw [hnodes, getElem?_set_self hindex]
  · rw [hchil] at hk
    cases hk
  rw [hchil] at hk
  cases hk

theorem putText_heads {kind : Kind} {integer : Bool}
    (hsmall : (s.putText kind integer bytes index).text.length < 2 ^ 32) :
    (s.textNode kind integer bytes.length).size = bytes.length ∧
      (s.putText kind integer bytes index).textOf (s.textNode kind integer bytes.length) =
        bytes := by
  have hlen : s.text.length + bytes.length < 2 ^ 32 := by
    rw [← length_append]
    exact hsmall
  have hsize : (s.textNode kind integer bytes.length).size = bytes.length :=
    Nat.mod_eq_of_lt (by omega)
  have hfirst : (s.textNode kind integer bytes.length).first = s.text.length :=
    Nat.mod_eq_of_lt (by omega)
  refine ⟨hsize, ?_⟩
  unfold Document.textOf
  rw [hsize, hfirst]
  show ((s.text ++ bytes).drop _).take _ = _
  rw [drop_left, take_length]

theorem members_length (members : List (List UInt8 × Value)) :
    (Value.object members).children.length = 2 * members.length := by
  show (members.flatMap fun m => [Value.string m.1, m.2]).length = _
  simp [Nat.mul_comm]

theorem close_reads {s s' : Own} {object : Bool} {ids : List Nat}
    (hindex : index < s.nodes.length) (hgrown : GrownAll v.children s s') (hsmall : Small s)
    (hnodes : s'.nodes.length < 2 ^ 32) (hids : s'.pending = s.pending ++ ids)
    (hlen : ids.length = v.children.length)
    (hheads : Heads (s'.close object s.pending.length index).toDocument
      (s'.containerNode object s.pending.length) v)
    (hreads : ∀ k (h : k < ids.length) (h' : k < v.children.length),
      Reads s'.toDocument (fun j => s.nodes.length ≤ j) ids[k] v.children[k]) :
    Reads (s'.close object s.pending.length index).toDocument
      (fun j => j = index ∨ s.nodes.length ≤ j) index v := by
  have hdrop : s'.pending.drop s.pending.length = ids := by rw [hids, drop_left]
  have hfirst : (s'.containerNode object s.pending.length).first = s'.kids.length := by
    have := hgrown.kids
    have := hgrown.nodes
    have := hsmall.kids
    exact Nat.mod_eq_of_lt (by omega)
  have hlt : index < s'.nodes.length := by
    have := hgrown.nodes
    omega
  refine .mk (fun k => ids.getD k 0) (.inl rfl) (getElem?_set_self hlt) hheads ?_ ?_
  · intro k hk
    show (s'.kids ++ s'.pending.drop _)[_]? = _
    rw [hdrop, hfirst, getElem?_append_right (Nat.le_add_right _ _), Nat.add_sub_cancel_left,
      getD_eq_getElem?_getD, getElem?_eq_getElem (hlen ▸ hk)]
    rfl
  intro k hk
  have hk' : k < ids.length := hlen ▸ hk
  have hget : ids.getD k 0 = ids[k] := by
    rw [getD_eq_getElem?_getD, getElem?_eq_getElem hk']
    rfl
  rw [hget]
  refine (hreads k hk' hk).mono ?_ (prefix_append _ _) (prefix_refl _) fun j => .inr
  intro j hj _
  exact getElem?_set_other (by omega)

theorem fill_reads (v : Value) : ∀ index s, index < s.nodes.length → Small s →
    Small (fill v index s) →
    Reads (fill v index s).toDocument (fun j => j = index ∨ s.nodes.length ≤ j) index v := by
  induction v using Value.children_induction with
  | h v ih =>
    intro index s hindex hsmall hfil
    have hgrown := grownAll v.children s
    have hnodes : (fillAll v.children s).nodes.length < 2 ^ 32 := by
      have := (fill_grown v index s).nodes
      have := hgrown.nodes
      have := hfil.nodes
      rw [Value.all_eq, length_cons] at *
      omega
    have htext : (fillAll v.children s).text.length < 2 ^ 32 := by
      have h := (fill_grown v index s).text
      have h' := hgrown.text
      have := hfil.text
      rw [h, Value.all_eq, flatMap_cons] at this
      rw [h']
      simp only [length_append] at *
      omega
    obtain ⟨ids, hids, hlen, hreads⟩ := fillAll_reads ih s hsmall hnodes htext
    have hcount : (fillAll v.children s).pending.length - s.pending.length = v.children.length := by
      rw [hids, length_append, hlen]
      omega
    have hfew : v.children.length < 2 ^ 32 := by
      have hkids := hgrown.kids
      have := hgrown.nodes
      obtain ⟨more, hmore⟩ := hgrown.kidsKept
      rw [← hmore, length_append] at hkids
      omega
    cases v with
    | null => exact leaf_reads {} hindex rfl (.inl rfl) rfl (by rw [fill]; rfl)
    | boolean b =>
      exact leaf_reads { kind := if b then .kTrue else .kFalse } hindex rfl (.inl rfl) rfl
        (by rw [fill]; rfl)
    | number =>
      obtain ⟨hsize, hbytes⟩ := putText_heads hfil.text
      exact leaf_reads _ hindex rfl (.inl rfl) ⟨rfl, rfl, hsize, hbytes⟩ rfl
    | string =>
      obtain ⟨hsize, hbytes⟩ := putText_heads hfil.text
      exact leaf_reads _ hindex rfl (.inl rfl) ⟨rfl, hsize, hbytes⟩ rfl
    | array items =>
      rw [fill_array]
      refine close_reads hindex hgrown hsmall hnodes hids hlen ⟨rfl, ?_⟩ hreads
      exact (congrArg (· % 2 ^ 32) hcount).trans (Nat.mod_eq_of_lt hfew)
    | object =>
      rw [fill_object]
      refine close_reads hindex hgrown hsmall hnodes hids hlen ⟨rfl, ?_⟩ hreads
      show ((fillAll _ s).pending.length - s.pending.length) / 2 % 2 ^ 32 = _
      rw [members_length] at hcount hfew
      rw [hcount, Nat.mul_div_cancel_left _ (by decide)]
      exact Nat.mod_eq_of_lt (by omega)

/-! ## The names of an object -/

theorem children_even (members : List (List UInt8 × Value)) : ∀ k,
    (Value.object members).children[2 * k]? = (members[k]?).map fun m => Value.string m.1 := by
  induction members with
  | nil => exact fun k => rfl
  | cons m rest ih =>
    intro k
    cases k with
    | zero => rfl
    | succ k => exact ih k

theorem children_odd (members : List (List UInt8 × Value)) : ∀ k,
    (Value.object members).children[2 * k + 1]? = (members[k]?).map Prod.snd := by
  induction members with
  | nil => exact fun k => rfl
  | cons m rest ih =>
    intro k
    cases k with
    | zero => rfl
    | succ k => exact ih k

theorem Reads.kid_of {k : Nat} {c : Value} {kid : Nat → Nat}
    (hreads : ∀ k (h : k < (Value.object members).children.length),
      Reads d P (kid k) (Value.object members).children[k])
    (hc : (Value.object members).children[k]? = some c) : Reads d P (kid k) c := by
  obtain ⟨hk, rfl⟩ := List.getElem?_eq_some_iff.mp hc
  exact hreads k hk

theorem Reads.string (h : Reads d P i (.string bytes)) :
    ∃ node, d.nodes[i]? = some node ∧ node.kind = .kString ∧ d.textOf node = bytes := by
  obtain ⟨kid, -, hnode, ⟨hkind, -, hbytes⟩, -, -⟩ := h
  exact ⟨_, hnode, hkind, hbytes⟩

theorem Reads.names (h : Reads d P i (.object members))
    (hnode : d.nodes[i]? = some node) (hkids : d.kids.length < 2 ^ 32) :
    d.names node = members.map Prod.fst := by
  obtain ⟨kid, -, hnode', ⟨-, hsize⟩, hkid, hreads⟩ := h
  rename_i node'
  obtain rfl : node' = node := Option.some.inj (hnode'.symm.trans hnode)
  unfold Document.names
  rw [hsize]
  refine ext_getElem (by simp) fun k hk hk' => ?_
  have hk : k < members.length := by simpa using hk
  have hchild := children_even members k
  rw [getElem?_eq_getElem hk, Option.map_some] at hchild
  obtain ⟨node1, hnode1, -, htext⟩ := (Reads.kid_of hreads hchild).string
  have hget := hkid (2 * k) (by rw [members_length]; omega)
  have hlt := (List.getElem?_eq_some_iff.mp hget).1
  simp only [getElem_map, getElem_range]
  rw [Nat.mod_eq_of_lt (by omega), getD_eq_getElem?_getD, getD_eq_getElem?_getD, hget,
    Option.getD_some, hnode1, Option.getD_some, htext]

end Reads
end JitLlm.Base.Json
