import JitLlm.Base.JsonPool

/-!
# The parser reads exactly those texts

What one step of the parser does to the table is `fill`, and the table stays within the limits:
`Reading`, of a value at its node; `Adds`, of an element or a member. Then items with commas
between, a container, and by the nesting left every value.
-/

namespace JitLlm.Base.Json

open Lib List

/-! ## Within the limits -/

def Limits.nodes (limits : Limits) : Nat := max 1 (min limits.maxValues (2 ^ 32 - 1))

structure Fits (limits : Limits) (s : Own) : Prop where
  nodes : s.nodes.length ≤ limits.nodes
  text : s.text.length ≤ limits.maxStringBytes

/-- A table within the limits, with no more children than nodes. -/
structure Fine (limits : Limits) (s : Own) : Prop extends Fits limits s where
  kids : s.kids.length + s.pending.length < s.nodes.length

section Limits

variable {limits : Limits} {s : Own} {v : Value} {vs : List Value} {index : Nat}

theorem Limits.nodes_lt (limits : Limits) : limits.nodes < 2 ^ 32 := by
  unfold Limits.nodes
  omega

theorem Fine.small (h : Fine limits s) (hbits : limits.maxStringBytes < 2 ^ 32) : Small s :=
  ⟨Nat.lt_of_le_of_lt h.nodes limits.nodes_lt, Nat.lt_of_le_of_lt h.text hbits, h.kids⟩

theorem Fine.child (h : Fine limits s) (hnodes : s.nodes.length + 1 ≤ limits.nodes) :
    Fine limits s.child where
  nodes := by
    show (s.nodes ++ [_]).length ≤ _
    rw [length_append]
    exact hnodes
  text := h.text
  kids := by
    have := h.kids
    show s.kids.length + (s.pending ++ [_]).length < (s.nodes ++ [_]).length
    simp only [length_append, length_singleton]
    omega

theorem Fine.fill (h : Fine limits s) (hfits : Fits limits (fill v index s)) :
    Fine limits (fill v index s) where
  toFits := hfits
  kids := by
    have hgrown := fill_grown v index s
    have := hgrown.nodes
    have := hgrown.kids
    have := h.kids
    rw [hgrown.pending]
    omega

theorem Fine.fillAll (h : Fine limits s) (hfits : Fits limits (fillAll vs s)) :
    Fine limits (fillAll vs s) where
  toFits := hfits
  kids := by
    have hgrown := grownAll vs s
    obtain ⟨ids, hids, hlen⟩ := hgrown.pending
    have := hgrown.nodes
    have := hgrown.kids
    have := h.kids
    rw [hids, length_append]
    omega

theorem Fits.before (h : Fits limits (fillAll vs s)) : Fits limits s where
  nodes := by
    have := (grownAll vs s).nodes
    have := h.nodes
    omega
  text := by
    have hle := h.text
    rw [(grownAll vs s).text, length_append] at hle
    omega

theorem newNode_sound {x y : Cursor Own} {i : Nat} (h : newNode limits x = .ok (i, y)) :
    i = x.own.nodes.length ∧ y = { x with own := x.own.addNode } ∧
      x.own.nodes.length + 1 ≤ limits.nodes := by
  unfold newNode at h
  split at h
  · cases h
  rename_i hroom
  cases Except.ok.inj h
  simp only [ge_iff_le, Bool.or_eq_true, decide_eq_true_eq, not_or, Nat.not_le] at hroom
  refine ⟨rfl, rfl, ?_⟩
  unfold Limits.nodes
  omega

theorem newNode_complete {x : Cursor Own} (h : Fine limits x.own)
    (hnodes : x.own.nodes.length + 1 ≤ limits.nodes) :
    newNode limits x = .ok (x.own.nodes.length, { x with own := x.own.addNode }) := by
  have := h.kids
  unfold newNode
  rw [if_neg]
  unfold Limits.nodes at hnodes
  simp only [ge_iff_le, Bool.or_eq_true, decide_eq_true_eq, not_or, Nat.not_le]
  omega

end Limits

/-! ## Blanks -/

section Blanks

variable {x : Cursor Own} {w rest : List UInt8}

theorem skipSpace_sound (x : Cursor Own) : ∃ w, x.rest = w ++ (skipSpace x).rest ∧
    (skipSpace x).pos = x.pos + w.length ∧
    Scan.Skipped isSpace (fun _ s => s) x.own (skipSpace x).own w :=
  Scan.skipWhile_sound x

theorem skipSpace_eq {s : Own} (pos : Nat) (hw : Blank w) (hrest : Scan.Stops isSpace rest) :
    skipSpace ⟨w ++ rest, pos, s⟩ = ⟨rest, pos + w.length, s⟩ := Scan.skipWhile_eq pos hw hrest

def Comma (s s' : Own) (u : List UInt8) : Prop := s' = s ∧ ∃ w, Blank w ∧ u = 0x2c :: w

theorem comma_sound {x' : Cursor Own} (hbyte : x.rest.head? = some Scan.commaByte)
    (h : comma x = .ok x') :
    ∃ u, x.rest = u ++ x'.rest ∧ x'.pos = x.pos + u.length ∧ Comma x.own x'.own u := by
  cases h
  have hone := Takes.one hbyte
  obtain ⟨w, hrest, hpos, hblank, hown⟩ := skipSpace_sound (x.advance 1)
  refine ⟨0x2c :: w, ?_, ?_, ⟨hown, w, hblank, rfl⟩⟩
  · rw [hone.rest, hrest]
    rfl
  rw [hpos, hone.pos]
  simp only [length_cons, length_nil]
  omega

theorem comma_complete {s s' : Own} {u : List UInt8} (rest : List UInt8) (pos : Nat)
    (h : Comma s s' u) (hrest : Scan.Stops isSpace rest) :
    comma ⟨u ++ rest, pos, s⟩ = .ok ⟨rest, pos + u.length, s'⟩ := by
  obtain ⟨rfl, w, hblank, rfl⟩ := h
  show Except.ok (skipSpace ⟨w ++ rest, pos + 1, s'⟩) = _
  rw [skipSpace_eq _ hblank hrest, length_cons, Nat.add_assoc, Nat.add_comm 1]

theorem ends_blank {b : UInt8} (hw : Blank w) (hb : b = 0x2c ∨ b = 0x5d ∨ b = 0x7d)
    (rest : List UInt8) : Ends (w ++ b :: rest) := by
  intro c hc
  have hcase : isSpace c = true ∨ c = 0x2c ∨ c = 0x5d ∨ c = 0x7d := by
    cases w with
    | nil =>
      cases hc
      exact .inr hb
    | cons =>
      cases hc
      exact .inl (hw _ mem_cons_self)
  simp only [isSpace, Bool.or_eq_true, decide_eq_true_eq] at hcase
  rcases hcase with ((((rfl | rfl) | rfl) | rfl) | rfl | rfl | rfl) <;> decide

theorem ends_tail (hw : Blank w) : Ends w := by
  intro c hc
  have hspace := hw c (mem_of_mem_head? hc)
  simp only [isSpace, Bool.or_eq_true, decide_eq_true_eq] at hspace
  rcases hspace with ((rfl | rfl) | rfl) | rfl <;> decide

theorem stops_cons {b : UInt8} (hb : isSpace b = false) (rest : List UInt8) :
    Scan.Stops isSpace (b :: rest) := by
  intro c hc
  cases hc
  exact hb

end Blanks

/-! ## Elements and members -/

section Items

variable {α : Type} (limits : Limits)

def Reading (P : Value → List UInt8 → Prop) (index : Nat) (_ : Unit) (s s' : Own)
    (t : List UInt8) : Prop :=
  (Fine limits s ∧ index < s.nodes.length) ∧
    ∃ v, P v t ∧ s' = fill v index s ∧ Fits limits s'

/-- An item read, with nodes of its own; `f` says what is at them. -/
def Adds (P : α → List UInt8 → Prop) (f : α → List Value) (_ : Unit) (s s' : Own)
    (t : List UInt8) : Prop :=
  Fine limits s ∧ ∃ a, P a t ∧ s' = fillAll (f a) s ∧ Fits limits s'

/-- The parser of what is nested is sound, and complete, at every node. -/
structure Inner (inner : Nat → Parser Unit) (P : Value → List UInt8 → Prop) : Prop where
  sound : ∀ index, Scan.Sound (fun s => Fine limits s ∧ index < s.nodes.length) (inner index)
    (Reading limits P index)
  complete : ∀ index, Scan.Complete (inner index) (Reading limits P index) Ends
  start : ∀ v t rest, P v t → Scan.Stops isSpace (t ++ rest) ∧
    ∀ object, (t ++ rest).head? ≠ some (closeByte object)

def memberValues (m : List UInt8 × Value) : List Value := [.string m.1, m.2]

variable {limits} {inner : Nat → Parser Unit} {P : Value → List UInt8 → Prop}

theorem parseChild_sound (h : Inner limits inner P) :
    Scan.Sound (Fine limits) (parseChild limits inner) (Adds limits P fun v => [v]) := by
  intro x u y hfine hparse
  obtain ⟨⟨index, x1⟩, hnode, hparse⟩ := bind_ok hparse
  obtain ⟨rfl, rfl, hroom⟩ := newNode_sound hnode
  have hlt : x.own.nodes.length < x.own.child.nodes.length := by
    show _ < (x.own.nodes ++ [_]).length
    rw [length_append]
    exact Nat.lt_succ_self _
  obtain ⟨t, hrest, hpos, -, v, hP, hown, hfits⟩ := h.sound _ _ u y ⟨hfine.child hroom, hlt⟩ hparse
  exact ⟨t, hrest, hpos, hfine, v, hP, hown, hfits⟩

variable {s : Own}

theorem child_room {v : Value} (hfits : Fits limits (fillAll [v] s)) :
    s.nodes.length + 1 ≤ limits.nodes := by
  have := (grownAll [v] s).nodes
  have := v.all_pos
  have := hfits.nodes
  rw [flatMap_singleton] at *
  omega

theorem parseChild_complete (h : Inner limits inner P) :
    Scan.Complete (parseChild limits inner) (Adds limits P fun v => [v]) Ends := by
  rintro u s s' t rest pos ⟨hfine, v, hP, rfl, hfits⟩ hends
  have hroom := child_room hfits
  have hlt : s.nodes.length < s.child.nodes.length := by
    show _ < (s.nodes ++ [_]).length
    rw [length_append]
    exact Nat.lt_succ_self _
  unfold parseChild
  rw [newNode_complete (x := ⟨t ++ rest, pos, s⟩) hfine hroom, ok_bind]
  exact h.complete _ u s.child _ t rest pos ⟨⟨hfine.child hroom, hlt⟩, v, hP, rfl, hfits⟩ hends

theorem named_eq (s : Own) (key : List UInt8) : (((s.addNode.addText key).setNode s.nodes.length
      (s.addNode.textNode .kString false key.length)).push s.nodes.length) =
      fillAll [.string key] s := by
  rfl

variable {key : List UInt8}

theorem named_fits (hnodes : s.nodes.length + 1 ≤ limits.nodes)
    (htext : s.text.length + key.length ≤ limits.maxStringBytes) :
    Fits limits (fillAll [.string key] s) := by
  have hgrown := grownAll [.string key] s
  constructor
  · rw [hgrown.nodes]
    simpa [Value.all] using hnodes
  rw [hgrown.text, length_append]
  simpa [Value.all, Value.ownText] using htext

theorem named_room (hfits : Fits limits (fillAll [.string key] s)) :
    s.nodes.length + 1 ≤ limits.nodes ∧
      s.text.length + key.length ≤ limits.maxStringBytes := by
  have hgrown := grownAll [.string key] s
  refine ⟨child_room hfits, ?_⟩
  have htext := hfits.text
  rw [hgrown.text, length_append] at htext
  simpa [Value.all, Value.ownText] using htext

theorem parseMember_sound (h : Inner limits inner P) :
    Scan.Sound (Fine limits) (parseMember limits inner)
      (Adds limits (MemberText P) memberValues) := by
  intro x u y hfine hparse
  unfold parseMember at hparse
  split at hparse
  · cases hparse
  rename_i hquote
  have hquote : x.rest.head? = some 0x22 := Decidable.not_not.mp hquote
  obtain ⟨⟨index, x1⟩, hnode, hparse⟩ := bind_ok hparse
  obtain ⟨rfl, rfl, hroom⟩ := newNode_sound hnode
  obtain ⟨⟨node, x2⟩, hstring, hparse⟩ := bind_ok hparse
  obtain ⟨key, tk, hrest2, hpos2, hquoted, rfl, hown2, htext⟩ :=
    parseString_sound (x := { x with own := x.own.addNode }) hquote hstring hfine.text
  simp only [hown2] at hparse
  rw [named_eq x.own key] at hparse
  obtain ⟨w, hrest3, hpos3, hblank, hown3⟩ :=
    skipSpace_sound { x2 with own := fillAll [.string key] x.own }
  generalize skipSpace { x2 with own := fillAll [.string key] x.own } = x3 at *
  split at hparse
  · cases hparse
  rename_i hcolon
  have hcolon : x3.rest.head? = some 0x3a := Decidable.not_not.mp hcolon
  have hone := Takes.one hcolon
  obtain ⟨w', hrest4, hpos4, hblank', hown4⟩ := skipSpace_sound (x3.advance 1)
  have hown : (skipSpace (x3.advance 1)).own = fillAll [.string key] x.own := hown4.trans hown3
  have hfine' : Fine limits (skipSpace (x3.advance 1)).own := by
    rw [hown]
    exact hfine.fillAll (named_fits hroom htext)
  obtain ⟨tv, hrest5, hpos5, -, v, hP, hown5, hfits⟩ := parseChild_sound h _ u y hfine' hparse
  refine ⟨tk ++ w ++ 0x3a :: w' ++ tv, ?_, ?_, hfine, (key, v),
    ⟨tk, w, w', tv, hquoted, hblank, hblank', hP, rfl⟩, ?_, hfits⟩
  · have hrest2 : x.rest = tk ++ x2.rest := hrest2
    rw [hrest2, hrest3, hone.rest, hrest4, hrest5]
    simp
  · have hpos2 : x2.pos = x.pos + tk.length := hpos2
    have hone := hone.pos
    simp only [length_append, length_cons, length_nil] at *
    omega
  rw [hown5, hown]
  rfl

theorem parseMember_complete (h : Inner limits inner P) (hbits : limits.maxStringBytes < 2 ^ 32) :
    Scan.Complete (parseMember limits inner) (Adds limits (MemberText P) memberValues) Ends := by
  rintro u s s' t rest pos ⟨hfine, ⟨key, v⟩,
    ⟨tk, w, w', tv, hquoted, hblank, hblank', hP, rfl⟩, rfl, hfits⟩ hends
  have hfits' : Fits limits (fillAll [v] (fillAll [.string key] s)) := hfits
  obtain ⟨hroom, htext⟩ := named_room hfits'.before
  have hstring := parseString_complete (s := s.addNode) pos (w ++ 0x3a :: (w' ++ (tv ++ rest)))
    hquoted htext hbits
  have hchild := parseChild_complete h u (fillAll [.string key] s) _ tv rest
    (pos + tk.length + w.length + 1 + w'.length)
    ⟨hfine.fillAll hfits'.before, v, hP, rfl, hfits'⟩ hends
  obtain ⟨body, -, hbody⟩ := id hquoted
  have hhead : ¬ ((tk ++ w ++ 0x3a :: w' ++ tv ++ rest).head? ≠ some 0x22) := by
    rw [hbody]
    exact fun hne => hne rfl
  have htexts : tk ++ w ++ 0x3a :: w' ++ tv ++ rest =
      tk ++ (w ++ 0x3a :: (w' ++ (tv ++ rest))) := by simp
  have hlen : pos + tk.length + w.length + 1 + w'.length + tv.length =
      pos + (tk ++ w ++ 0x3a :: w' ++ tv).length := by
    simp only [length_append, length_cons]
    omega
  unfold parseMember
  rw [if_neg hhead, newNode_complete (x := ⟨_, pos, s⟩) hfine hroom, ok_bind]
  simp only [htexts, hstring, ok_bind, after]
  rw [named_eq, skipSpace_eq _ hblank (stops_cons rfl _)]
  rw [if_neg (fun hne => hne rfl), advance_cons, skipSpace_eq _ hblank' (h.start _ _ rest hP).1,
    hchild, hlen]
  rfl

/-! ## Items with commas between -/

variable {α : Type} {Q : α → List UInt8 → Prop} {f : α → List Value}

variable {us : List Unit}

variable {t : List UInt8}

theorem listed_sep {s s' : Own}
    (h : Scan.Listed (Adds limits Q f) (Scan.Skipped isSpace fun _ s => s) Comma us s s' t) :
    Fine limits s ∧ ∃ as, Sep Q as t ∧ s' = fillAll (as.flatMap f) s ∧ Fits limits s' := by
  induction h with
  | last hadds hskip =>
    obtain ⟨hfine, a, hQ, rfl, hfits⟩ := hadds
    obtain ⟨hblank, rfl⟩ := hskip
    exact ⟨hfine, [a], .last hQ hblank, by rw [flatMap_singleton], hfits⟩
  | next hadds hskip hcomma _ ih =>
    obtain ⟨hfine, a, hQ, rfl, hfits⟩ := hadds
    obtain ⟨hblank, rfl⟩ := hskip
    obtain ⟨rfl, w', hblank', rfl⟩ := hcomma
    obtain ⟨-, as, hsep, rfl, hfits'⟩ := ih
    refine ⟨hfine, a :: as, .next hQ hblank hblank' hsep, ?_, hfits'⟩
    rw [flatMap_cons, fillAll_append]

variable {as : List α}

theorem sep_listed (h : Sep Q as t) : ∀ {s : Own}, Fine limits s →
    Fits limits (fillAll (as.flatMap f) s) → ∃ us : List Unit, us.length = as.length ∧
      Scan.Listed (Adds limits Q f) (Scan.Skipped isSpace fun _ s => s) Comma us s
        (fillAll (as.flatMap f) s) t := by
  induction h with
  | last hQ hblank =>
    intro s hfine hfits
    rw [flatMap_singleton] at hfits ⊢
    exact ⟨[()], rfl, .last ⟨hfine, _, hQ, rfl, hfits⟩ ⟨hblank, rfl⟩⟩
  | next hQ hblank hblank' _ ih =>
    intro s hfine hfits
    rw [flatMap_cons, fillAll_append] at hfits ⊢
    obtain ⟨us, hlen, hlis⟩ := ih (hfine.fillAll hfits.before) hfits
    exact ⟨() :: us, by rw [length_cons, length_cons, hlen],
      .next ⟨hfine, _, hQ, rfl, hfits.before⟩ ⟨hblank, rfl⟩ ⟨rfl, _, hblank', rfl⟩ hlis⟩

def Between (Q : α → List UInt8 → Prop) (as : List α) (t : List UInt8) : Prop :=
  as = [] ∧ t = [] ∨ Sep Q as t

theorem between_bracketed {w t : List UInt8} (openByte closeByte : UInt8)
    (hw : Blank w) (h : Between Q as t) :
    Bracketed openByte closeByte Q as (openByte :: w ++ t ++ [closeByte]) := by
  rcases h with ⟨rfl, rfl⟩ | hsep
  · rw [append_nil]
    exact .empty hw
  · exact .items hw hsep

theorem bracketed_between {openByte closeByte : UInt8} (h : Bracketed openByte closeByte Q as t) :
    ∃ w t', Blank w ∧ Between Q as t' ∧ t = openByte :: w ++ t' ++ [closeByte] := by
  cases h with
  | empty hw => exact ⟨_, [], hw, .inl ⟨rfl, rfl⟩, by rw [append_nil]⟩
  | items hw hsep => exact ⟨_, _, hw, .inr hsep, rfl⟩

variable {item : Parser Unit}

variable {object : Bool}

variable {x y : Cursor Own}

theorem parseItems_sound (hitem : Scan.Sound (Fine limits) item (Adds limits Q f))
    (hfine : Fine limits x.own) (h : parseItems item object x = .ok (us, y)) :
    ∃ as t, Between Q as t ∧ x.rest = t ++ closeByte object :: y.rest ∧
      y.pos = x.pos + t.length + 1 ∧ y.own = fillAll (as.flatMap f) x.own ∧ Fits limits y.own := by
  unfold parseItems at h
  split at h
  next hclose =>
    obtain ⟨-, rfl⟩ := Prod.mk.inj (Except.ok.inj h)
    exact ⟨[], [], .inl ⟨rfl, rfl⟩, (Takes.one hclose).rest, rfl, rfl, hfine.toFits⟩
  obtain ⟨us', t, -, hrest, hpos, hlis⟩ := Scan.commaLoop_sound hitem
    (fun a s s' t _ hadds => by
      obtain ⟨hfine, a, -, rfl, hfits⟩ := hadds
      exact hfine.fillAll hfits)
    (fun s s' w hfine hskip => by
      obtain ⟨-, rfl⟩ := hskip
      exact hfine)
    (fun s s' u hfine hcomma => by
      obtain ⟨rfl, -⟩ := hcomma
      exact hfine)
    skipSpace_sound (fun x x' => comma_sound) _ _ x hfine h
  obtain ⟨-, as, hsep, hown, hfits⟩ := listed_sep hlis
  exact ⟨as, t, .inr hsep, hrest, hpos, hown, hfits⟩

theorem sep_head (h : Sep Q as t) : ∃ a t' t'', Q a t' ∧ t = t' ++ t'' := by
  cases h with
  | last hQ => exact ⟨_, _, _, hQ, rfl⟩
  | next hQ => exact ⟨_, _, _, hQ, by rw [append_assoc, append_assoc]⟩

theorem parseItems_complete (hitem : Scan.Complete item (Adds limits Q f) Ends)
    (hstart : ∀ a t rest, Q a t → Scan.Stops isSpace (t ++ rest) ∧
      (t ++ rest).head? ≠ some (closeByte object)) (rest : List UInt8) (pos : Nat)
    (h : Between Q as t) (hfine : Fine limits s) (hfits : Fits limits (fillAll (as.flatMap f) s)) :
    ∃ us, parseItems item object ⟨t ++ closeByte object :: rest, pos, s⟩ =
      .ok (us, ⟨rest, pos + t.length + 1, fillAll (as.flatMap f) s⟩) := by
  unfold parseItems
  rcases h with ⟨rfl, rfl⟩ | hsep
  · exact ⟨[], if_pos rfl⟩
  obtain ⟨us, hlen, hlis⟩ := sep_listed hsep hfine hfits
  obtain ⟨a, t', t'', hQ, rfl⟩ := sep_head hsep
  have hcloses : closeByte object = 0x5d ∨ closeByte object = 0x7d := by
    cases object with
    | false => exact .inl rfl
    | true => exact .inr rfl
  have hhead : ¬ (t' ++ t'' ++ closeByte object :: rest).head? = some (closeByte object) := by
    rw [append_assoc]
    exact (hstart a t' _ hQ).2
  have hne : closeByte object ≠ Scan.commaByte := by
    rcases hcloses with h | h <;> rw [h] <;> decide
  have hcount := hlis.length_le (fun {s s' u} hcomma => by
    obtain ⟨-, w, -, rfl⟩ := hcomma
    exact cons_ne_nil _ _)
  refine ⟨us, ?_⟩
  rw [if_neg hhead]
  refine Scan.commaLoop_complete (F := Ends) (N := Scan.Stops isSpace) (G := Scan.Stops isSpace)
    hne hitem (fun s s' w rest pos hskip hstops => ?_)
    (fun s s' u rest pos hcomma hstops => comma_complete rest pos hcomma hstops)
    (fun {s s' u} hcomma => ?_) (fun s s' w b rest hskip hb => ?_)
    (fun b rest hb => stops_cons ?_ rest)
    (fun a s s' t rest hadds => ?_) _ [] rest pos hlis ?_
  · obtain ⟨hblank, rfl⟩ := hskip
    exact skipSpace_eq pos hblank hstops
  · obtain ⟨-, w, -, rfl⟩ := hcomma
    rfl
  · refine ends_blank hskip.1 ?_ rest
    rcases hb with rfl | rfl
    · exact .inl rfl
    · exact .inr hcloses
  · rcases hb with rfl | rfl
    · rfl
    · rcases hcloses with h | h <;> rw [h] <;> rfl
  · obtain ⟨-, a, hQ, -⟩ := hadds
    exact (hstart a t rest hQ).1
  show us.length ≤ (t' ++ t'' ++ closeByte object :: rest).length
  rw [length_append, length_cons]
  omega

/-! ## Containers -/

variable {members : List (List UInt8 × Value)} {index : Nat}

section

variable (hbits : limits.maxStringBytes < 2 ^ 32) (hfine : Fine limits s)
    (hindex : index < s.nodes.length) (hfits : Fits limits (fill (.object members) index s))
include hbits hfine hindex hfits

theorem object_names : (fill (.object members) index s).names
      ((fillAll (Value.object members).children s).containerNode true s.pending.length) =
      members.map Prod.fst := by
  have hsmall := (hfine.fill hfits).small hbits
  have hreads := fill_reads _ index s hindex (hfine.small hbits) hsmall
  refine hreads.names ?_ ?_
  · have hgrown := grownAll (Value.object members).children s
    rw [fill_object]
    refine getElem?_set_self ?_
    have := hgrown.nodes
    omega
  have := hsmall.kids
  have := hsmall.nodes
  omega

theorem object_size :
    ((fillAll (Value.object members).children s).containerNode true s.pending.length).size =
      members.length := by
  have hnames := congrArg List.length (object_names hbits hfine hindex hfits)
  simpa [Document.names] using hnames

theorem object_refused :
    (true && decide (1 < ((fillAll (Value.object members).children s).containerNode true
        s.pending.length).size) &&
      adjacentEqual (sortBytes (((fillAll (Value.object members).children s).close true
        s.pending.length index).names
          ((fillAll (Value.object members).children s).containerNode true s.pending.length)))) =
      true ↔ ¬ (members.map Prod.fst).Nodup := by
  rw [← fill_object, object_names hbits hfine hindex hfits, object_size hbits hfine hindex hfits,
    Bool.true_and, Bool.and_eq_true, adjacentEqual_sortBytes, decide_eq_true_eq]
  constructor
  · exact fun h => h.2
  intro hdup
  refine ⟨?_, hdup⟩
  -- one name, or none, has no double
  by_contra hfew
  match members, hdup, hfew with
  | [], hdup, _ => exact hdup nodup_nil
  | [m], hdup, _ => exact hdup (nodup_singleton _)
  | _ :: _ :: _, _, hfew => simp at hfew

end

theorem close_fits {base index : Nat} :
    Fits limits (s.close object base index) ↔ Fits limits s := by
  have hnodes : (s.close object base index).nodes.length = s.nodes.length := length_set
  constructor
  · exact fun h => ⟨hnodes ▸ h.nodes, h.text⟩
  · exact fun h => ⟨hnodes ▸ h.nodes, h.text⟩

variable {openByte : UInt8}

theorem bracket_sound (object : Bool) (hitem : Scan.Sound (Fine limits) item (Adds limits Q f))
    (hhead : x.rest.head? = some openByte) (hfine : Fine limits x.own)
    (h : parseItems item object (skipSpace (x.advance 1)) = .ok (us, y)) :
    ∃ as t, Bracketed openByte (closeByte object) Q as t ∧ x.rest = t ++ y.rest ∧
      y.pos = x.pos + t.length ∧ y.own = fillAll (as.flatMap f) x.own ∧ Fits limits y.own := by
  have hone := Takes.one hhead
  obtain ⟨w, hrest, hpos, hblank, hown⟩ := skipSpace_sound (x.advance 1)
  have hown : (skipSpace (x.advance 1)).own = x.own := hown
  obtain ⟨as, t, hbet, hrest', hpos', hown', hfits⟩ :=
    parseItems_sound hitem (by rw [hown]; exact hfine) h
  refine ⟨as, _, between_bracketed openByte _ hblank hbet, ?_, ?_, ?_, hfits⟩
  · rw [hone.rest, hrest, hrest']
    simp
  · have := hone.pos
    simp only [length_append, length_cons, length_nil] at *
    omega
  · rw [hown', hown]

theorem bracket_complete (object : Bool) (hitem : Scan.Complete item (Adds limits Q f) Ends)
    (hstart : ∀ a t rest, Q a t → Scan.Stops isSpace (t ++ rest) ∧
      (t ++ rest).head? ≠ some (closeByte object)) (rest : List UInt8) (pos : Nat)
    (h : Bracketed openByte (closeByte object) Q as t) (hfine : Fine limits s)
    (hfits : Fits limits (fillAll (as.flatMap f) s)) :
    ∃ us, parseItems item object (skipSpace ((⟨t ++ rest, pos, s⟩ : Cursor Own).advance 1)) =
      .ok (us, ⟨rest, pos + t.length, fillAll (as.flatMap f) s⟩) := by
  obtain ⟨w, t', hblank, hbet, rfl⟩ := bracketed_between h
  have htext : openByte :: w ++ t' ++ [closeByte object] ++ rest =
      openByte :: (w ++ (t' ++ closeByte object :: rest)) := by simp
  have hstops : Scan.Stops isSpace (t' ++ closeByte object :: rest) := by
    rcases hbet with ⟨-, rfl⟩ | hsep
    · refine stops_cons ?_ rest
      cases object <;> rfl
    obtain ⟨a, u, u', hQ, rfl⟩ := sep_head hsep
    rw [append_assoc]
    exact (hstart a u _ hQ).1
  obtain ⟨us, hparse⟩ := parseItems_complete hitem hstart rest (pos + 1 + w.length) hbet hfine hfits
  refine ⟨us, ?_⟩
  rw [htext, advance_cons, skipSpace_eq _ hblank hstops, hparse]
  simp only [length_append, length_cons, length_nil]
  congr 3
  omega

variable {index : Nat} {x y : Cursor Own} {u : Unit}

theorem array_sound (h : Inner limits inner P) (hhead : x.rest.head? = some 0x5b)
    (hfine : Fine limits x.own) (hparse : parseContainer limits inner index false x = .ok (u, y)) :
    ∃ items t, Bracketed 0x5b 0x5d P items t ∧ x.rest = t ++ y.rest ∧
      y.pos = x.pos + t.length ∧ y.own = fill (.array items) index x.own ∧ Fits limits y.own := by
  obtain ⟨⟨us, x1⟩, hitems, hparse⟩ := bind_ok hparse
  obtain ⟨items, t, hbrack, hrest, hpos, hown, hfits⟩ :=
    bracket_sound false (parseChild_sound h) hhead hfine hitems
  rw [flatMap_singleton'] at hown
  obtain ⟨-, rfl⟩ := Prod.mk.inj (Except.ok.inj hparse)
  refine ⟨items, t, hbrack, hrest, hpos, ?_, close_fits.mpr hfits⟩
  rw [fill_array]
  rw [hown]

theorem object_sound (h : Inner limits inner P) (hbits : limits.maxStringBytes < 2 ^ 32)
    (hhead : x.rest.head? = some 0x7b) (hfine : Fine limits x.own)
    (hindex : index < x.own.nodes.length)
    (hparse : parseContainer limits inner index true x = .ok (u, y)) :
    ∃ members t, ((members.map Prod.fst).Nodup ∧ Bracketed 0x7b 0x7d (MemberText P) members t) ∧
      x.rest = t ++ y.rest ∧ y.pos = x.pos + t.length ∧
      y.own = fill (.object members) index x.own ∧ Fits limits y.own := by
  obtain ⟨⟨us, x1⟩, hitems, hparse⟩ := bind_ok hparse
  obtain ⟨members, t, hbrack, hrest, hpos, hown, hfits⟩ :=
    bracket_sound true (parseMember_sound h) hhead hfine hitems
  have hown : x1.own = fillAll (Value.object members).children x.own := hown
  have hfits' : Fits limits (fill (.object members) index x.own) := by
    rw [fill_object, ← hown]
    exact close_fits.mpr hfits
  simp only [hown] at hparse
  split at hparse
  · cases hparse
  rename_i hnodup
  obtain ⟨-, rfl⟩ := Prod.mk.inj (Except.ok.inj hparse)
  rw [object_refused hbits hfine hindex hfits', Decidable.not_not] at hnodup
  exact ⟨members, t, ⟨hnodup, hbrack⟩, hrest, hpos, (fill_object _ _ _).symm, by
    rw [← fill_object]
    exact hfits'⟩

variable {s : Own} {t : List UInt8} (rest : List UInt8) (pos : Nat)

theorem array_complete (h : Inner limits inner P) {items : List Value}
    (ht : Bracketed 0x5b 0x5d P items t) (hfine : Fine limits s)
    (hfits : Fits limits (fill (.array items) index s)) :
    parseContainer limits inner index false ⟨t ++ rest, pos, s⟩ =
      .ok ((), ⟨rest, pos + t.length, fill (.array items) index s⟩) := by
  rw [fill_array, close_fits] at hfits
  obtain ⟨us, hitems⟩ := bracket_complete false (f := fun v => [v])
    (parseChild_complete h)
    (fun v t rest hP => ⟨(h.start v t rest hP).1, (h.start v t rest hP).2 _⟩)
    rest pos ht hfine (by rw [flatMap_singleton']; exact hfits)
  rw [flatMap_singleton'] at hitems
  show (parseItems (parseChild limits inner) false _ >>= _) = _
  rw [hitems, ok_bind, fill_array]
  rfl

theorem object_complete (h : Inner limits inner P) (hbits : limits.maxStringBytes < 2 ^ 32)
    (hnodup : (members.map Prod.fst).Nodup)
    (ht : Bracketed 0x7b 0x7d (MemberText P) members t) (hfine : Fine limits s)
    (hindex : index < s.nodes.length) (hfits : Fits limits (fill (.object members) index s)) :
    parseContainer limits inner index true ⟨t ++ rest, pos, s⟩ =
      .ok ((), ⟨rest, pos + t.length, fill (.object members) index s⟩) := by
  have hfits' := hfits
  rw [fill_object, close_fits] at hfits'
  have hstart : ∀ m t rest, MemberText P m t → Scan.Stops isSpace (t ++ rest) ∧
      (t ++ rest).head? ≠ some (closeByte true) := by
    rintro m t rest ⟨tk, w, w', tv, ⟨body, -, rfl⟩, -, -, -, rfl⟩
    exact ⟨stops_cons rfl _, fun hc => absurd (Option.some.inj hc) (by decide)⟩
  obtain ⟨us, hitems⟩ := bracket_complete true (f := memberValues)
    (parseMember_complete h hbits) hstart rest pos ht hfine hfits'
  have href := object_refused hbits hfine hindex hfits
  show (parseItems (parseMember limits inner) true _ >>= _) = _
  rw [hitems, ok_bind, fill_object]
  simp only
  rw [if_neg]
  · rfl
  intro hdup
  exact href.mp hdup hnodup

end Items

/-! ## Values -/

section Values

variable {limits : Limits} {n index : Nat} {v : Value} {t rest : List UInt8} {x y : Cursor Own}
  {inner : Option (Nat → Parser Unit)} {u : Unit} {s : Own}

theorem isText_null : IsText n .null t ↔ t = [0x6e, 0x75, 0x6c, 0x6c] := by
  cases n <;> simp [IsText]

theorem isText_true : IsText n (.boolean true) t ↔ t = [0x74, 0x72, 0x75, 0x65] := by
  cases n <;> simp [IsText]

theorem isText_false : IsText n (.boolean false) t ↔ t = [0x66, 0x61, 0x6c, 0x73, 0x65] := by
  cases n <;> simp [IsText]

variable {raw : List UInt8} {integer : Bool}

theorem isText_number : IsText n (.number raw integer) t ↔ t = raw ∧ NumberText raw integer := by
  cases n <;> simp [IsText]

variable {bytes : List UInt8}

theorem isText_string : IsText n (.string bytes) t ↔ Quoted bytes t := by
  cases n <;> simp [IsText]

theorem isText_array {items : List Value} :
    IsText (n + 1) (.array items) t ↔ Bracketed 0x5b 0x5d (IsText n) items t := by
  simp [IsText]

theorem isText_object {members : List (List UInt8 × Value)} :
    IsText (n + 1) (.object members) t ↔ (members.map Prod.fst).Nodup ∧
      Bracketed 0x7b 0x7d (MemberText (IsText n)) members t := by
  simp [IsText]

theorem NumberText.head (h : NumberText raw integer) :
    ∃ c tail, raw = c :: tail ∧ (c = 0x2d ∨ isDigit c = true) := by
  obtain ⟨minus, int, frac, exp, -, -, hsign, hwhole, -, -, rfl, -⟩ := h
  rcases hsign with rfl | rfl
  · obtain ⟨c, hc, hdigit⟩ := hwhole.head (frac ++ exp)
    obtain ⟨tail, htail⟩ := List.head?_eq_some_iff.mp hc
    exact ⟨c, tail, by rw [nil_append, append_assoc, htail], .inr hdigit⟩
  · exact ⟨0x2d, _, rfl, .inl rfl⟩

theorem IsText.head (h : IsText n v t) : ∃ b rest, t = b :: rest ∧ isSpace b = false ∧
    b ≠ 0x5d ∧ b ≠ 0x7d := by
  have hfix : ∀ b rest, t = b :: rest → (isSpace b = false ∧ b ≠ 0x5d ∧ b ≠ 0x7d) →
      ∃ b rest, t = b :: rest ∧ isSpace b = false ∧ b ≠ 0x5d ∧ b ≠ 0x7d :=
    fun b rest ht hb => ⟨b, rest, ht, hb⟩
  cases v with
  | null => exact hfix _ _ (isText_null.mp h) (by decide)
  | boolean b =>
    cases b with
    | true => exact hfix _ _ (isText_true.mp h) (by decide)
    | false => exact hfix _ _ (isText_false.mp h) (by decide)
  | number =>
    obtain ⟨rfl, hnum⟩ := isText_number.mp h
    obtain ⟨c, tail, ht, hc⟩ := hnum.head
    refine hfix c tail ht ?_
    rcases hc with rfl | hdigit
    · decide
    have hle : 0x30 ≤ c ∧ c ≤ 0x39 := by simpa [isDigit] using hdigit
    refine ⟨?_, ?_, ?_⟩
    · simp only [isSpace, Bool.or_eq_false_iff, decide_eq_false_iff_not]
      refine ⟨⟨⟨?_, ?_⟩, ?_⟩, ?_⟩ <;> rintro rfl <;> exact absurd hle.1 (by decide)
    · rintro rfl
      exact absurd hle.2 (by decide)
    rintro rfl
    exact absurd hle.2 (by decide)
  | string =>
    obtain ⟨body, -, rfl⟩ := isText_string.mp h
    exact hfix _ _ rfl (by decide)
  | array =>
    cases n with
    | zero => exact (nomatch h)
    | succ =>
      obtain ⟨w, t', -, -, rfl⟩ := bracketed_between (isText_array.mp h)
      exact hfix _ _ rfl (by decide)
  | object =>
    cases n with
    | zero => exact (nomatch h)
    | succ =>
      obtain ⟨w, t', -, -, rfl⟩ := bracketed_between (isText_object.mp h).2
      exact hfix _ _ rfl (by decide)

theorem IsText.start (h : IsText n v t) (rest : List UInt8) : Scan.Stops isSpace (t ++ rest) ∧
    ∀ object, (t ++ rest).head? ≠ some (closeByte object) := by
  obtain ⟨b, tail, rfl, hspace, hbracket, hbrace⟩ := h.head
  refine ⟨stops_cons hspace _, fun object hc => ?_⟩
  cases hc
  cases object with
  | false => exact hbracket rfl
  | true => exact hbrace rfl

/-! ### Scalars -/

variable {p : Parser Node}

theorem place_sound (h : place index p x = .ok (u, y)) :
    ∃ node y', p x = .ok (node, y') ∧ y = { y' with own := y'.own.setNode index node } := by
  obtain ⟨⟨node, y'⟩, hp, h⟩ := bind_ok h
  obtain ⟨-, rfl⟩ := Prod.mk.inj (Except.ok.inj h)
  exact ⟨node, y', hp, rfl⟩

theorem place_complete {node : Node} {y' : Cursor Own} (h : p x = .ok (node, y')) :
    place index p x = .ok ((), { y' with own := y'.own.setNode index node }) := by
  unfold place
  rw [h, ok_bind]
  rfl

theorem setNode_fits {node : Node} : Fits limits (s.setNode index node) ↔ Fits limits s := by
  have hnodes : (s.setNode index node).nodes.length = s.nodes.length := length_set
  constructor
  · exact fun h => ⟨hnodes ▸ h.nodes, h.text⟩
  · exact fun h => ⟨hnodes ▸ h.nodes, h.text⟩

variable {kind : Kind}

theorem putText_fits (hfits : Fits limits s) : Fits limits (s.putText kind integer bytes index) ↔
      s.text.length + bytes.length ≤ limits.maxStringBytes := by
  unfold Own.putText
  rw [setNode_fits]
  constructor
  · intro h
    rw [← length_append]
    exact h.text
  intro h
  rw [← length_append] at h
  exact ⟨hfits.nodes, h⟩

def Took (limits : Limits) (n index : Nat) (x y : Cursor Own) : Prop :=
  ∃ t, x.rest = t ++ y.rest ∧ y.pos = x.pos + t.length ∧
    Reading limits (IsText n) index () x.own y.own t

variable {word : List UInt8}

theorem word_sound (hI : Fine limits x.own ∧ index < x.own.nodes.length) (htext : IsText n v word)
    (hfill : ∀ s, fill v index s = s.setNode index { kind })
    (h : place index (parseWord word kind) x = .ok (u, y)) : Took limits n index x y := by
  obtain ⟨node, y', hword, rfl⟩ := place_sound h
  unfold parseWord at hword
  obtain ⟨hlead, hword⟩ := then_ok hword
  cases Except.ok.inj hword
  have htakes := Takes.two hlead
  exact ⟨word, htakes.rest, htakes.pos, hI, v, htext, (hfill _).symm, setNode_fits.mpr hI.1.toFits⟩

variable {tail : List UInt8}

theorem scalar_sound {c : UInt8}
    (hI : Fine limits x.own ∧ index < x.own.nodes.length) (hrest : x.rest = c :: tail)
    (hc : ¬ (c = 0x7b || c = 0x5b) = true) (h : parseAt limits inner index x = .ok (u, y)) :
    Took limits n index x y := by
  have hhead : x.rest.head? = some c := by rw [hrest]; rfl
  unfold parseAt at h
  rw [hrest] at h
  simp only [if_neg hc] at h
  split at h
  next hquote =>
    subst hquote
    obtain ⟨node, y', hstring, rfl⟩ := place_sound h
    obtain ⟨bytes, t, hrest', hpos, hquoted, rfl, hown, hroom⟩ :=
      parseString_sound hhead hstring hI.1.text
    refine ⟨t, hrest', hpos, hI, .string bytes, isText_string.mpr hquoted, ?_, ?_⟩
    · show y'.own.setNode _ _ = _
      rw [hown, fill]
      rfl
    show Fits limits (y'.own.setNode _ _)
    rw [hown]
    exact (putText_fits hI.1.toFits).mpr hroom
  split at h
  next word kind hword =>
    unfold wordOf at hword
    split at hword
    · cases Option.some.inj hword
      exact word_sound hI (isText_true.mpr rfl) (fun s => by rw [fill]; rfl) h
    split at hword
    · cases Option.some.inj hword
      exact word_sound hI (isText_false.mpr rfl) (fun s => by rw [fill]; rfl) h
    split at hword
    · cases Option.some.inj hword
      exact word_sound hI (isText_null.mpr rfl) (fun s => by rw [fill]) h
    · cases hword
  obtain ⟨node, y', hnum, rfl⟩ := place_sound h
  obtain ⟨raw, integer, hrest', hpos, htext, rfl, hown, hroom⟩ := parseNumber_sound hnum hI.1.text
  refine ⟨raw, hrest', hpos, hI, .number raw integer, isText_number.mpr ⟨rfl, htext⟩, ?_, ?_⟩
  · show y'.own.setNode _ _ = _
    rw [hown, fill]
    rfl
  show Fits limits (y'.own.setNode _ _)
  rw [hown]
  exact (putText_fits hI.1.toFits).mpr hroom

theorem word_complete (pos : Nat) {c : UInt8}
    (hword : word = c :: tail) (hc : ¬ (c = 0x7b || c = 0x5b) = true)
    (hquote : c ≠ 0x22) (hof : wordOf c = some (word, kind)) :
    parseAt limits inner index ⟨word ++ rest, pos, s⟩ =
      .ok ((), ⟨rest, pos + word.length, s.setNode index { kind }⟩) := by
  have hparse : parseWord word kind ⟨word ++ rest, pos, s⟩ =
      .ok ({ kind }, ⟨rest, pos + word.length, s⟩) := by
    unfold parseWord
    rw [if_pos (List.isPrefixOf_iff_prefix.mpr (prefix_append _ _))]
    simp only [Cursor.advance, drop_left]
  subst hword
  unfold parseAt
  simp only [cons_append, if_neg hc, if_neg hquote, hof]
  exact place_complete hparse

theorem scalar_complete (pos : Nat) (hbits : limits.maxStringBytes < 2 ^ 32)
    (harray : ∀ items, v ≠ .array items) (hobj : ∀ members, v ≠ .object members)
    (hfine : Fine limits s) (htext : IsText n v t) (hfits : Fits limits (fill v index s))
    (hends : Ends rest) : parseAt limits inner index ⟨t ++ rest, pos, s⟩ =
      .ok ((), ⟨rest, pos + t.length, fill v index s⟩) := by
  cases v with
  | null =>
    obtain rfl := isText_null.mp htext
    exact word_complete pos rfl (by decide) (by decide) rfl
  | boolean b =>
    cases b with
    | true =>
      obtain rfl := isText_true.mp htext
      exact word_complete pos rfl (by decide) (by decide) rfl
    | false =>
      obtain rfl := isText_false.mp htext
      exact word_complete pos rfl (by decide) (by decide) rfl
  | number =>
    obtain ⟨rfl, hnum⟩ := isText_number.mp htext
    have hparse := parseNumber_complete pos hnum hends ((putText_fits hfine.toFits).mp hfits)
    obtain ⟨c, tail, rfl, hc⟩ := hnum.head
    have hnot : ∀ b : UInt8, b ≠ 0x2d → isDigit b = false → c ≠ b := by
      rintro b hb hdigit rfl
      rcases hc with hc | hc
      · exact hb hc
      rw [hdigit] at hc
      cases hc
    have hbrack : ¬ (c = 0x7b || c = 0x5b) = true := by
      simp [hnot 0x7b (by decide) rfl, hnot 0x5b (by decide) rfl]
    have hword : wordOf c = none := by
      simp [wordOf, hnot 0x74 (by decide) rfl, hnot 0x66 (by decide) rfl, hnot 0x6e (by decide) rfl]
    unfold parseAt
    simp only [cons_append, if_neg hbrack, if_neg (hnot 0x22 (by decide) rfl), hword]
    exact place_complete hparse
  | string =>
    have hquoted := isText_string.mp htext
    have hparse := parseString_complete pos rest hquoted ((putText_fits hfine.toFits).mp hfits)
      hbits
    obtain ⟨body, -, rfl⟩ := hquoted
    exact place_complete hparse
  | array items => exact absurd rfl (harray items)
  | object members => exact absurd rfl (hobj members)

/-! ### By the nesting left -/

section

variable (hbits : limits.maxStringBytes < 2 ^ 32)
include hbits

theorem parseValue_sound (hinner : ∀ q, inner = some q → ∃ m, n = m + 1 ∧ Inner limits q (IsText m))
    (index : Nat) :
    Scan.Sound (fun s => Fine limits s ∧ index < s.nodes.length) (parseAt limits inner index)
      (Reading limits (IsText n) index) := by
  intro x u y hI h
  rcases hrest : x.rest with _ | ⟨c, tail⟩
  · simp only [parseAt, hrest] at h
    cases h
  rw [← hrest]
  by_cases hc : (c = 0x7b || c = 0x5b) = true
  · have hparse := h
    simp only [parseAt, hrest, if_pos hc] at hparse
    split at hparse
    · cases hparse
    rename_i q
    obtain ⟨m, rfl, hq⟩ := hinner q rfl
    by_cases hbrace : c = 0x7b
    · subst hbrace
      obtain ⟨members, t, htext, hrest', hpos, hown, hfits⟩ := object_sound hq hbits
        (by rw [hrest]; rfl) hI.1 hI.2 hparse
      exact ⟨t, hrest', hpos, hI, .object members, isText_object.mpr htext, hown, hfits⟩
    have hbracket : c = 0x5b := by simpa [hbrace] using hc
    subst hbracket
    obtain ⟨items, t, htext, hrest', hpos, hown, hfits⟩ := array_sound hq
      (by rw [hrest]; rfl) hI.1 hparse
    exact ⟨t, hrest', hpos, hI, .array items, isText_array.mpr htext, hown, hfits⟩
  · exact scalar_sound hI hrest hc h

theorem parseValue_complete
    (hinner : ∀ m, n = m + 1 → ∃ q, inner = some q ∧ Inner limits q (IsText m)) (index : Nat) :
    Scan.Complete (parseAt limits inner index) (Reading limits (IsText n) index) Ends := by
  rintro u s s' t rest pos ⟨hI, v, htext, rfl, hfits⟩ hends
  cases v with
  | array =>
    rcases n with _ | m
    · exact (nomatch htext)
    obtain ⟨q, rfl, hq⟩ := hinner m rfl
    have hbrack := isText_array.mp htext
    have hparse := array_complete rest pos hq hbrack hI.1 hfits
    obtain ⟨w, t', -, -, rfl⟩ := bracketed_between hbrack
    exact hparse
  | object =>
    rcases n with _ | m
    · exact (nomatch htext)
    obtain ⟨q, rfl, hq⟩ := hinner m rfl
    obtain ⟨hnodup, hbrack⟩ := isText_object.mp htext
    have hparse := object_complete rest pos hq hbits hnodup hbrack hI.1 hI.2 hfits
    obtain ⟨w, t', -, -, rfl⟩ := bracketed_between hbrack
    exact hparse
  | _ =>
    exact scalar_complete pos hbits nofun nofun hI.1 htext hfits hends

theorem parseValue_inner (n : Nat) : Inner limits (parseValue limits n) (IsText n) := by
  induction n with
  | zero =>
    exact ⟨parseValue_sound hbits fun q hq => (nomatch hq),
      parseValue_complete hbits fun m hm => (nomatch hm), fun v t rest h => h.start rest⟩
  | succ n ih =>
    refine ⟨parseValue_sound hbits fun q hq => ?_, parseValue_complete hbits fun m hm => ?_,
      fun v t rest h => h.start rest⟩
    · cases hq
      exact ⟨n, rfl, ih⟩
    obtain rfl := Nat.succ.inj hm
    exact ⟨_, rfl, ih⟩

end

end Values
end JitLlm.Base.Json
