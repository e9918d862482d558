import JitLlm.Artifact.Header

/-!
# What the header writes

The header's loops write pieces one after another: a gap's pad, a span's entry. `Wrote` says which;
the pieces of a group tile it, those of a shard's groups tile the data section, and no two entries
have one name.
-/

namespace JitLlm.Artifact

open Base List

/-! ## Pieces -/

inductive Piece
  | pad (start stop : Nat)
  | member (s : Span) (start : Nat)

namespace Piece

def start : Piece → Nat
  | pad a _ => a
  | member _ a => a

def stop : Piece → Nat
  | pad _ b => b
  | member s a => a + s.bytes

end Piece

/-- The entries of the pieces; `k` pads come before them. -/
def entriesOf (k : Nat) : List Piece → List Entry
  | [] => []
  | .pad a b :: rest => ⟨padName k, "U8", [b - a], a, b⟩ :: entriesOf (k + 1) rest
  | .member s a :: rest => ⟨s.name, s.view.dtype, s.view.shape, a, a + s.bytes⟩ :: entriesOf k rest

def padsIn : List Piece → Nat
  | [] => 0
  | .pad _ _ :: rest => padsIn rest + 1
  | .member _ _ :: rest => padsIn rest

def membersIn : List Piece → List Span
  | [] => []
  | .pad _ _ :: rest => membersIn rest
  | .member s _ :: rest => s :: membersIn rest

theorem entriesOf_append (k : Nat) (ps qs : List Piece) :
    entriesOf k (ps ++ qs) = entriesOf k ps ++ entriesOf (k + padsIn ps) qs := by
  induction ps generalizing k with
  | nil => rfl
  | cons p ps ih =>
    cases p with
    | pad =>
      rw [cons_append, entriesOf, entriesOf, ih, padsIn, Nat.add_assoc, Nat.add_comm 1, cons_append]
    | member => rw [cons_append, entriesOf, entriesOf, ih, padsIn, cons_append]

theorem padsIn_append (ps qs : List Piece) : padsIn (ps ++ qs) = padsIn ps + padsIn qs := by
  induction ps with
  | nil => exact (Nat.zero_add _).symm
  | cons p ps ih =>
    cases p with
    | pad =>
      rw [cons_append, padsIn, padsIn, ih]
      omega
    | member => rw [cons_append, padsIn, padsIn, ih]

theorem membersIn_append (ps qs : List Piece) :
    membersIn (ps ++ qs) = membersIn ps ++ membersIn qs := by
  induction ps with
  | nil => rfl
  | cons p ps ih =>
    cases p with
    | pad => rw [cons_append, membersIn, membersIn, ih]
    | member => rw [cons_append, membersIn, membersIn, ih, cons_append]

variable {a lo hi k : Nat} {ps : List Piece} {g : Group} {s : Span}

theorem mem_entriesOf {s : Span} {ps : List Piece} (h : Piece.member s a ∈ ps) (k : Nat) :
    ⟨s.name, s.view.dtype, s.view.shape, a, a + s.bytes⟩ ∈ entriesOf k ps := by
  induction ps generalizing k with
  | nil => cases h
  | cons p ps ih =>
    rcases mem_cons.mp h with rfl | hrest
    · exact mem_cons_self
    cases p with
    | pad | member => exact mem_cons_of_mem _ (ih hrest _)

/-! ## Writing -/

section Writing

variable {shard : Nat} {h h' h'' : HeaderText}

def Wrote (h : HeaderText) (ps : List Piece) (h' : HeaderText) : Prop :=
  h'.text = h.text ++ (entriesOf h.pads ps).flatMap entryText ∧ h'.pads = h.pads + padsIn ps

theorem Wrote.nil (h : HeaderText) : Wrote h [] h := ⟨(append_nil _).symm, rfl⟩

theorem Wrote.append {ps qs : List Piece} (hps : Wrote h ps h') (hqs : Wrote h' qs h'') :
    Wrote h (ps ++ qs) h'' := by
  obtain ⟨htext, hpads⟩ := hps
  obtain ⟨htext', hpads'⟩ := hqs
  constructor
  · rw [htext', htext, hpads, entriesOf_append, flatMap_append, append_assoc]
  · rw [hpads', hpads, padsIn_append, Nat.add_assoc]

theorem addEntry_ok {e : Entry} (hadd : addEntry shard h e = .ok h') :
    h'.text = h.text ++ entryText e ∧ h'.pads = h.pads := by
  unfold addEntry at hadd
  split at hadd
  · cases hadd
  split at hadd
  · cases hadd
  cases hadd
  exact ⟨rfl, rfl⟩

def gap (cursor at_ : Nat) : List Piece := if at_ > cursor then [.pad cursor at_] else []

theorem padTo_ok {cursor at_ : Nat} (hpad : padTo shard h cursor at_ = .ok h') :
    Wrote h (gap cursor at_) h' := by
  unfold padTo at hpad
  unfold gap
  split at hpad
  next hgap =>
    obtain ⟨htext, hpads⟩ := addEntry_ok hpad
    rw [if_pos hgap]
    refine ⟨?_, hpads⟩
    rw [htext]
    simp [entriesOf]
  rename_i hgap
  cases hpad
  rw [if_neg hgap]
  exact .nil h

/-- The pieces of spans of a group, from `cursor` on. -/
def spanPieces (g : Group) (cursor : Nat) : List Span → List Piece
  | [] => []
  | s :: rest =>
    gap cursor (g.offset.value + s.offset) ++ .member s (g.offset.value + s.offset) ::
      spanPieces g (g.offset.value + s.offset + s.bytes) rest

def spansEnd (g : Group) (cursor : Nat) : List Span → Nat
  | [] => cursor
  | s :: rest => spansEnd g (g.offset.value + s.offset + s.bytes) rest

variable {gid : Nat}

theorem addSpans_ok {g : Group} {run rest : List Span} {cursor cursor' : Nat}
    (hrun : ∀ s ∈ run, s.group = gid) (hrest : ∀ s ∈ rest.head?, s.group ≠ gid)
    (hsums : ∀ s ∈ run, g.offset.value + s.offset + s.bytes < 2 ^ 64)
    (hadd : addSpans shard g gid h cursor (run ++ rest) = .ok (h', cursor')) :
    Wrote h (spanPieces g cursor run) h' ∧ cursor' = spansEnd g cursor run := by
  induction run generalizing h cursor with
  | nil =>
    have hdone : h = h' ∧ cursor = cursor' := by
      cases rest with
      | nil => exact Prod.mk.inj (Except.ok.inj hadd)
      | cons s =>
        rw [nil_append, addSpans, if_pos (hrest s rfl)] at hadd
        exact Prod.mk.inj (Except.ok.inj hadd)
    obtain ⟨rfl, rfl⟩ := hdone
    exact ⟨.nil h, rfl⟩
  | cons s run ih =>
    have hsum := hsums s mem_cons_self
    have hat : (g.offset.value + s.offset) % 2 ^ 64 = g.offset.value + s.offset :=
      Nat.mod_eq_of_lt (by omega)
    have hstop : (g.offset.value + s.offset + s.bytes) % 2 ^ 64 =
        g.offset.value + s.offset + s.bytes := Nat.mod_eq_of_lt hsum
    rw [cons_append, addSpans, if_neg (not_not.mpr (hrun s mem_cons_self))] at hadd
    simp only [hat, hstop] at hadd
    obtain ⟨h1, hpad, hadd⟩ := Lib.bind_ok hadd
    obtain ⟨h2, hentry, hadd⟩ := Lib.bind_ok hadd
    obtain ⟨hwrote, hcur⟩ := ih (fun s hs => hrun s (mem_cons_of_mem _ hs))
      (fun s hs => hsums s (mem_cons_of_mem _ hs)) hadd
    have hone : Wrote h1 [.member s (g.offset.value + s.offset)] h2 := by
      obtain ⟨htext, hpads⟩ := addEntry_ok hentry
      refine ⟨?_, hpads⟩
      rw [htext]
      simp [entriesOf]
    exact ⟨(padTo_ok hpad).append (hone.append hwrote), hcur⟩

def runOf (spans : List Span) (gid : Nat) : List Span := spans.filter fun s => s.group = gid

def groupPieces (spans : List Span) (gid : Nat) (g : Group) : List Piece :=
  spanPieces g g.offset.value (runOf spans gid) ++
    gap (spansEnd g g.offset.value (runOf spans gid)) (g.offset.value + g.stored.value)

def shardPieces (spans : List Span) (shard gid : Nat) : List Group → List Piece
  | [] => []
  | g :: gs =>
    if g.shard ≠ shard then []
    else groupPieces spans gid g ++ shardPieces spans shard (gid + 1) gs

variable {spans : List Span}

theorem dropWhile_sorted (hsor : spans.Pairwise fun a b => a.group ≤ b.group) :
    (spans.dropWhile fun s => s.group < gid) =
      runOf spans gid ++ spans.filter fun s => gid < s.group := by
  induction spans with
  | nil => rfl
  | cons s spans ih =>
    obtain ⟨hfirst, hrest⟩ := pairwise_cons.mp hsor
    have ih := ih hrest
    unfold runOf at ih ⊢
    rcases Nat.lt_trichotomy s.group gid with hlt | heq | hgt
    · simp only [dropWhile_cons, hlt, decide_true, if_true, filter_cons, hlt.ne,
        decide_false, Bool.false_eq_true, if_false, Nat.not_lt_of_lt hlt]
      exact ih
    · have hall : ∀ b ∈ spans, ¬ b.group < gid := fun b hb => by
        have := hfirst b hb
        omega
      have hdrop : (spans.dropWhile fun s => s.group < gid) = spans := by
        cases spans with
        | nil => rfl
        | cons b => simp [hall b mem_cons_self]
      rw [hdrop] at ih
      simp only [dropWhile_cons, heq, Nat.lt_irrefl, decide_false, Bool.false_eq_true,
        if_false, filter_cons, decide_true, if_true, cons_append]
      rw [← ih]
    have hnone : (spans.filter fun s => s.group = gid) = [] := by
      rw [filter_eq_nil_iff]
      intro b hb
      have := hfirst b hb
      simp only [decide_eq_true_eq]
      omega
    have hall : (spans.filter fun s => gid < s.group) = spans := by
      rw [filter_eq_self]
      intro b hb
      have := hfirst b hb
      simp only [decide_eq_true_eq]
      omega
    simp [Nat.not_lt_of_lt hgt, hgt.ne', hgt, hnone, hall]

theorem addGroups_ok {gs : List Group} (hsor : spans.Pairwise fun a b => a.group ≤ b.group)
    (hsums : ∀ k g, gs[k]? = some g → g.offset.value + g.stored.value < 2 ^ 64 ∧
      ∀ s ∈ runOf spans (gid + k), g.offset.value + s.offset + s.bytes < 2 ^ 64)
    (hadd : addGroups spans shard h gid gs = .ok h') :
    Wrote h (shardPieces spans shard gid gs) h' := by
  induction gs generalizing h gid with
  | nil =>
    obtain rfl := Except.ok.inj hadd
    exact .nil h
  | cons g gs ih =>
    unfold addGroups at hadd
    unfold shardPieces
    split at hadd
    next hshard =>
      obtain rfl := Except.ok.inj hadd
      rw [if_pos hshard]
      exact .nil h
    rename_i hshard
    rw [if_neg hshard]
    obtain ⟨⟨h1, cursor⟩, hspans, hafter⟩ := Lib.bind_ok hadd
    obtain ⟨h2, hpad, hgroups⟩ := Lib.bind_ok hafter
    obtain ⟨hend, hrun⟩ := hsums 0 g rfl
    rw [dropWhile_sorted hsor] at hspans
    have hhead : ∀ s ∈ (spans.filter fun s => gid < s.group).head?, s.group ≠ gid := by
      intro s hs
      have hmem := mem_of_mem_head? hs
      have := (mem_filter.mp hmem).2
      simp only [decide_eq_true_eq] at this
      omega
    obtain ⟨hwrote, rfl⟩ := addSpans_ok
      (fun s hs => of_decide_eq_true (mem_filter.mp hs).2) hhead hrun hspans
    rw [Nat.mod_eq_of_lt hend] at hpad
    have hnext : ∀ k g', gs[k]? = some g' → g'.offset.value + g'.stored.value < 2 ^ 64 ∧
        ∀ s ∈ runOf spans (gid + 1 + k), g'.offset.value + s.offset + s.bytes < 2 ^ 64 := by
      intro k g' hk
      have := hsums (k + 1) g' hk
      rwa [Nat.add_assoc, Nat.add_comm 1]
    exact (hwrote.append (padTo_ok hpad)).append (ih hnext hgroups)

end Writing

/-! ## Tiling -/

/-- The entries' ranges are, in order, exactly `[lo, hi)`, and none is empty. -/
def Tiles : Nat → List Entry → Nat → Prop
  | lo, [], hi => lo = hi
  | lo, e :: es, hi => e.start = lo ∧ lo < e.stop ∧ Tiles e.stop es hi

def PiecesTile : Nat → List Piece → Nat → Prop
  | lo, [], hi => lo = hi
  | lo, p :: ps, hi => p.start = lo ∧ lo < p.stop ∧ PiecesTile p.stop ps hi

theorem PiecesTile.entries (h : PiecesTile lo ps hi) (k : Nat) : Tiles lo (entriesOf k ps) hi := by
  induction ps generalizing lo k with
  | nil => exact h
  | cons p ps ih =>
    obtain ⟨hstart, hlt, hrest⟩ := h
    cases p with
    | pad | member => exact ⟨hstart, hlt, ih hrest _⟩

theorem PiecesTile.append {ps qs : List Piece} {mid : Nat} (hps : PiecesTile lo ps mid)
    (hqs : PiecesTile mid qs hi) : PiecesTile lo (ps ++ qs) hi := by
  induction ps generalizing lo with
  | nil =>
    obtain rfl : lo = mid := hps
    exact hqs
  | cons p ps ih =>
    obtain ⟨hstart, hlt, hrest⟩ := hps
    exact ⟨hstart, hlt, ih hrest⟩

theorem gap_tile (h : lo ≤ hi) : PiecesTile lo (gap lo hi) hi := by
  unfold gap
  split
  next hgap =>
    exact ⟨rfl, hgap, rfl⟩
  · exact Nat.le_antisymm h (Nat.not_lt.mp ‹_›)

/-- Spans of a group, one after another, all at or past `cursor` and inside `hi`. -/
structure Run (g : Group) (cursor hi : Nat) (run : List Span) : Prop where
  apart : run.Pairwise fun a b => a.offset + a.readable ≤ b.offset
  bytes : ∀ s ∈ run, 0 < s.bytes ∧ s.bytes ≤ s.readable
  after : ∀ s ∈ run, cursor ≤ g.offset.value + s.offset
  inside : ∀ s ∈ run, g.offset.value + s.offset + s.readable ≤ hi

theorem Run.tile {cursor : Nat} {run : List Span} (h : Run g cursor hi run)
    (hcur : cursor ≤ hi) : PiecesTile cursor (spanPieces g cursor run) (spansEnd g cursor run) ∧
      spansEnd g cursor run ≤ hi := by
  induction run generalizing cursor with
  | nil => exact ⟨rfl, hcur⟩
  | cons s run ih =>
    obtain ⟨hfirst, hapart⟩ := pairwise_cons.mp h.apart
    obtain ⟨hpos, hle⟩ := h.bytes s mem_cons_self
    have hafter := h.after s mem_cons_self
    have hins := h.inside s mem_cons_self
    have hrest : Run g (g.offset.value + s.offset + s.bytes) hi run := by
      refine ⟨hapart, fun b hb => h.bytes b (mem_cons_of_mem _ hb), fun b hb => ?_,
        fun b hb => h.inside b (mem_cons_of_mem _ hb)⟩
      have := hfirst b hb
      omega
    obtain ⟨htile, hend⟩ := ih hrest (by omega)
    refine ⟨(gap_tile hafter).append ⟨rfl, ?_, htile⟩, hend⟩
    show g.offset.value + s.offset < g.offset.value + s.offset + s.bytes
    omega

def GroupSpans (spans : List Span) (gid : Nat) (g : Group) : Prop :=
  Run g g.offset.value (g.offset.value + g.stored.value) (runOf spans gid)

variable {spans : List Span} {gid : Nat}

theorem GroupSpans.tile (h : GroupSpans spans gid g) :
    PiecesTile g.offset.value (groupPieces spans gid g) (g.offset.value + g.stored.value) := by
  obtain ⟨htile, hend⟩ := Run.tile h (Nat.le_add_right _ _)
  exact htile.append (gap_tile hend)

variable {shard : Nat} {gs : List Group}

theorem shardPieces_tile {gid : Nat}
    (hsor : gs.Pairwise fun a b => a.shard ≤ b.shard) (hfrom : ∀ g ∈ gs, shard ≤ g.shard)
    (hgroups : ∀ k g, gs[k]? = some g → GroupSpans spans (gid + k) g)
    (htiled : Tiled lo (gs.filter fun g => g.shard = shard) hi) :
    PiecesTile lo (shardPieces spans shard gid gs) hi := by
  induction gs generalizing gid lo with
  | nil => exact htiled
  | cons g gs ih =>
    obtain ⟨hfirst, hrest⟩ := pairwise_cons.mp hsor
    unfold shardPieces
    split
    next hshard =>
      have hpast : ((g :: gs).filter fun g => g.shard = shard) = [] := by
        rw [filter_eq_nil_iff]
        intro b hb
        have hge := hfrom g mem_cons_self
        rcases mem_cons.mp hb with rfl | hb
        · simpa using hshard
        have := hfirst b hb
        simp only [decide_eq_true_eq]
        omega
      rw [hpast] at htiled
      exact htiled
    rename_i hshard
    rw [filter_cons, if_pos (by simpa using hshard)] at htiled
    obtain ⟨hoff, htiled⟩ := htiled
    have hgroup := (hgroups 0 g rfl).tile
    rw [hoff] at hgroup
    refine hgroup.append (ih hrest (fun b hb => hfrom b (mem_cons_of_mem _ hb)) ?_ htiled)
    intro k g' hk
    rw [Nat.add_assoc, Nat.add_comm 1]
    exact hgroups (k + 1) g' hk

/-! ## Members -/

theorem mem_spanPieces {cursor : Nat} {run : List Span} :
    Piece.member s a ∈ spanPieces g cursor run ↔ s ∈ run ∧ a = g.offset.value + s.offset := by
  have hgap : ∀ lo hi, Piece.member s a ∉ gap lo hi := by
    intro lo hi hmem
    unfold gap at hmem
    split at hmem
    · cases mem_singleton.mp hmem
    · cases hmem
  induction run generalizing cursor with
  | nil => simp [spanPieces]
  | cons b run ih =>
    simp only [spanPieces, mem_append, mem_cons, hgap, false_or, ih, Piece.member.injEq]
    constructor
    · rintro (⟨rfl, rfl⟩ | ⟨hs, rfl⟩)
      · exact ⟨.inl rfl, rfl⟩
      · exact ⟨.inr hs, rfl⟩
    rintro ⟨rfl | hs, rfl⟩
    · exact .inl ⟨rfl, rfl⟩
    · exact .inr ⟨hs, rfl⟩

theorem membersIn_gap (lo hi : Nat) : membersIn (gap lo hi) = [] := by
  unfold gap
  split <;> rfl

theorem membersIn_spanPieces (g : Group) (cursor : Nat) (run : List Span) :
    membersIn (spanPieces g cursor run) = run := by
  induction run generalizing cursor with
  | nil => rfl
  | cons s run ih => rw [spanPieces, membersIn_append, membersIn_gap, membersIn, ih]; rfl

theorem membersIn_groupPieces (spans : List Span) (gid : Nat) (g : Group) :
    membersIn (groupPieces spans gid g) = runOf spans gid := by
  rw [groupPieces, membersIn_append, membersIn_spanPieces, membersIn_gap, append_nil]

theorem mem_shardPieces {gid : Nat} (hsor : gs.Pairwise fun a b => a.shard ≤ b.shard)
    (hfrom : ∀ g ∈ gs, shard ≤ g.shard) (hk : gs[k]? = some g) (hshard : g.shard = shard)
    (hs : s ∈ runOf spans (gid + k)) :
    Piece.member s (g.offset.value + s.offset) ∈ shardPieces spans shard gid gs := by
  induction gs generalizing gid k with
  | nil => cases hk
  | cons b gs ih =>
    obtain ⟨hfirst, hrest⟩ := pairwise_cons.mp hsor
    have hb : b.shard = shard := by
      have hge := hfrom b mem_cons_self
      cases k with
      | zero =>
        cases hk
        exact hshard
      | succ =>
        have hle := hfirst g (mem_of_getElem? hk)
        omega
    unfold shardPieces
    rw [if_neg (not_not.mpr hb), mem_append]
    cases k with
    | zero =>
      cases hk
      exact .inl (mem_append_left _ (mem_spanPieces.mpr ⟨hs, rfl⟩))
    | succ =>
      refine .inr (ih hrest (fun b hb => hfrom b (mem_cons_of_mem _ hb)) hk ?_)
      rwa [Nat.add_assoc, Nat.add_comm 1]

theorem members_from
    (h : s ∈ membersIn (shardPieces spans shard gid gs)) : s ∈ spans ∧ gid ≤ s.group := by
  induction gs generalizing gid with
  | nil => cases h
  | cons g gs ih =>
    unfold shardPieces at h
    split at h
    · cases h
    rw [membersIn_append, membersIn_groupPieces, mem_append] at h
    rcases h with h | h
    · obtain ⟨hmem, hgroup⟩ := mem_filter.mp h
      have hgroup : s.group = gid := of_decide_eq_true hgroup
      exact ⟨hmem, Nat.le_of_eq hgroup.symm⟩
    obtain ⟨hmem, hle⟩ := ih h
    exact ⟨hmem, Nat.le_of_succ_le hle⟩

theorem members_nodup (hnames : (spans.map Span.name).Nodup) :
    ((membersIn (shardPieces spans shard gid gs)).map Span.name).Nodup := by
  induction gs generalizing gid with
  | nil => exact nodup_nil
  | cons g gs ih =>
    unfold shardPieces
    split
    · exact nodup_nil
    rw [membersIn_append, membersIn_groupPieces, map_append]
    refine nodup_append.mpr ⟨hnames.sublist (List.filter_sublist.map _), ih, ?_⟩
    rintro a ha b hb rfl
    obtain ⟨s, hs, hname⟩ := mem_map.mp ha
    obtain ⟨s', hs', hname'⟩ := mem_map.mp hb
    obtain ⟨hmem, hgroup⟩ := mem_filter.mp hs
    obtain ⟨hmem', hle⟩ := members_from hs'
    obtain rfl := inj_on_of_nodup_map hnames hmem hmem' (hname.trans hname'.symm)
    have hgroup : s.group = gid := of_decide_eq_true hgroup
    omega

/-! ## Names -/

theorem toString_injective {m n : Nat} (h : toString m = toString n) : m = n := by
  have hdig : Nat.toDigits 10 m = Nat.toDigits 10 n := by
    rw [← Nat.toList_repr, ← Nat.toList_repr]
    exact congrArg String.toList h
  rw [← Nat.ofDigitChars_ten_toDigits (n := m), hdig, Nat.ofDigitChars_ten_toDigits]

theorem padName_injective {j : Nat} (h : padName j = padName k) : j = k := by
  have hlists := congrArg String.toList h
  simp only [padName, String.toList_append] at hlists
  exact toString_injective (String.toList_injective (append_cancel_left hlists))

theorem entriesOf_name {e : Entry} (h : e ∈ entriesOf k ps) :
    (∃ j, k ≤ j ∧ e.name = padName j) ∨ ∃ s ∈ membersIn ps, e.name = s.name := by
  induction ps generalizing k with
  | nil => cases h
  | cons p ps ih =>
    cases p with
    | pad =>
      rcases mem_cons.mp h with rfl | h
      · exact .inl ⟨k, Nat.le_refl _, rfl⟩
      rcases ih h with ⟨j, hj, hname⟩ | hmem
      · exact .inl ⟨j, Nat.le_of_succ_le hj, hname⟩
      · exact .inr hmem
    | member s =>
      rcases mem_cons.mp h with rfl | h
      · exact .inr ⟨s, mem_cons_self, rfl⟩
      rcases ih h with hpad | ⟨s', hs', hname⟩
      · exact .inl hpad
      · exact .inr ⟨s', mem_cons_of_mem _ hs', hname⟩

theorem entriesOf_nodup (hnames : ((membersIn ps).map Span.name).Nodup)
    (hpads : ∀ s ∈ membersIn ps, ∀ j, s.name ≠ padName j) :
    ((entriesOf k ps).map Entry.name).Nodup := by
  induction ps generalizing k with
  | nil => exact nodup_nil
  | cons p ps ih =>
    cases p with
    | pad =>
      refine nodup_cons.mpr ⟨fun hmem => ?_, ih hnames hpads⟩
      obtain ⟨e, he, hname⟩ := mem_map.mp hmem
      rcases entriesOf_name he with ⟨j, hj, hpad⟩ | ⟨s, hs, hspan⟩
      · have hjk : j = k := padName_injective (hpad.symm.trans hname)
        omega
      · exact hpads s hs k (hspan.symm.trans hname)
    | member s =>
      obtain ⟨hnot, hrest⟩ := nodup_cons.mp hnames
      refine nodup_cons.mpr ⟨fun hmem => ?_, ih hrest fun s' hs' =>
        hpads s' (mem_cons_of_mem _ hs')⟩
      obtain ⟨e, he, hname⟩ := mem_map.mp hmem
      rcases entriesOf_name he with ⟨j, -, hpad⟩ | ⟨s', hs', hspan⟩
      · exact hpads s mem_cons_self j (hname.symm.trans hpad)
      · exact hnot (mem_map.mpr ⟨s', hs', hspan.symm.trans hname⟩)

end JitLlm.Artifact
