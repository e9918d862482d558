import JitLlm.Tokenizer.Encode

/-!
# The merge loop

`Merge` against byte-pair encoding itself: while two neighbours merge, the leftmost pair of the
lowest rank becomes its result (`Reduces`). The source keeps a queue of candidates instead, and
drops one only when it comes up. Its invariant is `Heap`: the symbols not merged away are a chain
through `next` and `prev`, and a pair of neighbours that merges has its candidate queued. What is
left of a piece's symbols are normal tokens only, whose bytes, in order, are the piece's.

`run_drains` is the loop's termination: its turns are bounded by two for each symbol still live
and one for each candidate queued.
-/

namespace JitLlm.Tokenizer.Impl

open List

variable {x : Impl}

/-! ## Byte-pair encoding -/

/-- One turn: the pair of the lowest rank, and of these the leftmost, becomes its result. -/
structure Turn (x : Impl) (l l' before after : List TokenId) (a b merged : TokenId) (rank : Nat) :
    Prop where
  pair : l = before ++ a :: b :: after
  ranked : lookup (a, b) x.merges = some (rank, merged)
  lowest : ∀ before' a' b' after' rank' merged', l = before' ++ a' :: b' :: after' →
    lookup (a', b') x.merges = some (rank', merged') →
    rank < rank' ∨ rank = rank' ∧ before.length ≤ before'.length
  result : l' = before ++ merged :: after

inductive Reduces (x : Impl) : List TokenId → List TokenId → Prop
  | done {l : List TokenId} (last : ∀ before a b after, l = before ++ a :: b :: after →
      lookup (a, b) x.merges = none) : Reduces x l l
  | turn {l l₁ l' before after : List TokenId} {a b merged : TokenId} {rank : Nat}
      (first : x.Turn l l₁ before after a b merged rank) (rest : Reduces x l₁ l') : Reduces x l l'

theorem Turn.unique {l l1 l2 before before' after after' : List TokenId}
    {a a' b b' merged merged' : TokenId} {rank rank' : Nat}
    (h : x.Turn l l1 before after a b merged rank)
    (h' : x.Turn l l2 before' after' a' b' merged' rank') : l1 = l2 := by
  have hlow := h.lowest _ _ _ _ _ _ h'.pair h'.ranked
  have hlow' := h'.lowest _ _ _ _ _ _ h.pair h.ranked
  have hlen : before.length = before'.length := by omega
  obtain ⟨rfl, hrest⟩ := append_inj (h.pair.symm.trans h'.pair) hlen
  obtain ⟨rfl, rfl, rfl⟩ := hrest
  have hmer := Option.some.inj (h.ranked.symm.trans h'.ranked)
  rw [h.result, h'.result, (Prod.mk.inj hmer).2]

theorem Reduces.unique {l l1 l2 : List TokenId} (h : Reduces x l l1) (h' : Reduces x l l2) :
    l1 = l2 := by
  induction h with
  | done last =>
    cases h' with
    | done => rfl
    | turn first => exact nomatch (last _ _ _ _ first.pair).symm.trans first.ranked
  | turn first rest ih =>
    cases h' with
    | done last => exact nomatch (last _ _ _ _ first.pair).symm.trans first.ranked
    | turn first' rest' => exact ih (first.unique first' ▸ rest')

variable {l l' : List TokenId}

theorem Reduces.keeps {P : List TokenId → Prop}
    (hturn : ∀ before after a b rank merged, lookup (a, b) x.merges = some (rank, merged) →
      P (before ++ a :: b :: after) → P (before ++ merged :: after))
    (h : Reduces x l l') (hl : P l) : P l' := by
  induction h with
  | done => exact hl
  | turn first rest ih =>
    refine ih ?_
    rw [first.result]
    rw [first.pair] at hl
    exact hturn _ _ _ _ _ _ first.ranked hl

theorem Reduces.live (hx : x.Sound) (h : Reduces x l l')
    (hl : ∀ t ∈ l, 0 ≤ t) : ∀ t ∈ l', 0 ≤ t := by
  refine h.keeps (P := fun l => ∀ t ∈ l, 0 ≤ t) ?_ hl
  intro before after a b rank merged hlook hall
  have hmer := (hx.merges hlook).2.2.1.1
  simp only [mem_append, mem_cons] at hall ⊢
  rintro t (ht | rfl | ht)
  · exact hall t (.inl ht)
  · exact hmer
  · exact hall t (.inr (.inr (.inr ht)))

theorem Reduces.spells (hx : x.Sound) (h : Reduces x l l') :
    l'.flatMap x.bytes = l.flatMap x.bytes := by
  refine h.keeps (P := fun l' => l'.flatMap x.bytes = l.flatMap x.bytes) ?_ rfl
  intro before after a b rank merged hlook hsame
  rw [← hsame]
  simp [(hx.merges hlook).2.2.2]

namespace Merging

variable {m : Merging} {left right rank p i : Nat} {ps pre post rest : List Nat} {merged : TokenId}
    {queue : List (Nat × Nat)}

/-! ## Candidates -/

theorem consider_cases (x : Impl) (m : Merging) (left : Nat) : consider x m left = m ∨
      ∃ rank, consider x m left = { m with queue := m.queue.orderedInsert Precedes (rank, left) } := by
  unfold consider
  split
  · exact .inl rfl
  split
  · exact .inl rfl
  · exact .inr ⟨_, rfl⟩

@[simp] theorem consider_symbols : (consider x m left).symbols = m.symbols := by
  rcases consider_cases x m left with h | ⟨rank, h⟩ <;> rw [h]

@[simp] theorem consider_next : (consider x m left).next = m.next := by
  rcases consider_cases x m left with h | ⟨rank, h⟩ <;> rw [h]

theorem consider_queue : (consider x m left).queue.length ≤ m.queue.length + 1 := by
  rcases consider_cases x m left with h | ⟨rank, h⟩
  · rw [h]
    exact Nat.le_succ _
  · rw [h, orderedInsert_length]

theorem considerAll (l : List Nat) (m : Merging) :
    (l.foldl (fun m i => consider x m (u32 i)) m).symbols = m.symbols ∧
      (l.foldl (fun m i => consider x m (u32 i)) m).next = m.next ∧
      (l.foldl (fun m i => consider x m (u32 i)) m).queue.length ≤ m.queue.length + l.length := by
  induction l generalizing m with
  | nil => exact ⟨rfl, rfl, Nat.le_refl _⟩
  | cons i rest ih =>
    obtain ⟨h1, h2, h3⟩ := ih (consider x m (u32 i))
    have h4 : (consider x m (u32 i)).queue.length ≤ m.queue.length + 1 := consider_queue
    refine ⟨h1.trans consider_symbols, h2.trans consider_next, Nat.le_trans h3 ?_⟩
    rw [length_cons]
    omega

theorem step_cases (x : Impl) (m : Merging) (rank left : Nat) : m.step x rank left = m ∨
      ∃ merged, 0 ≤ m.symbol left ∧ m.nextOf left ≠ noPosition ∧
        lookup (m.symbol left, m.symbol (m.nextOf left)) x.merges = some (rank, merged) ∧
        m.step x rank left = m.join x left merged := by
  unfold step
  split
  · exact .inl rfl
  next hlive =>
  split
  · exact .inl rfl
  next rank' merged hlook =>
  split
  · exact .inl rfl
  next hrank =>
  rw [not_not.mp hrank] at hlook
  exact .inr ⟨merged, Int.not_lt.mp fun h => hlive (.inl h), fun h => hlive (.inr h), hlook, rfl⟩

@[simp] theorem join_symbols : (m.join x left merged).symbols =
    (m.symbols.set left merged).set (m.nextOf left) (-1) := by
  simp [join]

@[simp] theorem join_next :
    (m.join x left merged).next = m.next.set left (m.nextOf (m.nextOf left)) := by
  simp [join]

theorem join_queue : (m.join x left merged).queue.length ≤ m.queue.length + 2 := by
  exact Nat.le_trans consider_queue (Nat.succ_le_succ consider_queue)

theorem get_of_live (h : 0 ≤ m.symbol i) : m.symbols[i]? = some (m.symbol i) := by
  unfold symbol at h ⊢
  rw [getD_eq_getElem?_getD] at h ⊢
  cases hi : m.symbols[i]? with
  | none =>
    rw [hi] at h
    cases h
  | some => rfl

/-! ## The queue drains -/

def live (s : TokenId) : Bool := 0 ≤ s

def potential (m : Merging) : Nat := 2 * m.symbols.countP live + m.queue.length

variable {l : List TokenId}

theorem countP_keep {v w : TokenId} (hv : l[i]? = some v)
    (hlive : live v) (hw : live w) : (l.set i w).countP live = l.countP live := by
  obtain ⟨hi, hget⟩ := List.getElem?_eq_some_iff.mp hv
  have hpos : 0 < l.countP live := countP_pos_iff.mpr ⟨v, mem_of_getElem? hv, hlive⟩
  rw [countP_set hi, hget, if_pos hlive, if_pos hw]
  omega

theorem countP_blank {v : TokenId} (hv : l[i]? = some v)
    (hlive : live v) : (l.set i (-1)).countP live + 1 = l.countP live := by
  obtain ⟨hi, hget⟩ := List.getElem?_eq_some_iff.mp hv
  have hpos : 0 < l.countP live := countP_pos_iff.mpr ⟨v, mem_of_getElem? hv, hlive⟩
  have hdead : ¬live (-1) = true := by decide
  rw [countP_set hi, hget, if_pos hlive, if_neg hdead]
  omega

theorem join_potential (hx : x.Sound) {merged : TokenId}
    (hlook : lookup (m.symbol left, m.symbol (m.nextOf left)) x.merges = some (rank, merged)) :
    (m.join x left merged).potential ≤ m.potential := by
  obtain ⟨ha, hb, hmer, -⟩ := hx.merges hlook
  have hkeep := countP_keep (get_of_live ha.1) (decide_eq_true ha.1) (decide_eq_true hmer.1)
  have hright : ∃ v, (m.symbols.set left merged)[m.nextOf left]? = some v ∧ live v := by
    rw [getElem?_set]
    split
    · obtain ⟨hlt, -⟩ := List.getElem?_eq_some_iff.mp (get_of_live ha.1)
      rw [if_pos hlt]
      exact ⟨merged, rfl, decide_eq_true hmer.1⟩
    · exact ⟨_, get_of_live hb.1, decide_eq_true hb.1⟩
  obtain ⟨v, hv, hlive⟩ := hright
  have hblank := countP_blank hv hlive
  have hqueue : (m.join x left merged).queue.length ≤ m.queue.length + 2 := join_queue
  unfold potential
  rw [join_symbols]
  omega

theorem step_potential (hx : x.Sound) : (m.step x rank left).potential ≤ m.potential := by
  rcases step_cases x m rank left with h | ⟨merged, -, -, hlook, h⟩
  · rw [h]
  rw [h]
  exact join_potential hx hlook

theorem run_drains (hx : x.Sound) : ∀ {turns : Nat} {m : Merging}, m.potential ≤ turns →
    (run x turns m).queue = []
  | 0, m, h => length_eq_zero_iff.mp (by
    unfold potential at h
    unfold run
    omega)
  | turns + 1, m, h => by
    unfold run
    split
    · assumption
    next rank left queue hqueue =>
    apply run_drains hx
    have hstep : (({ m with queue } : Merging).step x rank left).potential ≤
        ({ m with queue } : Merging).potential := step_potential hx
    unfold potential at h hstep ⊢
    rw [hqueue, length_cons] at h
    simp only at hstep
    omega

theorem merged_drains (hx : x.Sound) (symbols : List TokenId) :
    (run x (3 * symbols.length) ((List.range (symbols.length - 1)).foldl
      (fun m i => consider x m (u32 i)) (start symbols))).queue = [] := by
  apply run_drains hx
  obtain ⟨h1, -, h2⟩ := considerAll (x := x) (List.range (symbols.length - 1)) (start symbols)
  have h3 : (start symbols).queue.length = 0 := rfl
  have h4 : symbols.countP live ≤ symbols.length := countP_le_length
  unfold potential
  rw [h1]
  rw [h3, length_range] at h2
  show 2 * symbols.countP live + _ ≤ _
  omega

/-! ## What the loop keeps -/

def Closed (x : Impl) (m : Merging) : Prop := ∀ t ∈ m.symbols, t = -1 ∨ x.Normal t

theorem step_closed (hx : x.Sound) (h : m.Closed x) : (m.step x rank left).Closed x := by
  rcases step_cases x m rank left with heq | ⟨merged, -, -, hlook, heq⟩
  · rw [heq]
    exact h
  rw [heq]
  intro t ht
  rw [join_symbols] at ht
  rcases mem_or_eq_of_mem_set ht with ht | rfl
  · rcases mem_or_eq_of_mem_set ht with ht | rfl
    · exact h t ht
    · exact .inr (hx.merges hlook).2.2.1
  · exact .inl rfl

theorem run_closed (hx : x.Sound) : ∀ {turns : Nat} {m : Merging}, m.Closed x →
    (run x turns m).Closed x
  | 0, _, h => h
  | turns + 1, m, h => by
    unfold run
    split
    · exact h
    · exact run_closed hx (step_closed hx h)

theorem merged_closed (hx : x.Sound) {symbols : List TokenId} (h : ∀ t ∈ symbols, x.Normal t) :
    ∀ t ∈ Merging.merged x symbols, t = -1 ∨ x.Normal t := by
  unfold Merging.merged
  simp only
  split
  · apply run_closed hx
    intro t ht
    rw [(considerAll _ _).1] at ht
    exact .inr (h t ht)
  · exact fun t ht => .inr (h t ht)

/-! ## The chain -/

def prevOf (m : Merging) (i : Nat) : Nat := m.prev.getD i noPosition

/-- Positions in order, each followed by its `next`. -/
def Linked (m : Merging) : List Nat → Prop
  | [] => True
  | p :: rest => m.nextOf p = rest.headD noPosition ∧ Linked m rest

theorem Linked.congr {m' : Merging} : ∀ {ps : List Nat}, Linked m ps →
    (∀ p ∈ ps, m'.nextOf p = m.nextOf p) → Linked m' ps
  | [], _, _ => trivial
  | p :: _, h, hsame => ⟨(hsame p mem_cons_self).trans h.1,
      h.2.congr fun q hq => hsame q (mem_cons_of_mem p hq)⟩

theorem Linked.next : ∀ {pre : List Nat}, Linked m (pre ++ p :: rest) →
    m.nextOf p = rest.headD noPosition
  | [], h => h.1
  | _ :: _, h => next h.2

theorem Linked.after (h : Linked m ps) (hp : p ∈ ps) (hnext : m.nextOf p ≠ noPosition) :
    ∃ pre post, ps = pre ++ p :: m.nextOf p :: post := by
  obtain ⟨pre, rest, rfl⟩ := append_of_mem hp
  cases rest with
  | nil => exact absurd h.next hnext
  | cons q post =>
    obtain rfl : m.nextOf p = q := h.next
    exact ⟨pre, post, rfl⟩

theorem Linked.unlink {m' : Merging} (hleft : m'.nextOf left = m.nextOf right) :
    ∀ {pre : List Nat}, Linked m (pre ++ left :: right :: post) →
      (∀ p ∈ pre ++ post, m'.nextOf p = m.nextOf p) → Linked m' (pre ++ left :: post)
  | [], h, hsame => ⟨hleft.trans h.2.1, h.2.2.congr hsame⟩
  | q :: pre, h, hsame => by
    refine ⟨((hsame q mem_cons_self).trans h.1).trans ?_,
      unlink hleft h.2 fun p hp => hsame p (mem_cons_of_mem q hp)⟩
    cases pre <;> rfl

/-- The pair at `p` is queued, when it merges. -/
def Awaits (x : Impl) (m : Merging) (p : Nat) : Prop := ∀ rank merged,
  m.nextOf p ≠ noPosition →
    lookup (m.symbol p, m.symbol (m.nextOf p)) x.merges = some (rank, merged) → (rank, p) ∈ m.queue

/-- The symbols not merged away are those at `ps`, in order, and `prev` leads back. -/
structure Chain (m : Merging) (ps : List Nat) : Prop where
  sorted : ps.Pairwise (· < ·)
  lengths : m.symbols.length ≤ noPosition ∧ m.prev.length = m.symbols.length
  inside : ∀ p ∈ ps, p < m.symbols.length
  gone : ∀ i, i ∉ ps → m.symbol i < 0
  linked : Linked m ps
  back : ∀ p ∈ ps, m.nextOf p ≠ noPosition → m.prevOf (m.nextOf p) = p

theorem Chain.ne_none (h : Chain m ps) (hp : p ∈ ps) : p ≠ noPosition :=
  Nat.ne_of_lt (Nat.lt_of_lt_of_le (h.inside p hp) h.lengths.1)

structure Heap (x : Impl) (m : Merging) (ps : List Nat) : Prop extends Chain m ps where
  awaits : ∀ p ∈ ps, Awaits x m p
  queue : m.queue.Pairwise Precedes

/-! ## Candidates queued -/

instance : IsTrans (Nat × Nat) Precedes where
  trans a b c h h' := by
    unfold Precedes at *
    omega

instance : Std.Total Precedes where
  total a b := by
    unfold Precedes
    omega

@[simp] theorem consider_prev : (consider x m left).prev = m.prev := by
  rcases consider_cases x m left with h | ⟨rank, h⟩ <;> rw [h]

@[simp] theorem consider_symbol : (consider x m left).symbol i = m.symbol i := by
  simp [symbol]

@[simp] theorem consider_nextOf : (consider x m left).nextOf i = m.nextOf i := by
  simp [nextOf]

@[simp] theorem consider_prevOf : (consider x m left).prevOf i = m.prevOf i := by
  simp [prevOf]

theorem consider_sorted (h : m.queue.Pairwise Precedes) :
    (consider x m left).queue.Pairwise Precedes := by
  rcases consider_cases x m left with heq | ⟨rank, heq⟩
  · rwa [heq]
  rw [heq]
  exact h.orderedInsert _ _

theorem mem_consider {c : Nat × Nat} (h : c ∈ m.queue) : c ∈ (consider x m left).queue := by
  rcases consider_cases x m left with heq | ⟨rank, heq⟩
  · rwa [heq]
  rw [heq]
  exact (mem_orderedInsert Precedes).mpr (.inr h)

theorem Awaits.consider (h : Awaits x m p) : Awaits x (m.consider x left) p := by
  intro rank merged hnext hlook
  simp only [consider_nextOf, consider_symbol] at hnext hlook
  exact mem_consider (h rank merged hnext hlook)

theorem consider_awaits (h : left ≠ noPosition) : Awaits x (m.consider x left) left := by
  intro rank merged hnext hlook
  simp only [consider_nextOf, consider_symbol] at hnext hlook
  unfold Merging.consider
  rw [if_neg (not_or.mpr ⟨h, hnext⟩), hlook]
  exact (mem_orderedInsert Precedes).mpr (.inl rfl)

/-! ## A merge -/

theorem symbol_set {i j : Nat} {t : TokenId} (hi : i < l.length) :
    (l.set i t).getD j (-1) = if i = j then t else l.getD j (-1) := by
  rw [getD_eq_getElem?_getD, getElem?_set, getD_eq_getElem?_getD]
  split <;> rfl

theorem join_symbol (hleft : 0 ≤ m.symbol left) (hright : 0 ≤ m.symbol (m.nextOf left)) (i : Nat) :
    (m.join x left merged).symbol i =
      if m.nextOf left = i then -1 else if left = i then merged else m.symbol i := by
  obtain ⟨h1, -⟩ := List.getElem?_eq_some_iff.mp (get_of_live hleft)
  obtain ⟨h2, -⟩ := List.getElem?_eq_some_iff.mp (get_of_live hright)
  unfold symbol
  rw [join_symbols, symbol_set (by simpa using h2), symbol_set h1]

theorem join_nextOf (hnext : m.nextOf left ≠ noPosition) (i : Nat) :
    (m.join x left merged).nextOf i =
      if left = i then m.nextOf (m.nextOf left) else m.nextOf i := by
  have hlt : left < m.next.length := by
    by_contra hge
    refine hnext ?_
    unfold nextOf
    rw [getD_eq_getElem?_getD, getElem?_eq_none (Nat.not_lt.mp hge)]
    rfl
  have hnextOf : (m.join x left merged).nextOf i =
      (m.next.set left (m.nextOf (m.nextOf left))).getD i noPosition := by
    unfold nextOf
    rw [join_next]
    rfl
  rw [hnextOf, getD_eq_getElem?_getD, getElem?_set]
  split
  · rfl
  unfold nextOf
  rw [getD_eq_getElem?_getD]

theorem join_prevOf (hafter : m.nextOf (m.nextOf left) ≠ noPosition →
      m.nextOf (m.nextOf left) < m.prev.length) (i : Nat) : (m.join x left merged).prevOf i =
      if m.nextOf (m.nextOf left) = i ∧ i ≠ noPosition then left else m.prevOf i := by
  unfold join prevOf
  simp only [consider_prev]
  split
  · next hne =>
    rw [getD_eq_getElem?_getD, getElem?_set, getD_eq_getElem?_getD]
    by_cases hi : m.nextOf (m.nextOf left) = i
    · rw [if_pos hi, if_pos (hi ▸ hafter hne), if_pos ⟨hi, hi ▸ hne⟩]
      rfl
    · rw [if_neg hi, if_neg fun h => hi h.1]
  next hnone =>
  rw [if_neg fun h => h.2 (h.1.symm.trans (not_not.mp hnone))]

theorem around (h : (pre ++ left :: right :: post).Pairwise (· < ·)) :
    left < right ∧ (∀ p ∈ pre, p < left) ∧ (∀ q ∈ post, right < q) ∧
      (pre ++ left :: post).Sublist (pre ++ left :: right :: post) := by
  obtain ⟨-, hpost, hcross⟩ := pairwise_append.mp h
  obtain ⟨hleft, hpost⟩ := pairwise_cons.mp hpost
  exact ⟨hleft right mem_cons_self, fun p hp => hcross p hp left mem_cons_self,
    (pairwise_cons.mp hpost).1,
    (List.Sublist.cons_cons left (sublist_cons_self right post)).append_left pre⟩

theorem around_ne (h : (pre ++ left :: right :: post).Pairwise (· < ·))
    (hp : p ∈ pre ++ left :: post) : p ≠ right := by
  obtain ⟨hlr, hpre, hpost, -⟩ := around h
  simp only [mem_append, mem_cons] at hp
  rcases hp with hp | rfl | hp
  · exact Nat.ne_of_lt (Nat.lt_trans (hpre p hp) hlr)
  · exact Nat.ne_of_lt hlr
  · exact Nat.ne_of_gt (hpost p hp)

theorem Chain.join (h : Chain m (pre ++ left :: right :: post)) (hleft : 0 ≤ m.symbol left)
    (hright : 0 ≤ m.symbol right) : Chain (m.join x left merged) (pre ++ left :: post) := by
  obtain ⟨hlr, hpre, hpost, hsub⟩ := around h.sorted
  have hnext : m.nextOf left = right := h.linked.next
  have hnone : m.nextOf left ≠ noPosition := hnext ▸ h.ne_none (by simp)
  have hsym : (m.join x left merged).symbols.length = m.symbols.length := by simp
  have hnextOf : ∀ i, (m.join x left merged).nextOf i =
      if left = i then m.nextOf (m.nextOf left) else m.nextOf i := join_nextOf hnone
  rw [hnext] at hnextOf
  have hafter : m.nextOf (m.nextOf left) ≠ noPosition →
      m.nextOf (m.nextOf left) < m.prev.length := by
    intro hne
    rw [hnext] at hne ⊢
    obtain ⟨pre', post', heq⟩ := h.linked.after (p := right) (by simp) hne
    exact h.lengths.2 ▸ h.inside _ (by rw [heq]; simp)
  refine ⟨h.sorted.sublist hsub, ?_, fun p hp => ?_, fun i hi => ?_, ?_, fun p hp hne => ?_⟩
  · rw [hsym]
    refine ⟨h.lengths.1, ?_⟩
    unfold Merging.join
    simp only [consider_prev]
    split
    · rw [length_set]
      exact h.lengths.2
    · exact h.lengths.2
  · rw [hsym]
    exact h.inside p (hsub.subset hp)
  · rw [join_symbol hleft (hnext.symm ▸ hright), hnext]
    split
    · decide
    next hir =>
    rw [if_neg fun heq => hi (by simp [heq])]
    refine h.gone i fun hmem => hi ?_
    simp only [mem_append, mem_cons] at hmem ⊢
    tauto
  · refine h.linked.unlink ((hnextOf left).trans (if_pos rfl)) fun p hp => ?_
    rw [hnextOf, if_neg]
    rintro rfl
    rcases mem_append.mp hp with hp | hp
    · exact Nat.lt_irrefl _ (hpre _ hp)
    · exact Nat.lt_asymm hlr (hpost _ hp)
  rw [join_prevOf hafter, hnext]
  rw [hnextOf] at hne ⊢
  by_cases hpl : left = p
  · rw [if_pos hpl] at hne ⊢
    rw [if_pos ⟨rfl, hne⟩, hpl]
  rw [if_neg hpl] at hne ⊢
  rw [if_neg, h.back p (hsub.subset hp) hne]
  rintro ⟨heq, -⟩
  -- Only one position leads to what follows `right`.
  have hright' := h.back right (by simp) (heq ▸ hne)
  rw [heq, h.back p (hsub.subset hp) hne] at hright'
  exact around_ne h.sorted hp hright'

theorem join_eq (x : Impl) (m : Merging) (left : Nat) (merged : TokenId) :
    ∃ m1, m.join x left merged = consider x (consider x m1 (m1.prevOf left)) left ∧
      m1.queue = m.queue := ⟨_, rfl, rfl⟩

theorem Chain.join_heap (h : Chain m (pre ++ left :: right :: post)) (hleft : 0 ≤ m.symbol left)
    (hright : 0 ≤ m.symbol right)
    (hawa : ∀ p ∈ pre ++ left :: right :: post, p ≠ left → Awaits x m p)
    (hqueue : m.queue.Pairwise Precedes) : Heap x (m.join x left merged) (pre ++ left :: post) := by
  have hchain : Chain (m.join x left merged) (pre ++ left :: post) := h.join hleft hright
  have hnext : m.nextOf left = right := h.linked.next
  have hlive : left ≠ noPosition := h.ne_none (by simp)
  have hnone : m.nextOf left ≠ noPosition := hnext ▸ h.ne_none (by simp)
  obtain ⟨m1, heq, hsame⟩ := join_eq x m left merged
  refine ⟨hchain, fun p hp => ?_, ?_⟩
  · by_cases hpl : p = left
    · rw [hpl, heq]
      exact consider_awaits hlive
    by_cases hback : (m.join x left merged).nextOf p = left
    · have hprev := hchain.back p hp fun hnil => hlive (hback.symm.trans hnil)
      rw [hback, heq, consider_prevOf, consider_prevOf] at hprev
      rw [heq, hprev]
      exact (consider_awaits (hchain.ne_none hp)).consider
    have hold : p ∈ pre ++ left :: right :: post := (around h.sorted).2.2.2.subset hp
    intro rank merged' hne hlook
    rw [join_nextOf hnone, if_neg (Ne.symm hpl)] at hne hlook hback
    have hnr : m.nextOf p ≠ right := by
      intro hpn
      have hp' := h.back p hold hne
      rw [hpn, ← hnext, h.back left (by simp) hnone] at hp'
      exact hpl hp'.symm
    rw [join_symbol hleft (hnext.symm ▸ hright), join_symbol hleft (hnext.symm ▸ hright), hnext,
      if_neg (around_ne h.sorted hp).symm, if_neg (Ne.symm hpl),
      if_neg hnr.symm, if_neg (Ne.symm hback)] at hlook
    exact mem_consider (mem_consider (hsame ▸ hawa p hold hpl rank merged' hne hlook))
  rw [heq]
  exact consider_sorted (consider_sorted (hsame ▸ hqueue))

/-! ## Turns -/

theorem Heap.queued (h : Heap x m ps) {a b : TokenId} {before after : List TokenId}
    (hl : ps.map m.symbol = before ++ a :: b :: after)
    (hlook : lookup (a, b) x.merges = some (rank, merged)) :
    ∃ pre p rest, ps = pre ++ p :: rest ∧ pre.length = before.length ∧ (rank, p) ∈ m.queue := by
  obtain ⟨pre, tail, rfl, rfl, htail⟩ := map_eq_append_iff.mp hl
  obtain ⟨p, tail, rfl, rfl, htail'⟩ := map_eq_cons_iff.mp htail
  obtain ⟨q, post, rfl, rfl, rfl⟩ := map_eq_cons_iff.mp htail'
  have hnext : m.nextOf p = q := h.linked.next
  refine ⟨pre, p, q :: post, rfl, by simp, h.awaits p (by simp) rank merged ?_ ?_⟩
  · exact hnext ▸ h.ne_none (by simp)
  rw [hnext]
  exact hlook

theorem Heap.ended (h : Heap x m ps) (hqueue : m.queue = []) :
    Reduces x (ps.map m.symbol) (ps.map m.symbol) := by
  refine .done fun before a b after hl => ?_
  rcases hlook : lookup (a, b) x.merges with _ | found
  · rfl
  obtain ⟨pre, p, rest, -, -, hmem⟩ := h.queued hl hlook
  rw [hqueue] at hmem
  cases hmem

theorem Heap.turn (h : Heap x m (pre ++ left :: right :: post))
    (hqueue : m.queue = (rank, left) :: queue)
    (hlook : lookup (m.symbol left, m.symbol right) x.merges = some (rank, merged)) :
    x.Turn ((pre ++ left :: right :: post).map m.symbol)
      (pre.map m.symbol ++ merged :: post.map m.symbol) (pre.map m.symbol) (post.map m.symbol)
      (m.symbol left) (m.symbol right) merged rank := by
  refine ⟨by simp, hlook, fun before' a' b' after' rank' merged' hl hlook' => ?_, rfl⟩
  obtain ⟨pre', p, rest, hsplit, hlen, hmem⟩ := h.queued hl hlook'
  have hfirst : Precedes (rank, left) (rank', p) := by
    rw [hqueue] at hmem
    rcases mem_cons.mp hmem with heq | hmem
    · rw [heq]
      exact .inr ⟨rfl, Nat.le_refl _⟩
    · exact (pairwise_cons.mp (hqueue ▸ h.queue)).1 _ hmem
  refine hfirst.imp_right fun hsame => ⟨hsame.1, ?_⟩
  rw [← hlen, length_map]
  by_contra hlt
  -- A position before `left` in the chain is below it.
  have hp : p ∈ pre := by
    have hget : (pre ++ left :: right :: post)[pre'.length]? = some p := by
      rw [hsplit, getElem?_append_right (Nat.le_refl _), Nat.sub_self]
      rfl
    rw [getElem?_append_left (Nat.not_le.mp hlt)] at hget
    exact mem_of_getElem? hget
  exact absurd ((around h.sorted).2.1 p hp) (Nat.not_lt.mpr hsame.2)

theorem step_active (hleft : 0 ≤ m.symbol left) (hnext : m.nextOf left ≠ noPosition)
    (hlook : lookup (m.symbol left, m.symbol (m.nextOf left)) x.merges = some (rank, merged)) :
    m.step x rank left = m.join x left merged := by
  unfold step
  rw [if_neg (not_or.mpr ⟨Int.not_lt.mpr hleft, hnext⟩), hlook]
  exact if_neg (not_not.mpr rfl)

theorem Heap.step (hx : x.Sound) (h : Heap x m ps) (hqueue : m.queue = (rank, left) :: queue) :
    ∃ ps', Heap x (({ m with queue } : Merging).step x rank left) ps' ∧
      (ps'.map (({ m with queue } : Merging).step x rank left).symbol = ps.map m.symbol ∨
        ∃ before after a b merged, x.Turn (ps.map m.symbol)
          (ps'.map (({ m with queue } : Merging).step x rank left).symbol) before after a b merged
          rank) := by
  have hchain : Chain { m with queue } ps :=
    ⟨h.sorted, h.lengths, h.inside, h.gone, h.linked.congr fun _ _ => rfl, h.back⟩
  have hsor := pairwise_cons.mp (hqueue ▸ h.queue)
  have hmem : ∀ {p rank' merged'}, p ∈ ps → m.nextOf p ≠ noPosition →
      lookup (m.symbol p, m.symbol (m.nextOf p)) x.merges = some (rank', merged') →
        (rank', p) = (rank, left) ∨ (rank', p) ∈ queue := by
    intro p rank' merged' hp hne hlook
    have hin := h.awaits p hp rank' merged' hne hlook
    rw [hqueue] at hin
    exact mem_cons.mp hin
  by_cases hact : m.nextOf left ≠ noPosition ∧ ∃ merged,
      lookup (m.symbol left, m.symbol (m.nextOf left)) x.merges = some (rank, merged)
  · obtain ⟨hnext, merged, hlook⟩ := hact
    obtain ⟨ha, hb, -, -⟩ := hx.merges hlook
    have hstep : ({ m with queue } : Merging).step x rank left =
        ({ m with queue } : Merging).join x left merged := step_active ha.1 hnext hlook
    have hin : left ∈ ps := by
      by_contra hout
      exact absurd (h.gone left hout) (Int.not_lt.mpr ha.1)
    obtain ⟨pre, post, rfl⟩ := h.linked.after hin hnext
    obtain ⟨hlr, hpre, hpost, -⟩ := around h.sorted
    rw [hstep]
    refine ⟨pre ++ left :: post, hchain.join_heap ha.1 hb.1 ?_ hsor.2, .inr ?_⟩
    · intro p hp hpl rank' merged' hne hlook'
      exact (hmem hp hne hlook').resolve_left fun heq => hpl (Prod.mk.inj heq).2
    have hsym : ∀ i, (({ m with queue } : Merging).join x left merged).symbol i =
        if m.nextOf left = i then -1 else if left = i then merged else m.symbol i :=
      join_symbol ha.1 hb.1
    have hkeep : ∀ {p}, p ≠ left → p ≠ m.nextOf left →
        (({ m with queue } : Merging).join x left merged).symbol p = m.symbol p := by
      intro p hpl hpr
      rw [hsym]
      exact (if_neg (Ne.symm hpr)).trans (if_neg (Ne.symm hpl))
    have hnew : (pre ++ left :: post).map
        (({ m with queue } : Merging).join x left merged).symbol =
          pre.map m.symbol ++ merged :: post.map m.symbol := by
      rw [map_append, map_cons, hsym]
      congr 1
      · exact map_congr_left fun p hp => hkeep (by have := hpre p hp; omega)
          (by have := hpre p hp; omega)
      congr 1
      · exact (if_neg (Nat.ne_of_gt hlr)).trans (if_pos rfl)
      exact map_congr_left fun p hp => hkeep (by have := hpost p hp; omega)
        (by have := hpost p hp; omega)
    rw [hnew]
    exact ⟨_, _, _, _, _, h.turn hqueue hlook⟩
  have hstep : ({ m with queue } : Merging).step x rank left = { m with queue } := by
    rcases step_cases x { m with queue } rank left with hstep | ⟨merged, -, hnext, hlook, -⟩
    · exact hstep
    · exact absurd ⟨hnext, merged, hlook⟩ hact
  rw [hstep]
  refine ⟨ps, ⟨hchain, fun p hp rank' merged' hne hlook => ?_, hsor.2⟩, .inl rfl⟩
  refine (hmem hp hne hlook).resolve_left fun heq => ?_
  cases heq
  exact hact ⟨hne, merged', hlook⟩

theorem run_reduces (hx : x.Sound) : ∀ {turns : Nat} {m : Merging} {ps : List Nat}, Heap x m ps →
    (run x turns m).queue = [] → ∃ ps', Chain (run x turns m) ps' ∧
      Reduces x (ps.map m.symbol) (ps'.map (run x turns m).symbol)
  | 0, m, ps, h, hqueue => ⟨ps, h.toChain, h.ended hqueue⟩
  | turns + 1, m, ps, h, hqueue => by
    unfold run at hqueue ⊢
    split
    · next hempty => exact ⟨ps, h.toChain, h.ended hempty⟩
    next rank left queue hpop =>
    simp only [hpop] at hqueue
    obtain ⟨ps1, h1, hstep⟩ := h.step hx hpop
    obtain ⟨ps', hchain, hrest⟩ := run_reduces hx h1 hqueue
    refine ⟨ps', hchain, ?_⟩
    rcases hstep with hsame | ⟨before, after, a, b, merged, hturn⟩
    · rw [← hsame]
      exact hrest
    · exact .turn hturn hrest

/-! ## The whole loop -/

theorem Chain.consider (h : Chain m ps) : Chain (m.consider x left) ps := by
  refine ⟨h.sorted, ?_, ?_, fun i hi => ?_, h.linked.congr fun p _ => consider_nextOf, ?_⟩
  · simpa using h.lengths
  · simpa using h.inside
  · simpa using h.gone i hi
  · simpa using h.back

theorem considerAll_heap : ∀ {l : List Nat} {m : Merging}, (∀ i ∈ l, i < noPosition) →
    Chain m ps → m.queue.Pairwise Precedes → (∀ p ∈ ps, p ∈ l ∨ Awaits x m p) →
      Heap x (l.foldl (fun m i => consider x m (u32 i)) m) ps
  | [], _, _, hchain, hqueue, h =>
    ⟨hchain, fun p hp => (h p hp).resolve_left not_mem_nil, hqueue⟩
  | i :: l, m, hl, hchain, hqueue, h => by
    have hi : i < noPosition := hl i mem_cons_self
    rw [foldl_cons, u32_of_lt (Nat.lt_trans hi (by decide))]
    refine considerAll_heap (fun j hj => hl j (mem_cons_of_mem i hj)) hchain.consider
      (consider_sorted hqueue) fun p hp => ?_
    rcases h p hp with hmem | hawa
    · rcases mem_cons.mp hmem with rfl | hmem
      · exact .inr (consider_awaits (Nat.ne_of_lt hi))
      · exact .inl hmem
    · exact .inr hawa.consider

section start

variable {symbols : List TokenId}

theorem start_next {i : Nat} (hn : symbols.length ≤ noPosition) (hi : i < symbols.length) :
    (start symbols).nextOf i = if i + 1 < symbols.length then i + 1 else noPosition := by
  have hfits : i + 1 < 2 ^ 32 := Nat.lt_of_le_of_lt (Nat.le_trans hi hn) (by decide)
  simp [nextOf, start, hi, u32_of_lt hfits]

theorem start_linked (hn : symbols.length ≤ noPosition) : ∀ {k s : Nat},
    s + k = symbols.length → Linked (start symbols) (List.range' s k)
  | 0, _, _ => trivial
  | k + 1, s, hs => by
    refine ⟨(start_next hn (by omega)).trans ?_, start_linked hn (by omega)⟩
    cases k with
    | zero => exact if_neg (by omega)
    | succ k => exact if_pos (by omega)

theorem start_chain (hn : symbols.length ≤ noPosition) :
    Chain (start symbols) (List.range symbols.length) where
  sorted := pairwise_lt_range
  lengths := ⟨hn, by simp [start]⟩
  inside _ hp := mem_range.mp hp
  gone i hi := by
    have hout : symbols.length ≤ i := Nat.not_lt.mp fun hlt => hi (mem_range.mpr hlt)
    simp [symbol, start, hout]
  linked := by
    rw [range_eq_range']
    exact start_linked hn (Nat.zero_add _)
  back p hp hne := by
    have hlt := mem_range.mp hp
    have hfits : p < 2 ^ 32 := Nat.lt_trans (Nat.lt_of_lt_of_le hlt hn) (by decide)
    rw [start_next hn hlt] at hne ⊢
    split at hne
    · next hnext => simp [hnext, prevOf, start, u32_of_lt hfits]
    · exact absurd rfl hne

theorem start_heap (hn : symbols.length ≤ noPosition) :
    Heap x ((List.range (symbols.length - 1)).foldl (fun m i => consider x m (u32 i))
      (start symbols)) (List.range symbols.length) := by
  refine considerAll_heap (fun i hi => ?_) (start_chain hn) List.Pairwise.nil fun p hp => ?_
  · have := mem_range.mp hi
    omega
  have hlt := mem_range.mp hp
  by_cases hlast : p < symbols.length - 1
  · exact .inl (mem_range.mpr hlast)
  refine .inr fun rank merged hne => absurd ?_ hne
  rw [start_next hn hlt, if_neg (by omega)]

theorem start_symbols : (List.range symbols.length).map (start symbols).symbol = symbols := by
  refine ext_getElem? fun i => ?_
  rw [getElem?_map]
  by_cases hi : i < symbols.length
  · rw [getElem?_range hi]
    show some (symbols.getD i (-1)) = _
    rw [getD_eq_getElem?_getD, getElem?_eq_getElem hi]
    rfl
  rw [getElem?_eq_none (by simpa using hi), getElem?_eq_none (Nat.not_lt.mp hi)]
  rfl

end start

theorem Chain.live_symbols (h : Chain m ps) :
    m.symbols.filter live = (ps.map m.symbol).filter live := by
  have hall : m.symbols = (List.range m.symbols.length).map m.symbol := start_symbols.symm
  have hpos : (List.range m.symbols.length).filter (live ∘ m.symbol) =
      ps.filter (live ∘ m.symbol) := by
    refine (List.pairwise_lt_range.filter _).eq_of_mem_iff (h.sorted.filter _) fun i => ?_
    simp only [mem_filter, mem_range, Function.comp, live, decide_eq_true_eq]
    constructor
    · rintro ⟨-, hlive⟩
      by_cases hi : i ∈ ps
      · exact ⟨hi, hlive⟩
      · exact absurd (h.gone i hi) (Int.not_lt.mpr hlive)
    · exact fun ⟨hi, hlive⟩ => ⟨h.inside i hi, hlive⟩
  rw [filter_map, ← hpos, ← filter_map, ← hall]

variable {symbols : List TokenId}

theorem merged_reduces (hx : x.Sound) (hn : symbols.length ≤ noPosition) :
    ∃ l, Reduces x symbols l ∧ (Merging.merged x symbols).filter live = l.filter live := by
  unfold Merging.merged
  simp only
  split
  · obtain ⟨ps, hchain, hred⟩ := run_reduces hx (start_heap hn) (merged_drains hx symbols)
    refine ⟨_, ?_, hchain.live_symbols⟩
    have hsame : ((List.range (symbols.length - 1)).foldl (fun m i => Merging.consider x m (u32 i))
        (start symbols)).symbol = (start symbols).symbol := by
      unfold symbol
      rw [(considerAll _ _).1]
    rw [hsame, start_symbols] at hred
    exact hred
  next hshort =>
  refine ⟨symbols, .done fun before a b after hl => ?_, rfl⟩
  have := congrArg List.length hl
  simp only [length_append, length_cons] at this
  omega

theorem merged_spells (hx : x.Sound) (h : symbols.length < 2 ^ 32) (hlive : ∀ t ∈ symbols, 0 ≤ t) :
    ((Merging.merged x symbols).filter live).flatMap x.bytes = symbols.flatMap x.bytes := by
  obtain ⟨l, hl, heq⟩ := merged_reduces hx (Nat.le_of_lt_succ h)
  have hall : l.filter live = l :=
    filter_eq_self.mpr fun t ht => decide_eq_true (hl.live hx hlive t ht)
  rw [heq, hall, hl.spells hx]

end Merging

theorem merge_eq (x : Impl) (symbols : List TokenId) (options : EncodeOptions) (out : List TokenId)
    (base : Nat) : x.merge symbols options out base =
      ((Merging.merged x symbols).filter Merging.live).foldlM
        (fun out s => emit s options out base) out := by
  rw [foldlM_filter]
  simp only [merge, Merging.live, decide_eq_true_eq]
  rfl

end JitLlm.Tokenizer.Impl
