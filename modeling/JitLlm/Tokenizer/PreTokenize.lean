import JitLlm.Tokenizer.Unicode

/-!
# `tokenizer/pretokenize.cc` — the pieces BPE merges within

The three pre-tokenizers, each a `Split` stage or three over the matchers below. The header
promises that "the lengths sum to text.size()"; `preTokenize_sum` says what the code keeps of it.
The lengths are 32 bits wide, so a text of `2 ^ 32` code points or more starts from a piece of
its length's low 32 bits, and the lengths sum to that.
-/

namespace JitLlm.Tokenizer

inductive PreTokenizer
  | qwen2
  | qwen35
  | deepSeekV3
deriving DecidableEq

/-- A cast to `std::uint32_t`. -/
def u32 (n : Nat) : Nat := n % 2 ^ 32

theorem u32_of_lt {n : Nat} (h : n < 2 ^ 32) : u32 n = n := Nat.mod_eq_of_lt h

section Matchers

variable (u : UnicodeData) (t : List Nat)

/-- `while (q < e && pred(t[q])) ++q`: where it leaves `q`. -/
def skip (pred : Nat → Bool) (q e : Nat) : Nat :=
  q + (((t.drop q).take (e - q)).takeWhile pred).length

def isCrLf (c : Nat) : Bool := c == 0x0D || c == 0x0A

/-- `LowerAscii`: an ASCII letter in lower case, anything else 0. -/
def lowerAscii (c : Nat) : Nat :=
  if 0x61 ≤ c ∧ c ≤ 0x7A then c else if 0x41 ≤ c ∧ c ≤ 0x5A then c - 0x41 + 0x61 else 0

/-- `Contraction`: `(?i:'s|'t|'re|'ve|'m|'ll|'d)` at `p`, its length or 0. -/
def contraction (p e : Nat) : Nat :=
  if t.getD p 0 ≠ 0x27 ∨ e ≤ p + 1 then 0
  else
    let a := lowerAscii (t.getD (p + 1) 0)
    if a = 0x73 ∨ a = 0x74 ∨ a = 0x6D ∨ a = 0x64 then 2
    else if p + 2 < e then
      let b := lowerAscii (t.getD (p + 2) 0)
      if (a = 0x72 ∧ b = 0x65) ∨ (a = 0x76 ∧ b = 0x65) ∨ (a = 0x6C ∧ b = 0x6C) then 3 else 0
    else 0

/-- `crlf_end`: one past the last CR or LF of the code points from `q` to `w`, or 0. -/
def crlfEnd (q w : Nat) : Nat :=
  (List.range' q (w - q)).foldl (fun found k => if isCrLf (t.getD k 0) then k + 1 else found) 0

/-- `Whitespace`: `\s*[\r\n]+|\s+(?!\S)|\s+`. -/
def whitespace (p e : Nat) : Nat :=
  let w := skip t u.isWhiteSpace p e
  let crlf := crlfEnd t p w
  if crlf ≠ 0 then crlf - p
  else if 1 < w - p ∧ w < e then w - p - 1
  else w - p

def matchQwen (marks : Bool) (p e : Nat) : Nat :=
  let n := contraction t p e
  if n ≠ 0 then n
  else
    let c := t.getD p 0
    let word x := u.isLetter x || (marks && u.isMark x)
    if !isCrLf c && !u.isNumber c && (word c || (p + 1 < e && word (t.getD (p + 1) 0))) then
      skip t word (p + 1) e - p
    else if u.isNumber c then 1
    else
      let other x := !u.isWhiteSpace x && !u.isNumber x && !word x
      let q := if c = 0x20 then p + 1 else p
      if q < e && other (t.getD q 0) then skip t isCrLf (skip t other q e) e - p
      else
        let n := whitespace u t p e
        if n ≠ 0 then n else 1

def isAsciiLetter (c : Nat) : Bool := (0x41 ≤ c && c ≤ 0x5A) || (0x61 ≤ c && c ≤ 0x7A)

def isAsciiPunctuationOrSymbol (c : Nat) : Bool :=
  (0x21 ≤ c && c ≤ 0x2F) || (0x3A ≤ c && c ≤ 0x40) || (0x5B ≤ c && c ≤ 0x60) ||
    (0x7B ≤ c && c ≤ 0x7E)

/-- `MatchDigits`: `\p{N}{1,3}`. -/
def matchDigits (p e : Nat) : Nat := skip t u.isNumber p (min e (p + 3)) - p

def matchCjk (p e : Nat) : Nat :=
  skip t (fun c => (0x4E00 ≤ c && c ≤ 0x9FA5) || (0x3040 ≤ c && c ≤ 0x309F) ||
    (0x30A0 ≤ c && c ≤ 0x30FF)) p e - p

def matchDeepSeek (p e : Nat) : Nat :=
  let c := t.getD p 0
  if isAsciiPunctuationOrSymbol c && p + 1 < e && isAsciiLetter (t.getD (p + 1) 0) then
    skip t isAsciiLetter (p + 1) e - p
  else
    let word x := u.isLetter x || u.isMark x
    let leads := !isCrLf c && !u.isLetter c && !u.isPunctuation c && !u.isSymbol c
    if (leads && p + 1 < e && word (t.getD (p + 1) 0)) || word c then skip t word (p + 1) e - p
    else
      let ps x := u.isPunctuation x || u.isSymbol x
      let q := if c = 0x20 && p + 1 < e && ps (t.getD (p + 1) 0) then p + 1 else p
      if ps (t.getD q 0) then skip t isCrLf (skip t ps q e) e - p
      else whitespace u t p e

end Matchers

/-! ## Stages -/

/-- A `Stage` within one piece, from `p` with the unmatched run from `gap`: the lengths it pushes.
    Every turn advances, so the piece's length bounds the turns. -/
def stageFrom (matches' : Nat → Nat → Nat) (e : Nat) : Nat → Nat → Nat → List Nat
  | 0, _, gap => if gap < e then [u32 (e - gap)] else []
  | turns + 1, p, gap =>
    if p < e then
      let n := matches' p e
      if n = 0 then stageFrom matches' e turns (p + 1) gap
      else
        (if gap < p then [u32 (p - gap)] else []) ++
          u32 n :: stageFrom matches' e turns (p + n) (p + n)
    else if gap < e then [u32 (e - gap)]
    else []

/-- `Stage`: each piece of the last stage in turn. -/
def stage (matches' : Nat → Nat → Nat) (start : Nat) : List Nat → List Nat
  | [] => []
  | length :: rest =>
    stageFrom matches' (start + length) length start start ++
      stage matches' (start + length) rest

/-- `PreTokenize`, what it appends. -/
def preTokenize (u : UnicodeData) (p : PreTokenizer) (text : List Nat) : List Nat :=
  if text = [] then []
  else
    let whole := [u32 text.length]
    match p with
    | .qwen2 => stage (matchQwen u text false) 0 whole
    | .qwen35 => stage (matchQwen u text true) 0 whole
    | .deepSeekV3 =>
      stage (matchDeepSeek u text) 0 (stage (matchCjk text) 0 (stage (matchDigits u text) 0 whole))

/-! ## The lengths -/

theorem skip_le (t : List Nat) (pred : Nat → Bool) {q e : Nat} (h : q ≤ e) :
    q ≤ skip t pred q e ∧ skip t pred q e ≤ e := by
  have hle := (List.takeWhile_prefix pred (l := (t.drop q).take (e - q))).length_le
  rw [List.length_take] at hle
  unfold skip
  omega

variable {t : List Nat} {p e : Nat} {matches' : Nat → Nat → Nat}

theorem crlfEnd_le {q w : Nat} (h : q ≤ w) : crlfEnd t q w ≤ w := by
  refine List.foldlRecOn (motive := fun found => found ≤ w) (List.range' q (w - q)) _
    (Nat.zero_le w) ?_
  intro found hfound k hk
  rw [List.mem_range'_1] at hk
  split
  · omega
  · exact hfound

theorem contraction_le (h : p < e) : p + contraction t p e ≤ e := by
  unfold contraction
  split
  · omega
  simp only
  split
  · omega
  split
  · split <;> omega
  · omega

variable {u : UnicodeData}

theorem whitespace_le (h : p < e) : p + whitespace u t p e ≤ e := by
  obtain ⟨h1, h2⟩ := skip_le t u.isWhiteSpace (Nat.le_of_lt h)
  have h3 := crlfEnd_le (t := t) h1
  unfold whitespace
  simp only
  split
  · omega
  · split <;> omega

theorem skip_skip_le (t : List Nat) (pred pred' : Nat → Bool) {q e : Nat} (h : q ≤ e) :
    skip t pred' (skip t pred q e) e ≤ e :=
  (skip_le t pred' (skip_le t pred h).2).2

theorem matchQwen_le {marks : Bool} (h : p < e) : p + matchQwen u t marks p e ≤ e := by
  have hc := contraction_le (t := t) h
  have hw := whitespace_le (u := u) (t := t) h
  unfold matchQwen
  simp only
  generalize (if t.getD p 0 = 0x20 then p + 1 else p) = q
  split
  · exact hc
  split
  · have := skip_le t (fun x => u.isLetter x || (marks && u.isMark x)) (show p + 1 ≤ e from h)
    omega
  split
  · exact h
  split
  · next hq =>
    have hq : q < e := of_decide_eq_true (Bool.and_eq_true_iff.mp hq).1
    have := skip_skip_le t (fun x => !u.isWhiteSpace x && !u.isNumber x &&
      !(u.isLetter x || (marks && u.isMark x))) isCrLf (Nat.le_of_lt hq)
    omega
  split
  · exact hw
  · exact h

theorem matchDigits_le (h : p < e) : p + matchDigits u t p e ≤ e := by
  have := skip_le t u.isNumber (show p ≤ min e (p + 3) by omega)
  unfold matchDigits
  omega

theorem matchCjk_le (h : p < e) : p + matchCjk t p e ≤ e := by
  unfold matchCjk
  have := (skip_le t (fun c => (0x4E00 ≤ c && c ≤ 0x9FA5) ||
    (0x3040 ≤ c && c ≤ 0x309F) || (0x30A0 ≤ c && c ≤ 0x30FF)) (Nat.le_of_lt h)).2
  omega

theorem matchDeepSeek_le (h : p < e) : p + matchDeepSeek u t p e ≤ e := by
  have hw := whitespace_le (u := u) (t := t) h
  have hskip : ∀ pred : Nat → Bool, p + (skip t pred (p + 1) e - p) ≤ e := fun pred => by
    have := skip_le t pred (show p + 1 ≤ e from h)
    omega
  unfold matchDeepSeek
  simp only
  -- the space before a symbol run is taken only where a symbol follows it
  have hq : (if (t.getD p 0 = 0x20 && p + 1 < e && (u.isPunctuation (t.getD (p + 1) 0) ||
      u.isSymbol (t.getD (p + 1) 0))) = true then p + 1 else p) ≤ e := by
    split <;> omega
  generalize (if (t.getD p 0 = 0x20 && p + 1 < e && (u.isPunctuation (t.getD (p + 1) 0) ||
      u.isSymbol (t.getD (p + 1) 0))) = true then p + 1 else p) = q at hq
  split
  · exact hskip _
  split
  · exact hskip _
  split
  · have := skip_skip_le t (fun x => u.isPunctuation x || u.isSymbol x) isCrLf hq
    omega
  · exact hw

theorem stageFrom_sum {e : Nat} (hm : ∀ p, p < e → p + matches' p e ≤ e) :
    ∀ {turns p gap : Nat}, e ≤ p + turns → gap ≤ p → p ≤ e → e - gap < 2 ^ 32 →
      (stageFrom matches' e turns p gap).sum = e - gap
  | 0, p, gap, hturns, hgap, hp, hlt => by
    unfold stageFrom
    split
    · rw [u32_of_lt hlt]
      simp
    simp
    omega
  | turns + 1, p, gap, hturns, hgap, hp, hlt => by
    unfold stageFrom
    by_cases hpe : p < e
    · simp only [if_pos hpe]
      have hle := hm p hpe
      by_cases hn : matches' p e = 0
      · rw [if_pos hn]
        exact stageFrom_sum hm (by omega) (by omega) (by omega) hlt
      rw [if_neg hn]
      have ih : (stageFrom matches' e turns (p + matches' p e) (p + matches' p e)).sum =
          e - (p + matches' p e) :=
        stageFrom_sum hm (by omega) (Nat.le_refl _) hle (by omega)
      rw [List.sum_append, List.sum_cons, ih, u32_of_lt (n := matches' p e) (by omega)]
      split
      · rw [u32_of_lt (n := p - gap) (by omega)]
        simp
        omega
      simp
      omega
    rw [if_neg hpe]
    split
    · rw [u32_of_lt hlt]
      simp
    simp
    omega

theorem u32_lt (n : Nat) : u32 n < 2 ^ 32 := Nat.mod_lt n (by decide)

theorem stageFrom_lt {e : Nat} : ∀ {turns p gap : Nat},
    ∀ n ∈ stageFrom matches' e turns p gap, n < 2 ^ 32
  | 0, p, gap, n, hn => by
    unfold stageFrom at hn
    split at hn
    · rw [List.mem_singleton.mp hn]
      exact u32_lt _
    · cases hn
  | turns + 1, p, gap, n, hn => by
    unfold stageFrom at hn
    simp only at hn
    split at hn
    · split at hn
      · exact stageFrom_lt n hn
      rcases List.mem_append.mp hn with hn | hn
      · split at hn
        · rw [List.mem_singleton.mp hn]
          exact u32_lt _
        · cases hn
      rcases List.mem_cons.mp hn with rfl | hn
      · exact u32_lt _
      · exact stageFrom_lt n hn
    split at hn
    · rw [List.mem_singleton.mp hn]
      exact u32_lt _
    · cases hn

theorem stage_lt : ∀ {start : Nat} {lengths : List Nat},
    ∀ n ∈ stage matches' start lengths, n < 2 ^ 32
  | _, [], n, hn => nomatch hn
  | start, length :: rest, n, hn => by
    rcases List.mem_append.mp hn with hn | hn
    · exact stageFrom_lt n hn
    · exact stage_lt n hn

theorem stage_sum (hm : ∀ p e, p < e → p + matches' p e ≤ e) : ∀ {start : Nat} {lengths : List Nat},
    (∀ n ∈ lengths, n < 2 ^ 32) → (stage matches' start lengths).sum = lengths.sum
  | _, [], _ => rfl
  | start, length :: rest, hlt => by
    have hlen := hlt length List.mem_cons_self
    have hpiece : (stageFrom matches' (start + length) length start start).sum =
        start + length - start :=
      stageFrom_sum (fun p => hm p (start + length)) (Nat.le_refl (start + length))
        (Nat.le_refl start) (Nat.le_add_right _ _) (by omega)
    have hrest : (stage matches' (start + length) rest).sum = rest.sum :=
      stage_sum hm fun n hn => hlt n (List.mem_cons_of_mem length hn)
    rw [stage, List.sum_append, hpiece, hrest, List.sum_cons]
    omega

theorem preTokenize_sum (u : UnicodeData) (p : PreTokenizer) (text : List Nat) :
    (preTokenize u p text).sum = u32 text.length := by
  unfold preTokenize
  split
  · next h =>
    rw [h]
    rfl
  have hwhole : ∀ n ∈ [u32 text.length], n < 2 ^ 32 := fun n hn => by
    rw [List.mem_singleton.mp hn]
    exact u32_lt _
  have hsum : [u32 text.length].sum = u32 text.length := List.sum_singleton
  cases p with
  | qwen2 | qwen35 => exact (stage_sum (fun _ _ => matchQwen_le) hwhole).trans hsum
  | deepSeekV3 =>
    rw [stage_sum (fun _ _ => matchDeepSeek_le) stage_lt,
      stage_sum (fun _ _ => matchCjk_le) stage_lt, stage_sum (fun _ _ => matchDigits_le) hwhole,
      hsum]

end JitLlm.Tokenizer
