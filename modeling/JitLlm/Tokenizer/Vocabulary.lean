import JitLlm.Tokenizer.PreTokenize

/-!
# `Tokenizer::Create` — the vocabulary a loader read, validated

Normal, control and user-defined tokens share one table of texts, and the control and user-defined
ones one trie. `Impl.Sound` says what the encoder may rely on once `create` accepted them: which
token a text names, that a normal token's text is its bytes in the byte alphabet, that a byte has
a normal token of its own and a merge a normal token for its two, and that the token at a trie's
node is a special one whose text is the way there.
-/

namespace JitLlm.Tokenizer

open List Option

/-- `TokenId`, an `std::int32_t`; `-1` stands for no token. -/
abbrev TokenId := Int

inductive TokenKind
  | normal
  | control
  | userDefined
  | unused
deriving DecidableEq

inductive Normalization
  | none
  | nfc
deriving DecidableEq

/-- `TokenizerSpec`: a vocabulary as a loader reads it. -/
structure TokenizerSpec where
  tokens : List Bytes
  kinds : List TokenKind
  merges : List (Bytes × Bytes)
  preTokenizer : PreTokenizer := .qwen2
  normalization : Normalization := .none
  ignoreMerges : Bool := false
  bos : Option TokenId := none
  eos : Option TokenId := none
  addBos : Bool := false
  addEos : Bool := false

def maxVocabulary : Nat := 2 ^ 22

def maxTokenBytes : Nat := 1024

def maxSpecialBytes : Nat := 256

/-- The first value under a key, as a map filled by `emplace` has it. -/
def lookup {K V : Type} [DecidableEq K] (k : K) (l : List (K × V)) : Option V :=
  (l.find? (·.1 = k)).map (·.2)

/-- The special-token trie: node 0 is the root, and `terminal` holds each node's token, or `-1`.
    The source packs an edge's node and byte into one word; with at most `2 ^ 22` tokens of 256
    bytes no node passes 32 bits. -/
structure Trie where
  edges : List ((Nat × UInt8) × Nat) := []
  terminal : List TokenId := [-1]

namespace Trie

def edge (t : Trie) (node : Nat) (c : UInt8) : Option Nat := lookup (node, c) t.edges

def follow (t : Trie) (node : Nat) (c : UInt8) : Trie × Nat :=
  match t.edge node c with
  | some m => (t, m)
  | none =>
    ({ edges := ((node, c), t.terminal.length) :: t.edges, terminal := t.terminal ++ [-1] },
      t.terminal.length)

/-- The nodes of a text, from `node`. -/
def walk (t : Trie) (node : Nat) : Bytes → Trie × Nat
  | [] => (t, node)
  | c :: rest => walk (t.follow node c).1 (t.follow node c).2 rest

def insert (t : Trie) (text : Bytes) (id : TokenId) : Trie :=
  let (t, node) := t.walk 0 text
  { t with terminal := t.terminal.set node id }

end Trie

structure Impl where
  tokens : List Bytes
  kinds : List TokenKind
  decoded : List Bytes
  byText : List (Bytes × TokenId) := []
  byteToken : List TokenId := []
  merges : List ((TokenId × TokenId) × (Nat × TokenId)) := []
  trie : Trie := {}
  specialFirst : List UInt8 := []
  preTokenizer : PreTokenizer
  normalization : Normalization
  ignoreMerges : Bool
  bos : Option TokenId
  eos : Option TokenId
  addBos : Bool
  addEos : Bool

/-- `ByteAlphabet`'s loop, from byte `b` with `left` to go: printable Latin-1 bytes are themselves,
    the rest `next` and up. -/
def alphabetFrom : Nat → Nat → Nat → List Nat
  | 0, _, _ => []
  | left + 1, b, next =>
    if (0x21 ≤ b ∧ b ≤ 0x7E) ∨ (0xA1 ≤ b ∧ b ≤ 0xAC) ∨ 0xAE ≤ b then
      b :: alphabetFrom left (b + 1) next
    else next :: alphabetFrom left (b + 1) (next + 1)

def byteAlphabet : List Nat := alphabetFrom 256 0 256

def byteOf (cp : Nat) : Option UInt8 := (byteAlphabet.idxOf? cp).map UInt8.ofNat

def byteChar (b : UInt8) : Nat := byteAlphabet.getD b.toNat 0

/-- `byte_text`: the character's UTF-8. -/
def byteText (b : UInt8) : Bytes := utf8 (byteChar b)

def alphabetText (bytes : Bytes) : Bytes := bytes.flatMap byteText

namespace Impl

def find (x : Impl) (text : Bytes) : Option TokenId := lookup text x.byText

/-- `Kind`: `kinds[static_cast<std::size_t>(id)]`, of a token that is there. -/
def kind (x : Impl) (id : TokenId) : TokenKind := x.kinds.getD id.toNat .unused

def text (x : Impl) (id : TokenId) : Bytes := x.tokens.getD id.toNat []

/-- `decoded[id]`: a normal token's bytes. -/
def bytes (x : Impl) (id : TokenId) : Bytes := x.decoded.getD id.toNat []

/-- `normal`: the normal token a text names. -/
def findNormal (x : Impl) (text : Bytes) : Option TokenId :=
  match x.find text with
  | some id => if x.kind id = .normal then some id else none
  | none => none

end Impl

def fail {α : Type} (rule : Rule) (reason : String) (item : Nat := noItem) : Except Error α :=
  .error ⟨rule, reason, item⟩

def addToken (x : Impl) (id : Nat) : Except Error Impl :=
  let text := x.text id
  if x.kind id = .unused then .ok x
  else if text = [] ∨ maxTokenBytes < text.length then
    fail .vocabulary "token text empty or too long" id
  else
    match decodeUtf8 text [] with
    | .error _ => fail .vocabulary "token text is not UTF-8" id
    | .ok cps =>
      if (x.find text).isSome then fail .vocabulary "two tokens with one text" id
      else if x.kind id = .normal then
        match cps.mapM byteOf with
        | none => fail .vocabulary "normal token outside the byte alphabet" id
        | some bytes =>
          .ok { x with byText := (text, (id : TokenId)) :: x.byText,
                       decoded := x.decoded.set id bytes }
      else if maxSpecialBytes < text.length then
        fail .bounds "special token longer than the matcher's bound" id
      else
        .ok { x with byText := (text, (id : TokenId)) :: x.byText, trie := x.trie.insert text id,
                     specialFirst := text.headD 0 :: x.specialFirst }

def byteTokenOf (x : Impl) (b : Nat) : Except Error TokenId :=
  match x.findNormal (byteText (UInt8.ofNat b)) with
  | none => fail .vocabulary "a byte has no normal token" b
  | some id => .ok id

def addMerge (x : Impl) (merge : (Bytes × Bytes) × Nat) : Except Error Impl :=
  match x.findNormal merge.1.1, x.findNormal merge.1.2, x.findNormal (merge.1.1 ++ merge.1.2) with
  | some a, some b, some merged =>
    if (lookup (a, b) x.merges).isSome then
      fail .vocabulary "a merge repeats an earlier one" merge.2
    else .ok { x with merges := ((a, b), (merge.2, merged)) :: x.merges }
  | _, _, _ => fail .vocabulary "a merge names a token the vocabulary lacks" merge.2

/-- The check of `bos` or `eos`. -/
def checkNamed (x : Impl) : Option TokenId → Except Error Unit
  | none => .ok ()
  | some id =>
    if id < 0 ∨ (x.tokens.length : Int) ≤ id ∨ x.kind id = .unused then
      fail .vocabulary "BOS or EOS outside the vocabulary" (id % 2 ^ 64).toNat
    else .ok ()

def Impl.start (spec : TokenizerSpec) : Impl :=
  { tokens := spec.tokens, kinds := spec.kinds, decoded := List.replicate spec.tokens.length [],
    preTokenizer := spec.preTokenizer, normalization := spec.normalization,
    ignoreMerges := spec.ignoreMerges, bos := spec.bos, eos := spec.eos,
    addBos := spec.addBos, addEos := spec.addEos }

def create (spec : TokenizerSpec) : Except Error Impl :=
  let n := spec.tokens.length
  if n = 0 ∨ maxVocabulary < n then fail .bounds "vocabulary size" n
  else if spec.kinds.length ≠ n then
    fail .vocabulary "token kinds and tokens differ in number" spec.kinds.length
  else if 2 * maxVocabulary < spec.merges.length then
    fail .bounds "merge count" spec.merges.length
  else do
    let x ← (List.range n).foldlM addToken (Impl.start spec)
    let byteToken ← (List.range 256).mapM (byteTokenOf x)
    let x := { x with byteToken }
    let x ← spec.merges.zipIdx.foldlM addMerge x
    checkNamed x x.bos
    checkNamed x x.eos
    if (x.addBos && x.bos.isNone) || (x.addEos && x.eos.isNone) then
      fail .vocabulary "BOS or EOS added but not named"
    else .ok x

/-! ## The byte alphabet -/

theorem alphabetFrom_length : ∀ (left b next : Nat), (alphabetFrom left b next).length = left
  | 0, _, _ => rfl
  | left + 1, b, next => by
    unfold alphabetFrom
    split <;> simp [alphabetFrom_length left]

theorem alphabetFrom_spec : ∀ {left b next : Nat}, b + left ≤ 256 → 256 ≤ next →
    (alphabetFrom left b next).Nodup ∧
      ∀ cp ∈ alphabetFrom left b next, (b ≤ cp ∧ cp < 256) ∨ (next ≤ cp ∧ cp < next + left)
  | 0, _, _, _, _ => ⟨nodup_nil, nofun⟩
  | left + 1, b, next, hb, hnext => by
    unfold alphabetFrom
    split
    · have hb' : b + 1 + left ≤ 256 := by omega
      obtain ⟨hnodup, hall⟩ := alphabetFrom_spec hb' hnext
      refine ⟨nodup_cons.mpr ⟨fun hmem => ?_, hnodup⟩, fun cp hcp => ?_⟩
      · have := hall b hmem
        omega
      rcases mem_cons.mp hcp with rfl | hcp
      · exact .inl ⟨Nat.le_refl _, by omega⟩
      have := hall cp hcp
      omega
    have hb' : b + 1 + left ≤ 256 := by omega
    obtain ⟨hnodup, hall⟩ := alphabetFrom_spec hb' (Nat.le_succ_of_le hnext)
    refine ⟨nodup_cons.mpr ⟨fun hmem => ?_, hnodup⟩, fun cp hcp => ?_⟩
    · have := hall next hmem
      omega
    rcases mem_cons.mp hcp with rfl | hcp
    · omega
    have := hall cp hcp
    omega

theorem byteAlphabet_length : byteAlphabet.length = 256 := alphabetFrom_length 256 0 256

theorem byteAlphabet_nodup : byteAlphabet.Nodup :=
  (alphabetFrom_spec (Nat.le_refl 256) (Nat.le_refl 256)).1

theorem byteChar_eq (b : UInt8) : byteAlphabet[b.toNat]? = some (byteChar b) := by
  have hb : b.toNat < byteAlphabet.length := by
    rw [byteAlphabet_length]
    exact b.toNat_lt
  unfold byteChar
  rw [getD_eq_getElem?_getD, getElem?_eq_getElem hb]
  rfl

theorem byteChar_lt (b : UInt8) : byteChar b < 0x800 := by
  have hmem : byteChar b ∈ byteAlphabet := mem_of_getElem? (byteChar_eq b)
  have := (alphabetFrom_spec (Nat.le_refl 256) (Nat.le_refl 256)).2 _ hmem
  omega

theorem byteChar_inj {a b : UInt8} (h : byteChar a = byteChar b) : a = b := by
  have ha := byteChar_eq a
  have hb := byteChar_eq b
  have hlt : a.toNat < byteAlphabet.length := by
    rw [byteAlphabet_length]
    exact a.toNat_lt
  rw [h] at ha
  exact UInt8.toNat.inj ((getElem?_inj hlt byteAlphabet_nodup).mp (ha.trans hb.symm))

theorem byteOf_some {cp : Nat} {b : UInt8} (h : byteOf cp = some b) : byteChar b = cp := by
  obtain ⟨i, hi, rfl⟩ := map_eq_some_iff.mp h
  obtain ⟨hlt, hget, -⟩ := List.idxOf?_eq_some_iff.mp hi
  have hi256 : i < 256 := byteAlphabet_length ▸ hlt
  have hto : (UInt8.ofNat i).toNat = i := by
    exact Nat.mod_eq_of_lt hi256
  have := byteChar_eq (UInt8.ofNat i)
  rw [hto, getElem?_eq_getElem hlt] at this
  rw [← some.inj this]
  exact hget

theorem alphabetText_inj : ∀ {a b : Bytes}, alphabetText a = alphabetText b → a = b
  | [], [], _ => rfl
  | [], b :: bs, h => by
    have hpos := utf8_length_pos (byteChar b)
    have hlen : 0 = (utf8 (byteChar b) ++ alphabetText bs).length := congrArg List.length h
    rw [length_append] at hlen
    omega
  | a :: as, [], h => by
    have hpos := utf8_length_pos (byteChar a)
    have hlen : (utf8 (byteChar a) ++ alphabetText as).length = 0 := congrArg List.length h
    rw [length_append] at hlen
    omega
  | a :: as, b :: bs, h => by
    have h : utf8 (byteChar a) ++ alphabetText as = utf8 (byteChar b) ++ alphabetText bs := h
    obtain ⟨hab, hrest⟩ := utf8_unique (byteChar_lt a) (byteChar_lt b) h
    rw [byteChar_inj hab, alphabetText_inj hrest]

theorem alphabetText_append (a b : Bytes) :
    alphabetText (a ++ b) = alphabetText a ++ alphabetText b :=
  flatMap_append

theorem mapM_byteOf : ∀ {cps : List Nat} {bytes : Bytes}, cps.mapM byteOf = some bytes →
    utf8All cps = alphabetText bytes
  | [], bytes, h => by
    simp only [mapM_nil, Option.pure_def, Option.some.injEq] at h
    rw [← h]
    rfl
  | cp :: cps, bytes, h => by
    simp only [mapM_cons, Option.bind_eq_bind, Option.pure_def, Option.bind_eq_some_iff,
      Option.some.injEq] at h
    obtain ⟨b, hb, bs, hbs, rfl⟩ := h
    have hcp := byteOf_some hb
    show utf8 cp ++ utf8All cps = utf8 (byteChar b) ++ alphabetText bs
    rw [hcp, mapM_byteOf hbs]

/-! ## The trie -/

namespace Trie

/-- The nodes spell texts, an edge adding its byte, and a node's token is one `P` allows for the
    text that leads there. -/
structure Spells (t : Trie) (path : Nat → Bytes) (P : Bytes → TokenId → Prop) : Prop where
  root : path 0 = []
  pos : 0 < t.terminal.length
  edge : ∀ {n c m}, t.edge n c = some m →
    n < t.terminal.length ∧ m < t.terminal.length ∧ path m = path n ++ [c]
  terminal : ∀ {n id}, t.terminal[n]? = some id → 0 ≤ id → P (path n) id

variable {t : Trie} {path : Nat → Bytes} {P Q : Bytes → TokenId → Prop}

theorem spells_empty : Spells {} (fun _ => []) P where
  root := rfl
  pos := Nat.one_pos
  edge h := nomatch h
  terminal {n id} h hid := by
    rw [mem_singleton.mp (mem_of_getElem? h)] at hid
    cases hid

theorem Spells.mono (h : Spells t path P) (hPQ : ∀ text id, P text id → Q text id) :
    Spells t path Q where
  root := h.root
  pos := h.pos
  edge := h.edge
  terminal hget hid := hPQ _ _ (h.terminal hget hid)

theorem edge_cons {t : Trie} {node m n k : Nat} {c d : UInt8} {terminal : List TokenId}
    (h : edge { edges := ((node, c), m) :: t.edges, terminal } n d = some k) :
    (n = node ∧ d = c ∧ k = m) ∨ t.edge n d = some k := by
  unfold edge lookup at h
  rw [find?_cons] at h
  split at h
  · next heq =>
    have heq : (node, c) = (n, d) := of_decide_eq_true heq
    simp only [map_some, some.injEq] at h
    exact .inl ⟨(Prod.mk.inj heq).1.symm, (Prod.mk.inj heq).2.symm, h.symm⟩
  · exact .inr h

theorem Spells.follow (h : Spells t path P) {node : Nat} (hnode : node < t.terminal.length)
    (c : UInt8) : ∃ path', Spells (t.follow node c).1 path' P ∧
      (t.follow node c).2 < (t.follow node c).1.terminal.length ∧
      path' (t.follow node c).2 = path node ++ [c] := by
  unfold Trie.follow
  cases he : t.edge node c with
  | some => exact ⟨path, h, (h.edge he).2.1, (h.edge he).2.2⟩
  | none =>
    -- the new node's number is past every node's, so naming it changes no text
    have hold : ∀ k, k < t.terminal.length →
        Function.update path t.terminal.length (path node ++ [c]) k = path k := fun k hk =>
      Function.update_of_ne (Nat.ne_of_lt hk) _ _
    refine ⟨Function.update path t.terminal.length (path node ++ [c]), ?_, by simp,
      Function.update_self _ _ _⟩
    constructor
    · rw [hold 0 h.pos]
      exact h.root
    · simp
    · intro n d m hedge
      simp only [length_append, length_singleton]
      rcases edge_cons hedge with ⟨rfl, rfl, rfl⟩ | hedge
      · rw [Function.update_self, hold n hnode]
        exact ⟨by omega, by omega, rfl⟩
      obtain ⟨h1, h2, h3⟩ := h.edge hedge
      rw [hold m h2, hold n h1]
      exact ⟨by omega, by omega, h3⟩
    intro n id hget hid
    rcases Nat.lt_or_ge n t.terminal.length with hn | hn
    · rw [hold n hn]
      rw [getElem?_append_left hn] at hget
      exact h.terminal hget hid
    rw [getElem?_append_right hn] at hget
    rw [mem_singleton.mp (mem_of_getElem? hget)] at hid
    cases hid

theorem Spells.walk : ∀ (text : Bytes) {t : Trie} {path : Nat → Bytes} {node : Nat},
    Spells t path P → node < t.terminal.length → ∃ path', Spells (t.walk node text).1 path' P ∧
      (t.walk node text).2 < (t.walk node text).1.terminal.length ∧
      path' (t.walk node text).2 = path node ++ text
  | [], t, path, node, h, hnode => ⟨path, h, hnode, (append_nil _).symm⟩
  | c :: rest, t, path, node, h, hnode => by
    obtain ⟨path1, h1, hnode1, hpath1⟩ := h.follow hnode c
    obtain ⟨path2, h2, hnode2, hpath2⟩ := Spells.walk rest h1 hnode1
    refine ⟨path2, h2, hnode2, hpath2.trans ?_⟩
    rw [hpath1, append_assoc, singleton_append]

theorem Spells.insert (h : Spells t path P) {text : Bytes} {id : TokenId} (hid : P text id) :
    ∃ path', Spells (t.insert text id) path' P := by
  obtain ⟨path', h', -, hpath⟩ := Spells.walk text h h.pos
  rw [h.root, nil_append] at hpath
  refine ⟨path', ⟨h'.root, by simpa [Trie.insert] using h'.pos, ?_, ?_⟩⟩
  · intro n c m hedge
    simp only [Trie.insert, length_set]
    exact h'.edge hedge
  intro n id' hget hid'
  simp only [Trie.insert] at hget
  rw [getElem?_set] at hget
  split at hget
  · next hn =>
    split at hget
    · rw [← some.inj hget, ← hn, hpath]
      exact hid
    · cases hget
  · exact h'.terminal hget hid'

end Trie

/-! ## What `create` establishes -/

theorem lookup_cons {K V : Type} [DecidableEq K] {k k' : K} {v w : V} {l : List (K × V)}
    (h : lookup k ((k', v) :: l) = some w) : (k' = k ∧ w = v) ∨ lookup k l = some w := by
  unfold lookup at h
  rw [find?_cons] at h
  split at h
  · next heq =>
    simp only [map_some, some.injEq] at h
    exact .inl ⟨of_decide_eq_true heq, h.symm⟩
  · exact .inr h

namespace Impl

def Special (x : Impl) (id : TokenId) : Prop :=
  0 ≤ id ∧ (x.kind id = .control ∨ x.kind id = .userDefined)

def Normal (x : Impl) (id : TokenId) : Prop := 0 ≤ id ∧ x.kind id = .normal

theorem lt_of_kind {x : Impl} {id : Nat} (h : x.kind id ≠ .unused) : id < x.kinds.length := by
  by_contra hlt
  refine h ?_
  show x.kinds.getD id .unused = .unused
  rw [getD_eq_getElem?_getD, getElem?_eq_none (Nat.not_lt.mp hlt)]
  rfl

/-- What the tables hold once every token but `rest` is added. -/
structure Tables (x : Impl) (rest : List Nat) : Prop where
  texts : ∀ {text id}, x.find text = some id →
    0 ≤ id ∧ x.text id = text ∧ x.kind id ≠ .unused ∧ id.toNat ∉ rest
  found : ∀ {i : Nat}, x.kind i ≠ .unused → i ∉ rest → x.find (x.text i) = some (i : TokenId)
  spelled : ∀ {i : Nat}, x.kind i = .normal → i ∉ rest → x.text i = alphabetText (x.bytes i)
  trie : ∃ path, x.trie.Spells path fun text id => x.Special id ∧ x.text id = text
  length : x.decoded.length = x.kinds.length

/-- The fields `create` copies from the vocabulary it is given. -/
def SameSpec (x y : Impl) : Prop :=
  y.tokens = x.tokens ∧ y.kinds = x.kinds ∧ y.preTokenizer = x.preTokenizer ∧
    y.normalization = x.normalization ∧ y.ignoreMerges = x.ignoreMerges ∧ y.bos = x.bos ∧
    y.eos = x.eos ∧ y.addBos = x.addBos ∧ y.addEos = x.addEos

theorem SameSpec.refl (x : Impl) : x.SameSpec x := ⟨rfl, rfl, rfl, rfl, rfl, rfl, rfl, rfl, rfl⟩

theorem SameSpec.trans {x y z : Impl} (h : x.SameSpec y) (h' : y.SameSpec z) : x.SameSpec z := by
  obtain ⟨h1, h2, h3, h4, h5, h6, h7, h8, h9⟩ := h
  obtain ⟨g1, g2, g3, g4, g5, g6, g7, g8, g9⟩ := h'
  exact ⟨g1.trans h1, g2.trans h2, g3.trans h3, g4.trans h4, g5.trans h5, g6.trans h6,
    g7.trans h7, g8.trans h8, g9.trans h9⟩

variable {x y : Impl} {text text' : Bytes}

theorem find_cons {id id' : TokenId}
    (hy : y.byText = (text, id) :: x.byText) (h : y.find text' = some id') :
    (text = text' ∧ id' = id) ∨ x.find text' = some id' := by
  unfold find at h
  rw [hy] at h
  exact lookup_cons h

theorem find_cons_self {text : Bytes} {id : TokenId}
    (hy : y.byText = (text, id) :: x.byText) : y.find text = some id := by
  unfold find lookup
  rw [hy, find?_cons]
  simp

theorem find_cons_of_ne {id : TokenId}
    (hy : y.byText = (text, id) :: x.byText) (hne : text ≠ text') :
    y.find text' = x.find text' := by
  unfold find lookup
  rw [hy, find?_cons]
  simp [hne]

theorem Tables.add {id : Nat} {rest : List Nat} (h : x.Tables (id :: rest)) (hid : id ∉ rest)
    (hused : x.kind id ≠ .unused) (hfree : x.find (x.text id) = none) (htok : y.tokens = x.tokens)
    (hkinds : y.kinds = x.kinds) (hbyText : y.byText = (x.text id, (id : TokenId)) :: x.byText)
    (hbytes : x.kind id = .normal → x.text id = alphabetText (y.bytes id))
    (hdec : ∀ i : Nat, i ≠ id → y.bytes i = x.bytes i)
    (htrie : ∃ path, y.trie.Spells path fun text t => x.Special t ∧ x.text t = text)
    (hlen : y.decoded.length = x.decoded.length) : y.Tables rest := by
  have hkind : ∀ t, y.kind t = x.kind t := fun t => by rw [kind, kind, hkinds]
  have htext : ∀ t, y.text t = x.text t := fun t => by rw [text, text, htok]
  constructor
  · intro text t ht
    rw [htext, hkind]
    rcases find_cons hbyText ht with ⟨rfl, rfl⟩ | ht
    · exact ⟨Int.natCast_nonneg id, rfl, hused, hid⟩
    obtain ⟨h1, h2, h3, h4⟩ := h.texts ht
    exact ⟨h1, h2, h3, fun hmem => h4 (mem_cons_of_mem id hmem)⟩
  · intro i hi hrest
    rw [htext]
    rw [hkind] at hi
    by_cases hii : i = id
    · rw [hii]
      exact find_cons_self hbyText
    have hfound := h.found hi (by simp [hii, hrest])
    have hne : x.text id ≠ x.text i := fun heq => by
      rw [heq, hfound] at hfree
      cases hfree
    rw [find_cons_of_ne hbyText hne]
    exact hfound
  · intro i hi hrest
    rw [hkind] at hi
    rw [htext]
    by_cases hii : i = id
    · rw [hii] at hi ⊢
      exact hbytes hi
    rw [hdec i hii]
    exact h.spelled hi (by simp [hii, hrest])
  · obtain ⟨path, hpath⟩ := htrie
    refine ⟨path, hpath.mono fun text t ht => ?_⟩
    unfold Special
    rw [hkind, htext]
    exact ht
  · rw [hlen, h.length, hkinds]

end Impl

open Lib

theorem addToken_tables {x : Impl} {id : Nat} {rest : List Nat} (h : x.Tables (id :: rest))
    (hid : id ∉ rest) :
    Sat (fun _ => True) (fun y => y.Tables rest ∧ x.SameSpec y ∧ y.merges = x.merges)
      (addToken x id) := by
  unfold addToken
  simp only
  split
  · next hunu =>
    -- padding is in no table, so it need not be among what is left
    refine ⟨⟨fun ht => ?_, fun hi hrest => ?_, fun hi hrest => ?_, h.trie, h.length⟩,
      Impl.SameSpec.refl x, rfl⟩
    · obtain ⟨h1, h2, h3, h4⟩ := h.texts ht
      exact ⟨h1, h2, h3, fun hmem => h4 (mem_cons_of_mem id hmem)⟩
    · refine h.found hi fun hmem => ?_
      rcases mem_cons.mp hmem with rfl | hmem
      · exact hi hunu
      · exact hrest hmem
    refine h.spelled hi fun hmem => ?_
    rcases mem_cons.mp hmem with rfl | hmem
    · rw [hunu] at hi
      cases hi
    · exact hrest hmem
  next hused =>
  split
  · trivial
  next hlen =>
  rcases hdec : decodeUtf8 (x.text id) [] with _ | cps
  · trivial
  obtain ⟨_, rfl, hcps⟩ := decodeUtf8_ok hdec
  simp only
  split
  · trivial
  next hfree =>
  have hfree : x.find (x.text id) = none := by
    cases hf : x.find (x.text id) with
    | none => rfl
    | some =>
      rw [hf] at hfree
      exact absurd rfl hfree
  split
  · next hnor =>
    rcases hmap : cps.mapM byteOf with _ | bytes
    · trivial
    have hlt : id < x.decoded.length := by
      rw [h.length]
      exact Impl.lt_of_kind hused
    refine ⟨h.add hid hused hfree rfl rfl rfl (fun _ => ?_) (fun i hi => ?_) h.trie
      (length_set ..), ⟨rfl, rfl, rfl, rfl, rfl, rfl, rfl, rfl, rfl⟩, rfl⟩
    · rw [← hcps]
      show utf8All cps = alphabetText ((x.decoded.set id bytes).getD id [])
      rw [getD_eq_getElem?_getD, getElem?_set_self hlt]
      exact mapM_byteOf hmap
    show (x.decoded.set id bytes).getD i [] = x.decoded.getD i []
    rw [getD_eq_getElem?_getD, getElem?_set_ne (Ne.symm hi), getD_eq_getElem?_getD]
  next hspec =>
  split
  · trivial
  have hkind : x.Special id := by
    refine ⟨Int.natCast_nonneg id, ?_⟩
    cases hk : x.kind id with
    | normal => exact absurd hk hspec
    | control => exact .inl rfl
    | userDefined => exact .inr rfl
    | unused => exact absurd hk hused
  obtain ⟨path, hpath⟩ := h.trie
  exact ⟨h.add hid hused hfree rfl rfl rfl (fun hn => absurd hn hspec) (fun _ _ => rfl)
    (hpath.insert ⟨hkind, rfl⟩) rfl, ⟨rfl, rfl, rfl, rfl, rfl, rfl, rfl, rfl, rfl⟩, rfl⟩

theorem addTokens_tables {n : Nat} {x : Impl} (h : x.Tables (List.range n)) :
    Sat (fun _ => True) (fun y => y.Tables [] ∧ x.SameSpec y ∧ y.merges = x.merges)
      ((List.range n).foldlM addToken x) := by
  refine (Sat.foldlM (I := fun rest y =>
    (y.Tables rest ∧ x.SameSpec y ∧ y.merges = x.merges) ∧ rest.Nodup) ?_
    ⟨⟨h, Impl.SameSpec.refl x, rfl⟩, nodup_range⟩).imp fun y hy => hy.1
  intro y id rest hy
  obtain ⟨⟨htab, hsame, hmer⟩, hnodup⟩ := hy
  obtain ⟨hid, hrest⟩ := nodup_cons.mp hnodup
  exact (addToken_tables htab hid).imp fun z hz =>
    ⟨⟨hz.1, hsame.trans hz.2.1, hz.2.2.trans hmer⟩, hrest⟩

namespace Impl

structure Sound (x : Impl) : Prop where
  tables : x.Tables []
  byteToken : ∀ b : UInt8, x.Normal (x.byteToken.getD b.toNat (-1)) ∧
    x.bytes (x.byteToken.getD b.toNat (-1)) = [b]
  merges : ∀ {a b rank merged}, lookup (a, b) x.merges = some (rank, merged) →
    x.Normal a ∧ x.Normal b ∧ x.Normal merged ∧ x.bytes merged = x.bytes a ++ x.bytes b

theorem findNormal_eq_some {x : Impl} {text : Bytes} {id : TokenId} :
    x.findNormal text = some id ↔ x.find text = some id ∧ x.kind id = .normal := by
  unfold findNormal
  rcases x.find text with _ | t
  · simp
  simp only [some.injEq]
  constructor
  · intro h
    split at h
    · next hk =>
      cases h
      exact ⟨rfl, hk⟩
    · cases h
  rintro ⟨rfl, hk⟩
  rw [if_pos hk]

theorem Tables.normal {x : Impl} (h : x.Tables []) {text : Bytes} {id : TokenId}
    (hfind : x.findNormal text = some id) :
    x.Normal id ∧ x.text id = text ∧ alphabetText (x.bytes id) = text := by
  obtain ⟨hfind, hkind⟩ := findNormal_eq_some.mp hfind
  obtain ⟨hid, htext, -, -⟩ := h.texts hfind
  have hcast : ((id.toNat : Nat) : TokenId) = id := Int.toNat_of_nonneg hid
  have hspel := h.spelled (i := id.toNat) (by rw [hcast]; exact hkind) (by simp)
  rw [hcast, htext] at hspel
  exact ⟨⟨hid, hkind⟩, htext, hspel.symm⟩

end Impl

variable {l : List TokenId} {merge : (Bytes × Bytes) × Nat} {spec : TokenizerSpec}

variable {x : Impl}

theorem byteTokens_ok (h : (List.range 256).mapM (byteTokenOf x) = .ok l) (b : UInt8) :
    x.findNormal (byteText b) = some (l.getD b.toNat (-1)) := by
  obtain ⟨hlength, hget⟩ := mapM_range_ok h
  have hb : b.toNat < l.length := hlength ▸ b.toNat_lt
  replace hget := hget b.toNat hb
  unfold byteTokenOf at hget
  rw [UInt8.ofNat_toNat] at hget
  rcases hf : x.findNormal (byteText b) with _ | _
  · rw [hf] at hget
    cases hget
  rw [hf] at hget
  rw [getD_eq_getElem?_getD, getElem?_eq_getElem hb, Except.ok.inj hget]
  rfl

theorem addMerge_ok {x y : Impl} (h : addMerge x merge = .ok y) :
    ∃ a b merged, x.findNormal merge.1.1 = some a ∧ x.findNormal merge.1.2 = some b ∧
      x.findNormal (merge.1.1 ++ merge.1.2) = some merged ∧
      y = { x with merges := ((a, b), (merge.2, merged)) :: x.merges } := by
  unfold addMerge at h
  split at h
  · next a b merged ha hb hmer =>
    split at h
    · cases h
    · exact ⟨a, b, merged, ha, hb, hmer, (Except.ok.inj h).symm⟩
  · cases h

theorem Impl.Tables.joined (h : x.Tables []) {left right : Bytes} {a b merged : TokenId}
    (ha : x.findNormal left = some a) (hb : x.findNormal right = some b)
    (hmer : x.findNormal (left ++ right) = some merged) :
    x.bytes merged = x.bytes a ++ x.bytes b := by
  apply alphabetText_inj
  rw [alphabetText_append, (h.normal hmer).2.2, (h.normal ha).2.2, (h.normal hb).2.2]

theorem addMerge_sound {x y : Impl} (hx : x.Sound)
    (h : addMerge x merge = .ok y) : y.Sound ∧ x.SameSpec y := by
  obtain ⟨a, b, merged, ha, hb, hmer, rfl⟩ := addMerge_ok h
  refine ⟨⟨⟨hx.tables.texts, hx.tables.found, hx.tables.spelled, hx.tables.trie,
    hx.tables.length⟩, hx.byteToken, fun {a' b' rank merged'} hlook => ?_⟩,
    ⟨rfl, rfl, rfl, rfl, rfl, rfl, rfl, rfl, rfl⟩⟩
  rcases lookup_cons hlook with ⟨hkey, hval⟩ | hlook
  · cases hkey
    obtain ⟨-, rfl⟩ := Prod.mk.inj hval
    exact ⟨(hx.tables.normal ha).1, (hx.tables.normal hb).1, (hx.tables.normal hmer).1,
      hx.tables.joined ha hb hmer⟩
  · exact hx.merges hlook

theorem addMerges_sound {merges : List ((Bytes × Bytes) × Nat)} (hx : x.Sound) :
    Sat (fun _ => True) (fun y => y.Sound ∧ x.SameSpec y) (merges.foldlM addMerge x) := by
  refine Sat.foldlM (I := fun _ y => y.Sound ∧ x.SameSpec y) ?_ ⟨hx, Impl.SameSpec.refl x⟩
  intro y merge rest hy
  cases h : addMerge y merge with
  | error => trivial
  | ok =>
    obtain ⟨hz, hsame⟩ := addMerge_sound hy.1 h
    exact ⟨hz, hy.2.trans hsame⟩

theorem Impl.start_tables (h : spec.kinds.length = spec.tokens.length) :
    (Impl.start spec).Tables (List.range spec.tokens.length) where
  texts ht := nomatch ht
  found {i} hi hrest := absurd (mem_range.mpr (h ▸ lt_of_kind hi)) hrest
  spelled {i} hi hrest := by
    have hused : (Impl.start spec).kind i ≠ .unused := by
      rw [hi]
      exact nofun
    exact absurd (mem_range.mpr (h ▸ lt_of_kind hused)) hrest
  trie := ⟨_, Trie.spells_empty⟩
  length := by
    show (List.replicate spec.tokens.length []).length = spec.kinds.length
    rw [length_replicate, h]

theorem byteTokens_sound (hx : x.Tables [])
    (hmer : x.merges = []) (h : (List.range 256).mapM (byteTokenOf x) = .ok l) :
    ({ x with byteToken := l } : Impl).Sound where
  tables := ⟨hx.texts, hx.found, hx.spelled, hx.trie, hx.length⟩
  byteToken b := by
    obtain ⟨hnor, -, hspel⟩ := hx.normal (byteTokens_ok h b)
    refine ⟨hnor, alphabetText_inj ?_⟩
    show alphabetText (x.bytes (l.getD b.toNat (-1))) = byteText b ++ []
    rw [hspel, append_nil]
  merges hlook := by
    simp only [hmer] at hlook
    cases hlook

theorem create_ok (h : create spec = .ok x) :
    ∃ x1 l, spec.kinds.length = spec.tokens.length ∧ x1.merges = [] ∧
      (({ x1 with byteToken := l } : Impl).Sound ∧ (Impl.start spec).SameSpec x1) ∧
      spec.merges.zipIdx.foldlM addMerge { x1 with byteToken := l } = .ok x := by
  unfold create at h
  simp only at h
  split at h
  · cases h
  split at h
  · cases h
  next hkinds =>
  split at h
  · cases h
  obtain ⟨x1, h1, h⟩ := bind_ok h
  obtain ⟨l, hl, h⟩ := bind_ok h
  obtain ⟨x2, h2, h⟩ := bind_ok h
  obtain ⟨-, -, h⟩ := bind_ok h
  obtain ⟨-, -, h⟩ := bind_ok h
  split at h
  · cases h
  obtain ⟨htab, hsame, hmer⟩ := (addTokens_tables (Impl.start_tables (not_not.mp hkinds))).val h1
  cases h
  exact ⟨x1, l, not_not.mp hkinds, hmer, ⟨byteTokens_sound htab hmer hl, hsame⟩, h2⟩

theorem create_sound (h : create spec = .ok x) :
    x.Sound ∧ (Impl.start spec).SameSpec x ∧ x.kinds.length = x.tokens.length := by
  obtain ⟨x1, l, hkinds, -, ⟨hsound1, hsame⟩, h2⟩ := create_ok h
  obtain ⟨hsound, hsame'⟩ := (addMerges_sound hsound1).val h2
  have hspec := hsame.trans hsame'
  refine ⟨hsound, hspec, ?_⟩
  rw [hspec.1, hspec.2.1]
  exact hkinds

/-! ## What `create` accepts -/

/-- A token whose text `create` takes, were it the only one. -/
structure Impl.Valid (x : Impl) (id : Nat) : Prop where
  length : x.text id ≠ [] ∧ (x.text id).length ≤ maxTokenBytes
  decodes : ∃ cps, decodeUtf8 (x.text id) [] = .ok cps ∧
    (x.kind id = .normal → ∃ bytes, cps.mapM byteOf = some bytes)
  special : x.kind id ≠ .normal → (x.text id).length ≤ maxSpecialBytes

theorem addToken_accepts {id : Nat} {rest : List Nat} (h : x.Tables (id :: rest))
    (hid : id < x.tokens.length) (hkinds : x.kinds.length = x.tokens.length)
    (hnodup : x.tokens.Nodup) (hvalid : x.Valid id) : ∃ y, addToken x id = .ok y := by
  have hfree : (x.find (x.text id)).isSome ≠ true := by
    intro hsome
    obtain ⟨t, ht⟩ := isSome_iff_exists.mp hsome
    obtain ⟨h0, htext, hused, hrest⟩ := h.texts ht
    have hcast : ((t.toNat : Nat) : TokenId) = t := Int.toNat_of_nonneg h0
    have hlt : t.toNat < x.tokens.length := hkinds ▸ Impl.lt_of_kind (by rw [hcast]; exact hused)
    have heq : x.tokens[t.toNat] = x.tokens[id] := by
      have htext : x.tokens.getD t.toNat [] = x.tokens.getD id [] := htext
      rwa [getD_eq_getElem _ _ hlt, getD_eq_getElem _ _ hid] at htext
    rw [(List.Nodup.getElem_inj_iff hnodup).mp heq] at hrest
    exact hrest mem_cons_self
  obtain ⟨cps, hcps, hnor⟩ := hvalid.decodes
  have hlen : ¬(x.text id = [] ∨ maxTokenBytes < (x.text id).length) := by
    rintro (hnil | hlong)
    · exact hvalid.length.1 hnil
    · exact absurd hvalid.length.2 (Nat.not_le.mpr hlong)
  unfold addToken
  simp only [if_neg hlen, hcps, if_neg hfree]
  split
  · exact ⟨_, rfl⟩
  split
  · next hk =>
    obtain ⟨bytes, hbytes⟩ := hnor hk
    rw [hbytes]
    exact ⟨_, rfl⟩
  next hk =>
  rw [if_neg (Nat.not_lt.mpr (hvalid.special hk))]
  exact ⟨_, rfl⟩

theorem addTokens_accepts : ∀ {l : List Nat} {x : Impl}, x.Tables l → l.Nodup →
    (∀ id ∈ l, id < x.tokens.length) → x.kinds.length = x.tokens.length → x.tokens.Nodup →
    (∀ id ∈ l, x.Valid id) → ∃ y, l.foldlM addToken x = .ok y
  | [], x, _, _, _, _, _, _ => ⟨x, rfl⟩
  | id :: rest, x, h, hl, hlt, hkinds, hnodup, hvalid => by
    obtain ⟨hid, hrest⟩ := nodup_cons.mp hl
    obtain ⟨y, hy⟩ := addToken_accepts h (hlt id mem_cons_self) hkinds hnodup
      (hvalid id mem_cons_self)
    obtain ⟨htab, ⟨htok, hkinds', -⟩, -⟩ := (addToken_tables h hid).val hy
    obtain ⟨z, hz⟩ := addTokens_accepts htab hrest
      (fun i hi => htok ▸ hlt i (mem_cons_of_mem id hi)) (by rw [hkinds', htok, hkinds])
      (htok ▸ hnodup) (fun i hi => by
        have hi := hvalid i (mem_cons_of_mem id hi)
        have htext : ∀ t, y.text t = x.text t := fun t => by rw [Impl.text, Impl.text, htok]
        have hkind : ∀ t, y.kind t = x.kind t := fun t => by rw [Impl.kind, Impl.kind, hkinds']
        refine ⟨?_, ?_, ?_⟩
        · rw [htext]
          exact hi.length
        · rw [htext, hkind]
          exact hi.decodes
        rw [htext, hkind]
        exact hi.special)
    refine ⟨z, ?_⟩
    rw [foldlM_cons, hy]
    exact hz

theorem create_accepts (hpos : spec.tokens.length ≠ 0)
    (hmax : spec.tokens.length ≤ maxVocabulary) (hkinds : spec.kinds.length = spec.tokens.length)
    (hnodup : spec.tokens.Nodup)
    (hvalid : ∀ id, id < spec.tokens.length → (Impl.start spec).Valid id)
    (hbytes : ∀ b : UInt8, ∃ id : Nat, (Impl.start spec).kind id = .normal ∧
      (Impl.start spec).text id = byteText b)
    (hmer : spec.merges = []) (hbos : spec.bos = none) (heos : spec.eos = none)
    (haddBos : spec.addBos = false) (haddEos : spec.addEos = false) : ∃ x, create spec = .ok x := by
  obtain ⟨x, hx⟩ := addTokens_accepts (Impl.start_tables hkinds) nodup_range
    (fun id hid => mem_range.mp hid) hkinds hnodup
    (fun id hid => hvalid id (mem_range.mp hid))
  obtain ⟨htab, ⟨htok, hkinds', -, -, -, hb, he, hab, hae⟩, hm⟩ :=
    (addTokens_tables (Impl.start_tables hkinds)).val hx
  have hfind : ∀ b : UInt8, ∃ id, x.findNormal (byteText b) = some id := by
    intro b
    obtain ⟨id, hkind, htext⟩ := hbytes b
    have hkind : x.kind id = .normal := by rw [Impl.kind, hkinds']; exact hkind
    have htext : x.text id = byteText b := by rw [Impl.text, htok]; exact htext
    have hused : x.kind id ≠ .unused := by
      rw [hkind]
      exact nofun
    have hfound := htab.found hused not_mem_nil
    rw [htext] at hfound
    exact ⟨id, Impl.findNormal_eq_some.mpr ⟨hfound, hkind⟩⟩
  have htoken : ∀ l : List Nat, ∃ l', l.mapM (byteTokenOf x) = .ok l' := by
    intro l
    induction l with
    | nil => exact ⟨[], rfl⟩
    | cons b rest ih =>
      obtain ⟨l', hl'⟩ := ih
      obtain ⟨id, hid⟩ := hfind (UInt8.ofNat b)
      refine ⟨id :: l', ?_⟩
      rw [mapM_cons, byteTokenOf, hid]
      simp only [ok_bind, hl']
      rfl
  obtain ⟨l, hl⟩ := htoken (List.range 256)
  have hb : x.bos = none := hb.trans hbos
  have he : x.eos = none := he.trans heos
  have hab : x.addBos = false := hab.trans haddBos
  have hae : x.addEos = false := hae.trans haddEos
  have hn : ¬(spec.tokens.length = 0 ∨ maxVocabulary < spec.tokens.length) := by
    rintro (h | h)
    · exact hpos h
    · exact absurd hmax (Nat.not_le.mpr h)
  refine ⟨{ x with byteToken := l }, ?_⟩
  unfold create
  simp only [if_neg hn, if_neg (not_not.mpr hkinds), hx, ok_bind, hl, hmer,
    zipIdx_nil, foldlM_nil, hb, he, hab, hae, checkNamed]
  rfl

end JitLlm.Tokenizer
