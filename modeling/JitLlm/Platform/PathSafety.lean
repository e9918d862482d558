import JitLlm.Platform.PathTrust
import Mathlib.Logic.Relation

/-!
# An approved path cannot be re-pointed

What an untrusted user may do to a file system, and that it never moves what `WalkTrusted`
approved. The walk leaves a chain of entries, each of a trusted owner and taken from a directory
that is trusted too: others cannot write it, or it is sticky. Such an entry is there after every
untrusted operation, and with it the parent that `..` reads.
-/

namespace JitLlm.Platform

variable {x : Accounts} {trusted : Nat} {fs fs' fs'' : FileSystem} {r : TrustedPath} {path : Path}

/-- A directory's entries name objects, and a directory's parent is the one it is entered in. -/
structure WellFormed (fs : FileSystem) : Prop where
  root : ∃ n entries, fs.node fs.root = some n ∧ n.kind = .directory fs.root entries
  child : ∀ d n parent entries name o m up inner, fs.node d = some n →
    n.kind = .directory parent entries → entries name = some o → fs.node o = some m →
    m.kind = .directory up inner → up = d
  entered : ∀ d n parent entries name o, fs.node d = some n → n.kind = .directory parent entries →
    entries name = some o → ∃ m, fs.node o = some m

/-- Whether user `u` may change the entry `name` of a directory of someone else: others can
    write it, and if it is sticky no one else owns the entry there. -/
def MayChange (x : Accounts) (trusted u : Nat) (fs : FileSystem) (n : Node)
    (entries : String → Option Inode) (name : String) : Prop :=
  othersCanWrite x n trusted = true ∧
    (n.sticky = false ∨ ∀ o m, entries name = some o → fs.node o = some m → m.uid = u)

/-- The kind of an object of someone else after `u`'s operation. -/
def KindKept (x : Accounts) (trusted u : Nat) (fs : FileSystem) (n n' : Node) : Prop :=
  match n.kind with
  | .directory _ entries => ∃ parent' entries', n'.kind = .directory parent' entries' ∧
      ∀ name, entries' name ≠ entries name → MayChange x trusted u fs n entries name
  | kind => n'.kind = kind

/-- What one operation of the untrusted user `u` may leave. An object keeps its identity: one
    that is removed is only no longer entered anywhere. -/
structure Tampers (x : Accounts) (trusted u : Nat) (fs fs' : FileSystem) : Prop where
  outsider : trustedOwner u trusted = false
  root : fs'.root = fs.root
  formed : WellFormed fs'
  kept : ∀ i n, fs.node i = some n → n.uid ≠ u → ∃ n', fs'.node i = some n' ∧
    n'.uid = n.uid ∧ n'.gid = n.gid ∧ n'.mode = n.mode ∧ n'.acl = n.acl ∧ n'.fuse = n.fuse ∧
    KindKept x trusted u fs n n'
  owned : ∀ i n, fs.node i = some n → n.uid = u → ∃ n', fs'.node i = some n' ∧ n'.uid = u
  created : ∀ i n', fs.node i = none → fs'.node i = some n' → n'.uid = u

def Tampering (x : Accounts) (trusted : Nat) : FileSystem → FileSystem → Prop :=
  Relation.ReflTransGen fun fs fs' => ∃ u, Tampers x trusted u fs fs'

/-! ## What survives -/

def Private (x : Accounts) (trusted : Nat) (n : Node) : Prop :=
  trustedOwner n.uid trusted = true ∧ (othersCanWrite x n trusted = true → n.sticky = true)

def KindHeld (x : Accounts) (trusted : Nat) (fs : FileSystem) (n n' : Node) : Prop :=
  match n.kind with
  | .directory _ entries => ∃ parent' entries', n'.kind = .directory parent' entries' ∧
      (Private x trusted n → ∀ name o m, entries name = some o → fs.node o = some m →
        trustedOwner m.uid trusted = true → entries' name = some o)
  | kind => n'.kind = kind

/-- `fs'` has every object of a trusted owner as `fs` has it. -/
structure Keeps (x : Accounts) (trusted : Nat) (fs fs' : FileSystem) : Prop where
  root : fs'.root = fs.root
  held : ∀ i n, fs.node i = some n → trustedOwner n.uid trusted = true → ∃ n',
    fs'.node i = some n' ∧ n'.uid = n.uid ∧ n'.gid = n.gid ∧ n'.mode = n.mode ∧ n'.acl = n.acl ∧
    KindHeld x trusted fs n n'

theorem Keeps.refl (fs : FileSystem) : Keeps x trusted fs fs := by
  refine ⟨rfl, fun i n hn _ => ⟨n, hn, rfl, rfl, rfl, rfl, ?_⟩⟩
  unfold KindHeld
  split
  next parent entries hkind =>
    exact ⟨parent, entries, hkind, fun _ _ _ _ hentry _ _ => hentry⟩
  · rfl

theorem othersCanWrite_congr {n n' : Node} (hgid : n'.gid = n.gid) (hmode : n'.mode = n.mode)
    (hacl : n'.acl = n.acl) : othersCanWrite x n' trusted = othersCanWrite x n trusted := by
  unfold othersCanWrite Node.otherWrite Node.groupWrite
  rw [hgid, hmode, hacl]

theorem Keeps.tamper {u : Nat} (h : Keeps x trusted fs fs') (ht : Tampers x trusted u fs' fs'') :
    Keeps x trusted fs fs'' := by
  have hother : ∀ owner, trustedOwner owner trusted = true → owner ≠ u := by
    rintro owner howner rfl
    simp [ht.outsider] at howner
  refine ⟨ht.root.trans h.root, fun i n hn howner => ?_⟩
  obtain ⟨n', hn', huid, hgid, hmode, hacl, hheld⟩ := h.held i n hn howner
  obtain ⟨n'', hn'', huid', hgid', hmode', hacl', -, hkept⟩ :=
    ht.kept i n' hn' (hother _ (huid ▸ howner))
  refine ⟨n'', hn'', huid'.trans huid, hgid'.trans hgid, hmode'.trans hmode, hacl'.trans hacl, ?_⟩
  unfold KindHeld at hheld ⊢
  split at hheld
  next parent entries hkind =>
    obtain ⟨parent', entries', hkind', hent⟩ := hheld
    unfold KindKept at hkept
    rw [hkind'] at hkept
    obtain ⟨parent'', entries'', hkind'', hchan⟩ := hkept
    refine ⟨parent'', entries'', hkind'', fun hpriv name o m hentry ho hom => ?_⟩
    have hnamed := hent hpriv name o m hentry ho hom
    by_contra hne
    -- The entry changed, so `u` could write the directory: it is sticky and `u` owns no part.
    obtain ⟨hwrite, hsticky | howned⟩ := hchan name (by rw [hnamed]; exact hne)
    · rw [othersCanWrite_congr hgid hmode hacl] at hwrite
      have hset := hpriv.2 hwrite
      unfold Node.sticky at hsticky hset
      rw [hmode, hset] at hsticky
      cases hsticky
    obtain ⟨m', hm', hmuid, -⟩ := h.held o m ho hom
    exact hother _ hom (hmuid ▸ howned o m' hnamed hm')
  next hkind =>
    unfold KindKept at hkept
    split at hkept
    next parent entries hdir =>
      exact absurd (hheld.symm.trans hdir) (hkind parent entries)
    rw [hkept]
    exact hheld

theorem Keeps.tampering (h : Tampering x trusted fs fs') : Keeps x trusted fs fs' := by
  induction h with
  | refl => exact .refl fs
  | tail _ hstep ih =>
    obtain ⟨u, hu⟩ := hstep
    exact ih.tamper hu

theorem WellFormed.tampering (hwf : WellFormed fs) (h : Tampering x trusted fs fs') :
    WellFormed fs' := by
  induction h with
  | refl => exact hwf
  | tail _ hstep =>
    obtain ⟨u, hu⟩ := hstep
    exact hu.formed

/-! ## Chains of trusted entries -/

def Normal (name : String) : Prop := name ≠ "" ∧ name ≠ "." ∧ name ≠ ".."

/-- `d` is a private directory. -/
def Guarded (x : Accounts) (trusted : Nat) (fs : FileSystem) (d : Inode)
    (entries : String → Option Inode) : Prop :=
  ∃ n parent, fs.node d = some n ∧ n.kind = .directory parent entries ∧ Private x trusted n

/-- The names lead from the root to `d` through private directories, by entries of trusted
    owners. -/
inductive Chain (x : Accounts) (trusted : Nat) (fs : FileSystem) : List String → Inode → Prop
  | root {entries : String → Option Inode} :
      Guarded x trusted fs fs.root entries → Chain x trusted fs [] fs.root
  | snoc {names : List String} {d o : Inode} {name : String}
      {entries inner : String → Option Inode} :
      Chain x trusted fs names d → Guarded x trusted fs d entries → Normal name →
      entries name = some o → Guarded x trusted fs o inner →
      Chain x trusted fs (names ++ [name]) o

variable {names : List String}

variable {d : Inode}

section

variable (h : Chain x trusted fs names d)
include h

theorem Chain.guarded : ∃ entries, Guarded x trusted fs d entries := by
  cases h with
  | root hguard | snoc _ _ _ _ hguard => exact ⟨_, hguard⟩

theorem Chain.atRoot : Chain x trusted fs [] fs.root := by
  induction h with
  | root hguard => exact .root hguard
  | snoc _ _ _ _ _ ih => exact ih

theorem Chain.normal : ∀ name ∈ names, Normal name := by
  induction h with
  | root => simp
  | snoc _ _ hname _ _ ih =>
    intro name hmem
    rcases List.mem_append.mp hmem with hmem | hmem
    · exact ih name hmem
    rw [List.mem_singleton.mp hmem]
    exact hname

end

theorem Guarded.keeps {entries : String → Option Inode} (h : Keeps x trusted fs fs')
    (hguard : Guarded x trusted fs d entries) : ∃ entries', Guarded x trusted fs' d entries' ∧
      ∀ name o m, entries name = some o → fs.node o = some m →
        trustedOwner m.uid trusted = true → entries' name = some o := by
  obtain ⟨n, parent, hn, hkind, hpriv⟩ := hguard
  obtain ⟨n', hn', huid, hgid, hmode, hacl, hheld⟩ := h.held d n hn hpriv.1
  unfold KindHeld at hheld
  rw [hkind] at hheld
  obtain ⟨parent', entries', hkind', hent⟩ := hheld
  refine ⟨entries', ⟨n', parent', hn', hkind', ?_, ?_⟩, hent hpriv⟩
  · rw [huid]
    exact hpriv.1
  rw [othersCanWrite_congr hgid hmode hacl]
  unfold Node.sticky
  rw [hmode]
  exact hpriv.2

theorem Chain.keeps (h : Keeps x trusted fs fs')
    (hchain : Chain x trusted fs names d) : Chain x trusted fs' names d := by
  induction hchain with
  | root hguard =>
    obtain ⟨entries', hguard', -⟩ := hguard.keeps h
    rw [← h.root] at hguard' ⊢
    exact .root hguard'
  | snoc _ hguard hname hentry hinner ih =>
    obtain ⟨entries', hguard', hent⟩ := hguard.keeps h
    obtain ⟨inner', hinner', -⟩ := hinner.keeps h
    obtain ⟨m, -, hm, -, hpriv⟩ := hinner
    exact .snoc ih hguard' hname (hent _ _ m hentry hm hpriv.1) hinner'

theorem Chain.parent (hwf : WellFormed fs)
    (h : Chain x trusted fs names d) : ∃ n up entries, fs.node d = some n ∧
      n.kind = .directory up entries ∧ Chain x trusted fs names.dropLast up := by
  cases h with
  | root hguard =>
    obtain ⟨n, entries, hn, hkind⟩ := hwf.root
    exact ⟨n, fs.root, entries, hn, hkind, .root hguard⟩
  | snoc hchain hguard _ hentry hinner =>
    obtain ⟨m, up, hm, hkind, -⟩ := hinner
    obtain ⟨n, parent, hn, hdir, -⟩ := hguard
    obtain rfl := hwf.child _ n parent _ _ _ m up _ hn hdir hentry hm hkind
    refine ⟨m, up, _, hm, hkind, ?_⟩
    rw [List.dropLast_concat]
    exact hchain

/-! ## Resolving along a chain -/

section Resolve

variable {follow : Bool} {d o : Inode} {n m : Node} {parent : Inode}
  {entries : String → Option Inode} {name part : String} {rest : List String} {links : Nat}

section

variable (hd : fs.node d = some n) (hkind : n.kind = .directory parent entries)
include hd hkind

theorem resolve_skip (hpart : part = "" ∨ part = ".") :
    resolve fs follow d (part :: rest) links = resolve fs follow d rest links := by
  obtain ⟨kind, uid, gid, mode, acl, fuse⟩ := n
  subst hkind
  rw [resolve]
  simp only [hd, if_pos hpart]

theorem resolve_up :
    resolve fs follow d (".." :: rest) links = resolve fs follow parent rest links := by
  obtain ⟨kind, uid, gid, mode, acl, fuse⟩ := n
  subst hkind
  rw [resolve]
  simp [hd]

theorem resolve_missing (hname : Normal name) (hentry : entries name = none) :
    resolve fs follow d (name :: rest) links = .error .noEntry := by
  obtain ⟨kind, uid, gid, mode, acl, fuse⟩ := n
  subst hkind
  rw [resolve]
  simp only [hd, if_neg (not_or.mpr ⟨hname.1, hname.2.1⟩), if_neg hname.2.2, hentry]

theorem resolve_entry
    (hname : Normal name) (hentry : entries name = some o) (ho : fs.node o = some m)
    (hlink : m.isLink = false) : resolve fs follow d (name :: rest) links =
      if rest = [] then .ok o else resolve fs follow o rest links := by
  obtain ⟨kind, uid, gid, mode, acl, fuse⟩ := n
  subst hkind
  rw [resolve]
  simp only [hd, if_neg (not_or.mpr ⟨hname.1, hname.2.1⟩), if_neg hname.2.2, hentry, ho]
  unfold Node.isLink at hlink
  cases hm : m.kind with
  | link => simp [hm] at hlink
  | file | directory => rfl

theorem resolve_link {target : Path} {bytes : Nat} (hname : Normal name)
    (hentry : entries name = some o) (ho : fs.node o = some m)
    (hlink : m.kind = .link target bytes) : resolve fs follow d (name :: rest) links =
      if rest = [] ∧ follow = false then .ok o
      else if links < kLinkLimit then
        resolve fs follow (if target.rooted then fs.root else d) (target.parts ++ rest) (links + 1)
      else .error .loop := by
  obtain ⟨kind, uid, gid, mode, acl, fuse⟩ := n
  subst hkind
  rw [resolve]
  simp only [hd, if_neg (not_or.mpr ⟨hname.1, hname.2.1⟩), if_neg hname.2.2, hentry, ho, hlink]
  rfl

end

theorem isLink_of_directory (h : m.kind = .directory parent entries) : m.isLink = false := by
  simp [Node.isLink, h]

variable {names : List String}

section

variable (h : Chain x trusted fs names d)
include h

theorem Chain.resolve_append : ∀ rest, rest ≠ [] → resolve fs follow fs.root (names ++ rest) links =
      resolve fs follow d rest links := by
  induction h with
  | root =>
    intro rest _
    rfl
  | snoc _ hguard hname hentry hinner ih =>
    intro rest hrest
    obtain ⟨n, parent, hn, hdir, -⟩ := hguard
    obtain ⟨m, up, hm, hkind, -⟩ := hinner
    rw [List.append_assoc, List.singleton_append, ih _ (by simp),
      resolve_entry hn hdir hname hentry hm (isLink_of_directory hkind), if_neg hrest]

theorem Chain.resolve : Platform.resolve fs follow fs.root names links = .ok d := by
  cases h with
  | root =>
    rw [Platform.resolve]
  | snoc hchain hguard hname hentry hinner =>
    obtain ⟨n, parent, hn, hdir, -⟩ := hguard
    obtain ⟨m, up, hm, hkind, -⟩ := hinner
    rw [hchain.resolve_append _ (by simp),
      resolve_entry hn hdir hname hentry hm (isLink_of_directory hkind), if_pos rfl]

theorem Chain.lstat
    (hd : fs.node d = some n) (hkind : n.kind = .directory parent entries) (hname : Normal name) :
    fs.lstat (rootedPath (names ++ [name])) =
      match entries name with
      | none => .error .noEntry
      | some o => match fs.node o with
        | none => .error .noEntry
        | some m => .ok m := by
  unfold FileSystem.lstat FileSystem.resolvePath rootedPath
  rw [h.resolve_append _ (by simp)]
  rcases hentry : entries name with _ | o
  · rw [resolve_missing hd hkind hname hentry]
    rfl
  cases ho : fs.node o with
  | none =>
    obtain ⟨kind, uid, gid, mode, acl, fuse⟩ := n
    subst hkind
    rw [Platform.resolve]
    simp only [hd, if_neg (not_or.mpr ⟨hname.1, hname.2.1⟩), if_neg hname.2.2, hentry, ho]
    rfl
  | some m =>
    cases hm : m.kind with
    | link =>
      rw [resolve_link hd hkind hname hentry ho hm, if_pos ⟨rfl, rfl⟩]
      simp [bind, Except.bind, ho]
    | file | directory =>
      rw [resolve_entry hd hkind hname hentry ho (by simp [Node.isLink, hm]), if_pos rfl]
      simp [bind, Except.bind, ho]

end

end Resolve

/-! ## What the walk approves -/

/-- The names lead to `o` through a chain, or by one more entry of a trusted owner that is no
    link. -/
def Ends (x : Accounts) (trusted : Nat) (fs : FileSystem) (names : List String) (o : Inode) :
    Prop :=
  Chain x trusted fs names o ∨ ∃ init name d entries m, names = init ++ [name] ∧
    Chain x trusted fs init d ∧ Guarded x trusted fs d entries ∧ Normal name ∧
    entries name = some o ∧ fs.node o = some m ∧ trustedOwner m.uid trusted = true ∧
    m.isLink = false

theorem isLink_keeps {n n' : Node} (h : KindHeld x trusted fs n n') : n'.isLink = n.isLink := by
  unfold KindHeld at h
  split at h
  next parent entries hkind =>
    obtain ⟨parent', entries', hkind', -⟩ := h
    simp [Node.isLink, hkind, hkind']
  · simp [Node.isLink, h]

variable {names : List String} {o : Inode}

theorem Ends.keeps (h : Keeps x trusted fs fs')
    (hends : Ends x trusted fs names o) : Ends x trusted fs' names o := by
  rcases hends with hchain | ⟨init, name, d, entries, m, rfl, hchain, hguard, hname, hentry, hm, howner, hlink⟩
  · exact .inl (hchain.keeps h)
  obtain ⟨entries', hguard', hent⟩ := hguard.keeps h
  obtain ⟨m', hm', huid, -, -, -, hheld⟩ := h.held o m hm howner
  exact .inr ⟨init, name, d, entries', m', rfl, hchain.keeps h, hguard', hname,
    hent name o m hentry hm howner, hm', huid ▸ howner, (isLink_keeps hheld).trans hlink⟩

theorem Ends.resolve {follow : Bool} {links : Nat}
    (h : Ends x trusted fs names o) : Platform.resolve fs follow fs.root names links = .ok o := by
  rcases h with hchain | ⟨init, name, d, entries, m, rfl, hchain, hguard, hname, hentry, hm, -, hlink⟩
  · exact hchain.resolve
  obtain ⟨n, parent, hn, hdir, -⟩ := hguard
  rw [hchain.resolve_append _ (by simp), resolve_entry hn hdir hname hentry hm hlink, if_pos rfl]

/-- The names contain no `.`, `..` or link, and name `o`. -/
structure LinkFree (fs : FileSystem) (names : List String) (o : Inode) : Prop where
  normal : ∀ name ∈ names, Normal name
  unlinked : ∀ k ≤ names.length, ∃ i n, fs.resolvePath false (rootedPath (names.take k)) = .ok i ∧
    fs.node i = some n ∧ n.isLink = false
  names : fs.resolvePath false (rootedPath names) = .ok o

theorem Chain.take {d : Inode} (h : Chain x trusted fs names d) :
    ∀ k, ∃ d', Chain x trusted fs (names.take k) d' := by
  induction h with
  | root hguard =>
    intro k
    rw [List.take_nil]
    exact ⟨_, .root hguard⟩
  | @snoc names d o name _ _ hchain hguard hname hentry hinner ih =>
    intro k
    by_cases hk : k ≤ names.length
    · rw [List.take_append_of_le_length hk]
      exact ih k
    rw [List.take_of_length_le (by simp; omega)]
    exact ⟨o, .snoc hchain hguard hname hentry hinner⟩

theorem Chain.unlinked {d : Inode} (h : Chain x trusted fs names d)
    (k : Nat) : ∃ i n, fs.resolvePath false (rootedPath (names.take k)) = .ok i ∧
      fs.node i = some n ∧ n.isLink = false := by
  obtain ⟨d', hchain⟩ := h.take k
  obtain ⟨entries, n, parent, hn, hkind, -⟩ := hchain.guarded
  exact ⟨d', n, hchain.resolve, hn, isLink_of_directory hkind⟩

theorem Chain.linkFree {d : Inode} (h : Chain x trusted fs names d) : LinkFree fs names d :=
  ⟨h.normal, fun k _ => h.unlinked k, h.resolve⟩

theorem Ends.linkFree (h : Ends x trusted fs names o) : LinkFree fs names o := by
  have hnames : Platform.resolve fs false fs.root names 0 = .ok o := h.resolve
  rcases h with hchain | ⟨init, name, d, entries, m, rfl, hchain, -, hname, -, hm, -, hlink⟩
  · exact hchain.linkFree
  refine ⟨?_, fun k hk => ?_, hnames⟩
  · intro part hpart
    rcases List.mem_append.mp hpart with hpart | hpart
    · exact hchain.normal part hpart
    rw [List.mem_singleton.mp hpart]
    exact hname
  by_cases hle : k ≤ init.length
  · rw [List.take_append_of_le_length hle]
    exact hchain.unlinked k
  rw [List.take_of_length_le (by simp at hk ⊢; omega)]
  exact ⟨o, m, hnames, hm, hlink⟩

/-- What the walk's answer `r` says of resolving `pending` from `d`, in `fs` and in every file
    system that keeps what is trusted of it. -/
def Approved (x : Accounts) (trusted : Nat) (fs : FileSystem) (follow : Bool) (d : Inode)
    (pending : List String) (links : Nat) (r : TrustedPath) : Prop :=
  (r.found = true ∧ ∃ names o, r.resolved = rootedPath names ∧ Ends x trusted fs names o ∧
    ∀ fs', Keeps x trusted fs fs' → WellFormed fs' → resolve fs' follow d pending links = .ok o) ∨
  (r.found = false ∧ ∃ names c rest links', r.existing = rootedPath names ∧
    Chain x trusted fs names c ∧ resolve fs follow c rest links' = .error .noEntry ∧
    ∀ fs', Keeps x trusted fs fs' → WellFormed fs' →
      resolve fs' follow d pending links = resolve fs' follow c rest links')

theorem Approved.step {follow : Bool} {d d' : Inode} {pending pending' : List String}
    {links links' : Nat} (hstep : ∀ fs', Keeps x trusted fs fs' → WellFormed fs' →
      resolve fs' follow d pending links = resolve fs' follow d' pending' links')
    (h : Approved x trusted fs follow d' pending' links' r) :
    Approved x trusted fs follow d pending links r := by
  rcases h with ⟨hfound, names, o, hres, hends, hall⟩ | ⟨hfound, names, c, rest, k, hex, hchain, herr, hall⟩
  · exact .inl ⟨hfound, names, o, hres, hends,
      fun fs' hk hwf => (hstep fs' hk hwf).trans (hall fs' hk hwf)⟩
  exact .inr ⟨hfound, names, c, rest, k, hex, hchain, herr,
    fun fs' hk hwf => (hstep fs' hk hwf).trans (hall fs' hk hwf)⟩

theorem missing_approved {follow : Bool} {current rest : List String} {part : String}
    {links : Nat} {d : Inode} (hchain : Chain x trusted fs current d)
    (hgone : resolve fs follow d (part :: rest) links = .error .noEntry)
    (h : missing x fs path current part rest = .ok r) :
    Approved x trusted fs follow d (part :: rest) links r := by
  unfold missing at h
  split at h
  · cases h
  split at h
  · cases h
  cases h
  exact .inr ⟨rfl, current, d, part :: rest, links, rfl, hchain, hgone, fun _ _ _ => rfl⟩

theorem walk_approved (hwf : WellFormed fs) {follow : Bool} (current pending : List String)
    (links : Nat) {d : Inode} {k : Nat} (hchain : Chain x trusted fs current d)
    (h : walk x fs path trusted follow current pending links = (k, .ok r)) :
    Approved x trusted fs follow d pending links r := by
  rw [walk.eq_def] at h
  cases pending with
  | nil =>
    dsimp only at h
    split at h
    · cases h
    cases h
    refine .inl ⟨rfl, current, d, rfl, .inl hchain, fun fs' _ _ => ?_⟩
    rw [resolve]
  | cons part rest =>
    dsimp only at h
    split at h
    next hskip =>
      refine .step (fun fs' hk _ => ?_) (walk_approved hwf current rest links hchain h)
      obtain ⟨entries, n, parent, hn, hkind, -⟩ := (hchain.keeps hk).guarded
      exact resolve_skip hn hkind hskip
    rename_i hskip
    split at h
    next hup =>
      subst hup
      obtain ⟨n, up, entries, hn, hkind, hpar⟩ := hchain.parent hwf
      refine .step (fun fs' hk hwf' => ?_) (walk_approved hwf current.dropLast rest links hpar h)
      -- In `fs'` the chain's parent is the same directory.
      obtain ⟨n', up', entries', hn', hkind', hpar'⟩ := (hchain.keeps hk).parent hwf'
      have hsame : up' = up := by
        have h1 : resolve fs' false fs'.root current.dropLast 0 = .ok up' := hpar'.resolve
        have h2 : resolve fs' false fs'.root current.dropLast 0 = .ok up := (hpar.keeps hk).resolve
        exact Except.ok.inj (h1.symm.trans h2)
      rw [resolve_up hn' hkind', hsame]
    rename_i hup
    have hname : Normal part := ⟨(not_or.mp hskip).1, (not_or.mp hskip).2, hup⟩
    obtain ⟨entries, n, parent, hn, hkind, hpriv⟩ := hchain.guarded
    have hguard : Guarded x trusted fs d entries := ⟨n, parent, hn, hkind, hpriv⟩
    rw [hchain.lstat hn hkind hname] at h
    rcases hentry : entries part with _ | o
    · simp only [hentry, Prod.mk.injEq] at h
      exact missing_approved hchain (resolve_missing hn hkind hname hentry) h.2
    obtain ⟨m, hm⟩ := hwf.entered d n parent entries part o hn hkind hentry
    simp only [hentry, hm] at h
    split at h
    · cases h
    rename_i howner
    simp only [Bool.not_eq_false] at howner
    -- The entry, in every file system that keeps what is trusted.
    have hkept : ∀ fs', Keeps x trusted fs fs' → ∃ n' parent' entries' m',
        fs'.node d = some n' ∧ n'.kind = .directory parent' entries' ∧
        entries' part = some o ∧ fs'.node o = some m' ∧ KindHeld x trusted fs m m' := by
      intro fs' hk
      obtain ⟨entries', ⟨n', parent', hn', hkind', -⟩, hent⟩ := hguard.keeps hk
      obtain ⟨m', hm', -, -, -, -, hheld⟩ := hk.held o m hm howner
      exact ⟨n', parent', entries', m', hn', hkind', hent part o m hentry hm howner, hm', hheld⟩
    have hlast : rest = [] → m.isLink = false → k = links →
        r = { resolved := rootedPath (current ++ [part]), found := true,
              existing := rootedPath (current ++ [part]), status := m } →
        Approved x trusted fs follow d (part :: rest) links r := by
      rintro rfl hlink - rfl
      refine .inl ⟨rfl, current ++ [part], o, rfl, .inr ⟨current, part, d, entries, m, rfl,
        hchain, hguard, hname, hentry, hm, howner, hlink⟩, fun fs' hk _ => ?_⟩
      obtain ⟨n', parent', entries', m', hn', hkind', hentry', hm', hheld⟩ := hkept fs' hk
      rw [resolve_entry hn' hkind' hname hentry' hm' ((isLink_keeps hheld).trans hlink), if_pos rfl]
    split at h
    · cases h
    cases hmkind : m.kind with
    | link target bytes =>
      simp only [hmkind] at h
      split at h
      · cases h
      rename_i hfol
      split at h
      next hlinks =>
        split at h
        · cases h
        -- Followed: to the root for a rooted target, else from here.
        have hturn : ∀ fs', Keeps x trusted fs fs' → WellFormed fs' →
            resolve fs' follow d (part :: rest) links = resolve fs' follow
              (if target.rooted then fs.root else d) (target.parts ++ rest)
              (links + 1) := by
          intro fs' hk _
          obtain ⟨n', parent', entries', m', hn', hkind', hentry', hm', hheld⟩ := hkept fs' hk
          unfold KindHeld at hheld
          rw [hmkind] at hheld
          rw [resolve_link hn' hkind' hname hentry' hm' hheld, if_neg hfol, if_pos hlinks, hk.root]
        refine .step hturn (walk_approved hwf _ _ _ ?_ h)
        split
        · exact hchain.atRoot
        · exact hchain
      · cases h
    | file =>
      simp only [hmkind] at h
      split at h
      next hrest =>
        simp only [Prod.mk.injEq, Except.ok.injEq] at h
        exact hlast hrest (by simp [Node.isLink, hmkind]) h.1.symm h.2.symm
      · cases h
    | directory up inner =>
      simp only [hmkind] at h
      split at h
      next hrest =>
        simp only [Prod.mk.injEq, Except.ok.injEq] at h
        exact hlast hrest (by simp [Node.isLink, hmkind]) h.1.symm h.2.symm
      rename_i hrest
      split at h
      · cases h
      rename_i hopen
      have hinner : Guarded x trusted fs o inner := by
        refine ⟨m, up, hm, hmkind, howner, fun hwrite => ?_⟩
        simpa [hwrite] using hopen
      refine .step (fun fs' hk _ => ?_) (walk_approved hwf _ rest links
        (.snoc hchain hguard hname hentry hinner) h)
      obtain ⟨n', parent', entries', m', hn', hkind', hentry', hm', hheld⟩ := hkept fs' hk
      rw [resolve_entry hn' hkind' hname hentry' hm'
        ((isLink_keeps hheld).trans (isLink_of_directory hmkind)), if_neg hrest]
termination_by (kLinkLimit - links, pending.length)

theorem walk_links {follow : Bool} (current pending : List String) (links : Nat)
    (h : links ≤ kLinkLimit) :
    (walk x fs path trusted follow current pending links).1 ≤ kLinkLimit := by
  rw [walk.eq_def]
  rcases pending with _ | ⟨part, rest⟩
  · dsimp only
    split <;> exact h
  dsimp only
  split
  · exact walk_links current rest links h
  split
  · exact walk_links current.dropLast rest links h
  split
  · exact h
  · exact h
  split
  · exact h
  split
  · exact h
  split
  · split
    · exact h
    split
    next hlinks =>
      split
      · exact hlinks
      · exact walk_links _ _ (links + 1) hlinks
    · exact h
  · split <;> exact h
  split
  · exact h
  split
  · exact h
  · exact walk_links _ rest links h
termination_by (kLinkLimit - links, pending.length)

/-- **An approved path cannot be re-pointed by other users.** The walk follows at most 40 links.
    A path it approves as existing has a link-free `resolved` that names what the kernel
    resolves the path to, and both name it after any untrusted operations; of one that does not
    exist, the existing directory has that, and the path still leads through it. -/
theorem walkTrusted_safe (hwf : WellFormed fs) (path : Path) (finalLinkOk : Bool) :
    (walkTrusted x fs path trusted finalLinkOk).1 ≤ kLinkLimit ∧
    ∀ r, (walkTrusted x fs path trusted finalLinkOk).2 = .ok r →
      (r.found = true → ∃ names o, r.resolved = rootedPath names ∧ LinkFree fs names o ∧
        fs.resolvePath finalLinkOk path = .ok o ∧
        ∀ fs', Tampering x trusted fs fs' → fs'.resolvePath finalLinkOk path = .ok o ∧
          ∀ follow, fs'.resolvePath follow r.resolved = .ok o) ∧
      (r.found = false → ∃ names c rest links, r.existing = rootedPath names ∧
        LinkFree fs names c ∧ fs.resolvePath finalLinkOk path = .error .noEntry ∧
        ∀ fs', Tampering x trusted fs fs' →
          fs'.resolvePath finalLinkOk path = resolve fs' finalLinkOk c rest links ∧
          ∀ follow, fs'.resolvePath follow r.existing = .ok c) := by
  unfold walkTrusted
  split
  · exact ⟨Nat.zero_le _, fun r hr => by cases hr⟩
  obtain ⟨n, entries, hn, hkind⟩ := hwf.root
  have hlstat : fs.lstat (rootedPath []) = .ok n := by
    simp [FileSystem.lstat, FileSystem.resolvePath, rootedPath, resolve, hn, bind, Except.bind]
  simp only [hlstat]
  split
  · exact ⟨Nat.zero_le _, fun r hr => by cases hr⟩
  rename_i hjud
  simp only [not_or, Bool.not_eq_false, Bool.not_eq_true] at hjud
  refine ⟨walk_links [] path.parts 0 (Nat.zero_le _), fun r hr => ?_⟩
  have hroot : Chain x trusted fs [] fs.root := by
    refine .root ⟨n, fs.root, hn, hkind, hjud.1, fun hwrite => ?_⟩
    simpa [hwrite] using hjud.2
  have happ := walk_approved hwf [] path.parts 0 hroot (Prod.ext rfl hr)
  rcases happ with ⟨hfound, names, o, hres, hends, hall⟩ |
    ⟨hfound, names, c, rest, links, hex, hchain, herr, hall⟩
  · refine ⟨fun _ => ⟨names, o, hres, hends.linkFree, hall fs (.refl fs) hwf, ?_⟩,
      fun hno => (by simp [hfound] at hno)⟩
    intro fs' ht
    have hk := Keeps.tampering ht
    refine ⟨?_, fun follow => ?_⟩
    · rw [FileSystem.resolvePath, hk.root]
      exact hall fs' hk (hwf.tampering ht)
    rw [hres]
    exact (hends.keeps hk).resolve
  refine ⟨fun hyes => (by simp [hfound] at hyes), fun _ => ⟨names, c, rest, links, hex,
    hchain.linkFree, (hall fs (.refl fs) hwf).trans herr, ?_⟩⟩
  intro fs' ht
  have hk := Keeps.tampering ht
  refine ⟨?_, fun follow => ?_⟩
  · rw [FileSystem.resolvePath, hk.root]
    exact hall fs' hk (hwf.tampering ht)
  rw [hex]
  exact (hchain.keeps hk).resolve

def sharedRoot : FileSystem where
  root := 0
  node
    | 0 => some { kind := .directory 0 (fun name => if name = "f" then some 1 else none), uid := 0,
                  gid := 0, mode := 0o1777, acl := false, fuse := false }
    | 1 => some { kind := .file, uid := 1000, gid := 1000, mode := 0o644, acl := false,
                  fuse := false }
    | _ => none

theorem sharedRoot_wellFormed : WellFormed sharedRoot := by
  refine ⟨⟨_, _, rfl, rfl⟩, ?_, ?_⟩
  · intro d n parent entries name o m up inner hd hkind hentry ho hinner
    match d with
    | 0 =>
      cases hd
      cases hkind
      dsimp only at hentry
      split at hentry <;> cases hentry
      cases ho
      cases hinner
    | 1 =>
      cases hd
      cases hkind
    | _ + 2 => cases hd
  intro d n parent entries name o hd hkind hentry
  match d with
  | 0 =>
    cases hd
    cases hkind
    dsimp only at hentry
    split at hentry <;> cases hentry
    exact ⟨_, rfl⟩
  | 1 =>
    cases hd
    cases hkind
  | _ + 2 => cases hd

def plainAccounts : Accounts := { privateGroup := fun _ _ => false, strerror := fun _ => "" }

/-- A file of the trusted user's in a sticky directory others can write is approved, and stays
    where it is. -/
theorem walkTrusted_safe_sharedRoot : ∃ r names o,
    (walkTrusted plainAccounts sharedRoot (rootedPath ["f"]) 1000 false).2 = .ok r ∧
      r.found = true ∧ r.resolved = rootedPath names ∧ LinkFree sharedRoot names o ∧
      ∀ fs', Tampering plainAccounts 1000 sharedRoot fs' →
        fs'.resolvePath false (rootedPath ["f"]) = .ok o := by
  have hwalk : ∃ r, (walkTrusted plainAccounts sharedRoot (rootedPath ["f"]) 1000 false).2 = .ok r ∧
      r.found = true := by
    have hsticky : Nat.testBit 1023 9 = true := by decide
    simp [walkTrusted, walk.eq_def, FileSystem.lstat, FileSystem.resolvePath, resolve, rootedPath,
      sharedRoot, bind, Except.bind, trustedOwner, othersCanWrite, Node.otherWrite, Node.sticky,
      Node.isLink, hsticky]
  obtain ⟨r, hr, hfound⟩ := hwalk
  obtain ⟨names, o, hres, hfree, -, hall⟩ :=
    ((walkTrusted_safe sharedRoot_wellFormed (rootedPath ["f"]) false).2 r hr).1 hfound
  exact ⟨r, names, o, hr, hfound, hres, hfree, fun fs' ht => (hall fs' ht).1⟩

end JitLlm.Platform
