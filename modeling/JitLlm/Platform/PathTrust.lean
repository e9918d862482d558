import Mathlib.Algebra.GroupWithZero.Nat
import Mathlib.Data.List.Basic
import Mathlib.Data.Nat.Bits

/-!
# `platform/path_trust.cc` — whether a path is safe from other users

A file system of directories, files and symbolic links, each with an owner, a group and a mode;
the kernel's resolution of a path in it; and `WalkTrusted`, which resolves a path itself and
judges every directory it passes and every entry it takes.

A path is `std::filesystem::path`'s own reading of its text: whether it is rooted, and its
components, a trailing slash being an empty last one. What the source asks of the account
database (`PrivateGroup`) and of `strerror` is a parameter.
-/

namespace JitLlm.Platform

structure Path where
  rooted : Bool
  parts : List String
deriving DecidableEq

def Path.string (path : Path) : String :=
  (if path.rooted then "/" else "") ++ "/".intercalate path.parts

def rootedPath (names : List String) : Path := { rooted := true, parts := names }

abbrev Inode := Nat

/-- What an object is; a directory knows its parent, as `..` reads it, and a link the bytes of
    its target. -/
inductive Kind
  | directory (parent : Inode) (entries : String → Option Inode)
  | file
  | link (target : Path) (bytes : Nat)

/-- An object, with what `lstat`, `statfs` and `lgetxattr` say of it. -/
structure Node where
  kind : Kind
  uid : Nat
  gid : Nat
  mode : Nat
  acl : Bool
  fuse : Bool

def Node.isLink (n : Node) : Bool :=
  match n.kind with
  | .link _ _ => true
  | _ => false

def Node.isDirectory (n : Node) : Bool :=
  match n.kind with
  | .directory _ _ => true
  | _ => false

/-- `S_IWOTH`, `S_IWGRP` and `S_ISVTX` of the mode. -/
def Node.otherWrite (n : Node) : Bool := n.mode.testBit 1
def Node.groupWrite (n : Node) : Bool := n.mode.testBit 4
def Node.sticky (n : Node) : Bool := n.mode.testBit 9

structure FileSystem where
  root : Inode
  node : Inode → Option Node

/-! ## The kernel's resolution -/

inductive Errno
  | noEntry | notDirectory | loop
deriving DecidableEq

/-- `kLinkLimit`, the kernel's own. -/
def kLinkLimit : Nat := 40

/-- The kernel's walk: from the directory `cur`, the components `pending`, with `links`
    followed so far. A link is followed unless it is the last component and `follow` is
    false. -/
def resolve (fs : FileSystem) (follow : Bool) (cur : Inode) (pending : List String) (links : Nat) :
    Except Errno Inode :=
  match pending with
  | [] => .ok cur
  | part :: rest =>
    match fs.node cur with
    | some { kind := .directory parent entries, .. } =>
      if part = "" ∨ part = "." then resolve fs follow cur rest links
      else if part = ".." then resolve fs follow parent rest links
      else
        match entries part with
        | none => .error .noEntry
        | some next =>
          match fs.node next with
          | none => .error .noEntry
          | some n =>
            match n.kind with
            | .link target _ =>
              if rest = [] ∧ follow = false then .ok next
              else if hlinks : links < kLinkLimit then
                resolve fs follow (if target.rooted then fs.root else cur) (target.parts ++ rest)
                  (links + 1)
              else .error .loop
            | _ => if rest = [] then .ok next else resolve fs follow next rest links
    | _ => .error .notDirectory
termination_by (kLinkLimit - links, pending.length)

def FileSystem.resolvePath (fs : FileSystem) (follow : Bool) (path : Path) : Except Errno Inode :=
  resolve fs follow fs.root path.parts 0

def FileSystem.lstat (fs : FileSystem) (path : Path) : Except Errno Node := do
  let at_ ← fs.resolvePath false path
  match fs.node at_ with
  | some n => .ok n
  | none => .error .noEntry

def FileSystem.stat (fs : FileSystem) (path : Path) : Except Errno Node := do
  let at_ ← fs.resolvePath true path
  match fs.node at_ with
  | some n => .ok n
  | none => .error .noEntry

/-! ## The source -/

structure Accounts where
  privateGroup : Nat → Nat → Bool
  strerror : Errno → String

def trustedOwner (owner trusted : Nat) : Bool := owner == 0 || owner == trusted

/-- `OthersWrite`, and `OthersCanWrite` with the object's own ACL: an ACL's mask is what the
    group bits show. -/
def othersCanWrite (x : Accounts) (status : Node) (trusted : Nat) : Bool :=
  if status.otherWrite then true
  else if status.groupWrite = false then false
  else !x.privateGroup status.gid trusted || status.acl

def ownerText (trusted : Nat) : String :=
  if trusted = 0 then "root" else s!"root and uid {trusted}"

def octalMode (mode : Nat) : String :=
  let digits := Nat.toDigits 8 (mode % 4096)
  String.ofList (List.replicate (4 - digits.length) '0' ++ digits)

structure TrustedPath where
  resolved : Path
  found : Bool  -- `exists`
  existing : Path
  status : Node

/-- The `untrusted` of `WalkTrusted`. -/
def untrusted (path : Path) (names : List String) (why : String) : String :=
  if rootedPath names = path then why else (rootedPath names).string ++ " " ++ why

/-- `lexically_normal` of names and a tail without `..`: a tail that ends in `.` or a slash
    keeps its slash. -/
def lexicallyNormal (names tail : List String) : Path :=
  let kept := names ++ tail.filter (fun part => part ≠ "" ∧ part ≠ ".")
  rootedPath (if tail.getLast? = some "" ∨ tail.getLast? = some "." then kept ++ [""] else kept)

/-- The answer where `next` does not exist. -/
def missing (x : Accounts) (fs : FileSystem) (path : Path) (current : List String) (part : String)
    (pending : List String) : Except String TrustedPath :=
  if ".." ∈ pending then
    .error (untrusted path (current ++ [part])
      "does not exist, and the path goes on to '..' from inside it")
  else
    match fs.stat (rootedPath current) with
    | .error e => .error (untrusted path current ("cannot be examined: " ++ x.strerror e))
    | .ok parent =>
      .ok { resolved := lexicallyNormal (current ++ [part]) pending
            found := false
            existing := rootedPath current
            status := parent }

/-- The loop of `WalkTrusted`: the links it followed, and its answer. -/
def walk (x : Accounts) (fs : FileSystem) (path : Path) (trusted : Nat) (finalLinkOk : Bool)
    (current pending : List String) (links : Nat) : Nat × Except String TrustedPath :=
  match pending with
  | [] =>
    match fs.lstat (rootedPath current) with
    | .error e => (links, .error (untrusted path current ("cannot be examined: " ++ x.strerror e)))
    | .ok status =>
      (links, .ok { resolved := rootedPath current, found := true,
                    existing := rootedPath current, status })
  | part :: rest =>
    if part = "" ∨ part = "." then walk x fs path trusted finalLinkOk current rest links
    else if part = ".." then
      -- Every directory above `current` was walked on the way down.
      walk x fs path trusted finalLinkOk current.dropLast rest links
    else
      let next := current ++ [part]
      match fs.lstat (rootedPath next) with
      | .error .noEntry => (links, missing x fs path current part rest)
      | .error e => (links, .error (untrusted path next ("cannot be examined: " ++ x.strerror e)))
      | .ok status =>
        if trustedOwner status.uid trusted = false then
          (links, .error (untrusted path next
            s!"is owned by uid {status.uid}, not {ownerText trusted}"))
        else if status.isLink = false ∧ status.fuse = true then
          (links, .error (untrusted path next
            "is on a FUSE filesystem, which reports whatever owner its mounter likes"))
        else
          match status.kind with
          | .link target bytes =>
            if rest = [] ∧ finalLinkOk = false then
              (links, .error (untrusted path next "is a symbolic link"))
            else if hlinks : links < kLinkLimit then
              if bytes ≥ 4096 then
                (links + 1, .error (untrusted path next "is a symbolic link that cannot be read"))
              else
                walk x fs path trusted finalLinkOk (if target.rooted then [] else current)
                  (target.parts ++ rest) (links + 1)
            else (links, .error (untrusted path next "is reached through too many symbolic links"))
          | .file =>
            if rest = [] then
              (links, .ok { resolved := rootedPath next, found := true,
                            existing := rootedPath next, status })
            else (links, .error (untrusted path next "is not a directory"))
          | .directory _ _ =>
            if rest = [] then
              (links, .ok { resolved := rootedPath next, found := true,
                            existing := rootedPath next, status })
            else if othersCanWrite x status trusted && !status.sticky then
              (links, .error (untrusted path next
                (s!"can be changed by users other than {ownerText trusted} " ++
                  s!"(mode {octalMode status.mode})")))
            else walk x fs path trusted finalLinkOk next rest links
termination_by (kLinkLimit - links, pending.length)

/-- `WalkTrusted`, with the links it followed. -/
def walkTrusted (x : Accounts) (fs : FileSystem) (path : Path) (trusted : Nat)
    (finalLinkOk : Bool) : Nat × Except String TrustedPath :=
  if path.rooted = false then (0, .error (path.string ++ " is not an absolute path"))
  else
    match fs.lstat (rootedPath []) with
    | .error e => (0, .error (untrusted path [] ("cannot be examined: " ++ x.strerror e)))
    | .ok status =>
      -- "/" is judged like any directory.
      if trustedOwner status.uid trusted = false ∨
          (othersCanWrite x status trusted && !status.sticky) = true then
        (0, .error (untrusted path [] (s!"is not owned by {ownerText trusted} and private " ++
          s!"(uid {status.uid}, mode {octalMode status.mode})")))
      else walk x fs path trusted finalLinkOk [] path.parts 0

end JitLlm.Platform
