import Mathlib.Algebra.Ring.Int.Defs
import JitLlm.Lib.Sat

/-!
# `artifact/schema.h` — the shared checks on a parsed document

The manifest's and the index's documents are checked with the same few helpers: an object
with exactly these keys, an integer between these bounds, a string of this pattern, a list
of at least so many. Each answers `Except Error`, with the rule broken, the source's own text
and the item it was found at.

A value is a tree here, where the source has a handle into the document's nodes; what a
handle can be asked (`find`, `size`, `at`, `integer`, `string`) is what is defined below.
-/

namespace JitLlm.Artifact

/-- `Rule`: what a refused artifact broke. -/
inductive Rule
  | io
  | format
  | unsupportedVersion
  | unsupportedProfile
  | json
  | canonical
  | schema
  | identity
  | fileType
  | fileSet
  | path
  | fileSize
  | hash
  | bounds
  | alignment
  | overlap
  | repr
  | expertArray
  | container
  | untrusted
  | state
deriving DecidableEq

def noItem : Nat := 2 ^ 64 - 1

structure Error where
  rule : Rule
  reason : String
  item : Nat
deriving DecidableEq

/-- A check: `Fail(rule, reason, item)` unless the condition holds. -/
def require (c : Prop) [Decidable c] (rule : Rule) (reason : String) (item : Nat) :
    Except Error Unit :=
  if c then .ok () else .error ⟨rule, reason, item⟩

theorem require_ok {c : Prop} [Decidable c] {rule : Rule} {reason : String} {item : Nat} {u : Unit}
    (h : require c rule reason item = .ok u) : c := by
  unfold require at h
  split at h
  · assumption
  · cases h

/-! ## Values -/

inductive Value
  | null
  | boolean (b : Bool)
  | integer (n : Int)
  | string (s : String)
  | array (items : List Value)
  | object (members : List (String × Value))

namespace Value

def items : Value → List Value
  | array vs => vs
  | _ => []

def members : Value → List (String × Value)
  | object ms => ms
  | _ => []

/-- `Value::size`: the elements of an array or the members of an object. -/
def size : Value → Nat
  | array vs => vs.length
  | object ms => ms.length
  | _ => 0

def find (v : Value) (name : String) : Option Value :=
  (v.members.find? fun m => m.1 = name).map Prod.snd

def isArray : Value → Bool
  | array _ => true
  | _ => false

def isObject : Value → Bool
  | object _ => true
  | _ => false

def isNull : Value → Bool
  | null => true
  | _ => false

def string? : Value → Option String
  | string s => some s
  | _ => none

/-- `Value::integer`: an integer that fits in 64 signed bits. -/
def integer? : Value → Option Int
  | integer n => if -2 ^ 63 ≤ n ∧ n < 2 ^ 63 then some n else none
  | _ => none

theorem items_length_le (v : Value) : v.items.length ≤ v.size := by
  cases v <;> simp [items, size]

end Value

/-! ## The helpers -/

def maxInt : Int := 2 ^ 63 - 1

/-- `schema::Object`: an object with every required key and no other but the optional ones. -/
def checkObject (v : Value) (required optional : List String) (reason : String) (item : Nat) :
    Except Error Unit := do
  require (v.isObject = true) .schema reason item
  require (∀ m ∈ v.members, m.1 ∈ required ∨ m.1 ∈ optional) .schema reason item
  require (∀ k ∈ required, (v.find k).isSome) .schema reason item

/-- `schema::Get`. The object was checked for the key first, so the source's fatal branch, a
required member that is missing, is never taken; `null` stands for it here. -/
def get (v : Value) (key : String) : Value := (v.find key).getD .null

/-- `schema::Int`. No caller passes a negative bound below, so the cast to 64 unsigned bits
keeps the value. -/
def checkInt (v : Value) (lo hi : Int) (reason : String) (item : Nat) : Except Error Nat :=
  match v.integer? with
  | some n => if n < lo ∨ n > hi then .error ⟨.schema, reason, item⟩ else .ok n.toNat
  | none => .error ⟨.schema, reason, item⟩

theorem checkInt_ok {v : Value} {lo hi : Int} {reason : String} {item n : Nat} (hlo : 0 ≤ lo)
    (h : checkInt v lo hi reason item = .ok n) : lo ≤ n ∧ (n : Int) ≤ hi := by
  unfold checkInt at h
  split at h
  · split at h
    · cases h
    cases h
    omega
  · cases h

def isInt (v : Value) (want : Int) : Bool := v.integer? == some want

def isString (v : Value) (want : String) : Bool := v.string? == some want

/-- `schema::List`. -/
def checkList (v : Value) (min : Nat) (reason : String) (item : Nat) : Except Error Unit :=
  require (v.isArray = true ∧ min ≤ v.size) .schema reason item

/-- `schema::Str`. -/
def checkStr (v : Value) (pattern : String → Bool) (reason : String) (item : Nat) :
    Except Error String :=
  match v.string? with
  | some s => if pattern s then .ok s else .error ⟨.schema, reason, item⟩
  | none => .error ⟨.schema, reason, item⟩

/-! ## Patterns -/

def isDigit (c : Char) : Bool := c ≥ '0' && c ≤ '9'

def isAlnumUnderscore (c : Char) : Bool :=
  (c ≥ 'A' && c ≤ 'Z') || (c ≥ 'a' && c ≤ 'z') || (c ≥ '0' && c ≤ '9') || c == '_'

/-- `IsName`: `[A-Za-z0-9_][A-Za-z0-9_.-]{0,199}`. -/
def isName (s : String) : Bool :=
  match s.toList with
  | [] => false
  | c :: rest =>
    s.utf8ByteSize ≤ 200 && isAlnumUnderscore c &&
      rest.all fun c => isAlnumUnderscore c || c == '.' || c == '-'

def isHex (s : String) : Bool :=
  s.utf8ByteSize == 64 && s.toList.all fun c => isDigit c || (c ≥ 'a' && c ≤ 'f')

/-- `IsShardPath`: `data/NNNNN.safetensors`. -/
def isShardPath (s : String) : Bool :=
  s.utf8ByteSize == 22 && s.toList.take 5 == "data/".toList &&
    s.toList.drop 10 == ".safetensors".toList && ((s.toList.drop 5).take 5).all isDigit

/-! ## Loops over a list's items -/

section Walk

variable {σ : Type} {f : σ → Value → Nat → Except Error σ}

/-- `for (i = 0; i < items.size(); ++i)`, from item `i` on, stopping at the first error. -/
def walk (f : σ → Value → Nat → Except Error σ) (s : σ) (i : Nat) : List Value → Except Error σ
  | [] => .ok s
  | v :: vs => do
    let s ← f s v i
    walk f s (i + 1) vs

theorem walk_keeps {P : σ → Prop} (step : ∀ s v i s', f s v i = .ok s' → P s → P s') :
    ∀ {vs : List Value} {s s' : σ} {i : Nat}, walk f s i vs = .ok s' → P s → P s'
  | [], _, _, _, h, hp => by
    cases h
    exact hp
  | v :: vs, s, s', i, h, hp => by
    obtain ⟨s1, hv, hvs⟩ := Lib.bind_ok h
    exact walk_keeps step hvs (step s v i s1 hv hp)

theorem walk_length {count : σ → Nat}
    (step : ∀ s v i s', f s v i = .ok s' → count s' = count s + 1) :
    ∀ {vs : List Value} {s s' : σ} {i : Nat}, walk f s i vs = .ok s' →
      count s' = count s + vs.length
  | [], _, _, _, h => by
    cases h
    rfl
  | v :: vs, s, s', i, h => by
    obtain ⟨s1, hv, hvs⟩ := Lib.bind_ok h
    rw [walk_length step hvs, step s v i s1 hv, List.length_cons]
    omega

end Walk
end JitLlm.Artifact
