import LiveOrder.Store.Chain

/-!
# Entry stores

A chain of entries with an index from tokens to live entries.  An entry is found by the hash of a
token first, which was computed once when the entry was made, and by the token itself second.

* `Store.upsert`    a new entry, or a new value for the entry of an equal key;
* `Store.remove`, `Store.clear`   entries taken out, and what could be freed at once;
* `Store.find`, `contains`, `lookup`   by key;
* `Store.key?`, `value?`, `modifyValue?`   by handle, while the entry is live;
* `Store.advance`, `unpin`, `pinned`   for cursors.

A handle is the serial of an insertion.
-/

namespace LiveOrder

structure Store (ν : Type) where
  hasher : Token → UInt64
  /-- the live entries, each once -/
  index : List Nat
  chain : Chain ν

/-- What became of a key and a value. -/
inductive Upsert (ν : Type) where
  | inserted (s : Nat)
  /-- the key was there: its value was replaced, and the new key and the old value come back -/
  | updated (s : Nat) (key : Key) (previous : ν)

namespace Upsert

variable {ν : Type}

def handle : Upsert ν → Nat
  | .inserted s => s
  | .updated s _ _ => s

def isInserted : Upsert ν → Bool
  | .inserted _ => true
  | .updated .. => false

end Upsert

namespace Store

variable {ν : Type}

def withHasher (hasher : Token → UInt64) : Store ν := ⟨hasher, [], .empty⟩

def empty : Store ν := withHasher Token.digest

def len (t : Store ν) : Nat := t.chain.len

def isEmpty (t : Store ν) : Bool := t.chain.len = 0

def tombstones (t : Store ν) : Except Fault Nat := t.chain.tombstones

/-! ## by key -/

/-- The first of the given slots with this hash and this token. -/
def findAmong (c : Chain ν) (hash : UInt64) (token : Token) :
    List Nat → Except Fault (Option Nat)
  | [] => pure none
  | s :: rest => do
    let x ← c.slot s
    if x.hash = hash ∧ x.key.token = token then pure (some s)
    else findAmong c hash token rest

def findToken (t : Store ν) (token : Token) : Except Fault (Option Nat) :=
  findAmong t.chain (t.hasher token) token t.index

def find (t : Store ν) (key : Key) : Except Fault (Option Nat) := t.findToken key.token

def contains (t : Store ν) (key : Key) : Except Fault Bool := do
  pure (← t.find key).isSome

/-- Key and value of the live entry of an equal key. -/
def lookup (t : Store ν) (key : Key) : Except Fault (Option (Key × ν)) := do
  match ← t.find key with
  | none => pure none
  | some s => do
    let x ← t.chain.slot s
    pure (some (x.key, x.value))

/-- A key that is there keeps its entry, its place and its first form, and has its value replaced;
a new key is put at the end. -/
def upsert (t : Store ν) (key : Key) (value : ν) : Except Fault (Upsert ν × Store ν) := do
  match ← t.find key with
  | some s => do
    let x ← t.chain.slot s
    let chain ← t.chain.update s fun x => { x with value := value }
    pure (.updated s key x.value, { t with chain := chain })
  | none => do
    let (s, chain) ← t.chain.link key value (t.hasher key.token)
    pure (.inserted s, { t with chain := chain, index := s :: t.index })

/-- None when there was no such entry; else what the removal freed, which is nothing while a
cursor needs the entry. -/
def remove (t : Store ν) (key : Key) : Except Fault (Option (Freed ν) × Store ν) := do
  match ← t.find key with
  | none => pure (none, t)
  | some s => do
    let (chain, freed) ← t.chain.remove s
    pure (some freed, { t with chain := chain, index := t.index.filter (· ≠ s) })

def clear (t : Store ν) : Except Fault (Freed ν × Store ν) := do
  let (chain, freed) ← t.chain.clear
  pure (freed, { t with chain := chain, index := [] })

/-- The live entries in order of insertion. -/
def entries (t : Store ν) : Except Fault (List (Key × ν)) := t.chain.entries

/-! ## by handle -/

def key? (t : Store ν) (s : Nat) : Option Key := (t.chain.live? s).map (·.key)

def value? (t : Store ν) (s : Nat) : Option ν := (t.chain.live? s).map (·.value)

/-- The new value and the store with it, for a live entry. -/
def modifyValue? (t : Store ν) (s : Nat) (f : ν → ν) : Option (ν × Store ν) :=
  (t.chain.live? s).map fun x =>
    (f x.value,
      { t with chain := { t.chain with
          arena := t.chain.arena.modify s fun x => { x with value := f x.value } } })

/-! ## for cursors -/

/-- Moves a cursor on; the entry it comes to is pinned, the one it leaves is not. -/
def advance (t : Store ν) (at? : Option Nat) :
    Except Fault (Option Nat × Freed ν × Store ν) := do
  let (next, chain, freed) ← t.chain.step at?
  pure (next, freed, { t with chain := chain })

def unpin (t : Store ν) (s : Nat) : Except Fault (Freed ν × Store ν) := do
  let (chain, freed) ← t.chain.release s
  pure (freed, { t with chain := chain })

/-- Key and value of a pinned entry, live or not. -/
def pinned (t : Store ν) (s : Nat) : Except Fault (Key × ν) := do
  let x ← t.chain.pinned s
  pure (x.key, x.value)

/-- Everything that is still held, in the order in which a store goes away. -/
def contents (t : Store ν) : List (Key × ν) :=
  t.chain.arena.byPlace.map fun c => (c.item.key, c.item.value)

end Store

end LiveOrder
