import LiveOrder.Key
import LiveOrder.Notice
import LiveOrder.Store.Arena

/-!
# The chain of entries

Entries live in an arena and form a doubly linked chain in order of insertion.  Removing an entry
takes it out of the chain but may keep its slot: a removed entry keeps its link to the entry before
it, so that a cursor parked on it can walk back to a live one and go on from there.  Each slot
counts its references: the cursors parked on it, and the removed entries whose backward link names
it.  A removed slot is freed when its count falls to zero, which gives up its own backward link.

* `Chain.link`         a new entry at the end;
* `Chain.remove`       one entry taken out;
* `Chain.clear`        all entries taken out, and their backward links cut;
* `Chain.step`         a cursor moved to the first live entry after its own, pins moved with it;
* `Chain.release`      a pin given up;
* `Chain.reclaim`      a removed slot freed, and every one before it that it was the last to hold.

An operation that would follow a link to a slot that is gone, or take a count below zero, ends in
a `Fault`; freed pairs are handed back, never released in place.
-/

namespace LiveOrder

/-- What would be an internal failure of a store, or of the guard around it. -/
inductive Fault where
  /-- a link or a handle names a slot that is gone -/
  | missing (s : Nat)
  /-- a count would fall below zero -/
  | underflow
  /-- a pin is given up that nobody holds -/
  | unreferenced (s : Nat)
  /-- a slot is freed that is live or referenced -/
  | stillHeld (s : Nat)
  /-- an entry is read through a pin that nobody holds -/
  | unpinned (s : Nat)
  /-- a walk along links does not end -/
  | endless
  /-- a guard is given up that is not set -/
  | unguarded
  deriving DecidableEq, Repr

/-- An entry, live or removed. -/
structure Slot (ν : Type) where
  key : Key
  value : ν
  hash : UInt64
  prev : Option Nat
  next : Option Nat
  removed : Bool
  /-- cursors parked here, and removed entries whose `prev` is this slot -/
  refs : Nat

structure Chain (ν : Type) where
  arena : Arena (Slot ν)
  head : Option Nat
  tail : Option Nat
  /-- the number of live entries -/
  len : Nat

/-- Pairs freed by an operation, and what it reports. -/
structure Freed (ν : Type) where
  pairs : List (Key × ν) := []
  notices : List Notice := []

namespace Freed

variable {ν : Type}

def append (a b : Freed ν) : Freed ν := ⟨a.pairs ++ b.pairs, a.notices ++ b.notices⟩

instance : Append (Freed ν) := ⟨append⟩

end Freed

namespace Chain

variable {ν : Type}

def empty : Chain ν := ⟨.empty, none, none, 0⟩

/-! ## slots -/

def slot (c : Chain ν) (s : Nat) : Except Fault (Slot ν) :=
  match c.arena.get? s with
  | some x => .ok x
  | none => .error (.missing s)

def update (c : Chain ν) (s : Nat) (f : Slot ν → Slot ν) : Except Fault (Chain ν) := do
  let _ ← c.slot s
  pure { c with arena := c.arena.modify s f }

/-- The slot of a live entry. -/
def live? (c : Chain ν) (s : Nat) : Option (Slot ν) :=
  (c.arena.get? s).filter fun x => !x.removed

/-- The number of removed entries whose slots are still held. -/
def tombstones (c : Chain ν) : Except Fault Nat :=
  if c.arena.size < c.len then .error .underflow else .ok (c.arena.size - c.len)

theorem slot_eq_ok_iff {c : Chain ν} {s : Nat} {x : Slot ν} :
    c.slot s = .ok x ↔ c.arena.get? s = some x := by
  unfold slot
  cases c.arena.get? s <;> simp

theorem update_eq_ok_iff {c d : Chain ν} {s : Nat} {f : Slot ν → Slot ν} :
    c.update s f = .ok d ↔
      s ∈ c.arena.serials ∧ d = { c with arena := c.arena.modify s f } := by
  rw [← Arena.isSome_get?_iff]
  unfold update slot
  cases c.arena.get? s with
  | none => simp [bind, Except.bind]
  | some x => simp [bind, Except.bind, pure, Except.pure, eq_comm]

theorem live?_eq_some_iff {c : Chain ν} {s : Nat} {x : Slot ν} :
    c.live? s = some x ↔ c.arena.get? s = some x ∧ x.removed = false := by
  simp [live?, Option.filter_eq_some_iff]

/-! ## adding -/

/-- A new entry at the end of the chain, and its serial. -/
def link (c : Chain ν) (key : Key) (value : ν) (hash : UInt64) :
    Except Fault (Nat × Chain ν) := do
  let s := c.arena.fresh
  let linked : Chain ν :=
    { c with
      arena := c.arena.insert ⟨key, value, hash, c.tail, none, false, 0⟩
      tail := some s
      len := c.len + 1 }
  match c.tail with
  | some t => do
    let joined ← linked.update t fun x => { x with next := some s }
    pure (s, joined)
  | none => pure (s, { linked with head := some s })

/-! ## freeing -/

/-- Frees a removed slot nobody refers to, and then each slot before it whose last reference was
the one just given up.  Every round frees a slot, so the size of the arena bounds the rounds. -/
def reclaimFrom : Nat → Chain ν → Nat → Except Fault (Chain ν × List (Key × ν))
  | 0, _, s => .error (.missing s)
  | n + 1, c, s => do
    let x ← c.slot s
    if !x.removed || x.refs ≠ 0 then throw (.stillHeld s)
    let c := { c with arena := c.arena.erase s }
    match x.prev with
    | none => pure (c, [(x.key, x.value)])
    | some p =>
      let y ← c.slot p
      if y.refs = 0 then throw .underflow
      let c ← c.update p fun y => { y with refs := y.refs - 1 }
      if y.removed && y.refs = 1 then
        let (c, pairs) ← reclaimFrom n c p
        pure (c, (x.key, x.value) :: pairs)
      else pure (c, [(x.key, x.value)])

/-- Freeing more than one entry at once is reported. -/
def reclaim (c : Chain ν) (s : Nat) : Except Fault (Chain ν × Freed ν) := do
  let (c, pairs) ← c.reclaimFrom c.arena.size s
  pure (c, ⟨pairs, if pairs.length > 1 then [.chainFreed pairs.length] else []⟩)

/-! ## removing -/

/-- The entry before one that is taken out is joined to the one after it.  It counts one reference
more, since the removed entry keeps its link to it. -/
def joinBefore (c : Chain ν) (x : Slot ν) : Except Fault (Chain ν) :=
  match x.prev with
  | some p => c.update p fun y => { y with next := x.next, refs := y.refs + 1 }
  | none => pure { c with head := x.next }

/-- The entry after one that is taken out is joined to the one before it. -/
def joinAfter (c : Chain ν) (x : Slot ν) : Except Fault (Chain ν) :=
  match x.next with
  | some n => c.update n fun y => { y with prev := x.prev }
  | none => pure { c with tail := x.prev }

/-- Takes a live entry out of the chain.  Its slot keeps the link to the entry before it. -/
def remove (c : Chain ν) (s : Nat) : Except Fault (Chain ν × Freed ν) := do
  let x ← c.slot s
  let c ← c.update s fun x => { x with removed := true }
  let c ← c.joinBefore x
  let c ← c.joinAfter x
  if c.len = 0 then throw .underflow
  let c := { c with len := c.len - 1 }
  let x ← c.slot s
  if x.refs = 0 then c.reclaim s else pure (c, {})

/-- Marks every entry from `s` on as removed, and cuts its links. -/
def detachFrom : Nat → Chain ν → Option Nat → Except Fault (Chain ν)
  | _, c, none => pure c
  | 0, _, some _ => .error .endless
  | n + 1, c, some s => do
    let x ← c.slot s
    let c ← c.update s fun x => { x with next := none, prev := none, removed := true }
    detachFrom n c x.next

/-- Frees those of the given slots that are still there. -/
def reclaimEach : Chain ν → List Nat → Except Fault (Chain ν × Freed ν)
  | c, [] => pure (c, {})
  | c, s :: rest =>
    if (c.arena.get? s).isSome then do
      let (c, freed) ← c.reclaim s
      let (c, more) ← reclaimEach c rest
      pure (c, freed ++ more)
    else reclaimEach c rest

/-- Removes every entry.  Removed entries lose the link to the one before them, so a cursor parked
on one goes on from the new head.  Slots nobody refers to are freed in the order of their
places. -/
def clear (c : Chain ν) : Except Fault (Chain ν × Freed ν) := do
  let cleared := c.len
  let c ← detachFrom c.arena.size { c with head := none, tail := none, len := 0 } c.head
  let idle := (c.arena.byPlace.filter fun x => x.item.refs = 0).map (·.serial)
  let (c, freed) ← c.reclaimEach idle
  pure (c, freed ++ ⟨[], [.cleared cleared c.arena.size]⟩)

/-! ## cursors -/

/-- The nearest live entry at or before a slot, along the backward links. -/
def anchor (c : Chain ν) : Nat → Option Nat → Except Fault (Option Nat)
  | _, none => pure none
  | 0, some _ => .error .endless
  | n + 1, some s => do
    let x ← c.slot s
    if x.removed then c.anchor n x.prev else pure (some s)

/-- Gives up a reference to a slot. -/
def release (c : Chain ν) (s : Nat) : Except Fault (Chain ν × Freed ν) := do
  let x ← c.slot s
  if x.refs = 0 then throw (.unreferenced s)
  let c ← c.update s fun x => { x with refs := x.refs - 1 }
  if x.removed && x.refs = 1 then c.reclaim s else pure (c, {})

/-- The entry after the nearest live one, or the head if there is none. -/
def successor (c : Chain ν) (at? : Option Nat) : Except Fault (Option Nat) := do
  match ← c.anchor c.arena.size at? with
  | some s => do pure (← c.slot s).next
  | none => pure c.head

/-- A reference to the slot that a cursor comes to, if there is one. -/
def pin (c : Chain ν) (s? : Option Nat) : Except Fault (Chain ν) :=
  match s? with
  | some s => c.update s fun x => { x with refs := x.refs + 1 }
  | none => pure c

/-- Moves a cursor on from the entry it is parked on (none before its first step).  The new entry
is pinned before the old pin is given up. -/
def step (c : Chain ν) (at? : Option Nat) :
    Except Fault (Option Nat × Chain ν × Freed ν) := do
  let next ← c.successor at?
  let c ← c.pin next
  match at? with
  | some s => do
    let (c, freed) ← c.release s
    pure (next, c, freed)
  | none => pure (next, c, {})

/-- The entry a cursor is parked on, live or not. -/
def pinned (c : Chain ν) (s : Nat) : Except Fault (Slot ν) := do
  let x ← c.slot s
  if x.refs = 0 then throw (.unpinned s)
  pure x

/-! ## walking the live entries -/

/-- A position in a walk along the chain: the next entry, and how many are to come. -/
structure Walk where
  next : Option Nat
  remaining : Nat

/-- The entries from a position on, each with the number of entries to come after it. -/
def walkFrom (c : Chain ν) : Nat → Walk → Except Fault (List (Slot ν × Nat))
  | _, ⟨none, _⟩ => pure []
  | 0, ⟨some _, _⟩ => .error .endless
  | n + 1, ⟨some s, remaining⟩ => do
    let x ← c.slot s
    if remaining = 0 then throw .underflow
    let rest ← c.walkFrom n ⟨x.next, remaining - 1⟩
    pure ((x, remaining - 1) :: rest)

def walk (c : Chain ν) : Except Fault (List (Slot ν × Nat)) :=
  c.walkFrom c.arena.size ⟨c.head, c.len⟩

/-- The live entries in order of insertion. -/
def entries (c : Chain ν) : Except Fault (List (Key × ν)) := do
  pure ((← c.walk).map fun (x, _) => (x.key, x.value))

end Chain

end LiveOrder
