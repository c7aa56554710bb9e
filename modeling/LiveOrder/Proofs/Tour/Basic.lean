import LiveOrder.Proofs.Ledger

/-!
# Tours

A store with any number of cursors on it, used in any order.  A cursor is moved and closed only
from the place where it is; it may also be abandoned, which leaves its pin behind for ever.

* `Position`     where a cursor is;
* `Tour`         a store with cursors, `Itinerary` a ledger with cursors;
* `Command`, `Reply`   what can be asked of both, and what they answer; `Turn`, what can be asked of
                 one cursor;
* `Tour.step`, `Itinerary.step`   one command, `run` many of them.

A tour keeps no serials to compare: a cursor goes on from a slot that may have been removed long
ago.  An itinerary has nothing but serials to compare.
-/

namespace LiveOrder

inductive Position where
  | unstarted
  /-- on the entry that it yielded last, which it pins -/
  | parked (s : Nat)
  /-- given up without giving up the pin -/
  | abandoned (s : Nat)
  | finished
  deriving DecidableEq

namespace Position

/-- From where a cursor can be moved on: an entry, or the beginning. -/
def at? : Position → Option (Option Nat)
  | .unstarted => some none
  | .parked s => some (some s)
  | .abandoned _ | .finished => none

def pin? : Position → Option Nat
  | .parked s | .abandoned s => some s
  | .unstarted | .finished => none

/-- Where a cursor is that came to an entry, or to the end. -/
def reached : Option Nat → Position
  | some s => .parked s
  | none => .finished

/-- Where a cursor is that was abandoned at an entry, or before it started. -/
def left : Option Nat → Position
  | some s => .abandoned s
  | none => .finished

end Position

/-- The number of cursors that pin a slot. -/
def pinsOf (cursors : List Position) (s : Nat) : Nat := cursors.countP fun p => p.pin? = some s

/-! ## commands -/

inductive Command (ν : Type) where
  | upsert (k : Key) (v : ν)
  | remove (k : Key)
  | clear
  | find (k : Key)
  | contains (k : Key)
  | lookup (k : Key)
  /-- through a handle, which may be stale -/
  | modify (s : Nat) (f : ν → ν)
  | key (s : Nat)
  | value (s : Nat)
  | entries
  | len
  /-- a new cursor; cursors are numbered as they come -/
  | start
  | advance (i : Nat)
  | close (i : Nat)
  | abandon (i : Nat)

/-- What can be done with a cursor that is there. -/
inductive Turn where
  | advance
  | close
  | abandon
  deriving DecidableEq

namespace Turn

variable {ν : Type}

def of (i : Nat) : Turn → Command ν
  | .advance => .advance i
  | .close => .close i
  | .abandon => .abandon i

end Turn

inductive Reply (ν : Type) where
  | done
  | upserted (u : Upsert ν)
  | flag (b : Bool)
  | handle (s : Option Nat)
  | key (k : Option Key)
  | value (v : Option ν)
  | entry (e : Option (Key × ν))
  | entries (l : List (Key × ν))
  | extent (len : Nat) (isEmpty : Bool)
  | yielded (r : Option (Row ν))

/-! ## tours -/

structure Tour (ν : Type) where
  store : Store ν
  cursors : List Position

namespace Tour

variable {ν : Type}

def start (hasher : Token → UInt64) : Tour ν := ⟨.withHasher hasher, []⟩

def pins (t : Tour ν) : Nat → Nat := pinsOf t.cursors

def place? (t : Tour ν) (i : Nat) : Option (Option Nat) := t.cursors[i]?.bind Position.at?

/-- Moves a cursor on and reads the entry that it comes to. -/
def advance (t : Tour ν) (i : Nat) (at? : Option Nat) :
    Except Fault (Reply ν × Freed ν × Tour ν) := do
  let (next, freed, store) ← t.store.advance at?
  let t : Tour ν := ⟨store, t.cursors.set i (.reached next)⟩
  match next with
  | none => pure (.yielded none, freed, t)
  | some s => do
    let (k, v) ← store.pinned s
    pure (.yielded (some ⟨s, k, v⟩), freed, t)

/-- One command: its reply, and what it frees. -/
def step (t : Tour ν) : Command ν → Except Fault (Reply ν × Freed ν × Tour ν)
  | .upsert k v => do
    let (u, store) ← t.store.upsert k v
    pure (.upserted u, {}, { t with store })
  | .remove k => do
    let (freed, store) ← t.store.remove k
    pure (.flag freed.isSome, freed.getD {}, { t with store })
  | .clear => do
    let (freed, store) ← t.store.clear
    pure (.done, freed, { t with store })
  | .find k => do pure (.handle (← t.store.find k), {}, t)
  | .contains k => do pure (.flag (← t.store.contains k), {}, t)
  | .lookup k => do pure (.entry (← t.store.lookup k), {}, t)
  | .modify s f =>
    match t.store.modifyValue? s f with
    | none => pure (.value none, {}, t)
    | some (v, store) => pure (.value (some v), {}, { t with store })
  | .key s => pure (.key (t.store.key? s), {}, t)
  | .value s => pure (.value (t.store.value? s), {}, t)
  | .entries => do pure (.entries (← t.store.entries), {}, t)
  | .len => pure (.extent t.store.len t.store.isEmpty, {}, t)
  | .start => pure (.done, {}, { t with cursors := t.cursors ++ [.unstarted] })
  | .advance i =>
    match t.place? i with
    | none => pure (.yielded none, {}, t)
    | some at? => t.advance i at?
  | .close i =>
    match t.place? i with
    | none => pure (.done, {}, t)
    | some none => pure (.done, {}, { t with cursors := t.cursors.set i .finished })
    | some (some s) => do
      let (freed, store) ← t.store.unpin s
      pure (.done, freed, ⟨store, t.cursors.set i .finished⟩)
  | .abandon i =>
    match t.place? i with
    | none => pure (.done, {}, t)
    | some at? => pure (.done, {}, { t with cursors := t.cursors.set i (.left at?) })

def run (t : Tour ν) : List (Command ν) → Except Fault (List (Reply ν) × Tour ν)
  | [] => pure ([], t)
  | c :: rest => do
    let (reply, _, t) ← t.step c
    let (replies, t) ← t.run rest
    pure (reply :: replies, t)

end Tour

/-! ## itineraries -/

structure Itinerary (ν : Type) where
  ledger : Ledger ν
  cursors : List Position

namespace Itinerary

variable {ν : Type}

def start : Itinerary ν := ⟨.empty, []⟩

def place? (t : Itinerary ν) (i : Nat) : Option (Option Nat) := t.cursors[i]?.bind Position.at?

def step (t : Itinerary ν) : Command ν → Reply ν × Itinerary ν
  | .upsert k v => (.upserted (t.ledger.upsert k v).1, { t with ledger := (t.ledger.upsert k v).2 })
  | .remove k => (.flag (t.ledger.find? k).isSome, { t with ledger := t.ledger.remove k })
  | .clear => (.done, { t with ledger := t.ledger.clear })
  | .find k => (.handle ((t.ledger.find? k).map (·.serial)), t)
  | .contains k => (.flag (t.ledger.find? k).isSome, t)
  | .lookup k => (.entry ((t.ledger.find? k).map Row.pair), t)
  | .modify s f =>
    match t.ledger.row? s with
    | none => (.value none, t)
    | some r => (.value (some (f r.value)), { t with ledger := t.ledger.revalued s f })
  | .key s => (.key ((t.ledger.row? s).map (·.key)), t)
  | .value s => (.value ((t.ledger.row? s).map (·.value)), t)
  | .entries => (.entries (t.ledger.rows.map Row.pair), t)
  | .len => (.extent t.ledger.rows.length t.ledger.rows.isEmpty, t)
  | .start => (.done, { t with cursors := t.cursors ++ [.unstarted] })
  | .advance i =>
    match t.place? i with
    | none => (.yielded none, t)
    | some at? =>
      let next := t.ledger.after at?
      (.yielded next, { t with cursors := t.cursors.set i (.reached (next.map (·.serial))) })
  | .close i =>
    match t.place? i with
    | none => (.done, t)
    | some _ => (.done, { t with cursors := t.cursors.set i .finished })
  | .abandon i =>
    match t.place? i with
    | none => (.done, t)
    | some at? => (.done, { t with cursors := t.cursors.set i (.left at?) })

def run (t : Itinerary ν) : List (Command ν) → List (Reply ν) × Itinerary ν
  | [] => ([], t)
  | c :: rest =>
    let (reply, t) := t.step c
    let (replies, t) := t.run rest
    (reply :: replies, t)

theorem run_cons (t : Itinerary ν) (c : Command ν) (rest : List (Command ν)) :
    t.run (c :: rest) = ((t.step c).1 :: ((t.step c).2.run rest).1, ((t.step c).2.run rest).2) := rfl

end Itinerary

end LiveOrder
