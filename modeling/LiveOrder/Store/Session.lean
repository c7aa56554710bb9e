import LiveOrder.Store.Basic

/-!
# Sessions on one store

A sequence of commands on a store of integers.  Handles are spoken of by numbers, in the order in
which they first appear in replies.

* `Session.Command`, `Session.Reply`   what can be asked and what is answered;
* `Session.step`    one command;
* `Session.run`     all commands, each reply with the number of live entries after it.
-/

namespace LiveOrder

/-- A store, and the handles that have appeared. -/
structure Session where
  store : Store Int
  handles : List Nat

namespace Session

inductive Command where
  | upsert (k : Key) (v : Int) (full : Bool)
  | find (k : Key)
  | containsKey (k : Key)
  | lookup (k : Key)
  | remove (k : Key)
  | clear
  /-- the pairs of an empty release -/
  | reclaimed
  | iter
  | key (h : Nat)
  | value (h : Nat)
  | addTo (h : Nat) (n : Int)
  | len

inductive Reply where
  | inserted (h : Nat)
  /-- the number of the entry, its former value and the key that was not stored -/
  | updated (h : Nat) (previous : Int) (key : Key) (full : Bool)
  | handle (h : Option Nat)
  | flag (b : Bool)
  | entry (e : Option (Key × Int))
  | freed (pairs : Option (List (Key × Int)))
  /-- all that was live, in no order -/
  | swept (pairs : List (Key × Int))
  | entries (items : List (Key × Int)) (hints : List Nat)
  | key (k : Option Key)
  | value (v : Option Int)
  | extent (len : Nat) (isEmpty : Bool) (tombstones : Nat)

/-- The number of a handle, which gets one if it has none. -/
def number (handles : List Nat) (s : Nat) : Nat × List Nat :=
  match handles.idxOf? s with
  | some i => (i, handles)
  | none => (handles.length, handles ++ [s])

def step (x : Session) : Command → Except Fault (Reply × Session)
  | .upsert k v full => do
    let (outcome, store) ← x.store.upsert k v
    let (h, handles) := number x.handles outcome.handle
    match outcome with
    | .inserted _ => pure (.inserted h, ⟨store, handles⟩)
    | .updated _ key previous => pure (.updated h previous key full, ⟨store, handles⟩)
  | .find k => do
    match ← x.store.find k with
    | none => pure (.handle none, x)
    | some s =>
      let (h, handles) := number x.handles s
      pure (.handle (some h), { x with handles })
  | .containsKey k => do pure (.flag (← x.store.contains k), x)
  | .lookup k => do pure (.entry (← x.store.lookup k), x)
  | .remove k => do
    let (freed, store) ← x.store.remove k
    pure (.freed (freed.map (·.pairs)), { x with store })
  | .clear => do
    let (freed, store) ← x.store.clear
    pure (.swept freed.pairs, { x with store })
  | .reclaimed => pure (.freed (some ({} : Freed Int).pairs), x)
  | .iter => do
    let items ← x.store.chain.walk
    pure (.entries (items.map fun (e, _) => (e.key, e.value))
      (x.store.len :: items.map (·.2)), x)
  | .key h => pure (.key (x.handles[h]?.bind x.store.key?), x)
  | .value h => pure (.value (x.handles[h]?.bind x.store.value?), x)
  | .addTo h n =>
    match x.handles[h]?.bind fun s => x.store.modifyValue? s (· + n) with
    | none => pure (.value none, x)
    | some (v, store) => pure (.value (some v), { x with store })
  | .len => do pure (.extent x.store.len x.store.isEmpty (← x.store.tombstones), x)

/-- A fault ends the session. -/
def runFrom (x : Session) : List Command → List (Except Fault (Reply × Nat))
  | [] => []
  | c :: rest =>
    match x.step c with
    | .error f => [.error f]
    | .ok (r, x) => .ok (r, x.store.len) :: runFrom x rest

def run (hasher : Token → UInt64) (commands : List Command) :
    List (Except Fault (Reply × Nat)) :=
  runFrom ⟨.withHasher hasher, []⟩ commands

end Session

end LiveOrder
