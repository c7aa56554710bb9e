import LiveOrder.Proofs.Store.Index
import LiveOrder.Proofs.World.Hands
import LiveOrder.Proofs.World.Uses

/-!
# What is on record

The world keeps a record of every whole walk, of every release of a tracked number and of every time
when user code runs.  Here is what the records should say.

* `containerAt?`       the container at an object;
* `Reacts`, `Quiet`    the release of a piece, or of all that a container holds, runs user code, or does
                       not;
* `Course.Faithful`    a walk visits live entries, in order of insertion, as they are then;
* `Passage.Orderly`    and when it ends it has visited every entry that is left;
* `Passage.Tells`      the record of a walk is of what the walk did;
* `Release.Due`        a number is released once, when no entry holds it any more;
* `Walk.Readable`      the container of a cursor is there, and the cursor can go on;
* `Moment.Disciplined` access and guard of every container say what goes on in it, and no cursor has lost
                       its container.

A walk over a container that is not quiet need not be orderly.  What a step has freed is released
after the step has chosen the next entry, so a reaction can still remove that entry.
-/

namespace LiveOrder

/-! ## containers -/

def Body.container? : Body → Option Container
  | .container c => some c
  | _ => none

def containerAt? (objects : Objects) (r : Nat) : Option Container :=
  (Table.get? r objects).bind (·.body.container?)

/-! ## reactions -/

/-- User code runs when the piece is released: its own reaction, or that of something that goes away
with the object that it is a handle on. -/
inductive Reacts (objects : Objects) : Debris → Prop where
  | released (id : Nat) (n : Int) (body : List Step) (onCopy : Option (List Step)) :
      Reacts objects (.item (.tracked id n (some body) onCopy))
  | value {v : Value} {r : Nat} (hr : r ∈ v.refs) (h : Reacts objects (.handle r)) :
      Reacts objects (.item (.value v))
  | key {k : Key} {r : Nat} (hr : r ∈ k.refs) (h : Reacts objects (.handle r)) :
      Reacts objects (.key k)
  | object {r : Nat} {d : Cell} {piece : Debris} (hd : Table.get? r objects = some d)
      (hp : piece ∈ d.body.contents) (h : Reacts objects piece) : Reacts objects (.handle r)

namespace Item

/-- No user code runs when the item is copied. -/
def CopiesQuietly : Item → Prop
  | .tracked _ _ _ onCopy => onCopy = none
  | _ => True

/-- A copy of the item, if no user code runs for it. -/
def copied : Item → Item
  | .tracked _ n _ _ => .copy n
  | i => i

end Item

/-- No user code runs when anything that the container holds is released or copied. -/
structure Quiet (objects : Objects) (r : Nat) : Prop where
  releases : ¬Reacts objects (.handle r)
  copies : ∀ {c}, containerAt? objects r = some c → ∀ e ∈ c.store.contents, e.2.CopiesQuietly

/-! ## whole walks -/

namespace Yield

/-- A copy of the selected part of an entry, if no user code runs for it. -/
def of (kind : Kind) (selection : Selection) (k : Key) (i : Item) : Yield :=
  match kind, selection with
  | .set, .entries | .scriptSet, .entries => .twice k k
  | .set, _ | .scriptSet, _ | .object, _ | _, .keys => .key k
  | _, .values => .item i.copied
  | _, _ => .entry k i.copied

end Yield

namespace Stop

/-- The cursor is parked on an entry that is live, and the user code is given what is stored there. -/
def Shows (x : Stop) (r : Nat) : Prop :=
  ∃ s c k i, x.entry = some s ∧ containerAt? x.arrived r = some c ∧
    c.store.key? s = some k ∧ c.store.value? s = some i ∧
    x.given = .of c.kind (World.visitSelection c.kind) k i

/-- The visit is one in which the user code was run, and came to this. -/
def MadeBy {β : Type} (x : Stop) (visit : Act β) (b : β) : Prop :=
  ∃ w v, w.cells = x.arrived ∧ visit w = (.ok b, v) ∧ v.cells = x.left

end Stop

namespace Course

/-- The entries that are visited. -/
def visited (x : Course) : List Nat := x.stops.filterMap (·.entry)

/-- When the cursor is moved. -/
def moments (x : Course) : List Objects := x.begun :: x.stops.map (·.left)

/-- The container is quiet whenever the cursor is moved. -/
def Quiet (x : Course) : Prop := ∀ objects ∈ x.moments, LiveOrder.Quiet objects x.container

/-- The entry has been removed by then. -/
def Gone (r s : Nat) (objects : Objects) : Prop :=
  ∃ c, containerAt? objects r = some c ∧ s < c.store.chain.arena.fresh ∧ ¬c.store.chain.Live s

/-- Live entries are visited, in order of insertion, as they are then. -/
structure Faithful (x : Course) : Prop where
  shows : ∀ y ∈ x.stops, y.Shows x.container
  rising : x.visited.Pairwise (· < ·)
  /-- what has been removed before the walk begins is not visited -/
  absent : ∀ s, Gone x.container s x.begun → s ∉ x.visited
  /-- nor is what is removed before a visit -/
  removed : x.stops.Pairwise fun y z => ∀ s, Gone x.container s y.arrived ∨ Gone x.container s y.left →
    z.entry ≠ some s

end Course

namespace Passage

/-- Every entry is visited once, in order of insertion, as it is then; the container is there as long
as the walk goes on. -/
structure Orderly (p : Passage) : Prop extends p.toCourse.Faithful where
  /-- what is live at the end has been visited -/
  reached : ∀ {c s}, p.complete = true → containerAt? p.ended p.container = some c →
    c.store.chain.Live s → s ∈ p.visited
  /-- there are no more visits than entries that were live at the begin or were made since then -/
  bounded : ∃ c d, containerAt? p.begun p.container = some c ∧
    containerAt? p.ended p.container = some d ∧
    c.store.chain.arena.fresh ≤ d.store.chain.arena.fresh ∧
    p.stops.length ≤ c.store.len + (d.store.chain.arena.fresh - c.store.chain.arena.fresh)

/-- What is on record is what the walk did: it began in one world and ended in the other, and at its
visits, one for each result, the user code was run with what is given there. -/
structure Tells {β : Type} (p : Passage) (r : Nat) (visit : Nat → Yield → Act β) (w : World)
    (results : List β) (v : World) : Prop where
  container : p.container = r
  complete : p.complete = true
  begun : containerAt? p.begun r = containerAt? w.cells r
  ended : p.ended = v.cells
  length : p.stops.length = results.length
  visits : ∀ n (x : Stop) b, p.stops[n]? = some x → results[n]? = some b →
    x.MadeBy (visit n x.given) b

end Passage

/-! ## releases -/

namespace Release

/-- The number has not been released before, and no entry of a container holds it, be the entry live
or removed. -/
structure Due (x : Release) (earlier : List Release) : Prop where
  first : x.id ∉ earlier.map (·.id)
  unheld : ∀ {r c}, containerAt? x.objects r = some c → ∀ e ∈ c.store.contents, e.2.id? ≠ some x.id

end Release

/-! ## times -/

/-- As long as a cursor has not come to the end its container is there: the entries can be read, and also
the one that the cursor is parked on, and the cursor can be moved to the first live entry after it. -/
def Walk.Readable (x : Walk) (objects : Objects) : Prop :=
  ∀ r, x.store = some r → ∃ c entries next freed t, containerAt? objects r = some c ∧
    c.store.entries = .ok entries ∧ (∀ s, x.last = some s → ∃ e, c.store.pinned s = .ok e) ∧
    c.store.advance x.last = .ok (next, freed, t) ∧ FirstAfter c.store.chain.Live x.last next

structure Moment.Disciplined (m : Moment) : Prop where
  /-- access and guard of every container say what goes on in it -/
  guarded : ∀ {r c}, containerAt? m.objects r = some c → c.Disciplined
  /-- and no cursor has lost its container -/
  walking : ∀ {id x}, Table.get? id m.walks = some x → x.Readable m.objects

/-- What is on record of tracked numbers: how many have been made, which have been stored in which
containers, and which have been released. -/
structure Numbers where
  made : Nat
  stored : List (Nat × Nat)
  gone : List Nat

namespace World

abbrev released (w : World) : List Nat := w.releases.map (·.id)

abbrev numbers (w : World) : Numbers := ⟨w.freshNumber, w.stored, w.released⟩

end World

end LiveOrder
