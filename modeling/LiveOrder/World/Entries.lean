import LiveOrder.World.Lifetime
import LiveOrder.World.Names

/-!
# Operations on the entries of a container

The operations by key.  Each opens the container, runs a store operation under the guard, which
asks the given key for its token and so may run user code, and releases what came out of it only
when the container is open again.

* `Query`          a key to be asked for its token, with the watches around it;
* `World.place`    stores a value, and keeps on record which key was given for an entry that is made;
* `World.upsert`   does so under the guard; `World.putEach` stores many, one after the other;
* `World.has`, `lookup`, `delete`, `clear`.

A key or value that a failing operation did not store is released before the failure comes out:
when the key's reaction fails, still inside the operation's access to the container.

A tracked number that is copied while another one reacts to being copied does not react itself
(`World.quiet`).  That is the way of these numbers, which belong to the programs.  The containers know
nothing of it: they ask for a copy of whatever they store.
-/

namespace LiveOrder

/-- A key to be asked for its token, with the watches that notice it. -/
inductive Query where
  | plain (k : Key)
  | reference (q : Query)
  /-- reports that the key was asked -/
  | counted (q : Query)
  /-- runs a program before it reports -/
  | reacting (q : Query) (body : List Step)

namespace Query

def key : Query → Key
  | .plain k => k
  | .reference q => .reference q.key
  | .counted q | .reacting q _ => q.key

/-- The query for the stored form of the key.  What a reference refers to stays as it is. -/
def canonical : Query → Query
  | .plain k => .plain k.canonical
  | .reference q => .reference q
  | .counted q => .counted q.canonical
  | .reacting q body => .reacting q.canonical body

theorem key_canonical (q : Query) : q.canonical.key = q.key.canonical := by
  induction q with
  | plain k => rfl
  | reference q => rfl
  | counted q ih => exact ih
  | reacting q body ih => exact ih

/-- Watches do not matter to the objects that a query keeps alive. -/
theorem refs_canonical (q : Query) : q.canonical.key.refs = q.key.refs := by
  rw [key_canonical, Key.refs_canonical]

end Query

namespace Kind

/-- Maps store keys in their canonical form, sets store elements as given. -/
def stored (kind : Kind) (q : Query) : Query := if kind.isSet then q else q.canonical

end Kind

namespace World

/-! ## user code in searches and copies -/

variable (run : Runner)

/-- A key is asked for its token.  The outermost watch notices it first. -/
def ask : Query → Act Unit
  | .plain _ => pure ()
  | .reference q => ask q
  | .counted q => do
    log (.asked ((← get).showKey q.key) none)
    ask q
  | .reacting q body => do
    let acts ← run body
    log (.asked ((← get).showKey q.key) (some acts))
    ask q

def copyKey (k : Key) : Act Key := do
  retainAll k.refs
  pure k

/-- A copy of a stored value.  While one tracked number reacts to it, no other one does. -/
def copyItem : Item → Act Item
  | .unit => pure .unit
  | .copy n => pure (.copy n)
  | .value v => do
    retainAll v.refs
    pure (.value v)
  | .tracked _ n _ none => pure (.copy n)
  | .tracked _ n _ (some body) => do
    if (← get).quiet then pure (.copy n)
    else do
      modify fun w => { w with quiet := true }
      let acts ← Act.always (run body) (modify fun w => { w with quiet := false })
      log (.copied n acts)
      pure (.copy n)

/-- Freed pairs, each key before its value. -/
def debrisOf (pairs : List (Key × Item)) : List Debris :=
  pairs.flatMap fun (k, i) => [.key k, .item i]

/-! ## changing -/

/-- Keeps on record where a tracked number is stored. -/
def enter (r : Nat) : Item → Act Unit
  | .tracked id .. => modify fun w => { w with stored := (id, r) :: w.stored }
  | .unit | .copy _ | .value _ => pure ()

/-- Keeps on record which key was given for an entry that was made. -/
def register (r : Nat) (given : Key) : Upsert Item → Act Unit
  | .inserted s => modify fun w => { w with origins := ⟨r, s, given⟩ :: w.origins }
  | .updated .. => pure ()

/-- Stores a value under the stored form of the key that was given. -/
def place (r : Nat) (given stored : Key) (item : Item) : Act (Upsert Item) := do
  let outcome ← onStore r (·.upsert stored item)
  register r given outcome
  pure outcome

/-- Stores a value under a key.  The container owns both from then on; if it does not come to
that, they are released. -/
def upsert (r : Nat) (q : Query) (item : Item) : Act (Upsert Item) := do
  let rejected := discard run [.item item, .key q.key]
  exclusivelyOr rejected r .upsert <|
    Act.onFailure
      (do
        let stored := (← container r).kind.stored q
        searching r .upsert do
          ask run stored
          enter r item
          place r q.key stored.key item)
      rejected

/-- Stores values one after the other and releases what they replace.  The first failure ends it,
and what was not yet stored is released. -/
def putEach (r : Nat) : List (Query × Item) → Act Unit
  | [] => pure ()
  | (q, item) :: rest => do
    Act.onFailure
      (do
        match ← upsert run r q item with
        | .inserted _ => pure ()
        | .updated _ key previous => discard run [.key key, .item previous])
      (discard run (rest.flatMap fun (q, i) => [.key q.key, .item i]))
    putEach r rest

/-- Whether there was an entry; what its removal frees is released when the container is open
again. -/
def delete (r : Nat) (q : Query) : Act Bool := do
  let freed ← exclusively r .remove <| searching r .remove do
    ask run q
    onStore r (·.remove q.key)
  match freed with
  | none => pure false
  | some freed => do
    tell freed.notices
    discard run (debrisOf freed.pairs)
    pure true

def clear (r : Nat) : Act Unit := do
  let freed ← exclusively r .clear <| searching r .clear <| onStore r (·.clear)
  tell freed.notices
  discard run (debrisOf freed.pairs)

/-! ## reading -/

def has (r : Nat) (q : Query) : Act Bool :=
  sharing r <| searching r .containsKey do
    ask run q
    readStore r (·.contains q.key)

/-- A copy of the value stored under an equal key, made while the container is still being
read. -/
def lookup (r : Nat) (q : Query) : Act (Option Item) :=
  sharing r do
    let found ← searching r .lookup do
      ask run q
      readStore r (·.lookup q.key)
    match found with
    | none => pure none
    | some (_, item) => do
      let copy ← copyItem run item
      pure (some copy)

end World

end LiveOrder
