import LiveOrder.World.Entries

/-!
# Live cursors

A cursor walks over a container that may change between its steps.  It remembers the entry it
yielded last and holds a pin on it, so the entry stays readable when it is removed, and the next
step goes on from the nearest live entry before it.  A cursor that has come to the end gives up
its container and yields nothing ever after.

* `World.openWalk`, `World.advance`, `World.closeWalk`   a cursor's life;
* `World.depart`, `World.land`   the two parts of a step;
* `World.takeUpTo`    the next entries of a cursor;
* `World.forEach`     a whole walk with user code at every entry.

A step begins with a move, inside an exclusive access.  What the move freed is released outside of
any access, before the cursor has a place again.  The step ends with a copy of the entry, inside a
shared access.
-/

namespace LiveOrder

namespace World

variable (run : Runner)

/-! ## table of cursors -/

def walk (id : Nat) : Act Walk := do
  match Table.get? id (← get).walks with
  | some x => pure x
  | none => pure ⟨none, none⟩

def setWalk (id : Nat) (x : Walk) : Act Unit :=
  modify fun w => { w with walks := Table.put id x w.walks }

/-- A cursor that has not started. -/
def openWalk (r : Nat) : Act Nat := do
  retain r
  let id := (← get).freshWalk
  modify fun w => { w with walks := w.walks ++ [(id, ⟨some r, none⟩)], freshWalk := id + 1 }
  pure id

/-- Leaves a pin behind that nobody will give up. -/
def leak (r : Nat) (s? : Option Nat) : Act Unit :=
  modify fun w => { w with leaks := (s?.map fun s => (r, s)).toList ++ w.leaks }

/-! ## copies -/

/-- The selected part of an entry, copied. -/
def copyEntry (kind : Kind) (selection : Selection) (k : Key) (i : Item) : Act Yield := do
  match kind, selection with
  | .set, .entries | .scriptSet, .entries => do
    let a ← copyKey k
    let b ← copyKey k
    pure (.twice a b)
  | .set, _ | .scriptSet, _ | .object, _ | _, .keys => do
    pure (.key (← copyKey k))
  | _, .values => do
    pure (.item (← copyItem run i))
  | _, _ => do
    let k ← copyKey k
    let i ← Act.onFailure (copyItem run i) (discard run [.key k])
    pure (.entry k i)

/-! ## steps -/

/-- Where a cursor comes to, and what is freed where it was. -/
def shift (id r : Nat) (last : Option Nat) : Act (Option Nat × Freed Item) := do
  setWalk id ⟨some r, none⟩
  onStore r fun t => do
    let (next, freed, t) ← t.advance last
    pure ((next, freed), t)

/-- The move of a cursor.  It has no place until it has landed. -/
def move (id r : Nat) (last : Option Nat) : Act (Option Nat × Freed Item) :=
  exclusively r .advance <| searching r .advance <| shift id r last

/-- The cursor leaves its place, and what is freed there is released. -/
def depart (id r : Nat) (last : Option Nat) : Act (Option Nat) := do
  let (next, freed) ← move id r last
  tell freed.notices
  Act.onFailure (discard run (debrisOf freed.pairs)) (leak r next)
  pure next

/-- A copy of the entry at a pin. -/
def copyAt (r : Nat) (kind : Kind) (selection : Selection) (s : Nat) : Act Yield :=
  sharing r do
    let (k, i) ← readStore r (·.pinned s)
    copyEntry run kind selection k i

/-- The end of a step: the cursor is parked on an entry, which is copied, or has come to the end. -/
def land (id r : Nat) (kind : Kind) (selection : Selection) : Option Nat → Act (Option Yield)
  | some s => do
    setWalk id ⟨some r, some s⟩
    let y ← copyAt run r kind selection s
    pure (some y)
  | none => do
    setWalk id ⟨none, none⟩
    discard run [.handle r]
    pure none

/-- Moves a cursor to the next entry and copies it. -/
def advance (id : Nat) (kind : Kind) (selection : Selection) : Act (Option Yield) := do
  let x ← walk id
  match x.store with
  | none => pure none
  | some r => do
    let next ← depart run id r x.last
    land run id r kind selection next

/-- Ends a cursor.  If its container is in use the pin cannot be given up and stays. -/
def closeWalk (id : Nat) : Act Unit := do
  let x ← walk id
  modify fun w => { w with walks := Table.erase id w.walks }
  match x.store, x.last with
  | none, _ => pure ()
  | some r, none => discard run [.handle r]
  | some r, some s =>
    Act.always
      (do
        if ← isIdle r then do
          let freed ← exclusively r .unpin <| searching r .unpin <| onStore r (·.unpin s)
          tell freed.notices
          discard run (debrisOf freed.pairs)
        else do
          leak r (some s)
          tell [.pinLeaked])
      (discard run [.handle r])

/-! ## many steps -/

/-- The next entries of a cursor, at most so many, each used up before the next step.  The user
owns what it is given. -/
def takeUpTo {β : Type} (id : Nat) (kind : Kind) (selection : Selection) (use : Yield → Act β) :
    Nat → Act (List β)
  | 0 => pure []
  | n + 1 => do
    match ← advance run id kind selection with
    | none => pure []
    | some y => do
      let b ← use y
      let rest ← takeUpTo id kind selection use n
      pure (b :: rest)

/-- The next entries of a cursor, at most so many; then the cursor is closed. -/
def takeLast {β : Type} (id : Nat) (kind : Kind) (selection : Selection) (use : Yield → Act β)
    (limit : Nat) : Act (List β) :=
  Act.always (takeUpTo run id kind selection use limit) (closeWalk run id)

/-- The entries of a container, at most so many. -/
def list {β : Type} (r : Nat) (selection : Selection) (use : Yield → Act β) (limit : Nat) :
    Act (List β) := do
  let kind := (← container r).kind
  let id ← openWalk r
  takeLast run id kind selection use limit

/-- What a whole walk gives the user code: the value and the key of an entry. -/
def visitSelection (kind : Kind) : Selection :=
  if kind.isSet then .keys else .entries

/-- Keeps a whole walk on record. -/
def record (x : Course) (complete : Bool) : Act Unit :=
  modify fun w => { w with passages := ⟨x, w.cells, complete⟩ :: w.passages }

/-- A visit, and what is kept on record of it. -/
def stopAt {β : Type} (id : Nat) (y : Yield) (visit : Act β) : Act (β × Stop) := do
  let entry := (← walk id).last
  let arrived := (← get).cells
  let b ← visit
  pure (b, ⟨entry, y, arrived, (← get).cells⟩)

/-- A walk from its begin, or from the visits that are done. -/
def forEachFrom {β : Type} (id : Nat) (kind : Kind) (visit : Nat → Yield → Act β) :
    Nat → Course → Act (List β)
  | 0, x => do
    record x false
    throw .exhausted
  | fuel + 1, x => do
    match ← advance run id kind (visitSelection kind) with
    | none => do
      record x true
      pure []
    | some y => do
      let (b, stop) ← stopAt id y (visit x.stops.length y)
      let rest ← forEachFrom id kind visit fuel { x with stops := x.stops ++ [stop] }
      pure (b :: rest)

/-- A walk over a container with user code at every entry, numbered from zero.  The user code
owns what it is given. -/
def forEach {β : Type} (r : Nat) (visit : Nat → Yield → Act β) : Act (List β) := do
  let kind := (← container r).kind
  let id ← openWalk r
  let w ← get
  Act.always (forEachFrom run id kind visit w.limits.rounds ⟨r, w.cells, []⟩) (closeWalk run id)

end World

end LiveOrder
