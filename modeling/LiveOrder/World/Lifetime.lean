import LiveOrder.World.Access

/-!
# Handles and releases

A shared object lives as long as it has handles: bound names, cursors that have not come to their
end, operations that use it, and keys and values that hold it.  What is no longer needed is
released piece by piece (`Debris`): a tracked number is logged, after its reaction has run, and a
handle is counted down; the last one gives up all that the object holds, at once and in the order
in which it held it.

* `World.retain`     one handle more;
* `World.discard`    releases a list of pieces in order.  A failing reaction does not keep the
                     pieces after it from being released; the first failure comes out at the end.
-/

namespace LiveOrder

namespace Body

/-- What an object holds, in the order in which it is given up: entry by entry, the key before the
value, removed entries included. -/
def contents : Body → List Debris
  | .container c => c.store.contents.flatMap fun (k, i) => [.key k, .item i]
  | .function _ | .allocation _ => []

end Body

namespace World

def setHandles (r : Nat) (n : Nat) : Act Unit :=
  modify fun w => { w with cells := Table.change r (fun c => { c with handles := n }) w.cells }

def retain (r : Nat) : Act Unit := do
  setHandles r ((← cell r).handles + 1)

def retainAll (refs : List Nat) : Act Unit := refs.forM retain

/-- Counts one handle down.  The last one removes the object and hands back what it held. -/
def releaseHandle (r : Nat) : Act (List Debris) := do
  let c ← cell r
  if c.handles ≤ 1 then do
    modify fun w => { w with cells := Table.erase r w.cells }
    pure c.body.contents
  else do
    setHandles r (c.handles - 1)
    pure []

variable (run : Runner)

/-- A tracked number goes away; its reaction runs when it has. -/
def releaseTracked (id : Nat) (n : Int) (onRelease : Option (List Step)) : Act Unit := do
  modify fun w => { w with releases := ⟨id, w.cells⟩ :: w.releases }
  match onRelease with
  | none => log (.released n none)
  | some body => do
    let acts ← run body
    log (.released n (some acts))

/-- Releases one piece, and hands back what that sets free. -/
def discardOne : Debris → Act (List Debris)
  | .item .unit | .item (.copy _) => pure []
  | .item (.tracked id n onRelease _) => do
    releaseTracked run id n onRelease
    pure []
  | .item (.value v) => pure (v.refs.map .handle)
  | .key k => pure (k.refs.map .handle)
  | .handle r => releaseHandle r

def discardWithin : Nat → List Debris → Act Unit
  | _, [] => pure ()
  | 0, d :: rest => do
    modify fun w => { w with abandoned := d :: rest ++ w.abandoned }
    throw .exhausted
  | n + 1, d :: rest => do
    modify fun w => { w with discarded := w.discarded + 1 }
    let more ← Act.onFailure (discardOne run d) (discardWithin n rest)
    discardWithin n (more ++ rest)

def discard (pieces : List Debris) : Act Unit := do
  discardWithin run (← get).limits.rounds pieces

/-- The action with a handle of its own on an object, given up at the end. -/
def holding {α : Type} (r : Nat) (body : Act α) : Act α := do
  retain r
  Act.always body (discard run [.handle r])

end World

end LiveOrder
