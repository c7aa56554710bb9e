import LiveOrder.World.Basic

/-!
# Access to containers

A container is read by any number of operations at a time, or changed by one.  While a store
operation searches, which asks keys for their tokens and so may run user code, a guard names it,
and no other operation may enter the same store.

* `World.sharing`        reads a container: refused while it is being changed;
* `World.exclusively`    changes a container: refused while it is used in any way;
* `World.searching`      a store operation under the guard: refused under another one;
* `World.onStore`, `World.readStore`   the store operations themselves.

Access and guard end with the action, also when it fails.  What goes on in a container is noted in it
(`enlist`) until the action has ended (`delist`).
-/

namespace LiveOrder.World

variable {α : Type}

def setAccess (r : Nat) (a : Access) : Act Unit := do
  let c ← container r
  setContainer r { c with access := a }

def setActive (r : Nat) (op : Option Operation) : Act Unit := do
  let c ← container r
  setContainer r { c with active := op }

/-- Something begins in a container. -/
def enlist (r : Nat) (use : Use) : Act Unit := do
  let c ← container r
  setContainer r { c with uses := use :: c.uses }

/-- What has begun last in a container has ended. -/
def delist (r : Nat) : Act Unit := do
  let c ← container r
  setContainer r { c with uses := c.uses.tail }

/-! ## access -/

def beginShared (r : Nat) : Act Unit := do
  match (← container r).access with
  | .shared n => setAccess r (.shared (n + 1))
  | .exclusive => throw .conflict

def endShared (r : Nat) : Act Unit := do
  match (← container r).access with
  | .shared n => setAccess r (.shared (n - 1))
  | .exclusive => pure ()

def sharing (r : Nat) (body : Act α) : Act α := do
  beginShared r
  enlist r .reading
  Act.always body do
    delist r
    endShared r

def beginExclusive (r : Nat) : Act Unit := do
  match (← container r).access with
  | .shared 0 => setAccess r .exclusive
  | _ => throw .conflict

def endExclusive (r : Nat) : Act Unit := setAccess r (.shared 0)

/-- Changes a container, or does something else and fails when that is not possible. -/
def exclusivelyOr (refused : Act Unit) (r : Nat) (op : Operation) (body : Act α) : Act α := do
  Act.onFailure (beginExclusive r) refused
  enlist r (.changing op)
  Act.always body do
    delist r
    endExclusive r

def exclusively (r : Nat) (op : Operation) (body : Act α) : Act α :=
  exclusivelyOr (pure ()) r op body

/-- Whether the container could be changed right now. -/
def isIdle (r : Nat) : Act Bool := do
  match (← cell r).body with
  | .container c => pure (c.access = .shared 0)
  | _ => pure false

/-! ## the guard -/

def enterGuard (r : Nat) (op : Operation) : Act Unit := do
  match (← container r).active with
  | some outer => throw (.reentrant op outer)
  | none => setActive r (some op)

def leaveGuard (r : Nat) : Act Unit := do
  match (← container r).active with
  | some _ => setActive r none
  | none => Act.ofStore (.error .unguarded)

def searching (r : Nat) (op : Operation) (body : Act α) : Act α := do
  enterGuard r op
  enlist r (.searching op)
  Act.always body do
    delist r
    leaveGuard r

/-! ## stores -/

def readStore (r : Nat) (f : Store Item → Except Fault α) : Act α := do
  Act.ofStore (f (← container r).store)

def onStore (r : Nat) (f : Store Item → Except Fault (α × Store Item)) : Act α := do
  let c ← container r
  let (a, store) ← Act.ofStore (f c.store)
  setContainer r { c with store }
  pure a

/-- The number of live entries, as a reader sees it. -/
def size (r : Nat) : Act Nat := sharing r (readStore r fun t => .ok t.len)

end LiveOrder.World
