import LiveOrder.World.Reading

/-!
# Visits and calls going on

User code refers to the key of the innermost visit, and to the receiver and the arguments of the
innermost call.  A visit and a call hold copies of them until they end.

* `World.duringVisit`, `World.duringCall`   an action inside a visit or a call;
* `World.enclosed`   an action at whose failure nothing that it began goes on.

An action that fails leaves its visits and calls open.  So the cleanup on the way out still finds
them, and only where the failure is caught are they ended, the oldest first.
-/

namespace LiveOrder

namespace Call

/-- What a call holds. -/
def debris (c : Call) : List Debris := (c.receiver :: c.args).map fun v => .item (.value v)

end Call

namespace World

variable (run : Runner) {α : Type}

def duringVisit (k : Key) (body : Act α) : Act α := do
  let k ← copyKey k
  modify fun w => { w with visiting := k :: w.visiting }
  let a ← body
  modify fun w => { w with visiting := w.visiting.tail }
  discard run [.key k]
  pure a

/-- The result of the call is released if its end fails. -/
def duringCall (receiver : Value) (args : List Value) (body : Act α) (release : α → Act Unit) :
    Act α := do
  let call := ⟨← copyValue receiver, ← args.mapM copyValue⟩
  modify fun w => { w with calls := call :: w.calls }
  let a ← body
  modify fun w => { w with calls := w.calls.tail }
  Act.onFailure (discard run call.debris) (release a)
  pure a

/-- Ends visits and calls until as many are left as there were in an earlier world. -/
def backTo (earlier : World) : Act Unit := do
  let w ← get
  let visits := w.visiting.length - earlier.visiting.length
  let calls := w.calls.length - earlier.calls.length
  modify fun w => { w with visiting := w.visiting.drop visits, calls := w.calls.drop calls }
  Act.always (discard run ((w.visiting.take visits).reverse.map .key))
    (discard run ((w.calls.take calls).reverse.flatMap Call.debris))

def enclosed (body : Act α) : Act α := do
  let w ← get
  Act.onFailure body (backTo run w)

/-- Nothing that a failing action began goes on. -/
theorem enclosed_apply (body : Act α) (w : World) :
    enclosed run body w =
      match body w with
      | (.ok a, v) => (.ok a, v)
      | (.error e, v) => (.error (e.leaving (backTo run w v).1), (backTo run w v).2) := by
  rw [enclosed, Act.bind_apply]
  exact Act.onFailure_apply body _ w

end World

end LiveOrder
