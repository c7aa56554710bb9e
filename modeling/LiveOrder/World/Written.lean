import LiveOrder.Display
import LiveOrder.World.Reading

/-!
# Containers and yields in answers

* `World.showYield`    what a cursor yielded, as a part of a result;
* `World.debugText`    a container in writing;
* `World.snapshot`     the contents of all named containers.
-/

namespace LiveOrder.World

/-! ## parts of results -/

/-- A key as a container of the given kind shows it. -/
def showKeyOf (w : World) (kind : Kind) (k : Key) : Shown :=
  match kind, k with
  | .scriptMap, .value v | .scriptSet, .value v => .term (w.showValue v)
  | .object, .text _ s => .term (.property s)
  | _, k => .term (w.showKey k)

def showItem (w : World) : Item → Shown
  | .unit => .absent
  | .tracked _ n _ _ | .copy n => .number n
  | .value v => .term (w.showValue v)

def showYield (w : World) (kind : Kind) : Yield → Shown
  | .key k => w.showKeyOf kind k
  | .item i => w.showItem i
  | .entry k i => .pair (w.showKeyOf kind k) (w.showItem i)
  | .twice a b => .pair (w.showKeyOf kind a) (w.showKeyOf kind b)

/-! ## writing -/

def facts : Facts Act where
  size := size
  content r := do
    match (← cell r).body with
    | .allocation s => pure s
    | _ => throw (.misuse .key)

def displayItem (spread : Bool) : Item → Act String
  | .unit => pure "()"
  | .tracked _ n _ _ | .copy n => pure (toString n)
  | .value v => v.display facts spread

/-- A container in writing.  One that is being changed cannot be looked into, and says so. -/
def debugText (r : Nat) (spread : Bool) : Act String := do
  let c ← container r
  if c.kind = .object then
    pure (Text.Layout.record spread "Object" "properties" (toString (← size r)))
  else if c.access = .exclusive then
    pure ((if c.kind.isSet then "OrderedSet" else "OrderedMap") ++ " \x7b <borrowed> \x7d")
  else sharing r do
    let entries ← readStore r (·.entries)
    if c.kind.isSet then do
      pure (Text.Layout.braces spread (← entries.mapM fun (k, _) => k.display facts spread))
    else do
      pure (Text.Layout.table spread (← entries.mapM fun (k, i) => do
        pure (← k.display facts spread, ← displayItem spread i)))

/-! ## snapshots -/

/-- The contents of a container: entries of a map or an object, elements of a set. -/
def showContents (w : World) (c : Container) : List Shown :=
  match c.store.entries with
  | .error _ => []
  | .ok entries => entries.map fun (k, i) =>
    if c.kind.isSet then w.showKeyOf c.kind k
    else .pair (w.showKeyOf c.kind k) (w.showItem i)

/-- Every name of a container, with its contents. -/
def snapshot (w : World) : List (String × List Shown) :=
  w.names.filterMap fun (name, b) =>
    match b with
    | .realm _ => none
    | .object r =>
      match Table.get? r w.cells with
      | some ⟨_, .container c⟩ => some (name, w.showContents c)
      | _ => none

end LiveOrder.World
