import LiveOrder.World.Basic

/-!
# Names

Programs speak of shared objects by name, and so do answers.

* `World.rebind`, `World.unbound`   bindings come and go; each holds a handle;
* `World.named`                   the object bound to a name;
* `World.nameOf`                  the name of an object in answers;
* `World.showValue`, `showKey`     values and keys as terms.
-/

namespace LiveOrder

namespace Binding

/-- The objects that a binding holds. -/
def refs : Binding → List Nat
  | .object r => [r]
  | .realm x => [x.global]

end Binding

namespace World

/-! ## bindings -/

def binding (name : String) : Act Binding := do
  match Table.get? name (← get).names with
  | some b => pure b
  | none => throw (.noSuch name)

def named (name : String) : Act Nat := do
  match ← binding name with
  | .object r => pure r
  | .realm _ => throw (.misuse .target)

def realmNamed (name : String) : Act Realm := do
  match ← binding name with
  | .realm r => pure r
  | .object _ => throw (.misuse .target)

/-- Binds a name, and hands back what it was bound to. -/
def rebind (name : String) (b : Binding) : Act (Option Binding) := do
  let old := Table.get? name (← get).names
  modify fun w => { w with names := Table.put name b w.names }
  pure old

/-- Takes a name away, and hands back what it was bound to. -/
def unbound (name : String) : Act (Option Binding) := do
  let old := Table.get? name (← get).names
  modify fun w => { w with names := Table.erase name w.names }
  pure old

/-! ## names in answers -/

/-- The first name, in the order of code points, that is bound to an object. -/
def nameOf (w : World) (r : Nat) : String :=
  let names := w.names.filterMap fun (name, b) =>
    match b with
    | .object s => if s = r then some name else none
    | .realm _ => none
  match names with
  | [] => "?"
  | n :: rest => rest.foldl (fun m n => if n < m then n else m) n

def showValue (w : World) : Value → Term
  | .undefined => .undefined
  | .null => .null
  | .bool b => .bool b
  | .number bits => .number bits
  | .text s => .text .slice s
  | .object r => .object (w.nameOf r)
  | .function r => .function (w.nameOf r)
  | .map r => .scriptMap (w.nameOf r)
  | .set r => .scriptSet (w.nameOf r)

def showKey (w : World) : Key → Term
  | .text form s => .text form s
  | .unit => .unit
  | .bool b => .bool b
  | .char c => .char c
  | .double bits => .double bits
  | .single bits => .single bits
  | .int type n => .int type n
  | .shared atomic r => .shared atomic (w.nameOf r)
  | .map r => .map (w.nameOf r)
  | .set r => .set (w.nameOf r)
  | .value v => .value (w.showValue v)
  | .reference k => .reference (w.showKey k)

end World

end LiveOrder
