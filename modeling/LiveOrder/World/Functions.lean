import LiveOrder.World.Scope
import LiveOrder.World.Written

/-!
# Functions and realms

* `World.invoke`           a call of a function: its body runs, for the first calls only, and then
                           its result is read; a result that cannot be read is undefined;
* `World.receiverFor`      what a callback sees as its receiver;
* `World.realmForEach`     a walk over a script container with a function at every entry.
-/

namespace LiveOrder.World

variable (run : Runner)

/-- A call.  Receiver and arguments stay the caller's; the result is the caller's. -/
def invoke (f : Nat) (receiver : Value) (args : List Value) : Act Value := do
  match (← cell f).body with
  | .function b => do
    let w ← get
    let shownReceiver := w.showValue receiver
    let shownArgs := args.map w.showValue
    setBody f (.function { b with calls := b.calls + 1 })
    let body : Act (List Answer × Value) := do
      let acts ← if b.calls < b.limit then run b.body else pure []
      let result ← Act.attempt (enclosed run (readValue b.result))
      pure (acts, result.toOption.getD .undefined)
    let (acts, result) ← duringCall run receiver args body fun y => discardValue run y.2
    log (.called b.name shownReceiver shownArgs acts)
    pure result
  | _ => throw (.misuse .notFunction)

/-- A given receiver stands unless it is undefined; then the realm decides. -/
def receiverFor (realm : Realm) (given : Option Value) : Act Value :=
  match given with
  | some v => if v.isUndefined then unbound else copyValue v
  | none => unbound
where
  unbound : Act Value :=
    match realm.unbound with
    | .undefined => pure .undefined
    | .global => copyValue (.object realm.global)

/-- The arguments of a callback: the value, the key and the container. -/
def callbackArgs (r : Nat) (kind : Kind) : Yield → Act (List Value)
  | .entry (.value k) (.value v) => do
    retain r
    pure [v, k, .map r]
  | .key (.value k) => do
    let again ← copyValue k
    retain r
    pure [again, k, if kind.isSet then .set r else .map r]
  | y => do
    discard run y.debris
    throw (.misuse .operation)

/-- A walk over a script container that calls a function with the value, the key and the container
at every entry. -/
def realmForEach (realm : Realm) (r : Nat) (kind : Kind) (callback : Value)
    (given : Option Value) : Act Unit := do
  match callback.function? with
  | none => do
    tell [.notCallable callback.typeName]
    throw (.invalidArgument "callback" "a callable function")
  | some f => do
    let receiver ← receiverFor realm given
    Act.always
      (do
        let _ ← forEach run r fun _ y => do
          let args ← callbackArgs run r kind y
          let release := discard run (args.map fun v => .item (.value v))
          let result ← Act.onFailure (invoke run f receiver args) release
          Act.onFailure release (discardValue run result)
          discardValue run result
        pure ())
      (discardValue run receiver)

/-- A constructor was reached by construction, or else fails. -/
def constructing (typeName : String) (plain : Bool) : Act Unit :=
  if plain then do
    tell [.plainCall typeName]
    throw (.construction typeName)
  else pure ()

end LiveOrder.World
