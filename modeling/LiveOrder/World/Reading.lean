import LiveOrder.World.Cursor

/-!
# Reading terms

Terms stand for keys and values; names in them are looked up when they are read.  What is read
holds handles of its own on the objects it mentions, and belongs to the reader.

* `World.readValue`, `World.readQuery`, `World.readItem`   a value, a key with the watches around
  it, and what is to be stored under it;
* `World.readEntries`   many keys with what is to be stored under them;
* `World.withQuery`, `World.withTarget`   for the time of an operation.
-/

namespace LiveOrder.World

variable (run : Runner)

/-! ## values and keys -/

/-- The object of a name, with a handle, if it is of the wanted sort. -/
def readNamed (name : String) (wanted : Body → Bool) (otherwise : Misuse) : Act Nat := do
  let r ← named name
  if wanted (← cell r).body then do
    retain r
    pure r
  else throw (.misuse otherwise)

def isKind (kind : Kind) : Body → Bool
  | .container c => c.kind = kind
  | _ => false

def isFunction : Body → Bool
  | .function _ => true
  | _ => false

def isAllocation : Body → Bool
  | .allocation _ => true
  | _ => false

def copyValue (v : Value) : Act Value := do
  retainAll v.refs
  pure v

def readValue : Term → Act Value
  | .undefined | .initial => pure .undefined
  | .null => pure .null
  | .bool b => pure (.bool b)
  | .number bits => pure (.number bits)
  | .smallInt n => pure (.number (Number.ofInt n))
  | .text .slice s | .text .owned s => pure (.text s)
  | .object name => do pure (.object (← readNamed name (isKind .object) .value))
  | .function name => do pure (.function (← readNamed name isFunction .value))
  | .scriptMap name => do pure (.map (← readNamed name (isKind .scriptMap) .value))
  | .scriptSet name => do pure (.set (← readNamed name (isKind .scriptSet) .value))
  | .receiver => do
    match (← get).calls with
    | call :: _ => copyValue call.receiver
    | [] => throw (.misuse .value)
  | .arg i => do
    match (← get).calls with
    | call :: _ => copyValue (call.args.getD i .undefined)
    | [] => throw (.misuse .value)
  | _ => throw (.misuse .value)

def readQuery : Term → Act Query
  | .text form s => pure (.plain (.text form s))
  | .unit => pure (.plain .unit)
  | .bool b => pure (.plain (.bool b))
  | .char c => pure (.plain (.char c))
  | .double bits => pure (.plain (.double bits))
  | .single bits => pure (.plain (.single bits))
  | .int type n => pure (.plain (.int type n))
  | .shared atomic name => do
    pure (.plain (.shared atomic (← readNamed name isAllocation .key)))
  | .map name => do pure (.plain (.map (← readNamed name (isKind .map) .key)))
  | .set name => do pure (.plain (.set (← readNamed name (isKind .set) .key)))
  | .value t => do pure (.plain (.value (← readValue t)))
  | .reference t => do pure (.reference (← readQuery t))
  | .counted t => do pure (.counted (← readQuery t))
  | .reacting t body => do pure (.reacting (← readQuery t) body)
  | .current => do
    match (← get).visiting with
    | k :: _ => do pure (.plain (← copyKey k))
    | [] => throw (.misuse .key)
  | _ => throw (.misuse .key)

/-- A key for a container of the given kind. -/
def readQueryFor (kind : Kind) (t : Term) : Act Query :=
  match kind with
  | .map | .set => readQuery t
  | .scriptMap | .scriptSet => do pure (.plain (.value (← readValue t)))
  | .object =>
    match t with
    | .property s => pure (.plain (.text .owned s))
    | _ => throw (.misuse .key)

/-- Another tracked number is made. -/
def supply : Act Nat := do
  let id := (← get).freshNumber
  modify fun w => { w with freshNumber := id + 1 }
  pure id

/-- What is stored under a key in a container of the given kind. -/
def readItem (kind : Kind) (p : Payload) : Act Item :=
  match kind, p with
  | .map, .tracked n onRelease onCopy => do
    pure (.tracked (← supply) n onRelease onCopy)
  | .scriptMap, .value t | .object, .value t => do pure (.value (← readValue t))
  | .set, .unit | .scriptSet, .unit => pure .unit
  | _, _ => throw (.misuse .value)

/-- Keys with what is to be stored under them.  If one cannot be read those before it are
released. -/
def readEntriesAfter (kind : Kind) (done : List (Query × Item)) :
    List (Term × Payload) → Act (List (Query × Item))
  | [] => pure done
  | (t, p) :: rest => do
    let entry ← Act.onFailure
      (do
        let q ← readQueryFor kind t
        let item ← Act.onFailure (readItem kind p) (discard run [.key q.key])
        pure (q, item))
      (discard run (done.flatMap fun (q, i) => [.key q.key, .item i]))
    readEntriesAfter kind (done ++ [entry]) rest

def readEntries (kind : Kind) (entries : List (Term × Payload)) : Act (List (Query × Item)) :=
  readEntriesAfter run kind [] entries

/-! ## for the time of an operation -/

def discardValue (v : Value) : Act Unit := discard run [.item (.value v)]

def withValue {α : Type} (t : Term) (body : Value → Act α) : Act α := do
  let v ← readValue t
  Act.always (body v) (discardValue run v)

def withQuery {α : Type} (kind : Kind) (t : Term) (body : Query → Act α) : Act α := do
  let q ← readQueryFor kind t
  Act.always (body q) (discard run [.key q.key])

def withValue? {α : Type} (t : Option Term) (body : Option Value → Act α) : Act α :=
  match t with
  | none => body none
  | some t => withValue run t fun v => body (some v)

/-- What a target is bound to, with handles of its own. -/
def readBinding : Target → Act Binding
  | .named name => do
    let b ← binding name
    retainAll b.refs
    pure b
  | .value t => do
    let v ← readValue t
    match v.refs with
    | [r] => pure (.object r)
    | _ => throw (.misuse .target)

/-- An operation on an object, with a handle of its own. -/
def withTarget {α : Type} (c : Target) (body : Nat → Act α) : Act α := do
  match c with
  | .named name => do
    let r ← named name
    holding run r (body r)
  | .value t => withValue run t fun v =>
    match v.refs with
    | [r] => body r
    | _ => throw (.misuse .target)

/-- An operation on a container, which is of the given kind. -/
def withContainer {α : Type} (c : Target) (body : Nat → Kind → Act α) : Act α :=
  withTarget run c fun r => do body r (← container r).kind

end LiveOrder.World
