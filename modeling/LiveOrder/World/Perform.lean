import LiveOrder.World.Functions

/-!
# Operations

* `World.perform`   one operation of a program, given how the programs inside it are run.

The other definitions are its parts: names come and go (`bindName`), iterators are taken from their
names for the time of a step (`withIterator`), and what an operation yields is turned into a part
of its result and released (`consume`).
-/

namespace LiveOrder

namespace World

variable (run : Runner)

/-! ## names and iterators -/

/-- Binds a name to something that has a handle for it; what it was bound to is released. -/
def bindName (name : String) (b : Binding) : Act Unit := do
  match ← rebind name b with
  | none => pure ()
  | some old => discard run (old.refs.map .handle)

/-- Opens a name for a cursor; a cursor that had the name is closed. -/
def install (it : String) (x : Iterator) : Act Unit := do
  let old := Table.get? it (← get).iterators
  modify fun w => { w with iterators := Table.put it x w.iterators }
  match old with
  | none => pure ()
  | some old => closeWalk run old.walk

/-- Takes an iterator away from its name. -/
def takeIterator (it : String) : Act Iterator := do
  match Table.get? it (← get).iterators with
  | none => throw (.noIterator it)
  | some x => do
    modify fun w => { w with iterators := Table.erase it w.iterators }
    pure x

/-- An operation on an iterator, which has no name meanwhile. -/
def withIterator {α : Type} (it : String) (body : Iterator → Act α) : Act α := do
  let x ← takeIterator it
  Act.always (body x) (install run it x)

/-! ## operations -/

/-- A yield as a part of a result; the copy is released. -/
def consume (kind : Kind) (y : Yield) : Act Shown := do
  let shown := (← get).showYield kind y
  discard run y.debris
  pure shown

/-- A container of its own, filled one by one. -/
def build (kind : Kind) (entries : List (Query × Item)) : Act Nat := do
  let r ← newContainer kind
  Act.onFailure (putEach run r entries) (discard run [.handle r])
  pure r

/-- Stores entries in a container.  An object takes them one by one as they are read, the others
when all of them have been read. -/
def store (r : Nat) (kind : Kind) (entries : List (Term × Payload)) : Act Unit :=
  match kind with
  | .object => entries.forM fun entry => do putEach run r (← readEntries run kind [entry])
  | _ => do putEach run r (← readEntries run kind entries)

/-- Only the given kinds of containers have the operation. -/
def require (known : Bool) : Act Unit :=
  if known then pure () else throw (.misuse .operation)

/-- A set tells whether the element is new, a map shows the value that was replaced. -/
def insert (r : Nat) (kind : Kind) (q : Query) (item : Item) : Act Result := do
  let outcome ← upsert run r q item
  match outcome with
  | .inserted _ => pure (if kind.isSet then .flag outcome.isInserted else .shown .absent)
  | .updated _ key previous =>
    if kind.isSet then do
      discard run [.key key, .item previous]
      pure (.flag outcome.isInserted)
    else do
      Act.onFailure (discard run [.key key]) (discard run [.item previous])
      let shown := (← get).showItem previous
      discard run [.item previous]
      pure (.shown shown)

/-- One step of an iterator as a part of a result. -/
def nextShown (x : Iterator) : Act Shown := do
  match ← advance run x.walk x.kind x.selection with
  | none => pure .absent
  | some y => consume run x.kind y

def nextEach (x : Iterator) : Nat → Act (List Shown)
  | 0 => pure []
  | n + 1 => do
    let s ← nextShown run x
    let rest ← nextEach x n
    pure (s :: rest)

/-- What a callback is given at an entry: the value and the key. -/
def visitShown (w : World) (kind : Kind) : Yield → Shown
  | .entry k i => .pair (w.showItem i) (w.showKeyOf kind k)
  | .key k => .pair (w.showKeyOf kind k) (w.showKeyOf kind k)
  | y => w.showYield kind y

def yieldKey : Yield → Option Key
  | .key k | .entry k _ | .twice k _ => some k
  | .item _ => none

/-- A visit: the callback's programs run for the first visits only. -/
def visit (kind : Kind) (each : List Step) (atVisit : List (Nat × List Step)) (limit : Nat)
    (n : Nat) (y : Yield) : Act Visit := do
  let shown := (← get).visitShown kind y
  let body := if n < limit then each ++ (Table.get? n atVisit).getD [] else []
  let running := if body.isEmpty then pure [] else run body
  let acts ← Act.always
    (match yieldKey y with
      | some k => duringVisit run k running
      | none => running)
    (discard run y.debris)
  pure (.mk shown acts)

def showToken (w : World) : Token → ShownToken
  | .ref r => .ref (w.nameOf r)
  | t => .plain t

def inspection (v : Value) : Act Inspection := do
  let w ← get
  let debug ← v.display facts false
  pure
    { typeName := v.typeName
      isUndefined := v.isUndefined
      isFunction := v.function?.isSome
      isObject := v.object?.isSome
      debug := debug
      token := w.showToken v.token
      canonical := w.showValue v.canonical }

def readArgs : List Term → List Value → Act (List Value)
  | [], done => pure done
  | t :: rest, done => do
    let v ← Act.onFailure (readValue t) (discard run (done.map fun v => .item (.value v)))
    readArgs rest (done ++ [v])

/-- One operation. -/
def perform : Op → Act Result
  | .container kind name entries => do
    let r ← build run kind (← readEntries run kind entries)
    bindName run name (.object r)
    pure .nothing
  | .allocation name text => do
    let r ← allocate (.allocation text)
    bindName run name (.object r)
    pure .nothing
  | .share c name => do
    bindName run name (← readBinding c)
    pure .nothing
  | .unbind name => do
    match ← unbound name with
    | none => pure (.flag false)
    | some old => do
      discard run (old.refs.map .handle)
      pure (.flag true)
  | .identical c d =>
    withTarget run c fun r => withTarget run d fun s => pure (.flag (r = s))
  | .put c entries =>
    withContainer run c fun r kind => do
      store run r kind entries
      pure (.chained (← size r))
  | .extend c entries =>
    withContainer run c fun r kind => do
      require (kind ≠ .object)
      store run r kind (entries.filter (·.2.fits kind))
      pure (.size (← size r))
  | .insert c k v =>
    withContainer run c fun r kind => do
      require (kind ≠ .object)
      let q ← readQueryFor kind k
      let item ← if kind.isSet then pure .unit
        else Act.onFailure (readItem kind v) (discard run [.key q.key])
      insert run r kind q item
  | .get c k =>
    withContainer run c fun r kind => do
      require !kind.isSet
      withQuery run kind k fun q => do
        match ← lookup run r q with
        | none => pure (.shown .absent)
        | some item => do
          let shown := (← get).showItem item
          discard run [.item item]
          pure (.shown shown)
  | .has c k =>
    withContainer run c fun r kind =>
      withQuery run kind k fun q => do pure (.flag (← has run r q))
  | .delete c k =>
    withContainer run c fun r kind => do
      require (kind ≠ .object)
      withQuery run kind k fun q => do pure (.flag (← delete run r q))
  | .clear c =>
    withContainer run c fun r kind => do
      require (kind ≠ .object)
      clear run r
      pure (.size (← size r))
  | .measure c =>
    withContainer run c fun r kind => do
      let len ← size r
      if kind = .object then pure (.objectExtent len ((← size r) = 0))
      else pure (.extent len (← size r) ((← size r) = 0))
  | .list c selection limit =>
    withContainer run c fun r kind => do
      pure (.items (← list run r selection (consume run kind) limit))
  | .forEach c each atVisit limit =>
    withContainer run c fun r kind => do
      require (kind ≠ .object)
      pure (.visits (← forEach run r (visit run kind each atVisit limit)) true)
  | .debug c spread =>
    withTarget run c fun r => do
      match (← cell r).body with
      | .container _ => do pure (.text (← debugText r spread))
      | .function _ => pure (.text "[Function]")
      | .allocation _ => throw (.misuse .operation)
  | .iterate c selection it =>
    withContainer run c fun r kind => do
      let id ← openWalk r
      install run it ⟨id, kind, selection⟩
      pure .nothing
  | .next it none =>
    withIterator run it fun x => do pure (.shown (← nextShown run x))
  | .next it (some n) =>
    withIterator run it fun x => do pure (.items (← nextEach run x n))
  | .drain it limit => do
    let x ← takeIterator it
    pure (.items (← takeLast run x.walk x.kind x.selection (consume run x.kind) limit))
  | .close it => do
    let x ← takeIterator it
    closeWalk run x.walk
    pure .nothing
  | .realm name unboundThis global => do
    let r ← match global with
      | some g => readNamed g (isKind .object) .value
      | none => newContainer .object
    Act.onFailure
      (do
        retain r
        bindName run (name ++ ".global") (.object r))
      (discard run [.handle r])
    let policy := match unboundThis with
      | .undefined => "Undefined"
      | .global => "Global"
    let object ← Act.onFailure (debugText r false) (discard run [.handle r])
    bindName run name (.realm ⟨r, unboundThis⟩)
    pure (.realm policy
      ("Realm \x7b global: " ++ object ++ ", unbound_this: " ++ policy ++ " \x7d"))
  | .construct kind home name entries plain => do
    let _ ← realmNamed home
    let entries ← readEntries run kind entries
    Act.onFailure (constructing (if kind.isSet then "Set" else "Map") plain)
      (discard run (entries.flatMap fun (q, i) => [.key q.key, .item i]))
    let r ← build run kind entries
    bindName run name (.object r)
    pure .constructed
  | .realmForEach home c callback receiver => do
    let here ← realmNamed home
    holding run here.global do
      withValue run callback fun callback =>
        withValue? run receiver fun given =>
          withContainer run c fun r kind => do
            require (kind = .scriptMap ∨ kind = .scriptSet)
            realmForEach run here r kind callback given
    pure .nothing
  | .function name body limit result => do
    let r ← allocate (.function ⟨name, body, limit, result, 0⟩)
    bindName run name (.object r)
    pure .nothing
  | .call f given args =>
    withValue run f fun f => do
      match f.function? with
      | none => throw (.misuse .notFunction)
      | some f =>
        withValue run given fun given => do
          let args ← readArgs run args []
          Act.always
            (do
              let result ← invoke run f given args
              let shown := (← get).showValue result
              discardValue run result
              pure (.shown (.term shown)))
            (discard run (args.map fun v => .item (.value v)))
  | .same a b =>
    withValue run a fun a => withValue run b fun b => pure (.flag (a.same b))
  | .inspect v =>
    withValue run v fun v => do pure (.inspected (← inspection v))
  | .unknown => throw (.misuse .operation)

end World

end LiveOrder
