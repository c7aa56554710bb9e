import LiveOrder.Answer
import LiveOrder.Store.Basic

/-!
# The world of a program

Shared objects, the names bound to them, the cursors walking over them, and what is going on at
the moment.

* `Item`, `Container`, `Body`, `Cell`   shared objects, each with the number of its handles;
* `Walk`, `Iterator`    cursors, and the names under which programs open them; `Yield`, what a step
                        of a cursor yields, which is a copy;
* `Passage`, `Release`, `Origin`, `Moment`  what is kept on record of whole walks, of releases, of the
                        keys that entries were made for, and of the times when user code runs;
* `World`               everything together, with the bounds of a run (`Limits`);
* `Act`                 an action: a change of the world that may fail, and keeps what it changed
                        when it fails;
* `always`, `onFailure`   what is done at the end of an action, or only if it fails.
-/

namespace LiveOrder

/-! ## shared objects -/

/-- What a container stores under a key. -/
inductive Item where
  | unit
  /-- a tracked number as it was stored, known by its id among all that were made, with its
  reactions -/
  | tracked (id : Nat) (n : Int) (onRelease onCopy : Option (List Step))
  /-- a copy of a tracked number, without reactions -/
  | copy (n : Int)
  | value (v : Value)

/-- The uses of a container that are going on: any number of readers, or one writer. -/
inductive Access where
  | shared (readers : Nat)
  | exclusive
  deriving DecidableEq, Repr

/-- Something that goes on in a container: it is read, or changed by an operation, or an operation
searches in it. -/
inductive Use where
  | reading
  | changing (op : Operation)
  | searching (op : Operation)
  deriving DecidableEq, Repr

structure Container where
  kind : Kind
  store : Store Item
  access : Access
  /-- the store operation that is searching -/
  active : Option Operation
  /-- what goes on and has not ended, innermost first -/
  uses : List Use

/-- A function: what each call runs, for how many calls it runs it, and the calls so far. -/
structure FunctionBody where
  name : String
  body : List Step
  limit : Nat
  result : Term
  calls : Nat

inductive Body where
  | container (c : Container)
  | function (f : FunctionBody)
  | allocation (content : String)

structure Cell where
  handles : Nat
  body : Body

/-- A piece of what is no longer needed: something that was stored, or a handle on an object. -/
inductive Debris where
  | item (i : Item)
  | key (k : Key)
  | handle (r : Nat)

structure Realm where
  global : Nat
  unbound : UnboundThis

inductive Binding where
  | object (r : Nat)
  | realm (r : Realm)

/-! ## cursors -/

/-- A cursor: its container until it has come to the end, and the entry it is parked on. -/
structure Walk where
  store : Option Nat
  last : Option Nat
  deriving DecidableEq, Repr

structure Iterator where
  walk : Nat
  kind : Kind
  selection : Selection

/-- What a cursor yields. -/
inductive Yield where
  | key (k : Key)
  | item (i : Item)
  | entry (k : Key) (i : Item)
  | twice (first second : Key)

namespace Yield

def debris : Yield → List Debris
  | .key k => [.key k]
  | .item i => [.item i]
  | .entry k i => [.key k, .item i]
  | .twice a b => [.key a, .key b]

end Yield

/-! ## records -/

/-- The shared objects at one moment. -/
abbrev Objects := List (Nat × Cell)

/-- A visit of a whole walk: the entry that the cursor is parked on, what the user code is given,
and the objects when it begins and when it has ended. -/
structure Stop where
  entry : Option Nat
  given : Yield
  arrived : Objects
  left : Objects

/-- A whole walk so far: its container, the objects at its begin, and its visits. -/
structure Course where
  container : Nat
  begun : Objects
  stops : List Stop

/-- A whole walk that has ended, with the objects at its end. -/
structure Passage extends Course where
  ended : Objects
  /-- the cursor has come to the end, and the walk was not given up at a limit -/
  complete : Bool

/-- The release of a tracked number, and the objects that are left. -/
structure Release where
  id : Nat
  objects : Objects

/-- An entry that was made, with the key that was given for it. -/
structure Origin where
  container : Nat
  entry : Nat
  given : Key

/-- A time when user code runs: the objects and the cursors when an operation of it begins. -/
structure Moment where
  objects : Objects
  walks : List (Nat × Walk)

/-! ## the world -/

/-- A call that is going on. -/
structure Call where
  receiver : Value
  args : List Value

/-- Bounds on a program, so that its run ends. -/
structure Limits where
  /-- operations that are run at most -/
  ops : Nat
  /-- how deep programs are nested at most -/
  nesting : Nat
  /-- rounds after which a loop that ends by itself is given up -/
  rounds : Nat

namespace Limits

def standard : Limits := ⟨20000, 24, 1000000⟩

end Limits

structure World where
  cells : Objects
  fresh : Nat
  names : List (String × Binding)
  walks : List (Nat × Walk)
  freshWalk : Nat
  iterators : List (String × Iterator)
  /-- calls going on, innermost first -/
  calls : List Call
  /-- the keys of visits going on, innermost first -/
  visiting : List Key
  /-- the logs of operations going on, innermost first, each with its latest entry first -/
  frames : List (List Event)
  /-- tracked numbers do not react to being copied, since one of them does so right now -/
  quiet : Bool
  /-- notices are logged -/
  tracing : Bool
  /-- operations run so far -/
  spent : Nat
  /-- internal failures so far, also those that another failure hides, the latest first -/
  faults : List Failure
  /-- pieces whose release was given up at a limit -/
  abandoned : List Debris
  /-- pins that no cursor gives up any more, by container and entry -/
  leaks : List (Nat × Nat)
  /-- pieces that have been released so far -/
  discarded : Nat
  freshNumber : Nat
  /-- tracked numbers that have been stored, each with its container, the latest first -/
  stored : List (Nat × Nat)
  /-- entries that have been made, the latest first -/
  origins : List Origin
  /-- releases of tracked numbers, the latest first -/
  releases : List Release
  /-- whole walks that have ended, the latest first -/
  passages : List Passage
  /-- when the operations of programs began, the latest first -/
  moments : List Moment
  limits : Limits

namespace World

def initial (limits : Limits) (tracing : Bool) : World :=
  { cells := [], fresh := 0, names := [], walks := [], freshWalk := 0, iterators := [], calls := []
    visiting := [], frames := [], quiet := false, tracing := tracing, spent := 0, faults := []
    abandoned := [], leaks := [], discarded := 0, freshNumber := 0, stored := [], origins := []
    releases := [], passages := [], moments := [], limits := limits }

def moment (w : World) : Moment := ⟨w.cells, w.walks⟩

end World

/-! ## actions -/

/-- A change of the world.  A failing action keeps the changes made before it failed. -/
abbrev Act := ExceptT Failure (StateM World)

/-- How a program is run. -/
abbrev Runner := List Step → Act (List Answer)

namespace Act

variable {α β : Type}

/-- The outcome of an action, as a value. -/
def attempt (x : Act α) : Act (Except Failure α) := fun w =>
  let (r, w) := x w
  (.ok r, w)

/-- The cleanup after a failure. -/
def onFailure (body : Act α) (cleanup : Act Unit) : Act α := do
  match ← attempt body with
  | .ok a => pure a
  | .error e => do
    throw (e.leaving (← attempt cleanup))

/-- The end of an action, whether it fails or not. -/
def always (body : Act α) (ending : Act Unit) : Act α := do
  match ← attempt body with
  | .ok a => do
    ending
    pure a
  | .error e => do
    throw (e.leaving (← attempt ending))

/-- An internal failure, which is noted. -/
def fail (e : Failure) : Act α := do
  modify fun w => { w with faults := e :: w.faults }
  throw e

/-- A computation of a store, whose faults fail the action. -/
def ofStore (x : Except Fault α) : Act α :=
  match x with
  | .ok a => pure a
  | .error f => fail (.fault f)

theorem bind_apply (x : Act α) (f : α → Act β) (w : World) :
    (x >>= f) w =
      match x w with
      | (.ok a, w) => f a w
      | (.error e, w) => (.error e, w) := by
  simp only [bind, ExceptT.bind, ExceptT.mk, StateT.bind, ExceptT.bindCont]
  rcases x w with ⟨r, w⟩
  cases r <;> rfl

theorem bind_of_ok {x : Act α} {w v : World} {a : α} (h : x w = (.ok a, v)) (f : α → Act β) :
    (x >>= f) w = f a v := by
  rw [bind_apply, h]

theorem bind_eq_ok {x : Act α} {f : α → Act β} {w v : World} {b : β} :
    (x >>= f) w = (.ok b, v) ↔ ∃ a u, x w = (.ok a, u) ∧ f a u = (.ok b, v) := by
  rw [bind_apply]
  constructor
  · intro h
    rcases hx : x w with ⟨e | a, u⟩
    · rw [hx] at h
      cases h
    · rw [hx] at h
      exact ⟨a, u, rfl, h⟩
  · rintro ⟨a, u, hx, h⟩
    rw [hx]
    exact h

theorem bind_eq_error {x : Act α} {f : α → Act β} {w v : World} {e : Failure} :
    (x >>= f) w = (.error e, v) ↔
      x w = (.error e, v) ∨ ∃ a u, x w = (.ok a, u) ∧ f a u = (.error e, v) := by
  rw [bind_apply]
  constructor
  · intro h
    rcases hx : x w with ⟨e' | a, u⟩
    · rw [hx] at h
      cases h
      exact .inl rfl
    · rw [hx] at h
      exact .inr ⟨a, u, rfl, h⟩
  · rintro (hx | ⟨a, u, hx, h⟩)
    · rw [hx]
    · rw [hx]
      exact h

theorem get_bind_apply (f : World → Act α) (w : World) : ((get : Act World) >>= f) w = f w w := rfl

theorem modify_apply (g : World → World) (w : World) : (modify g : Act PUnit) w = (.ok ⟨⟩, g w) := rfl

theorem modify_bind_apply (g : World → World) (f : PUnit → Act α) (w : World) :
    ((modify g : Act PUnit) >>= f) w = f ⟨⟩ (g w) := rfl

theorem attempt_apply (x : Act α) (w : World) : attempt x w = (.ok (x w).1, (x w).2) := rfl

theorem onFailure_apply (body : Act α) (cleanup : Act Unit) (w : World) :
    onFailure body cleanup w =
      match body w with
      | (.ok a, w) => (.ok a, w)
      | (.error e, w) => (.error (e.leaving (cleanup w).1), (cleanup w).2) := by
  rw [onFailure, bind_apply, attempt_apply]
  rcases body w with ⟨r, w⟩
  cases r <;> rfl

theorem always_apply (body : Act α) (ending : Act Unit) (w : World) :
    always body ending w =
      match body w with
      | (.ok a, w) =>
        match ending w with
        | (.ok _, w) => (.ok a, w)
        | (.error e, w) => (.error e, w)
      | (.error e, w) => (.error (e.leaving (ending w).1), (ending w).2) := by
  rw [always, bind_apply, attempt_apply]
  rcases body w with ⟨r, w⟩
  cases r with
  | error e => rfl
  | ok a =>
    simp only
    rw [bind_apply]
    rcases ending w with ⟨r, w⟩
    cases r <;> rfl

/-- What is done only after a failure does not matter otherwise. -/
theorem onFailure_eq_ok {body : Act α} {cleanup : Act Unit} {w v : World} {a : α} :
    onFailure body cleanup w = (.ok a, v) ↔ body w = (.ok a, v) := by
  rw [onFailure_apply]
  rcases hb : body w with ⟨e | b, u⟩
  · exact ⟨nofun, nofun⟩
  · exact .rfl

/-- An end that is reached without a failure. -/
theorem always_eq_ok {body : Act α} {ending : Act Unit} {w v : World} {a : α} :
    always body ending w = (.ok a, v) ↔ ∃ u, body w = (.ok a, u) ∧ ending u = (.ok (), v) := by
  rw [always_apply]
  rcases hb : body w with ⟨e | b, u⟩
  · exact ⟨nofun, nofun⟩
  · dsimp only
    rcases he : ending u with ⟨e | _, z⟩
    · refine ⟨nofun, ?_⟩
      rintro ⟨u', hu, hend⟩
      cases hu
      rw [he] at hend
      cases hend
    · constructor
      · intro h
        cases h
        exact ⟨u, rfl, he⟩
      · rintro ⟨u', hu, hend⟩
        cases hu
        rw [he] at hend
        cases hend
        rfl

end Act

/-! ## tables -/

namespace Table

variable {κ α : Type} [DecidableEq κ]

def get? (k : κ) (t : List (κ × α)) : Option α := (t.find? (·.1 = k)).map (·.2)

def erase (k : κ) (t : List (κ × α)) : List (κ × α) := t.filter (·.1 ≠ k)

/-- A new row; a row of the same key goes away. -/
def put (k : κ) (a : α) (t : List (κ × α)) : List (κ × α) := (k, a) :: erase k t

/-- Another entry in the row of a key, if there is one. -/
def change (k : κ) (f : α → α) (t : List (κ × α)) : List (κ × α) :=
  t.map fun row => if row.1 = k then (k, f row.2) else row

theorem get?_erase (k j : κ) (t : List (κ × α)) :
    get? j (erase k t) = if j = k then none else get? j t := by
  simp only [get?, erase]
  induction t with
  | nil => simp
  | cons row rows ih =>
    simp only [List.filter_cons, List.find?_cons]
    by_cases hk : row.1 = k <;> by_cases hj : row.1 = j <;> simp_all

theorem get?_put (k j : κ) (a : α) (t : List (κ × α)) :
    get? j (put k a t) = if j = k then some a else get? j t := by
  by_cases h : j = k
  · simp [get?, put, h]
  · have hg : get? j (put k a t) = get? j (erase k t) := by simp [get?, put, Ne.symm h]
    rw [hg, get?_erase, if_neg h, if_neg h]

end Table

namespace World

/-! ## cells -/

def cell (r : Nat) : Act Cell := do
  match Table.get? r (← get).cells with
  | some c => pure c
  | none => Act.fail (.dangling r)

def setBody (r : Nat) (body : Body) : Act Unit :=
  modify fun w => { w with cells := Table.change r (fun c => { c with body }) w.cells }

/-- A new shared object with one handle. -/
def allocate (body : Body) : Act Nat := do
  let r := (← get).fresh
  modify fun w => { w with cells := w.cells ++ [(r, ⟨1, body⟩)], fresh := r + 1 }
  pure r

def newContainer (kind : Kind) : Act Nat :=
  allocate (.container ⟨kind, .empty, .shared 0, none, []⟩)

def container (r : Nat) : Act Container := do
  match (← cell r).body with
  | .container c => pure c
  | _ => throw (.misuse .operation)

def setContainer (r : Nat) (c : Container) : Act Unit := setBody r (.container c)

/-! ## logs -/

def log (e : Event) : Act Unit :=
  modify fun w =>
    match w.frames with
    | [] => w
    | f :: rest => { w with frames := (e :: f) :: rest }

def tell (notices : List Notice) : Act Unit := do
  if (← get).tracing then notices.forM fun n => log (.notice n)

/-- The outcome of an action, and what was logged while it ran. -/
def logged {α : Type} (body : Act α) : Act (Except Failure α × List Event) := do
  modify fun w => { w with frames := [] :: w.frames }
  let outcome ← Act.attempt body
  let log := ((← get).frames.headD []).reverse
  modify fun w => { w with frames := w.frames.tail }
  pure (outcome, log)

end World

end LiveOrder
