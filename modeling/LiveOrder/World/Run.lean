import LiveOrder.World.Perform

/-!
# Running programs

* `Event.byRank`     the order of a log whose releases come in no order of their own;
* `World.answer`     an operation with its log, and with its failure caught unless it escapes;
* `World.runSteps`   programs, nested so many deep;
* `Program.run`      a program at the top, with the contents of all containers on demand.

The programs inside an operation are run by the runner of one level less, so the nesting decides
that a run ends.
-/

namespace LiveOrder

/-! ## the order of logs -/

namespace Event

/-- The number by which an entry is ordered among releases whose order is of no meaning. -/
def rank : Event → Option Int
  | .released n _ => some n
  | _ => none

/-- Entries without a number come first, the others by their number. -/
def before (a b : Event) : Bool :=
  match a.rank, b.rank with
  | none, _ => true
  | some _, none => false
  | some m, some n => m ≤ n

def insertByRank (e : Event) : List Event → List Event
  | [] => [e]
  | d :: ds => if e.before d then e :: d :: ds else d :: insertByRank e ds

def byRank (log : List Event) : List Event := log.foldr insertByRank []

theorem insertByRank_perm (e : Event) (log : List Event) :
    (insertByRank e log).Perm (e :: log) := by
  induction log with
  | nil => exact .refl _
  | cons d ds ih =>
    unfold insertByRank
    split
    · exact .refl _
    · exact (ih.cons d).trans (.swap e d ds)

/-- Ordering a log neither adds nor drops an entry. -/
theorem byRank_perm (log : List Event) : (byRank log).Perm log := by
  unfold byRank
  induction log with
  | nil => exact .refl _
  | cons e es ih => exact (insertByRank_perm e _).trans (ih.cons e)

end Event

namespace Op

/-- The operations that may give back a whole arena at once, whose order is of no meaning. -/
def isSweeping (op : Op) (outcome : Except Failure Result) : Bool :=
  match op, outcome with
  | .clear _, _ | .unbind _, _ | .close _, _ | .drain .., _ => true
  | .next .., .ok (.shown .absent) => true
  | _, _ => false

end Op

/-! ## programs -/

namespace World

/-- An operation with its log.  A failure that escapes takes the log with it. -/
def answer (run : Runner) (s : Step) : Act Answer := do
  let w ← get
  if w.limits.ops ≤ w.spent then pure (.mk (.error (.misuse .tooDeep)) [])
  else do
    modify fun w => { w with spent := w.spent + 1, moments := w.moment :: w.moments }
    let (outcome, log) ← logged (enclosed run (perform run s.op))
    match outcome with
    | .error e => if s.escapes && e.unwinds then throw e
    | .ok _ => pure ()
    pure (.mk outcome (if s.op.isSweeping outcome then Event.byRank log else log))

def answerEach (run : Runner) : List Step → Act (List Answer)
  | [] => pure []
  | s :: rest => do
    let a ← answer run s
    let more ← answerEach run rest
    pure (a :: more)

/-- Programs nested at most so many deep. -/
def runSteps : Nat → Runner
  | 0 => fun steps => pure (steps.map fun _ => .mk (.error (.misuse .tooDeep)) [])
  | n + 1 => answerEach (runSteps n)

/-- One operation at the top, where nothing is left to unwind. -/
def answerTop (op : Op) : Act Answer := do
  answer (runSteps (← get).limits.nesting) (.mk op false)

end World

/-- A program at the top: its operations one after the other. -/
structure Program where
  ops : List Op
  tracing : Bool
  /-- the contents of all containers are shown after each operation -/
  snapshots : Bool
  limits : Limits := .standard

namespace Program

/-- What an operation at the top shows. -/
structure Reply where
  answer : Answer
  state : Option (List (String × List Shown))

def runFrom (snapshots : Bool) (w : World) : List Op → List Reply × World
  | [] => ([], w)
  | op :: rest =>
    match World.answerTop op w with
    | (outcome, w) =>
      let answer := match outcome with
        | .ok a => a
        | .error e => .mk (.error e) []
      let (replies, last) := runFrom snapshots w rest
      (⟨answer, if snapshots then some w.snapshot else none⟩ :: replies, last)

def run (p : Program) : List Reply := (runFrom p.snapshots (.initial p.limits p.tracing) p.ops).1

end Program

end LiveOrder
