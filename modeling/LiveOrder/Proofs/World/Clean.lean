import LiveOrder.World.Run

/-!
# What holds throughout an answer

* `Failure.Internal`   failures of a store or of a handle itself, as opposed to refusals and misuse;
* `Failure.IsRefusal`  failures of operations on a container that is in use in a conflicting way;
* `Answer.Throughout`, `Event.Throughout`, …   what is said of every failure and of every notice in an
                       answer, and in any answer inside it;
* `Answer.Clean`, …    no failure is internal.

Programs are nested, and so are their answers: a failure that was caught by an inner program is
found only in the log of an outer one.
-/

namespace LiveOrder

namespace Failure

def Internal : Failure → Prop
  | .fault _ | .dangling _ => True
  | _ => False

/-- The failure of an operation on a container that is in use in a conflicting way. -/
def IsRefusal : Failure → Prop
  | .conflict | .reentrant .. => True
  | _ => False

/-- On the way out of an action one failure gives way to another, or stays. -/
theorem not_leaving {P : Failure → Prop} {e : Failure} {x : Except Failure Unit} (he : ¬P e)
    (hx : ∀ f, x = .error f → ¬P f) : ¬P (e.leaving x) := by
  cases x with
  | ok _ => exact he
  | error f =>
    show ¬P (if e.unwinds then e else f)
    split
    · exact he
    · exact hx f rfl

theorem not_internal_leaving {e : Failure} {x : Except Failure Unit} (he : ¬e.Internal)
    (hx : ∀ f, x = .error f → ¬f.Internal) : ¬(e.leaving x).Internal := not_leaving he hx

theorem not_isRefusal_leaving {e : Failure} {x : Except Failure Unit} (he : ¬e.IsRefusal)
    (hx : ∀ f, x = .error f → ¬f.IsRefusal) : ¬(e.leaving x).IsRefusal := not_leaving he hx

end Failure

section
variable (P : Failure → Prop) (N : Notice → Prop)

mutual

inductive Event.Throughout : Event → Prop where
  | asked {key : Term} {acts : Option (List Answer)}
      (h : ∀ l, acts = some l → ∀ a ∈ l, Answer.Throughout a) : Event.Throughout (.asked key acts)
  | released {n : Int} {acts : Option (List Answer)}
      (h : ∀ l, acts = some l → ∀ a ∈ l, Answer.Throughout a) : Event.Throughout (.released n acts)
  | copied {n : Int} {acts : List Answer} (h : ∀ a ∈ acts, Answer.Throughout a) :
      Event.Throughout (.copied n acts)
  | called {name : String} {self : Term} {args : List Term} {acts : List Answer}
      (h : ∀ a ∈ acts, Answer.Throughout a) : Event.Throughout (.called name self args acts)
  | notice {n : Notice} (h : N n) : Event.Throughout (.notice n)

inductive Visit.Throughout : Visit → Prop where
  | mk {item : Shown} {acts : List Answer} (h : ∀ a ∈ acts, Answer.Throughout a) :
      Visit.Throughout (.mk item acts)

inductive Result.Throughout : Result → Prop where
  | visits {l : List Visit} {same : Bool} (h : ∀ v ∈ l, Visit.Throughout v) :
      Result.Throughout (.visits l same)
  | plain {r : Result} (h : ∀ l same, r ≠ .visits l same) : Result.Throughout r

inductive Answer.Throughout : Answer → Prop where
  | done {r : Result} {log : List Event} (hr : Result.Throughout r)
      (h : ∀ e ∈ log, Event.Throughout e) : Answer.Throughout (.mk (.ok r) log)
  | failed {e : Failure} {log : List Event} (he : P e) (h : ∀ e ∈ log, Event.Throughout e) :
      Answer.Throughout (.mk (.error e) log)

end

end

/-! ## answers without internal failures -/

abbrev Event.Clean : Event → Prop := Event.Throughout (fun e => ¬e.Internal) fun _ => True

abbrev Visit.Clean : Visit → Prop := Visit.Throughout (fun e => ¬e.Internal) fun _ => True

abbrev Result.Clean : Result → Prop := Result.Throughout (fun e => ¬e.Internal) fun _ => True

abbrev Answer.Clean : Answer → Prop := Answer.Throughout (fun e => ¬e.Internal) fun _ => True

/-- The outcome of an action: a result with a property, or a failure that is not internal. -/
def Outcome {α : Type} (p : α → Prop) : Except Failure α → Prop
  | .ok a => p a
  | .error e => ¬e.Internal

/-- All but the visits of a walk. -/
def Result.isPlain : Result → Bool
  | .visits .. => false
  | _ => true

theorem Result.Throughout.of_plain {P : Failure → Prop} {N : Notice → Prop} {r : Result}
    (h : r.isPlain = true) : r.Throughout P N := by
  refine .plain fun l same e => ?_
  rw [e] at h
  cases h

theorem Answer.clean_of_outcome {outcome : Except Failure Result} {log : List Event}
    (h : Outcome Result.Clean outcome) (hlog : ∀ e ∈ log, e.Clean) :
    (Answer.mk outcome log).Clean := by
  cases outcome with
  | ok r => exact .done h hlog
  | error e => exact .failed h hlog

end LiveOrder
