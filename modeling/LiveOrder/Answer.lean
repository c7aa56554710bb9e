import LiveOrder.Notice
import LiveOrder.Program
import LiveOrder.Store.Chain
import LiveOrder.Text.Layout

/-!
# Answers

What an operation answers: a result or the cause of its failure, and a log of what happened while
it ran.  Keys and values stand in answers as terms, with shared objects by name.

* `Failure`   causes of failure, and which of them unwind (`Failure.unwinds`);
* `Shown`     parts of results that are keys, values or absent;
* `Result`, `Event`, `Answer`   results, log entries, and both together.
-/

namespace LiveOrder

/-- The operations of a store that must not be entered again while one of them is in progress. -/
inductive Operation where
  | find
  | containsKey
  | lookup
  | upsert
  | remove
  | clear
  | advance
  | unpin
  deriving DecidableEq, Repr

namespace Operation

def name : Operation → String
  | .find => "find"
  | .containsKey => "contains_key"
  | .lookup => "lookup"
  | .upsert => "upsert"
  | .remove => "remove"
  | .clear => "clear"
  | .advance => "advance"
  | .unpin => "unpin"

end Operation

/-- What is wrong with an input. -/
inductive Misuse where
  | target
  | notFunction
  | value
  | key
  | operation
  | tooDeep
  deriving DecidableEq, Repr

namespace Misuse

def message : Misuse → String
  | .target => "target"
  | .notFunction => "not a function"
  | .value => "value"
  | .key => "key"
  | .operation => "op"
  | .tooDeep => "too deep"

end Misuse

inductive Failure where
  /-- the container is in use in a conflicting way -/
  | conflict
  /-- a store operation was entered while another one is searching -/
  | reentrant (inner outer : Operation)
  | fault (f : Fault)
  /-- a loop did not end within its bound -/
  | exhausted
  /-- a shared object is gone that a handle names -/
  | dangling (r : Nat)
  /-- a constructor was called without construction -/
  | construction (typeName : String)
  | invalidArgument (argument expected : String)
  | noSuch (name : String)
  | noIterator (name : String)
  | misuse (m : Misuse)
  deriving DecidableEq, Repr

namespace Failure

/-- The failure comes from a container and unwinds the operations around it unless it is caught. -/
def unwinds : Failure → Bool
  | .conflict | .reentrant .. | .fault _ | .exhausted | .dangling _ => true
  | _ => false

/-- What a failure comes to when more is done on its way out.  An answer that is still being
returned gives way to a failure there; a failure that unwinds stays. -/
def leaving (e : Failure) : Except Failure Unit → Failure
  | .ok _ => e
  | .error later => if e.unwinds then e else later

theorem leaving_of_unwinds {e : Failure} (h : e.unwinds = true) (x : Except Failure Unit) :
    e.leaving x = e := by
  cases x <;> simp [leaving, h]

/-- The wording of a failure, for those that have one. -/
def message : Failure → String
  | .conflict => "in use"
  | .reentrant inner outer =>
    "reentrant call into `" ++ inner.name ++ "` while `" ++ outer.name ++ "` is in progress"
  | .fault _ => "internal failure"
  | .exhausted => "too deep"
  | .dangling _ => "internal failure"
  | .construction typeName => "`" ++ typeName ++ "` must be constructed, not invoked plainly"
  | .invalidArgument argument expected => argument ++ " is not " ++ expected
  | .noSuch name => name
  | .noIterator name => name
  | .misuse m => m.message

/-- A failure of the script surface, written out as a record. -/
def debug : Failure → String
  | .construction typeName =>
    Text.Layout.record false "Construction" "type_name" (Text.quote typeName)
  | .invalidArgument argument expected =>
    "InvalidArgument \x7b argument: " ++ Text.quote argument ++ ", expected: " ++
      Text.quote expected ++ " \x7d"
  | e => e.message

end Failure

/-- A part of a result. -/
inductive Shown where
  | term (t : Term)
  | number (n : Int)
  | pair (a b : Shown)
  | absent

/-- A token, a reference by name. -/
inductive ShownToken where
  | plain (t : Token)
  | ref (name : String)

/-- What can be said about a script value. -/
structure Inspection where
  typeName : String
  isUndefined : Bool
  isFunction : Bool
  isObject : Bool
  debug : String
  token : ShownToken
  canonical : Term

mutual

inductive Event where
  /-- a watched key was asked for its token -/
  | asked (key : Term) (acts : Option (List Answer))
  /-- a tracked value was released -/
  | released (n : Int) (acts : Option (List Answer))
  /-- a tracked value was copied and reacted -/
  | copied (n : Int) (acts : List Answer)
  | called (name : String) (self : Term) (args : List Term) (acts : List Answer)
  | notice (n : Notice)

inductive Visit where
  | mk (item : Shown) (acts : List Answer)

inductive Result where
  | nothing
  | flag (b : Bool)
  | size (n : Nat)
  /-- a chained call gave back its container, now of this size -/
  | chained (size : Nat)
  | extent (len size : Nat) (isEmpty : Bool)
  | objectExtent (len : Nat) (isEmpty : Bool)
  | shown (s : Shown)
  | items (l : List Shown)
  | visits (l : List Visit) (same : Bool)
  | text (s : String)
  | realm (policy debug : String)
  | constructed
  | inspected (i : Inspection)

inductive Answer where
  | mk (outcome : Except Failure Result) (log : List Event)

end

end LiveOrder
