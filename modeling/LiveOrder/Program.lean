import LiveOrder.Key

/-!
# Programs over containers

The language in which user code is written: what runs at the top, in the callback of a walk, in a
function body, and in the reactions of keys and values, which run when a key is asked for its
token, and when a value is released or copied.

* `Kind`       the five kinds of containers;
* `Term`       a key or a value in writing, with shared objects by name;
* `Payload`    what is stored under a key, in writing;
* `Op`         the operations, and `Step`, an operation with what becomes of its failure.

Programs are finite trees and name what they use, so they can be stored inside values.
-/

namespace LiveOrder

/-- Kinds of containers.  An object is a container of values by property name. -/
inductive Kind where
  | map
  | set
  | scriptMap
  | scriptSet
  | object
  deriving DecidableEq, Repr

namespace Kind

/-- Keys only. -/
def isSet : Kind → Bool
  | .set | .scriptSet => true
  | _ => false

end Kind

/-- Which part of an entry a walk yields; `standard` stands for entries of a map and elements of a
set. -/
inductive Selection where
  | keys
  | values
  | entries
  | standard
  deriving DecidableEq, Repr

/-- What a callback sees as its receiver when none is given. -/
inductive UnboundThis where
  | undefined
  | global
  deriving DecidableEq, Repr

mutual

inductive Term where
  | text (form : TextForm) (s : String)
  /-- a bare property name -/
  | property (s : String)
  | unit
  | bool (b : Bool)
  | char (c : Char)
  | double (bits : UInt64)
  | single (bits : UInt32)
  | int (type : IntType) (n : Int)
  | shared (atomic : Bool) (name : String)
  | map (name : String)
  | set (name : String)
  | value (t : Term)
  | reference (t : Term)
  /-- a key that reports each time it is asked for its token -/
  | counted (t : Term)
  /-- a key that runs a program when it is asked for its token -/
  | reacting (t : Term) (body : List Step)
  /-- the key of the innermost visit -/
  | current
  | undefined
  | null
  | number (bits : UInt64)
  /-- a small integer as a number -/
  | smallInt (n : Int)
  | object (name : String)
  | function (name : String)
  | scriptMap (name : String)
  | scriptSet (name : String)
  /-- the initial value -/
  | initial
  /-- the receiver of the innermost call -/
  | receiver
  /-- an argument of the innermost call -/
  | arg (i : Nat)
  /-- a text that is no term -/
  | malformed

inductive Payload where
  /-- no payload: the element of a set -/
  | unit
  /-- a number that may react to being released and to being copied -/
  | tracked (n : Int) (onRelease onCopy : Option (List Step))
  | value (t : Term)

/-- What an operation is about: a named thing, or a value. -/
inductive Target where
  | named (name : String)
  | value (t : Term)

inductive Op where
  -- definitions
  | container (kind : Kind) (name : String) (entries : List (Term × Payload))
  | allocation (name text : String)
  | share (c : Target) (name : String)
  | unbind (name : String)
  | identical (c d : Target)
  -- containers
  | put (c : Target) (entries : List (Term × Payload))
  /-- takes those entries that fit the container: elements for a set, pairs for a map -/
  | extend (c : Target) (entries : List (Term × Payload))
  | insert (c : Target) (k : Term) (v : Payload)
  | get (c : Target) (k : Term)
  | has (c : Target) (k : Term)
  | delete (c : Target) (k : Term)
  | clear (c : Target)
  | measure (c : Target)
  | list (c : Target) (selection : Selection) (limit : Nat)
  | forEach (c : Target) (each : List Step) (atVisit : List (Nat × List Step)) (limit : Nat)
  | debug (c : Target) (spread : Bool)
  -- live iterators
  | iterate (c : Target) (selection : Selection) (it : String)
  | next (it : String) (count : Option Nat)
  | drain (it : String) (limit : Nat)
  | close (it : String)
  -- scripts
  | realm (name : String) (unbound : UnboundThis) (global : Option String)
  | construct (kind : Kind) (realm name : String) (entries : List (Term × Payload)) (plain : Bool)
  | realmForEach (realm : String) (c : Target) (callback : Term) (receiver : Option Term)
  | function (name : String) (body : List Step) (limit : Nat) (result : Term)
  | call (f receiver : Term) (args : List Term)
  | same (a b : Term)
  | inspect (v : Term)
  /-- a text that is no operation -/
  | unknown

/-- An operation; when it `escapes`, its refusal by a container is not its answer but unwinds
whatever it is nested in. -/
inductive Step where
  | mk (op : Op) (escapes : Bool)

end

namespace Payload

/-- Sets take keys without a payload, the other containers need one. -/
def fits (kind : Kind) : Payload → Bool
  | .unit => kind.isSet
  | _ => !kind.isSet

end Payload

namespace Step

def op : Step → Op
  | .mk op _ => op

def escapes : Step → Bool
  | .mk _ escapes => escapes

end Step

end LiveOrder
