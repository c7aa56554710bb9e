/-!
# Notices

What the library reports about its own work while it runs.

* `Notice`          the five events;
* `Notice.level`    their severity;
* `Notice.message`   their wording.
-/

namespace LiveOrder

inductive Notice where
  /-- a store was emptied: entries that were live, and slots still held afterwards -/
  | cleared (live retained : Nat)
  /-- one release freed a chain of at least two removed entries -/
  | chainFreed (count : Nat)
  /-- a cursor went away while its store was in use, so its pin stays -/
  | pinLeaked
  /-- a constructor was called without construction -/
  | plainCall (typeName : String)
  /-- a walk over a script container was given something that cannot be called -/
  | notCallable (kind : String)
  deriving DecidableEq, Repr

namespace Notice

inductive Level where
  | trace
  | debug
  deriving DecidableEq, Repr

def level : Notice → Level
  | .cleared .. | .chainFreed _ => .trace
  | _ => .debug

def message : Notice → String
  | .cleared .. => "entry store cleared"
  | .chainFreed _ => "reclaimed tombstone chain"
  | .pinLeaked => "store busy while dropping a live iterator; pin leaked"
  | .plainCall _ => "constructor invoked without construction"
  | .notCallable _ => "forEach given a non-callable callback"

end Notice

end LiveOrder
