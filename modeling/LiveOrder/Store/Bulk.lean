import LiveOrder.Store.Basic

/-!
# Filling stores

* `Store.insertAll`   pairs stored one after the other, under canonical keys: the filling of a map;
* `Store.addAll`      elements stored one after the other, as given: the filling of a set.
-/

namespace LiveOrder.Store

variable {ν : Type}

/-- Stores pairs in order; a later pair of an equal key replaces the value. -/
def insertAll (t : Store ν) : List (Key × ν) → Except Fault (Store ν)
  | [] => pure t
  | (k, v) :: rest => do
    let (_, t) ← t.upsert k.canonical v
    insertAll t rest

/-- Stores elements in order; a later element that is equal to one there is not kept. -/
def addAll (t : Store Unit) : List Key → Except Fault (Store Unit)
  | [] => pure t
  | k :: rest => do
    let (_, t) ← t.upsert k ()
    addAll t rest

end LiveOrder.Store
