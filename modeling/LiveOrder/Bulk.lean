import LiveOrder.Display
import LiveOrder.Store.Bulk

/-!
# Containers built in bulk

A map of integers or a set, built from a list and extended by another one.

* `Bulk`         what is built from what;
* `Bulk.build`   the entries in order, their number, and the container in writing.

The keys mention no shared objects, so nothing about any needs to be known.
-/

namespace LiveOrder

structure Bulk where
  isSet : Bool
  items : List (Key × Int)
  more : List (Key × Int)
  spread : Bool

/-- What was built. -/
structure Built where
  entries : List (Key × Int)
  size : Nat
  text : String

namespace Bulk

/-- No objects are known. -/
def noFacts : Facts Id where
  size _ := 0
  content _ := ""

def build (b : Bulk) : Except Fault Built := do
  if b.isSet then
    let t ← Store.empty.addAll (b.items.map (·.1))
    let t ← t.addAll (b.more.map (·.1))
    let entries ← t.entries
    pure
      { entries := entries.map fun (k, _) => (k, 0)
        size := t.len
        text := Text.Layout.braces b.spread (entries.map fun (k, _) => k.display noFacts b.spread) }
  else
    let t ← Store.empty.insertAll b.items
    let t ← t.insertAll b.more
    let entries ← t.entries
    pure
      { entries := entries
        size := t.len
        text := Text.Layout.table b.spread
          (entries.map fun (k, v) => (k.display noFacts b.spread, toString v)) }

end Bulk

end LiveOrder
