import LiveOrder.Key
import LiveOrder.Number.Shortest
import LiveOrder.Text.Hex
import LiveOrder.Text.Layout

/-!
# Keys and values in writing

Data is written out in full.  A container shows only its size, since it may hold itself, and an
allocation its content; both are asked of the surroundings (`Facts`), in which the question may be
refused.

* `Value.display`   a script value;
* `Key.display`     a key.
-/

namespace LiveOrder

/-- What can be asked about shared objects. -/
structure Facts (m : Type → Type) where
  size : Nat → m Nat
  content : Nat → m String

variable {m : Type → Type} [Monad m]

def Value.display (facts : Facts m) (spread : Bool) : Value → m String
  | .undefined => pure "undefined"
  | .null => pure "null"
  | .bool b => pure (if b then "true" else "false")
  | .number bits => pure (Number.text bits)
  | .text s => pure (Text.quote s)
  | .object r => do
    pure (Text.Layout.record spread "Object" "properties" (toString (← facts.size r)))
  | .function _ => pure "[Function]"
  | .map r => do pure ("Map(" ++ toString (← facts.size r) ++ ")")
  | .set r => do pure ("Set(" ++ toString (← facts.size r) ++ ")")

def Key.display (facts : Facts m) (spread : Bool) : Key → m String
  | .text _ s => pure (Text.quote s)
  | .unit => pure "()"
  | .bool b => pure (if b then "true" else "false")
  | .char c => pure (Text.quoteChar c)
  | .double bits => pure ("f64:" ++ Text.hexPadded 16 bits.toNat)
  | .single bits => pure ("f32:" ++ Text.hexPadded 8 bits.toNat)
  | .int _ n => pure (toString n)
  | .shared _ r => do pure (Text.quote (← facts.content r))
  | .map r => do pure ("map(" ++ toString (← facts.size r) ++ ")")
  | .set r => do pure ("set(" ++ toString (← facts.size r) ++ ")")
  | .value v => v.display facts spread
  | .reference k => k.display facts spread

end LiveOrder
