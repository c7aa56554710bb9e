import LiveOrder.Token

/-!
# Script values

The dynamically typed values of the script containers.  Plain data is compared by content, with
one zero and one not-a-number; objects, functions and containers are compared by identity.

* `Value`             the values;
* `Value.token`       which key a value is; equality of values is equality of tokens (`Value.same`);
* `Value.canonical`   the form in which a value is stored as a key;
* `Value.typeName`    the name of its kind;
* `Value.refs`        the shared objects that a value keeps alive.
-/

namespace LiveOrder

inductive Value where
  | undefined
  | null
  | bool (b : Bool)
  | number (bits : UInt64)
  | text (s : String)
  | object (r : Nat)
  | function (r : Nat)
  | map (r : Nat)
  | set (r : Nat)
  deriving DecidableEq, Repr

namespace Value

def token : Value → Token
  | .undefined => .undefined
  | .null => .null
  | .bool b => .bool b
  | .number bits => .ofNumber bits
  | .text s => .text s
  | .object r | .function r | .map r | .set r => .ref r

/-- Equality of values: equality of their tokens. -/
def same (a b : Value) : Bool := a.token = b.token

def canonical : Value → Value
  | .number bits => .number (Number.positiveZero bits)
  | v => v

def isUndefined : Value → Bool
  | .undefined => true
  | _ => false

/-- Null counts among the objects. -/
def typeName : Value → String
  | .undefined => "undefined"
  | .bool _ => "boolean"
  | .number _ => "number"
  | .text _ => "string"
  | .function _ => "function"
  | .null | .object _ | .map _ | .set _ => "object"

def function? : Value → Option Nat
  | .function r => some r
  | _ => none

def object? : Value → Option Nat
  | .object r => some r
  | _ => none

/-- The shared objects that the value keeps alive. -/
def refs : Value → List Nat
  | .object r | .function r | .map r | .set r => [r]
  | _ => []

/-! ## laws -/

theorem same_iff {a b : Value} : a.same b = true ↔ a.token = b.token := by
  simp [same]

/-- The stored form is the same value. -/
theorem token_canonical (v : Value) : v.canonical.token = v.token := by
  cases v <;> simp [canonical, token, Token.ofNumber, Number.identity_positiveZero]

theorem canonical_canonical (v : Value) : v.canonical.canonical = v.canonical := by
  cases v <;> simp [canonical, Number.positiveZero_positiveZero]

theorem refs_canonical (v : Value) : v.canonical.refs = v.refs := by
  cases v <;> simp [canonical, refs]

end Value

end LiveOrder
