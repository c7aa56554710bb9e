import LiveOrder.Value

/-!
# Keys

The keys of containers, of many types at once: texts in four representations, unit, truth values,
characters, numbers of two widths, integers of ten types, shared allocations, containers, script
values, and references to keys.

* `Key.token`       which key a key is; representation, width and reference do not matter to it;
* `Key.canonical`   the stored form: numbers lose the sign of zero, but not behind a reference;
* `Key.refs`        the shared objects that a key keeps alive.
-/

namespace LiveOrder

/-- How a text is held. -/
inductive TextForm where
  | slice
  | owned
  | boxed
  | copyOnWrite
  deriving DecidableEq, Repr

inductive IntType where
  | int8
  | int16
  | int32
  | int64
  | intSize
  | uint8
  | uint16
  | uint32
  | uint64
  | uintSize
  deriving DecidableEq, Repr

inductive Key where
  | text (form : TextForm) (s : String)
  | unit
  | bool (b : Bool)
  | char (c : Char)
  | double (bits : UInt64)
  | single (bits : UInt32)
  | int (type : IntType) (n : Int)
  /-- an allocation, counted atomically or not -/
  | shared (atomic : Bool) (r : Nat)
  | map (r : Nat)
  | set (r : Nat)
  | value (v : Value)
  /-- a reference to a key -/
  | reference (k : Key)
  deriving DecidableEq, Repr

namespace Key

/-- Unit and null are one key; integers are compared as integers, whatever their type; a 32-bit
number is the 64-bit number of the same value. -/
def token : Key → Token
  | .text _ s => .text s
  | .unit => .null
  | .bool b => .bool b
  | .char c => .char c
  | .double bits => .ofNumber bits
  | .single bits => .ofNumber (Number.widen bits)
  | .int _ n => .int n
  | .shared _ r | .map r | .set r => .ref r
  | .value v => v.token
  | .reference k => k.token

/-- The stored form of a key. -/
def canonical : Key → Key
  | .double bits => .double (Number.positiveZero bits)
  | .single bits => .single (Number.positiveZero32 bits)
  | .value v => .value v.canonical
  | k => k

/-- The shared objects that the key keeps alive.  A reference owns what it refers to. -/
def refs : Key → List Nat
  | .shared _ r | .map r | .set r => [r]
  | .value v => v.refs
  | .reference k => k.refs
  | _ => []

/-! ## laws -/

/-- The stored form is the same key. -/
theorem token_canonical (k : Key) : k.canonical.token = k.token := by
  cases k <;> simp [canonical, token, Token.ofNumber, Number.identity_positiveZero,
    Number.identity_widen_positiveZero32, Value.token_canonical]

theorem canonical_canonical (k : Key) : k.canonical.canonical = k.canonical := by
  cases k <;> simp [canonical, Number.positiveZero_positiveZero,
    Number.positiveZero32_positiveZero32, Value.canonical_canonical]

theorem refs_canonical (k : Key) : k.canonical.refs = k.refs := by
  cases k <;> simp [canonical, refs, Value.refs_canonical]

end Key

end LiveOrder
