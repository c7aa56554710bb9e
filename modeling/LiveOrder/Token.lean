import LiveOrder.Number.Binary
import LiveOrder.Text.Quoted

/-!
# Tokens

A token says which key a key is: two keys name the same entry exactly when their tokens are equal.
A shared object is known by a number that is never given out twice.

* `Token`          plain data by value under a tag of its own, shared objects by identity;
* `Token.number`   made only from folded patterns (`Token.ofNumber`);
* `Token.digest`   a hash of tokens; equal tokens have equal digests because it is a function;
* `Token.text?`    a token written out, for all but references.
-/

namespace LiveOrder

inductive Token where
  | undefined
  | null
  | bool (b : Bool)
  | number (bits : UInt64)
  | int (n : Int)
  | char (c : Char)
  | text (s : String)
  /-- a shared object -/
  | ref (r : Nat)
  deriving DecidableEq, Repr

namespace Token

/-- The token of a number: zeros and not-a-numbers are folded. -/
def ofNumber (bits : UInt64) : Token := .number (Number.identity bits)

/-! ## hashing -/

/-- A hash of tokens. -/
def digest : Token → UInt64
  | .undefined => 1
  | .null => 2
  | .bool b => if b then 3 else 5
  | .number bits => 7 * bits + 11
  | .int n => 13 * UInt64.ofInt n + 17
  | .char c => 19 * UInt64.ofNat c.toNat + 23
  | .text s => s.toList.foldl (fun h c => 31 * h + UInt64.ofNat c.toNat) 29
  | .ref r => 37 * UInt64.ofNat r + 41

/-! ## text -/

/-- A token in writing: its tag and, in parentheses, its content.  A reference has no written
form. -/
def text? : Token → Option String
  | .undefined => some "Undefined"
  | .null => some "Null"
  | .bool b => some (if b then "Bool(true)" else "Bool(false)")
  | .number bits => some ("Number(" ++ toString bits.toNat ++ ")")
  | .int n => some ("Int(" ++ toString n ++ ")")
  | .char c => some ("Char(" ++ Text.quoteChar c ++ ")")
  | .text s => some ("Str(" ++ Text.quote s ++ ")")
  | .ref _ => none

end Token

end LiveOrder
