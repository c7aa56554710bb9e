/-!
# Bit patterns in writing

* `Text.hexPadded`   a natural in lower-case hexadecimal, filled up with zeros;
* `Text.readHex?`    the natural that hexadecimal digits of either case denote.
-/

namespace LiveOrder.Text

def hexPadded (width n : Nat) : String :=
  let ds := Nat.toDigits 16 n
  String.ofList (List.replicate (width - ds.length) '0' ++ ds)

/-- The value of a hexadecimal digit. -/
def hexDigit? (c : Char) : Option Nat :=
  if '0' ≤ c ∧ c ≤ '9' then some (c.toNat - '0'.toNat)
  else if 'a' ≤ c ∧ c ≤ 'f' then some (c.toNat - 'a'.toNat + 10)
  else if 'A' ≤ c ∧ c ≤ 'F' then some (c.toNat - 'A'.toNat + 10)
  else none

def readHex? (s : String) : Option Nat :=
  match s.toList with
  | [] => none
  | ds => ds.foldlM (fun n c => (hexDigit? c).map (16 * n + ·)) 0

end LiveOrder.Text
