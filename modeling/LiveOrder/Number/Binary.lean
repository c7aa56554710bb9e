/-!
# Floating-point numbers as bit patterns

A number is kept as the bits it was given, so that the two zeros and the payloads of the
not-a-number patterns stay visible.  What the rest of the library needs of a pattern:

* `Number.negative`, `exponent`, `fraction`   the three fields of a 64-bit pattern;
* `Number.isZero`, `Number.isNaN`            the patterns on which identity folds;
* `Number.identity`   the pattern that stands for a number as a key: one zero, one not-a-number;
* `Number.positiveZero`   the stored form: a zero loses its sign, all else is untouched;
* `Number.widen`, `Number.ofInt`   the 64-bit pattern with the value of a 32-bit number, or of an
  integer.

All of it is arithmetic on naturals: a field is a natural shifted, or its remainder by a power of two.
-/

namespace LiveOrder.Number

/-! ## fields -/

/-- The sign field. -/
def negative (b : UInt64) : Bool := 1 <<< 63 ≤ b.toNat

/-- The eleven bits of the exponent field. -/
def exponent (b : UInt64) : Nat := (b.toNat >>> 52) % (1 <<< 11)

/-- The fifty-two bits of the fraction field. -/
def fraction (b : UInt64) : Nat := b.toNat % (1 <<< 52)

def isZero (b : UInt64) : Bool := b.toNat % (1 <<< 63) = 0

def isNaN (b : UInt64) : Bool := exponent b = 2047 && fraction b != 0

def isInfinite (b : UInt64) : Bool := exponent b = 2047 && fraction b = 0

/-! ## identity -/

/-- The one pattern that stands for every not-a-number. -/
def nan : UInt64 := 0x7ff8000000000000

/-- The pattern that identifies a number: both zeros are one, every not-a-number is one, and any
other number is itself. -/
def identity (b : UInt64) : UInt64 :=
  if isZero b then 0 else if isNaN b then nan else b

/-- A zero without its sign; any other pattern as it is. -/
def positiveZero (b : UInt64) : UInt64 := if isZero b then 0 else b

/-! ## 32-bit numbers -/

def isZero32 (b : UInt32) : Bool := b.toNat % (1 <<< 31) = 0

/-- A 32-bit zero without its sign; any other pattern as it is. -/
def positiveZero32 (b : UInt32) : UInt32 := if isZero32 b then 0 else b

/-- Fields of a 64-bit pattern put together. -/
def compose (sign exponent fraction : Nat) : UInt64 :=
  UInt64.ofNat (sign <<< 63 + exponent <<< 52 + fraction)

/-- The 64-bit pattern with the value of a 32-bit one.  A subnormal `f * 2 ^ -149` becomes normal:
with `p` the place of its highest bit, the exponent is `p - 149` and the bits below `p` are the
fraction.  A not-a-number stays one and becomes quiet. -/
def widen (b : UInt32) : UInt64 :=
  let sign := b.toNat >>> 31
  let e := (b.toNat >>> 23) % (1 <<< 8)
  let f := b.toNat % (1 <<< 23)
  if e = 255 then
    if f = 0 then compose sign 2047 0
    else compose sign 2047 ((f % (1 <<< 22) + 1 <<< 22) <<< 29)
  else if e = 0 then
    if f = 0 then compose sign 0 0
    else
      let p := f.log2
      compose sign (p + 874) ((f - 1 <<< p) <<< (52 - p))
  else compose sign (e + 896) (f <<< 29)

/-- The pattern of an integer of fewer than fifty-four bits. -/
def ofInt (n : Int) : UInt64 :=
  let m := n.natAbs
  if m = 0 then 0
  else
    let p := m.log2
    compose (if n < 0 then 1 else 0) (p + 1023) ((m - 1 <<< p) <<< (52 - p))

/-! ## laws -/

theorem identity_zero : identity 0 = 0 := by decide

theorem identity_nan : identity nan = nan := by decide

theorem identity_of_isZero {b : UInt64} (h : isZero b = true) : identity b = 0 := by
  simp [identity, h]

/-- Folding twice is folding once. -/
theorem identity_identity (b : UInt64) : identity (identity b) = identity b := by
  by_cases hz : isZero b
  · rw [identity_of_isZero hz, identity_zero]
  · by_cases hn : isNaN b
    · have h : identity b = nan := by simp [identity, hz, hn]
      rw [h, identity_nan]
    · have h : identity b = b := by simp [identity, hz, hn]
      rw [h, h]

/-- The stored form identifies the same number. -/
theorem identity_positiveZero (b : UInt64) : identity (positiveZero b) = identity b := by
  by_cases hz : isZero b
  · simp [positiveZero, hz, identity_of_isZero hz, identity_zero]
  · simp [positiveZero, hz]

theorem positiveZero_positiveZero (b : UInt64) :
    positiveZero (positiveZero b) = positiveZero b := by
  by_cases hz : isZero b
  · simp [positiveZero, hz]
  · simp [positiveZero, hz]

theorem positiveZero32_positiveZero32 (b : UInt32) :
    positiveZero32 (positiveZero32 b) = positiveZero32 b := by
  by_cases hz : isZero32 b
  · simp [positiveZero32, hz]
  · simp [positiveZero32, hz]

theorem widen_zero : widen 0 = 0 := by decide

/-- A 32-bit zero of either sign widens to a zero. -/
theorem isZero_widen {b : UInt32} (h : isZero32 b = true) : isZero (widen b) = true := by
  have hz : b.toNat % 1 <<< 31 = 0 := of_decide_eq_true h
  have hb : b.toNat < 2 ^ 32 := b.toNat_lt
  rw [Nat.one_shiftLeft] at hz
  have he : (b.toNat >>> 23) % (1 <<< 8) = 0 := by
    rw [Nat.one_shiftLeft]
    omega
  have hf : b.toNat % (1 <<< 23) = 0 := by
    rw [Nat.one_shiftLeft]
    omega
  have hw : widen b = compose (b.toNat >>> 31) 0 0 := by
    simp only [widen, he, hf]
    rfl
  rw [hw, isZero, compose, decide_eq_true_eq, UInt64.toNat_ofNat', Nat.one_shiftLeft]
  omega

theorem identity_widen_positiveZero32 (b : UInt32) :
    identity (widen (positiveZero32 b)) = identity (widen b) := by
  by_cases hz : isZero32 b
  · rw [identity_of_isZero (isZero_widen hz)]
    simp [positiveZero32, hz, widen_zero, identity_zero]
  · simp [positiveZero32, hz]

end LiveOrder.Number
