import LiveOrder.Number.Binary
import Mathlib

/-!
# What patterns stand for

The patterns of the library against the reference reading of floating-point formats
(`Float.Model.UnpackedFloat.unpack`): a rational number, an infinity with a sign, or no number.

* `Quantity`, `Number.quantity`, `Number.quantity32`   what a pattern of either width stands for;
* `magnitude`   a finite pattern as a multiple of the least positive one, a natural number, which
                grows with the fields of the pattern (`magnitude_lt`);
* `Number.identity_eq_iff`   folding makes patterns equal exactly when they stand for the same;
* `Number.quantity_widen`    widening keeps what a pattern stands for.
-/

namespace LiveOrder

open Float.Model (Format UnpackedFloat)
open Float.Model.UnpackedFloat (Sign unpack unpackExponent unpackMantissa unpackSign)

inductive Quantity where
  | nan
  | infinite (sign : Sign)
  | finite (q : ℚ)

namespace Quantity

/-- Zero has no sign. -/
def of : UnpackedFloat → Quantity
  | .notANumber => .nan
  | .infinity s => .infinite s
  | .zero _ => .finite 0
  | .finite s m e _ => .finite (s.apply m * 2 ^ e)

end Quantity

/-! ## patterns of any format -/

/-- What the fields `x` of the exponent and `f` of the fraction stand for, with `m` bits of
fraction, as a multiple of the least positive number. -/
def magnitude (m x f : Nat) : Nat := if x = 0 then f else (2 ^ m + f) * 2 ^ (x - 1)

/-- More in the exponent is more, whatever the fractions are. -/
theorem magnitude_lt {m x y f g : Nat} (hf : f < 2 ^ m) (h : x * 2 ^ m + f < y * 2 ^ m + g)
    (hg : g < 2 ^ m) : magnitude m x f < magnitude m y g := by
  have hxy : x ≤ y := by
    by_contra hlt
    have hle : (y + 1) * 2 ^ m ≤ x * 2 ^ m := Nat.mul_le_mul_right _ (by omega)
    rw [Nat.succ_mul] at hle
    omega
  rcases Nat.lt_or_eq_of_le hxy with hlt | rfl
  · have hleft : magnitude m x f < 2 ^ m * 2 ^ x := by
      rw [magnitude]
      split
      · rename_i hx
        rw [hx]
        omega
      · have hpow : 2 ^ x = 2 * 2 ^ (x - 1) := by
          rw [← Nat.pow_succ']
          congr 1
          omega
        rw [hpow, Nat.mul_left_comm, ← Nat.mul_assoc]
        exact Nat.mul_lt_mul_of_pos_right (by omega) (Nat.two_pow_pos _)
    have hright : 2 ^ m * 2 ^ x ≤ magnitude m y g := by
      rw [magnitude, if_neg (by omega)]
      exact Nat.mul_le_mul (by omega) (Nat.pow_le_pow_right (by omega) (by omega))
    exact Nat.lt_of_lt_of_le hleft hright
  · have hfg : f < g := by omega
    rw [magnitude, magnitude]
    split
    · exact hfg
    · exact Nat.mul_lt_mul_of_pos_right (by omega) (Nat.two_pow_pos _)

theorem magnitude_inj {m x y f g : Nat} (hf : f < 2 ^ m) (hg : g < 2 ^ m)
    (h : magnitude m x f = magnitude m y g) : x * 2 ^ m + f = y * 2 ^ m + g := by
  rcases Nat.lt_trichotomy (x * 2 ^ m + f) (y * 2 ^ m + g) with hlt | heq | hgt
  · exact absurd h (Nat.ne_of_lt (magnitude_lt hf hlt hg))
  · exact heq
  · exact absurd h.symm (Nat.ne_of_lt (magnitude_lt hg hgt hf))

theorem magnitude_zero (m : Nat) : magnitude m 0 0 = 0 := rfl

section
variable {spec : Format} (b : BitVec spec.numBits)

theorem toNat_unpackMantissa :
    (unpackMantissa b).toNat = b.toNat % 2 ^ spec.mantissaBitsWithoutImplicit := by
  have hm := spec.hm
  rw [unpackMantissa, BitVec.toNat_cast, BitVec.extractLsb_toNat, Nat.shiftRight_zero]
  congr 2
  omega

theorem toNat_unpackExponent :
    (unpackExponent b).toNat =
      (b.toNat >>> spec.mantissaBitsWithoutImplicit) % 2 ^ spec.exponentBits := by
  have he := spec.he
  rw [unpackExponent, BitVec.toNat_cast, BitVec.extractLsb_toNat]
  congr 2
  omega

theorem ofBitVec_unpackSign :
    Sign.ofBitVec (unpackSign b) =
      if b.toNat < 2 ^ (spec.exponentBits + spec.mantissaBitsWithoutImplicit) then .positive
      else .negative := by
  have hb : b.toNat < 2 ^ (1 + spec.exponentBits + spec.mantissaBitsWithoutImplicit) := b.isLt
  have hsign : (unpackSign b).toNat =
      b.toNat / 2 ^ (spec.exponentBits + spec.mantissaBitsWithoutImplicit) := by
    rw [unpackSign, BitVec.toNat_cast, BitVec.extractLsb_toNat, Nat.sub_self,
      Nat.shiftRight_eq_div_pow, Nat.add_comm spec.mantissaBitsWithoutImplicit]
    apply Nat.mod_eq_of_lt
    rw [Nat.add_assoc, Nat.add_comm, Nat.pow_succ] at hb
    exact Nat.div_lt_of_lt_mul hb
  have hzero : unpackSign b = 0#1 ↔
      b.toNat < 2 ^ (spec.exponentBits + spec.mantissaBitsWithoutImplicit) := by
    rw [← BitVec.toNat_inj, hsign, BitVec.toNat_ofNat, Nat.zero_mod,
      Nat.div_eq_zero_iff_lt (Nat.two_pow_pos _)]
  rw [Sign.ofBitVec]
  simp only [hzero]

/-- The least positive number of a format. -/
def least (spec : Format) : ℚ :=
  2 ^ (1 - (spec.exponentBias + spec.mantissaBitsWithoutImplicit) : ℤ)

/-- A normal number is a multiple of the least positive one, too. -/
theorem least_mul (spec : Format) {x : Nat} (hx : x ≠ 0) :
    (2 ^ (x - 1) : ℚ) * least spec =
      2 ^ ((x : ℤ) - (spec.exponentBias + spec.mantissaBitsWithoutImplicit)) := by
  have hexp : (x : ℤ) - (spec.exponentBias + spec.mantissaBitsWithoutImplicit) =
      ((x - 1 : ℕ) : ℤ) + (1 - (spec.exponentBias + spec.mantissaBitsWithoutImplicit)) := by
    omega
  rw [hexp, zpow_add₀ (by norm_num), zpow_natCast, least]

theorem apply_mul (s : Sign) (n m : Int) : s.apply (n * m) = s.apply n * m := by
  cases s with
  | negative => exact (Int.neg_mul n m).symm
  | positive => rfl

/-- What a sign and the numbers in the fields of a pattern stand for. -/
def reading (spec : Format) (s : Sign) (x f : Nat) : Quantity :=
  if x = 2 ^ spec.exponentBits - 1 then if f = 0 then .infinite s else .nan
  else .finite (s.apply (magnitude spec.mantissaBitsWithoutImplicit x f) * least spec)

theorem reading_binary64 (s : Sign) (x f : Nat) :
    reading .binary64 s x f =
      if x = 2047 then if f = 0 then .infinite s else .nan
      else .finite (s.apply (magnitude 52 x f) * least .binary64) := rfl

theorem reading_binary32 (s : Sign) (x f : Nat) :
    reading .binary32 s x f =
      if x = 255 then if f = 0 then .infinite s else .nan
      else .finite (s.apply (magnitude 23 x f) * least .binary32) := rfl

theorem of_unpack :
    Quantity.of (unpack spec b) =
      reading spec (.ofBitVec (unpackSign b)) (unpackExponent b).toNat (unpackMantissa b).toNat := by
  have hones : unpackExponent b = -1#_ ↔ (unpackExponent b).toNat = 2 ^ spec.exponentBits - 1 := by
    rw [← BitVec.toNat_inj, BitVec.neg_one_eq_allOnes, BitVec.toNat_allOnes]
  have hx : unpackExponent b = 0#_ ↔ (unpackExponent b).toNat = 0 := by
    rw [← BitVec.toNat_inj, BitVec.toNat_ofNat, Nat.zero_mod]
  have hf : unpackMantissa b = 0#_ ↔ (unpackMantissa b).toNat = 0 := by
    rw [← BitVec.toNat_inj, BitVec.toNat_ofNat, Nat.zero_mod]
  rw [unpack, reading]
  by_cases h1 : unpackExponent b = -1#_
  · rw [if_pos h1, if_pos (hones.mp h1)]
    by_cases h2 : unpackMantissa b = 0#_
    · rw [if_pos h2, if_pos (hf.mp h2)]
      rfl
    · rw [if_neg h2, if_neg (mt hf.mpr h2)]
      rfl
  · rw [if_neg h1, if_neg (mt hones.mpr h1)]
    by_cases h3 : unpackExponent b = 0#_
    · rw [if_pos h3, hx.mp h3]
      by_cases h2 : unpackMantissa b = 0#_
      · rw [dif_pos h2, hf.mp h2, magnitude_zero]
        cases Sign.ofBitVec (unpackSign b) <;> simp [Quantity.of, Sign.apply]
      · rw [dif_neg h2, Quantity.of, magnitude, if_pos rfl, least]
        congr 3
        omega
    · rw [if_neg h3, Quantity.of, magnitude, if_neg (mt hx.mpr h3), BitVec.toNat_append]
      have hjoin : (1#1).toNat <<< spec.mantissaBitsWithoutImplicit ||| (unpackMantissa b).toNat =
          2 ^ spec.mantissaBitsWithoutImplicit + (unpackMantissa b).toNat := by
        have hone : (1#1).toNat = 1 := rfl
        rw [hone, Nat.shiftLeft_eq, Nat.one_mul, Nat.or_comm,
          Nat.or_two_pow_eq_add_of_lt (unpackMantissa b).isLt, Nat.add_comm]
      rw [hjoin, ← least_mul spec (mt hx.mpr h3), Nat.cast_mul, apply_mul]
      push_cast
      rw [mul_assoc]

end

/-! ## patterns of either width -/

namespace Number

variable {b c : UInt64}

def quantity (b : UInt64) : Quantity := .of (unpack .binary64 b.toBitVec)

def quantity32 (b : UInt32) : Quantity := .of (unpack .binary32 b.toBitVec)

def sign (b : UInt64) : Sign := if negative b then .negative else .positive

theorem fraction_lt (b : UInt64) : fraction b < 2 ^ 52 := Nat.mod_lt _ (by decide)

/-- The fields of exponent and fraction are what is left of a pattern without its sign. -/
theorem exponent_fraction (b : UInt64) :
    exponent b * 2 ^ 52 + fraction b = b.toNat % 2 ^ 63 := by
  have hb := b.toNat_lt
  rw [exponent, fraction, Nat.one_shiftLeft, Nat.one_shiftLeft, Nat.shiftRight_eq_div_pow]
  omega

theorem quantity_eq (b : UInt64) :
    quantity b = reading .binary64 (sign b) (exponent b) (fraction b) := by
  have hsign : Sign.ofBitVec (@unpackSign .binary64 b.toBitVec) = sign b := by
    rw [ofBitVec_unpackSign, sign, negative]
    show (if b.toNat < 2 ^ 63 then _ else _) = _
    by_cases hlt : b.toNat < 2 ^ 63
    · rw [if_pos hlt, if_neg (by simpa using hlt)]
    · rw [if_neg hlt, if_pos (by simpa using hlt)]
  rw [quantity, of_unpack, hsign, toNat_unpackExponent, toNat_unpackMantissa]
  rfl

theorem quantity32_eq (b : UInt32) :
    quantity32 b = reading .binary32 (if b.toNat >>> 31 = 0 then .positive else .negative)
      ((b.toNat >>> 23) % (1 <<< 8)) (b.toNat % (1 <<< 23)) := by
  have hsign : Sign.ofBitVec (@unpackSign .binary32 b.toBitVec) =
      if b.toNat >>> 31 = 0 then .positive else .negative := by
    have hzero : b.toNat >>> 31 = 0 ↔ b.toNat < 2 ^ 31 := by
      rw [Nat.shiftRight_eq_div_pow]
      omega
    rw [ofBitVec_unpackSign]
    show (if b.toNat < 2 ^ 31 then _ else _) = _
    simp only [hzero]
  rw [quantity32, of_unpack, hsign, toNat_unpackExponent, toNat_unpackMantissa]
  rfl

/-! ## folding -/

theorem isZero_iff : isZero b = true ↔ magnitude 52 (exponent b) (fraction b) = 0 := by
  have hlow := exponent_fraction b
  have hzero : isZero b = true ↔ exponent b * 2 ^ 52 + fraction b = 0 := by
    rw [isZero, decide_eq_true_eq, Nat.one_shiftLeft, hlow]
  rw [hzero]
  constructor
  · intro h
    have hx : exponent b = 0 := by omega
    have hf : fraction b = 0 := by omega
    rw [hx, hf, magnitude_zero]
  · intro h
    exact magnitude_inj (fraction_lt b) (Nat.two_pow_pos 52) (h.trans (magnitude_zero 52).symm)

theorem isNaN_iff : isNaN b = true ↔ exponent b = 2047 ∧ fraction b ≠ 0 := by
  simp [isNaN]

theorem quantity_of_isZero (h : isZero b = true) : quantity b = .finite 0 := by
  have hx : exponent b ≠ 2047 := by
    have hlow := exponent_fraction b
    rw [isZero, decide_eq_true_eq, Nat.one_shiftLeft, ← hlow] at h
    omega
  rw [quantity_eq, reading_binary64, if_neg hx, isZero_iff.mp h]
  cases sign b <;> simp [Sign.apply]

theorem quantity_of_isNaN (h : isNaN b = true) : quantity b = .nan := by
  obtain ⟨hx, hf⟩ := isNaN_iff.mp h
  rw [quantity_eq, reading_binary64, if_pos hx, if_neg hf]

/-- Folding does not touch what a pattern stands for. -/
theorem quantity_identity (b : UInt64) : quantity (identity b) = quantity b := by
  rw [identity]
  by_cases hz : isZero b = true
  · rw [if_pos hz, quantity_of_isZero hz]
    exact quantity_of_isZero (by decide)
  · rw [if_neg hz]
    by_cases hn : isNaN b = true
    · rw [if_pos hn, quantity_of_isNaN hn]
      exact quantity_of_isNaN (by decide)
    · rw [if_neg hn]

theorem eq_of_fields (hs : sign b = sign c)
    (hlow : exponent b * 2 ^ 52 + fraction b = exponent c * 2 ^ 52 + fraction c) : b = c := by
  have hneg : negative b = negative c := by
    rw [sign, sign] at hs
    cases hb : negative b <;> cases hc : negative c <;> simp [hb, hc] at hs ⊢
  have hhigh : 2 ^ 63 ≤ b.toNat ↔ 2 ^ 63 ≤ c.toNat := by
    rw [negative, negative, decide_eq_decide] at hneg
    exact hneg
  have hb := b.toNat_lt
  have hc := c.toNat_lt
  rw [exponent_fraction, exponent_fraction] at hlow
  apply UInt64.toNat_inj.mp
  omega

theorem apply_inj {s u : Sign} {n m : Nat} (hn : n ≠ 0) (h : s.apply n = u.apply m) :
    s = u ∧ n = m := by
  cases s <;> cases u <;> simp only [Sign.apply] at h <;> first | exact ⟨rfl, by omega⟩ | omega

/-- A pattern that is neither a zero nor a not-a-number is the only one for what it stands for. -/
theorem eq_of_quantity (h : quantity b = quantity c) (hz : ¬isZero b = true)
    (hn : ¬isNaN b = true) : b = c := by
  rw [isZero_iff] at hz
  rw [isNaN_iff] at hn
  rw [quantity_eq, quantity_eq, reading_binary64, reading_binary64] at h
  by_cases hx : exponent b = 2047
  · have hf : fraction b = 0 := by
      by_contra hne
      exact hn ⟨hx, hne⟩
    rw [if_pos hx, if_pos hf] at h
    split at h
    · rename_i hxc
      split at h
      · rename_i hfc
        apply eq_of_fields (Quantity.infinite.inj h)
        rw [hx, hf, hxc, hfc]
      · cases h
    · cases h
  · rw [if_neg hx] at h
    split at h
    · split at h <;> cases h
    · have hleast : least .binary64 ≠ 0 := zpow_ne_zero _ (by norm_num)
      have happly := mul_right_cancel₀ hleast (Quantity.finite.inj h)
      obtain ⟨hs, hm⟩ := apply_inj hz (Int.cast_injective happly)
      exact eq_of_fields hs (magnitude_inj (fraction_lt b) (fraction_lt c) hm)

theorem isZero_iff_quantity : isZero b = true ↔ quantity b = .finite 0 := by
  constructor
  · exact quantity_of_isZero
  · intro h
    by_contra hz
    have hn : ¬isNaN b = true := by
      intro hn
      rw [quantity_of_isNaN hn] at h
      cases h
    have hzero : isZero 0 = true := by decide
    rw [← quantity_of_isZero hzero] at h
    rw [eq_of_quantity h hz hn] at hz
    exact hz hzero

theorem isNaN_iff_quantity : isNaN b = true ↔ quantity b = .nan := by
  constructor
  · exact quantity_of_isNaN
  · intro h
    by_contra hn
    have hz : ¬isZero b = true := by
      intro hz
      rw [quantity_of_isZero hz] at h
      cases h
    have hnan : isNaN nan = true := by decide
    rw [← quantity_of_isNaN hnan] at h
    rw [eq_of_quantity h hz hn] at hn
    exact hn hnan

/-- **Folding decides equality of numbers.**  Two patterns are folded into one exactly when they
stand for the same: both for zero, both for no number, or for one number or infinity. -/
theorem identity_eq_iff : identity b = identity c ↔ quantity b = quantity c := by
  constructor
  · intro h
    rw [← quantity_identity b, h, quantity_identity]
  · intro h
    have hzero : isZero b = true ↔ isZero c = true := by
      rw [isZero_iff_quantity, isZero_iff_quantity, h]
    have hnan : isNaN b = true ↔ isNaN c = true := by
      rw [isNaN_iff_quantity, isNaN_iff_quantity, h]
    by_cases hz : isZero b = true
    · rw [identity_of_isZero hz, identity_of_isZero (hzero.mp hz)]
    · by_cases hn : isNaN b = true
      · rw [identity, identity, if_neg hz, if_neg (mt hzero.mpr hz), if_pos hn, if_pos (hnan.mp hn)]
      · rw [eq_of_quantity h hz hn]

/-! ## widening -/

section
variable {s x f : Nat} (hs : s < 2) (hx : x < 2 ^ 11) (hf : f < 2 ^ 52)
include hs hx hf

theorem toNat_compose : (compose s x f).toNat = s * 2 ^ 63 + x * 2 ^ 52 + f := by
  rw [compose, UInt64.toNat_ofNat', Nat.shiftLeft_eq, Nat.shiftLeft_eq]
  apply Nat.mod_eq_of_lt
  omega

/-- Fields that were put together are read back. -/
theorem quantity_compose :
    quantity (compose s x f) = reading .binary64 (if s = 0 then .positive else .negative) x f := by
  have hb := toNat_compose hs hx hf
  have hsign : sign (compose s x f) = if s = 0 then .positive else .negative := by
    rw [sign, negative, hb, Nat.one_shiftLeft]
    by_cases h0 : s = 0
    · rw [if_pos h0, if_neg (by simp; omega)]
    · rw [if_neg h0, if_pos (by simp; omega)]
  have hexp : exponent (compose s x f) = x := by
    rw [exponent, hb, Nat.one_shiftLeft, Nat.shiftRight_eq_div_pow]
    omega
  have hfrac : fraction (compose s x f) = f := by
    rw [fraction, hb, Nat.one_shiftLeft]
    omega
  rw [quantity_eq, hsign, hexp, hfrac]

end

/-- How many times the least positive number has to be doubled from the wide format to the narrow
one. -/
def doublings : Nat := 925

theorem least_binary32 : least .binary32 = 2 ^ doublings * least .binary64 := by
  have hnarrow : least .binary32 = 2 ^ (-149 : ℤ) := rfl
  have hwide : least .binary64 = 2 ^ (-1074 : ℤ) := rfl
  rw [hnarrow, hwide, ← zpow_natCast, ← zpow_add₀ (by norm_num)]
  rfl

/-- Longer fractions and larger exponents, of any lengths. -/
theorem mantissa_shift (m d n k f : Nat) :
    (2 ^ (m + d) + f * 2 ^ d) * 2 ^ (k + n) = (2 ^ m + f) * 2 ^ k * 2 ^ (d + n) := by
  ring

theorem magnitude_normal {e : Nat} (he : e ≠ 0) (f : Nat) :
    magnitude 52 (e + 896) (f <<< 29) = magnitude 23 e f * 2 ^ doublings := by
  have hexp : e + 896 - 1 = e - 1 + 896 := by omega
  have hd : doublings = 29 + 896 := rfl
  rw [magnitude, magnitude, if_neg (by omega), if_neg he, hexp, hd, Nat.shiftLeft_eq]
  exact mantissa_shift 23 29 896 (e - 1) f

theorem magnitude_subnormal {f : Nat} (h0 : f ≠ 0) (hf : f < 2 ^ 23) :
    magnitude 52 (f.log2 + 874) ((f - 1 <<< f.log2) <<< (52 - f.log2)) =
      magnitude 23 0 f * 2 ^ doublings := by
  have hle : 2 ^ f.log2 ≤ f := Nat.log2_self_le h0
  have hp : f.log2 < 23 := (Nat.log2_lt h0).mpr hf
  have hd : doublings = (52 - f.log2) + (f.log2 + 873) := by
    show 925 = _
    omega
  have htop : 2 ^ 52 = 2 ^ f.log2 * 2 ^ (52 - f.log2) := by
    rw [← Nat.pow_add, Nat.add_sub_of_le (by omega)]
  -- the highest bit comes back as the implicit one
  have hbits : 2 ^ 52 + (f - 2 ^ f.log2) * 2 ^ (52 - f.log2) = f * 2 ^ (52 - f.log2) := by
    rw [htop, ← Nat.add_mul, Nat.add_sub_of_le hle]
  have hsub : f.log2 + 874 - 1 = f.log2 + 873 := by omega
  rw [magnitude, magnitude, if_neg (by omega), if_pos rfl, Nat.one_shiftLeft, Nat.shiftLeft_eq,
    hbits, hsub, hd, Nat.pow_add 2 (52 - f.log2), Nat.mul_assoc]

/-- The bits below the highest fit the wide fraction. -/
theorem fraction_subnormal {f : Nat} (h0 : f ≠ 0) (hf : f < 2 ^ 23) :
    (f - 1 <<< f.log2) <<< (52 - f.log2) < 2 ^ 52 := by
  have hle : 2 ^ f.log2 ≤ f := Nat.log2_self_le h0
  have hlt : f < 2 ^ (f.log2 + 1) := Nat.lt_log2_self
  have hp : f.log2 < 23 := (Nat.log2_lt h0).mpr hf
  have htop : 2 ^ 52 = 2 ^ f.log2 * 2 ^ (52 - f.log2) := by
    rw [← Nat.pow_add, Nat.add_sub_of_le (by omega)]
  rw [Nat.one_shiftLeft, Nat.shiftLeft_eq, htop]
  apply Nat.mul_lt_mul_of_pos_right _ (Nat.two_pow_pos _)
  rw [Nat.pow_succ] at hlt
  omega

theorem reading_widen {x y f g : Nat} (sg : Sign) (hx : x ≠ 255) (hy : y ≠ 2047)
    (h : magnitude 52 y g = magnitude 23 x f * 2 ^ doublings) :
    reading .binary64 sg y g = reading .binary32 sg x f := by
  rw [reading_binary64, reading_binary32, if_neg hx, if_neg hy, h, Nat.cast_mul, apply_mul,
    least_binary32, Int.cast_mul, mul_assoc, Int.cast_natCast, Nat.cast_pow, Nat.cast_ofNat]

/-- **Widening is exact.**  Every 32-bit pattern, subnormal or not, and its 64-bit pattern stand for
the same. -/
theorem quantity_widen (b : UInt32) : quantity (widen b) = quantity32 b := by
  have hb := b.toNat_lt
  have hs : b.toNat >>> 31 < 2 := by
    rw [Nat.shiftRight_eq_div_pow]
    omega
  have he : (b.toNat >>> 23) % (1 <<< 8) < 256 := Nat.mod_lt _ (by decide)
  have hf : b.toNat % (1 <<< 23) < 2 ^ 23 := Nat.mod_lt _ (by decide)
  rw [quantity32_eq, widen]
  generalize b.toNat >>> 31 = s at hs
  generalize (b.toNat >>> 23) % (1 <<< 8) = e at he
  generalize b.toNat % (1 <<< 23) = f at hf
  dsimp only
  by_cases hspecial : e = 255
  · rw [if_pos hspecial, hspecial]
    by_cases hzero : f = 0
    · rw [if_pos hzero, quantity_compose hs (by omega) (by omega), hzero]
      rfl
    · -- made quiet, it has a fraction in any case
      have hquiet : (f % (1 <<< 22) + 1 <<< 22) <<< 29 < 2 ^ 52 ∧
          (f % (1 <<< 22) + 1 <<< 22) <<< 29 ≠ 0 := by
        rw [Nat.one_shiftLeft, Nat.shiftLeft_eq]
        omega
      rw [if_neg hzero, quantity_compose hs (by omega) hquiet.1, reading_binary64,
        reading_binary32, if_pos rfl, if_neg hquiet.2, if_pos rfl, if_neg hzero]
  · rw [if_neg hspecial]
    by_cases hlow : e = 0
    · rw [if_pos hlow, hlow]
      by_cases hzero : f = 0
      · rw [if_pos hzero, hzero, quantity_compose hs (by omega) (by omega)]
        apply reading_widen _ (by omega) (by omega)
        rw [magnitude_zero, magnitude_zero, Nat.zero_mul]
      · have hp : f.log2 < 23 := (Nat.log2_lt hzero).mpr hf
        have hfrac : (f - 1 <<< f.log2) <<< (52 - f.log2) < 2 ^ 52 := fraction_subnormal hzero hf
        rw [if_neg hzero, quantity_compose hs (by omega) hfrac]
        exact reading_widen _ (by omega) (by omega) (magnitude_subnormal hzero hf)
    · have hfrac : f <<< 29 < 2 ^ 52 := by
        rw [Nat.shiftLeft_eq]
        omega
      rw [if_neg hlow, quantity_compose hs (by omega) hfrac]
      exact reading_widen _ hspecial (by omega) (magnitude_normal hlow f)

end Number

end LiveOrder
