import Fluxion.Decimal.Shortest
import Fluxion.Proofs.FloatParts

/-!
# The nearest float

What a decimal reads as. Rounding drops the bits a mantissa has no room for, and
here is the half of its specification that texts need: where nothing but zeros
are dropped, nothing changes (`roundWithAccuracy_exact`). So the exact decimal
value of a float reads as that float, and the search for a shorter decimal may
fall back on it.

Two more facts are used where a text is read back. The zeros behind a whole
number may be written out or counted in the exponent (`nearest_mul_pow`), and no
decimal reads as a number below zero (`zero_le_nearest`).
-/

namespace Fluxion.Decimal

open Float.Model (UnpackedFloat Format totalExponent)
open Float.Model.UnpackedFloat (Sign pack unpack packComponents unpackMantissa_packComponents
  unpackExponent_packComponents ExtendedMantissa roundWithAccuracy shiftToTargetExponent
  shiftToExponent divCore accuracyOfFraction)

/-! ## Rounding where nothing is lost -/

theorem log2_mul_two_pow {m : Nat} (hm : m ≠ 0) (j : Nat) : (m * 2 ^ j).log2 = m.log2 + j := by
  induction j with
  | zero => rw [Nat.pow_zero, Nat.mul_one, Nat.add_zero]
  | succ j ih =>
      have hne : m * 2 ^ j ≠ 0 := Nat.mul_ne_zero hm (Nat.ne_of_gt (Nat.two_pow_pos j))
      rw [Nat.pow_succ, ← Nat.mul_assoc, Nat.mul_comm _ 2, Nat.log2_two_mul hne, ih, Nat.add_assoc]

theorem shiftRight_exact (m j : Nat) :
    (⟨m * 2 ^ j, false, false⟩ : ExtendedMantissa) >>> j = ⟨m, false, false⟩ := by
  change j.repeat ExtendedMantissa.shiftRightOne _ = _
  induction j generalizing m with
  | zero => rw [Nat.pow_zero, Nat.mul_one, Nat.repeat]
  | succ j ih =>
      rw [Nat.repeat, Nat.pow_succ, Nat.mul_comm (2 ^ j), ← Nat.mul_assoc, ih]
      simp [ExtendedMantissa.shiftRightOne]

/-- The exponent of a float is the one its format has for it. -/
theorem Normalized.targetExponent {m : Nat} {e : Int} (h : Normalized m e) (hm : m ≠ 0) :
    Format.binary64.targetExponent (totalExponent m e) = e := by
  have hlo := h.least_le
  have hlt := (Nat.log2_lt hm).mpr h.lt
  simp only [Format.targetExponent, totalExponent,
    show Format.binary64.mantissaBits = 53 from rfl,
    show Format.binary64.minExponent = -1074 from rfl]
  rcases h.full with hfull | he
  · rw [log2_eq_of_full hfull h.lt]
    omega
  · omega

theorem totalExponent_scale {m : Nat} (hm : m ≠ 0) (e : Int) (j : Nat) :
    totalExponent (m * 2 ^ j) (e - j) = totalExponent m e := by
  simp only [totalExponent, log2_mul_two_pow hm]
  omega

theorem shiftToTargetExponent_exact {m : Nat} {e : Int} (h : Normalized m e) (hm : m ≠ 0)
    (j : Nat) :
    shiftToTargetExponent Format.binary64 (m * 2 ^ j) (e - j) .exact = (⟨m, false, false⟩, e) := by
  have hj : (e - (e - j)).toNat = j := by omega
  simp only [shiftToTargetExponent, shiftToExponent, totalExponent_scale hm, h.targetExponent hm,
    hj, ExtendedMantissa.ofMantissaAndAccuracy, shiftRight_exact]
  rw [Int.sub_add_cancel]

/-- A mantissa with zeros behind it is rounded to itself. -/
theorem roundWithAccuracy_exact {m : Nat} {e : Int} (h : Normalized m e) (hm : 0 < m) (s : Sign)
    (j : Nat) :
    roundWithAccuracy Format.binary64 s (m * 2 ^ j) (e - j) .exact = .finite s m e hm := by
  have hne : m ≠ 0 := Nat.ne_of_gt hm
  have hround : (⟨m, false, false⟩ : ExtendedMantissa).roundedMantissa = m := rfl
  have hagain := shiftToTargetExponent_exact h hne 0
  rw [Nat.pow_zero, Nat.mul_one, Int.natCast_zero, Int.sub_zero] at hagain
  simp only [roundWithAccuracy, shiftToTargetExponent_exact h hne j, hround, hagain]
  rw [dif_neg hne]

/-! ## Decimals of floats -/

theorem nearest_zero (e : Int) : nearest 0 e = ofParts (.zero .positive) := rfl

/-- What a decimal is rounded from: the number itself, with more bits than a
float has, or the quotient by a power of ten. -/
theorem nearest_eq {n : Nat} (hn : n ≠ 0) (e : Int) :
    nearest n e = ofParts
      (if 2048 < e then .infinity .positive
      else if e < -(2048 + (n.log2 : Int)) then .zero .positive
      else if 0 ≤ e then
        roundWithAccuracy Format.binary64 .positive (n * 2 ^ 53 * 10 ^ e.toNat) (-53) .exact
      else
        let (m, e', accuracy) := divCore Format.binary64 n 0 (10 ^ (-e).toNat) 0
        roundWithAccuracy Format.binary64 .positive m e' accuracy) := by
  unfold nearest Float.Model.ofScientific UnpackedFloat.ofScientific
  rw [dif_neg hn]
  simp only [UnpackedFloat.mul, Nat.shiftLeft_eq]
  rfl

theorem nearest_of_nonneg {n : Nat} {e : Int} (hn : n ≠ 0) (hlo : 0 ≤ e) (hhi : e ≤ 2048) :
    nearest n e = ofParts
      (roundWithAccuracy Format.binary64 .positive (n * 2 ^ 53 * 10 ^ e.toNat) (-53) .exact) := by
  have hfar : ¬ e < -(2048 + (n.log2 : Int)) := by omega
  rw [nearest_eq hn, if_neg (Int.not_lt.mpr hhi), if_neg hfar, if_pos hlo]

/-- The zeros behind a whole number may be written out. -/
theorem nearest_mul_pow {n : Nat} {e : Int} (hlo : 0 ≤ e) (hfin : (nearest n e).isFinite = true) :
    nearest (n * 10 ^ e.toNat) 0 = nearest n e := by
  rcases Nat.eq_zero_or_pos n with rfl | hn
  · rw [Nat.zero_mul, nearest_zero, nearest_zero]
  · have hne : n ≠ 0 := Nat.ne_of_gt hn
    have hmul : n * 10 ^ e.toNat ≠ 0 := Nat.mul_ne_zero hne (Nat.ne_of_gt (Nat.pow_pos (by decide)))
    have hhi : e ≤ 2048 := by
      refine Int.not_lt.mp fun h => ?_
      rw [nearest_eq hne, if_pos h, isFinite_eq] at hfin
      cases hfin
    rw [nearest_of_nonneg hne hlo hhi, nearest_of_nonneg hmul (Int.le_refl 0) (by decide),
      Int.toNat_zero, Nat.pow_zero, Nat.mul_one, Nat.mul_right_comm]

theorem log2_mul_le {a b : Nat} (ha : a ≠ 0) (hb : b ≠ 0) :
    (a * b).log2 ≤ a.log2 + b.log2 + 1 := by
  have hlt : (a * b).log2 < (a.log2 + 1) + (b.log2 + 1) := by
    rw [Nat.log2_lt (Nat.mul_ne_zero ha hb), Nat.pow_add]
    exact Nat.mul_lt_mul'' ((Nat.log2_lt ha).mp (Nat.lt_succ_self _))
      ((Nat.log2_lt hb).mp (Nat.lt_succ_self _))
  omega

/-- A quotient that is a mantissa halved some number of times is divided out
without a remainder. -/
theorem divCore_exact {m k : Nat} (h : Normalized m (-(k : Int))) (hm : m ≠ 0) :
    ∃ j : Nat, divCore Format.binary64 (m * 5 ^ k) 0 (10 ^ k) 0 =
      (m * 2 ^ j, -(k : Int) - j, .exact) := by
  have h5 : (5 : Nat) ^ k ≠ 0 := Nat.ne_of_gt (Nat.pow_pos (by decide))
  have hten : (10 : Nat) ^ k = 5 ^ k * 2 ^ k := by rw [← Nat.mul_pow]
  have hlog := log2_mul_le hm h5
  have hlogm := (Nat.log2_lt hm).mpr h.lt
  have hlogten : (10 ^ k).log2 = (5 ^ k).log2 + k := by rw [hten, log2_mul_two_pow h5]
  have hlo := h.least_le
  have htarget : ∃ j : Nat, min (0 - 0 : Int) (Format.binary64.targetExponent
      (totalExponent (m * 5 ^ k) 0 - totalExponent (10 ^ k) 0)) = -(k : Int) - j := by
    refine ⟨(-(k : Int) - min (0 - 0 : Int) (Format.binary64.targetExponent
      (totalExponent (m * 5 ^ k) 0 - totalExponent (10 ^ k) 0))).toNat, ?_⟩
    simp only [Format.targetExponent, totalExponent,
      show Format.binary64.mantissaBits = 53 from rfl,
      show Format.binary64.minExponent = -1074 from rfl, hlogten]
    omega
  obtain ⟨j, hj⟩ := htarget
  refine ⟨j, ?_⟩
  have hshift : (0 - 0 - (-(k : Int) - j)).toNat = k + j := by omega
  have hnum : m * 5 ^ k * 2 ^ (k + j) = m * 2 ^ j * 10 ^ k := by
    rw [hten, Nat.pow_add, Nat.mul_comm (2 ^ k) (2 ^ j), Nat.mul_mul_mul_comm]
  have hpos : 0 < 10 ^ k := Nat.pow_pos (by decide)
  simp only [divCore, hj, hshift, Nat.shiftLeft_eq, hnum, Nat.mul_div_cancel _ hpos,
    Nat.mul_mod_left, accuracyOfFraction, if_true]

/-- The exact decimal value of a float reads as the float. -/
theorem parts_nearest_exact {m : Nat} {e : Int} (h : Normalized m e) (hm : 0 < m) :
    parts (nearest (Binary.exact ⟨m, e⟩).digits (Binary.exact ⟨m, e⟩).exponent) =
      .finite .positive m e hm := by
  have hne : m ≠ 0 := Nat.ne_of_gt hm
  have hcanonical : Canonical (.finite .positive m e hm) := h
  have hlo := h.least_le
  have hhi := h.le_greatest
  simp only [Binary.exact, Nat.pow_eq]
  rcases Int.lt_or_le e 0 with he | he
  · obtain ⟨k, rfl⟩ : ∃ k : Nat, e = -(k : Int) := ⟨(-e).toNat, by omega⟩
    have hpow : m * 5 ^ k ≠ 0 := Nat.mul_ne_zero hne (Nat.ne_of_gt (Nat.pow_pos (by decide)))
    have hfar : ¬ -(k : Int) < -(2048 + ((m * 5 ^ k).log2 : Int)) := by omega
    obtain ⟨j, hj⟩ := divCore_exact h hne
    rw [Int.min_eq_left (Int.le_of_lt he), show (-(k : Int)).toNat = 0 from by omega, Int.neg_neg,
      Int.toNat_natCast, Nat.pow_zero, Nat.mul_one, nearest_eq hpow, if_neg (by omega), if_neg hfar,
      if_neg (by omega), Int.neg_neg, Int.toNat_natCast, hj]
    change parts (ofParts (roundWithAccuracy Format.binary64 .positive _ _ .exact)) = _
    rw [roundWithAccuracy_exact h hm .positive j, parts_ofParts hcanonical]
  · obtain ⟨k, rfl⟩ := Int.eq_ofNat_of_zero_le he
    have hpow : m * 2 ^ k ≠ 0 := Nat.mul_ne_zero hne (Nat.ne_of_gt (Nat.two_pow_pos _))
    have hround := roundWithAccuracy_exact h hm .positive (k + 53)
    rw [Int.min_eq_right he, show (-(k : Int)).toNat = 0 from by omega, Nat.pow_zero, Nat.mul_one,
      Int.toNat_natCast, nearest_of_nonneg hpow (Int.le_refl 0) (by decide)]
    rw [Int.toNat_zero, Nat.pow_zero, Nat.mul_one, Nat.mul_assoc, ← Nat.pow_add]
    rw [show (k : Int) - (k + 53 : Nat) = -53 from by omega] at hround
    rw [hround, parts_ofParts hcanonical]

/-! ## Nothing reads as a number below zero -/

/-- Parts without a minus. -/
def Unsigned : UnpackedFloat → Prop
  | .zero s | .finite s _ _ _ | .infinity s => s = .positive
  | .notANumber => True

theorem unsigned_roundWithAccuracy (m : Nat) (e : Int) (a : UnpackedFloat.Accuracy) :
    Unsigned (roundWithAccuracy Format.binary64 .positive m e a) := by
  simp only [roundWithAccuracy]
  split <;> rfl

theorem unsigned_unpack_packComponents (e : BitVec 11) (m : BitVec 52) :
    Unsigned (unpack Format.binary64 (packComponents Format.binary64 .positive e m)) := by
  simp only [unpack, unpackMantissa_packComponents, unpackExponent_packComponents,
    unpackSign_packComponents, ofBitVec_toBitVec]
  split
  · split
    · rfl
    · trivial
  · split
    · split <;> rfl
    · rfl

/-- Packing keeps the sign, also where it loses the rest. -/
theorem Unsigned.parts_ofParts {u : UnpackedFloat} (h : Unsigned u) :
    Unsigned (parts (ofParts u)) := by
  change Unsigned (unpack Format.binary64 (pack Format.binary64 u))
  cases u with
  | notANumber => exact unsigned_unpack_packComponents _ _
  | zero s =>
      obtain rfl : s = .positive := h
      exact unsigned_unpack_packComponents _ _
  | infinity s =>
      obtain rfl : s = .positive := h
      exact unsigned_unpack_packComponents _ _
  | finite s m e hm =>
      obtain rfl : s = .positive := h
      simp only [pack]
      split
      · exact unsigned_unpack_packComponents _ _
      · split <;> exact unsigned_unpack_packComponents _ _

theorem unsigned_nearest (n : Nat) (e : Int) : Unsigned (parts (nearest n e)) := by
  rcases Nat.eq_zero_or_pos n with rfl | hn
  · rw [nearest_zero]
    exact Unsigned.parts_ofParts rfl
  · rw [nearest_eq (Nat.ne_of_gt hn)]
    refine Unsigned.parts_ofParts ?_
    split
    · rfl
    · split
      · rfl
      · split <;> exact unsigned_roundWithAccuracy _ _ _

theorem zero_le_nearest {n : Nat} {e : Int} (hfin : (nearest n e).isFinite = true) :
    0 ≤ nearest n e := by
  refine (zero_le_iff hfin).mpr (Or.inr ?_)
  have hsign := unsigned_nearest n e
  rw [isNegative_eq]
  cases hp : parts (nearest n e) with
  | notANumber => rfl
  | zero s | infinity s | finite s m e hm =>
      rw [hp] at hsign
      rw [hsign]
      rfl

/-! ## The shortest decimal -/

/-- The shortest decimal of a float reads as the float. -/
theorem readsAs_shortest {x : Float} {b : Binary} (hx : Binary.ofFloat? x = some b)
    (hb : b.mantissa ≠ 0) :
    ReadsAs x.abs (shortest x.abs b).digits (shortest x.abs b).exponent := by
  rw [shortest]
  cases h : (grids b).findSome? fun e => (neighbour? x.abs b e).map fun n => (⟨n, e⟩ : Scaled) with
  | some d =>
      obtain ⟨e, -, he⟩ := List.exists_of_findSome?_eq_some h
      obtain ⟨n, hn, rfl⟩ := Option.map_eq_some_iff.mp he
      exact readsAs_of_neighbour? hn
  | none =>
      have hcanonical := canonical_parts x
      rw [Binary.ofFloat?_eq] at hx
      rcases hp : parts x with _ | _ | _ | ⟨s, m, e, hm⟩ <;> rw [hp] at hx hcanonical <;> cases hx
      · exact absurd rfl hb
      · refine beq_iff.mpr (Or.inr ?_)
        rw [Option.getD_none, parts_nearest_exact hcanonical hm, parts_abs, hp]
        exact ⟨rfl, by simp⟩

end Fluxion.Decimal
