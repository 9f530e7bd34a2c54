import Mathlib
import Fluxion.Decimal.Binary

/-!
# The parts of a float

A float is a sign, an infinity, NaN, a zero, or a sign, a mantissa and an
exponent. These parts determine it, and what the operations and comparisons of
floats do is told by them. Of the many mantissas and exponents with one value a
float has exactly one pair: `Canonical` says which.

`parts_ofParts` is the fact everything else rests on: canonical parts survive
being packed into 64 bits.
-/

namespace Fluxion.Decimal

open Float.Model (UnpackedFloat Format)
open Float.Model.UnpackedFloat (Sign pack unpack packComponents unpackSign unpackMantissa
  unpackExponent unpackMantissa_packComponents unpackExponent_packComponents)

def parts (x : Float) : UnpackedFloat :=
  x.toModel.unpack

def ofParts (u : UnpackedFloat) : Float :=
  Float.ofModel (Float.Model.pack u)

/-- The mantissa and exponent of a finite float that is not zero: 53 bits for the
mantissa, and the first of them set unless the exponent is the least there is. -/
structure Normalized (m : Nat) (e : Int) : Prop where
  lt : m < 2 ^ 53
  least_le : -1074 ≤ e
  le_greatest : e ≤ 971
  full : 2 ^ 52 ≤ m ∨ e = -1074

/-- The parts of some float. -/
def Canonical : UnpackedFloat → Prop
  | .finite _ m e _ => Normalized m e
  | _ => True

/-! ## Packing -/

@[simp] theorem unpackSign_packComponents (spec : Format) (s : Sign)
    (e : BitVec spec.exponentBits) (m : BitVec spec.mantissaBitsWithoutImplicit) :
    unpackSign (packComponents spec s e m) = s.toBitVec := by
  ext i hi
  obtain rfl : i = 0 := by omega
  simp [unpackSign, packComponents, BitVec.getLsbD_append, BitVec.getElem_append]

@[simp] theorem ofBitVec_toBitVec (s : Sign) : Sign.ofBitVec s.toBitVec = s := by
  cases s <;> rfl

/-- A mantissa with its first bit set is that bit and the 52 others. -/
theorem toNat_implicit_append {m : Nat} (hlo : 2 ^ 52 ≤ m) (hhi : m < 2 ^ 53) :
    (1#1 ++ BitVec.ofNat 52 m).toNat = m := by
  rw [BitVec.toNat_append, BitVec.toNat_ofNat, BitVec.toNat_ofNat,
    ← Nat.shiftLeft_add_eq_or_of_lt (Nat.mod_lt _ (by decide)), Nat.shiftLeft_eq]
  omega

theorem log2_eq_of_full {m : Nat} (hlo : 2 ^ 52 ≤ m) (hhi : m < 2 ^ 53) : m.log2 = 52 := by
  have hm : m ≠ 0 := by omega
  have := (Nat.le_log2 hm).mpr hlo
  have := (Nat.log2_lt hm).mpr hhi
  omega

/-- With the first bit of the mantissa set, the exponent is stored with its bias. -/
theorem pack_full {s : Sign} {m : Nat} {e : Int} (hm : 0 < m) (h : Normalized m e)
    (hfull : 2 ^ 52 ≤ m) :
    pack Format.binary64 (.finite s m e hm) =
      packComponents Format.binary64 s (BitVec.ofNat 11 (e + 1075).toNat) (BitVec.ofNat 52 m) := by
  have hbias : e + (Format.binary64.exponentBias : Int) + (52 : Nat) = e + 1075 := by
    rw [show Format.binary64.exponentBias = 1023 from rfl]
    omega
  have hhi := h.le_greatest
  simp only [pack, hbias]
  rw [if_neg (by omega), if_pos (by rw [log2_eq_of_full hfull h.lt]; rfl)]

/-- Below that, the exponent is the least there is and is stored as zero. -/
theorem pack_subnormal {s : Sign} {m : Nat} {e : Int} (hm : 0 < m) (h : Normalized m e)
    (hsub : m < 2 ^ 52) :
    pack Format.binary64 (.finite s m e hm) =
      packComponents Format.binary64 s 0#11 (BitVec.ofNat 52 m) := by
  have hlog : m.log2 < 52 := (Nat.log2_lt (by omega)).mpr hsub
  have he : e = -1074 := h.full.resolve_left (by omega)
  subst he
  simp only [pack]
  rw [if_neg (by decide), if_neg (by
    rw [show Format.binary64.mantissaBits = 53 from rfl]
    omega)]

theorem unpack_packComponents_full {s : Sign} {m : Nat} {e : Int} (hm : 0 < m) {b : BitVec 11}
    {f : BitVec 52} (hzero : b ≠ 0#11) (hones : b ≠ -1#11) (hf : (1#1 ++ f).toNat = m)
    (hb : (b.toNat : Int) - 1075 = e) :
    unpack Format.binary64 (packComponents Format.binary64 s b f) = .finite s m e hm := by
  subst hf hb
  simp only [unpack, unpackMantissa_packComponents, unpackExponent_packComponents,
    unpackSign_packComponents, ofBitVec_toBitVec]
  rw [if_neg hones, if_neg hzero]
  rfl

theorem unpack_packComponents_subnormal {s : Sign} {m : Nat} (hm : 0 < m) {f : BitVec 52}
    (hf : f.toNat = m) :
    unpack Format.binary64 (packComponents Format.binary64 s 0#11 f) =
      .finite s m (-1074) hm := by
  subst hf
  have hne : f ≠ 0#52 := by
    rintro rfl
    exact absurd hm (by decide)
  simp only [unpack, unpackMantissa_packComponents, unpackExponent_packComponents,
    unpackSign_packComponents, ofBitVec_toBitVec]
  rw [if_neg (by decide), if_pos trivial, dif_neg hne]
  rfl

theorem unpack_pack {u : UnpackedFloat} (h : Canonical u) :
    unpack Format.binary64 (pack Format.binary64 u) = u := by
  match u with
  | .notANumber => rfl
  | .infinity s => cases s <;> rfl
  | .zero s => cases s <;> rfl
  | .finite s m e hm =>
    have hlo := h.least_le
    have hhi := h.le_greatest
    by_cases hfull : 2 ^ 52 ≤ m
    · have hb : (BitVec.ofNat 11 (e + 1075).toNat).toNat = (e + 1075).toNat := by
        rw [BitVec.toNat_ofNat]
        omega
      rw [pack_full hm h hfull]
      refine unpack_packComponents_full hm ?_ ?_ (toNat_implicit_append hfull h.lt) ?_
      · intro hzero
        rw [hzero] at hb
        have : (0#11).toNat = 0 := rfl
        omega
      · intro hones
        rw [hones] at hb
        have : (-1#11).toNat = 2047 := rfl
        omega
      · rw [hb]
        omega
    · obtain rfl : e = -1074 := h.full.resolve_left hfull
      rw [pack_subnormal hm h (by omega)]
      refine unpack_packComponents_subnormal hm ?_
      rw [BitVec.toNat_ofNat]
      omega

theorem canonical_unpack (b : BitVec Format.binary64.numBits) :
    Canonical (unpack Format.binary64 b) := by
  have hf : (@unpackMantissa Format.binary64 b).toNat < 2 ^ 52 := BitVec.isLt _
  have hb : (@unpackExponent Format.binary64 b).toNat < 2 ^ 11 := BitVec.isLt _
  simp only [unpack, show Format.binary64.exponentBias = 1023 from rfl]
  split
  · split <;> trivial
  · next hones =>
      have hle : (@unpackExponent Format.binary64 b).toNat ≠ 2047 :=
        fun h => hones (BitVec.eq_of_toNat_eq h)
      split
      · next hzero =>
          split
          · trivial
          · rw [hzero]
            exact ⟨Nat.lt_trans hf (by decide), by decide, by decide, Or.inr rfl⟩
      · next hzero =>
          have hge : (@unpackExponent Format.binary64 b).toNat ≠ 0 :=
            fun h => hzero (BitVec.eq_of_toNat_eq h)
          have htop : (1#1 ++ @unpackMantissa Format.binary64 b).toNat =
              2 ^ 52 + (@unpackMantissa Format.binary64 b).toNat := by
            rw [BitVec.toNat_append, ← Nat.shiftLeft_add_eq_or_of_lt hf, Nat.shiftLeft_eq]
            rfl
          refine ⟨?_, ?_, ?_, Or.inl ?_⟩
          · rw [htop]
            omega
          · omega
          · omega
          · rw [htop]
            omega

/-! ## The parts of a float -/

theorem canonical_parts (x : Float) : Canonical (parts x) :=
  canonical_unpack _

@[simp] theorem parts_ofParts {u : UnpackedFloat} (h : Canonical u) : parts (ofParts u) = u :=
  unpack_pack h

theorem Canonical.neg {u : UnpackedFloat} (h : Canonical u) : Canonical u.neg := by
  cases u <;> exact h

theorem Canonical.abs {u : UnpackedFloat} (h : Canonical u) : Canonical u.abs := by
  cases u <;> exact h

theorem parts_neg (x : Float) : parts (-x) = (parts x).neg :=
  parts_ofParts (canonical_parts x).neg

theorem parts_abs (x : Float) : parts x.abs = (parts x).abs :=
  parts_ofParts (canonical_parts x).abs

@[simp] theorem parts_zero : parts 0 = .zero .positive := rfl

@[simp] theorem parts_one : parts 1 = .finite .positive (2 ^ 52) (-52) (by decide) := rfl

theorem isFinite_eq (x : Float) : x.isFinite = (parts x).isFinite := rfl

theorem isFinite_abs (x : Float) : x.abs.isFinite = x.isFinite := by
  rw [isFinite_eq, isFinite_eq, parts_abs]
  cases parts x <;> rfl

theorem isFinite_neg (x : Float) : (-x).isFinite = x.isFinite := by
  rw [isFinite_eq, isFinite_eq, parts_neg]
  cases parts x <;> rfl

/-! ## Comparisons -/

@[simp] theorem compare_sign_self (s : Sign) : compare s s = .eq := by
  cases s <;> rfl

theorem compare_eq_iff {u v : UnpackedFloat} :
    u.compare v = some .eq ↔ ((∃ s, u = .zero s) ∧ ∃ s, v = .zero s) ∨
      (u = v ∧ u ≠ .notANumber) := by
  rcases u with ⟨_ | _⟩ | _ | ⟨_ | _⟩ | ⟨_ | _, m, e, hm⟩ <;>
    rcases v with ⟨_ | _⟩ | _ | ⟨_ | _⟩ | ⟨_ | _, m', e', hm'⟩ <;>
    simp [UnpackedFloat.compare, Ordering.then_eq_eq, and_comm]

/-- Two floats are equal if both are zeros, or if they have the same parts and
are not NaN. -/
theorem beq_iff {x y : Float} :
    (x == y) = true ↔ ((∃ s, parts x = .zero s) ∧ ∃ s, parts y = .zero s) ∨
      (parts x = parts y ∧ parts x ≠ .notANumber) := by
  change ((parts x).compare (parts y) == some .eq) = true ↔ _
  rw [beq_iff_eq, compare_eq_iff]

theorem lt_iff {x y : Float} : x < y ↔ (parts x).compare (parts y) = some .lt := by
  change decide ((parts x).compare (parts y) == some .lt) = true ↔ _
  rw [decide_eq_true_iff, beq_iff_eq]

theorem isFinite_eq_of_beq {x y : Float} (h : (x == y) = true) : x.isFinite = y.isFinite := by
  rw [isFinite_eq, isFinite_eq]
  rcases beq_iff.mp h with ⟨⟨s, hs⟩, t, ht⟩ | ⟨heq, -⟩
  · rw [hs, ht]
    rfl
  · rw [heq]

theorem isFinite_of_beq {x y : Float} (h : (x == y) = true) (hy : y.isFinite = true) :
    x.isFinite = true :=
  (isFinite_eq_of_beq h).trans hy

theorem Binary.ofFloat?_eq (x : Float) :
    ofFloat? x = match parts x with
      | .zero _ => some ⟨0, 0⟩
      | .finite _ m e _ => some ⟨m, e⟩
      | .infinity _ | .notANumber => none := by
  unfold ofFloat? parts
  split <;> simp_all

theorem isNegative_eq (x : Float) :
    isNegative x = match parts x with
      | .zero s | .finite s _ _ _ | .infinity s => s == .negative
      | .notANumber => false := by
  unfold isNegative parts
  split <;> simp_all

/-- What equals the magnitude of a float that is not negative equals the float. -/
theorem beq_of_beq_abs {x y : Float} (h : (y == x.abs) = true) (hx : isNegative x = false) :
    (y == x) = true := by
  rw [beq_iff, parts_abs] at h
  rw [isNegative_eq] at hx
  rw [beq_iff]
  rcases hp : parts x with ⟨_ | _⟩ | _ | s | ⟨_ | _, m, e, hm⟩ <;> rw [hp] at h hx
  case zero =>
    obtain ⟨⟨s', hs⟩, -⟩ | ⟨hs, -⟩ := h <;> simp [hs, UnpackedFloat.abs]
  case notANumber => simp [UnpackedFloat.abs] at h
  case infinity.negative | finite.negative => cases hx
  case infinity.positive | finite.positive => exact h

/-- What equals the magnitude of a negative float is its opposite. -/
theorem neg_beq_of_beq_abs {x y : Float} (h : (y == x.abs) = true) (hx : isNegative x = true) :
    (-y == x) = true := by
  rw [beq_iff, parts_abs] at h
  rw [isNegative_eq] at hx
  rw [beq_iff, parts_neg]
  rcases hp : parts x with ⟨_ | _⟩ | _ | s | ⟨_ | _, m, e, hm⟩ <;> rw [hp] at h hx
  case zero =>
    obtain ⟨⟨s', hs⟩, -⟩ | ⟨hs, -⟩ := h <;> simp [hs, UnpackedFloat.neg, UnpackedFloat.abs]
  case notANumber => cases hx
  case infinity.positive | finite.positive => cases hx
  case infinity.negative | finite.negative =>
    obtain ⟨-, s', hs'⟩ | ⟨hs, -⟩ := h
    · cases hs'
    · rw [hs]
      exact Or.inr ⟨rfl, by simp [UnpackedFloat.abs, UnpackedFloat.neg]⟩

/-- A finite float is at least zero if it is a zero or has no sign. -/
theorem zero_le_iff {x : Float} (hx : x.isFinite = true) :
    0 ≤ x ↔ (∃ s, parts x = .zero s) ∨ isNegative x = false := by
  change decide (((parts 0).compare (parts x)).any (·.isLE)) = true ↔ _
  rw [decide_eq_true_iff, isNegative_eq, parts_zero]
  rw [isFinite_eq] at hx
  rcases hp : parts x with ⟨_ | _⟩ | _ | s | ⟨_ | _, m, e, hm⟩ <;> rw [hp] at hx
  case infinity.negative | infinity.positive | notANumber => cases hx
  case zero => simp [UnpackedFloat.compare]
  case finite.negative =>
    constructor
    · intro h
      cases h
    · rintro (⟨s, hs⟩ | h)
      · cases hs
      · cases h
  case finite.positive => exact ⟨fun _ => Or.inr rfl, fun _ => rfl⟩

/-! ## Zeros -/

theorem beq_zero_iff {x : Float} : (x == 0) = true ↔ ∃ s, parts x = .zero s := by
  rw [beq_iff, parts_zero]
  constructor
  · rintro (⟨h, -⟩ | ⟨h, -⟩)
    · exact h
    · exact ⟨_, h⟩
  · intro h
    exact Or.inl ⟨h, _, rfl⟩

/-- What is made of a zero by multiplying and dividing is a zero if it is finite at all. -/
theorem beq_zero_of_isFinite {u : UnpackedFloat} (hu : u = .notANumber ∨ ∃ s, u = .zero s)
    (h : (ofParts u).isFinite = true) : (ofParts u == 0) = true := by
  rw [beq_zero_iff]
  rcases hu with rfl | ⟨s, rfl⟩
  · cases h
  · exact ⟨s, parts_ofParts trivial⟩

theorem mul_zero_beq {x : Float} (h : (x * 0).isFinite = true) : (x * 0 == 0) = true := by
  have hmul : x * 0 = ofParts (.mul Format.binary64 (parts x) (parts 0)) := rfl
  rw [hmul, parts_zero] at h ⊢
  refine beq_zero_of_isFinite ?_ h
  rcases parts x with s | _ | s | ⟨s, m, e, hm⟩ <;> simp [UnpackedFloat.mul]

theorem zero_mul_beq {x : Float} (h : (0 * x).isFinite = true) : (0 * x == 0) = true := by
  have hmul : 0 * x = ofParts (.mul Format.binary64 (parts 0) (parts x)) := rfl
  rw [hmul, parts_zero] at h ⊢
  refine beq_zero_of_isFinite ?_ h
  rcases parts x with s | _ | s | ⟨s, m, e, hm⟩ <;> simp [UnpackedFloat.mul]

theorem zero_div_beq {x : Float} (h : (0 / x).isFinite = true) : (0 / x == 0) = true := by
  have hdiv : 0 / x = ofParts (.div Format.binary64 (parts 0) (parts x)) := rfl
  rw [hdiv, parts_zero] at h ⊢
  refine beq_zero_of_isFinite ?_ h
  rcases parts x with s | _ | s | ⟨s, m, e, hm⟩ <;> simp [UnpackedFloat.div]

end Fluxion.Decimal
