import Mathlib.Algebra.Group.Nat.Defs
import Mathlib.Data.Nat.Log
import FiniteAutomata.Decimal.Scaled

/-! # What is calculated stays finite

The exponent of a finite number bounds its size. Rounding keeps the bound up to one, so the bounds of
operands give one for the result of an operation. What a numeral is read as is divided by powers of ten
only, or was found to be finite after a multiplication.
-/
namespace FiniteAutomata
namespace Magnitude
open Float.Model
open Float.Model.UnpackedFloat hiding isFinite isInf neg mul div add ofNat pack unpack

/-- A number with a mantissa of the format and an exponent up to a bound. -/
def Below (k : Int) : UnpackedFloat → Prop
  | .zero _ => True
  | .finite _ m e _ => m < 2 ^ 53 ∧ e ≤ k
  | _ => False

instance (k : Int) (u : UnpackedFloat) : Decidable (Below k u) :=
  match u with
  | .zero _ => isTrue trivial
  | .finite _ m e _ => inferInstanceAs (Decidable (m < 2 ^ 53 ∧ e ≤ k))
  | .infinity _ | .notANumber => isFalse id

theorem Below.mono {k l : Int} {u : UnpackedFloat} (h : Below k u) (hkl : k ≤ l) : Below l u := by
  cases u with
  | zero => trivial
  | finite => exact ⟨h.1, Int.le_trans h.2 hkl⟩
  | _ => exact h

theorem Below.isFinite {k : Int} {u : UnpackedFloat} (h : Below k u) : u.isFinite = true := by
  cases u with
  | zero => rfl
  | finite => rfl
  | _ => exact h.elim

/-- The stored exponent, whose largest value is kept for what is not finite. -/
def stored (b : BitVec Format.binary64.numBits) : Nat :=
  (unpackExponent b : BitVec Format.binary64.exponentBits).toNat

theorem stored_eq_max_iff {b : BitVec Format.binary64.numBits} :
    unpackExponent b = -1#11 ↔ stored b = 2047 :=
  ⟨fun h => congrArg BitVec.toNat h, fun h => BitVec.eq_of_toNat_eq h⟩

theorem below_unpack {b : BitVec Format.binary64.numBits} {k : Int} (hb : stored b < 2047)
    (hbk : (stored b : Int) - 1075 ≤ k) (hk : -1074 ≤ k) :
    Below k (UnpackedFloat.unpack Format.binary64 b) := by
  have hmax : unpackExponent b ≠ -1#11 :=
    fun h => Nat.ne_of_lt hb (stored_eq_max_iff.mp h)
  have hmantissa := (unpackMantissa b).isLt
  have hbias : Format.binary64.exponentBias = 1023 := by decide
  unfold stored at hbk
  unfold UnpackedFloat.unpack
  dsimp only
  rw [if_neg hmax, hbias]
  by_cases hzero : unpackExponent b = BitVec.ofNat Format.binary64.exponentBits 0
  · have hexponent : (unpackExponent b).toNat = 0 := congrArg BitVec.toNat hzero
    rw [if_pos hzero]
    by_cases hm : unpackMantissa b = BitVec.ofNat Format.binary64.mantissaBitsWithoutImplicit 0
    · rw [dif_pos hm]
      trivial
    · rw [dif_neg hm]
      refine ⟨Nat.lt_trans hmantissa (by decide), ?_⟩
      omega
  · rw [if_neg hzero]
    refine ⟨(1#1 ++ unpackMantissa b).isLt, ?_⟩
    omega

theorem stored_lt_of_isFinite {b : BitVec Format.binary64.numBits}
    (h : (UnpackedFloat.unpack Format.binary64 b).isFinite = true) : stored b < 2047 := by
  have hle : stored b < 2048 := (unpackExponent b : BitVec Format.binary64.exponentBits).isLt
  have hne : stored b ≠ 2047 := by
    intro hmax
    unfold UnpackedFloat.unpack at h
    dsimp only at h
    rw [if_pos (stored_eq_max_iff.mpr hmax)] at h
    split at h <;> cases h
  omega

theorem below_of_isFinite {b : BitVec Format.binary64.numBits}
    (h : (UnpackedFloat.unpack Format.binary64 b).isFinite = true) :
    Below 971 (UnpackedFloat.unpack Format.binary64 b) := by
  have hb := stored_lt_of_isFinite h
  exact below_unpack hb (by omega) (by decide)

theorem stored_components (s : Sign) (e : BitVec 11) (m : BitVec 52) :
    stored (packComponents Format.binary64 s e m) = e.toNat := by
  rw [stored, unpackExponent_packComponents]

/-- What is packed keeps its exponent, or has the least one if it is too small; if it is too large, it is
infinite. -/
theorem stored_pack (s : Sign) (m : Nat) (e : Int) (hm : 0 < m) :
    UnpackedFloat.pack Format.binary64 (.finite s m e hm) = packedInfinity Format.binary64 s ∧ 971 < e ∨
      stored (UnpackedFloat.pack Format.binary64 (.finite s m e hm)) < 2047 ∧
        (stored (UnpackedFloat.pack Format.binary64 (.finite s m e hm)) : Int) ≤ max (e + 1075) 0 := by
  have hbias : Format.binary64.exponentBias = 1023 := by decide
  unfold UnpackedFloat.pack
  dsimp only
  rw [hbias]
  split
  · exact .inl ⟨rfl, by omega⟩
  · rename_i hfits
    right
    split
    · rw [stored_components, BitVec.toNat_ofNat, Nat.mod_eq_of_lt (by omega)]
      omega
    · rw [stored_components, BitVec.toNat_ofNat]
      omega

theorem below_unpack_pack {u : UnpackedFloat} {k : Int} (h : Below k u) (hk : -1074 ≤ k) (hk' : k ≤ 971) :
    Below k (UnpackedFloat.unpack Format.binary64 (UnpackedFloat.pack Format.binary64 u)) := by
  cases u with
  | zero s => cases s <;> trivial
  | finite s m e hm =>
    have he := h.2
    rcases stored_pack s m e hm with ⟨-, hlarge⟩ | ⟨hb, hbk⟩
    · omega
    · exact below_unpack hb (by omega) hk
  | _ => exact h.elim

theorem isFinite_or_isInf_unpack_pack {u : UnpackedFloat} (h : u.isNaN = false) :
    (UnpackedFloat.unpack Format.binary64 (UnpackedFloat.pack Format.binary64 u)).isFinite = true ∨
      (UnpackedFloat.unpack Format.binary64 (UnpackedFloat.pack Format.binary64 u)).isInf = true := by
  cases u with
  | notANumber => cases h
  | infinity s => cases s <;> exact .inr rfl
  | zero s => cases s <;> exact .inl rfl
  | finite s m e hm =>
    rcases stored_pack s m e hm with ⟨hpack, -⟩ | ⟨hb, -⟩
    · rw [hpack]
      cases s <;> exact .inr rfl
    · have hbelow : Below 971 _ := below_unpack hb (by omega) (by decide)
      exact .inl hbelow.isFinite

theorem targetExponent_eq (t : Int) :
    Format.binary64.targetExponent t = max (t - 53) (-1074) := by
  rfl

theorem mantissa_shiftRight (m : ExtendedMantissa) (k : Nat) :
    (m >>> k).mantissa = m.mantissa / 2 ^ k := by
  induction k generalizing m with
  | zero => exact (Nat.div_one _).symm
  | succ k ih =>
    change (m >>> k).mantissa / 2 = _
    rw [ih, Nat.div_div_eq_div_mul, ← Nat.pow_succ]

theorem roundedMantissa_le (m : ExtendedMantissa) : m.roundedMantissa ≤ m.mantissa + 1 := by
  rcases m with ⟨m, _ | _, _ | _⟩ <;>
    simp [ExtendedMantissa.roundedMantissa, ExtendedMantissa.accuracy, Accuracy.roundToNearestEven]
  omega

theorem log2_le_of_le {m k : Nat} (h : m ≤ 2 ^ k) : m.log2 ≤ k := by
  rcases Nat.eq_zero_or_pos m with rfl | hm
  · exact Nat.zero_le _
  · have hpow := Nat.le_trans (Nat.log2_self_le (Nat.ne_of_gt hm)) h
    exact (Nat.pow_le_pow_iff_right (by decide)).mp hpow

theorem mantissa_shiftToTarget (m : Nat) (e : Int) (a : Accuracy) :
    (shiftToTargetExponent Format.binary64 m e a).1.mantissa < 2 ^ 53 := by
  have hmantissa : (ExtendedMantissa.ofMantissaAndAccuracy m a).mantissa = m := by
    rcases a with _ | (_ | _ | _) <;> rfl
  unfold shiftToTargetExponent shiftToExponent
  dsimp only
  rw [mantissa_shiftRight, hmantissa, Nat.div_lt_iff_lt_mul (Nat.two_pow_pos _), ← Nat.pow_add]
  refine Nat.lt_of_lt_of_le Nat.lt_log2_self (Nat.pow_le_pow_right (by decide) ?_)
  rw [targetExponent_eq, totalExponent]
  omega

theorem exponent_shiftToTarget (m : Nat) (e : Int) (a : Accuracy) :
    (shiftToTargetExponent Format.binary64 m e a).2 =
      max e (max (totalExponent m e - 53) (-1074)) := by
  unfold shiftToTargetExponent shiftToExponent
  dsimp only
  rw [targetExponent_eq]
  omega

/-- Rounding up to the next power of two is all that rounding can add. -/
theorem below_roundWithAccuracy {m : Nat} {e k : Int} (he : e ≤ k) (ht : totalExponent m e ≤ k + 53)
    (hk : -1074 ≤ k) (s : Sign) (a : Accuracy) :
    Below (k + 1) (roundWithAccuracy Format.binary64 s m e a) := by
  have hmantissa := mantissa_shiftToTarget m e a
  have hexponent := exponent_shiftToTarget m e a
  unfold roundWithAccuracy
  generalize shiftToTargetExponent Format.binary64 m e a = first at hmantissa hexponent ⊢
  dsimp only
  have hfinal := mantissa_shiftToTarget first.1.roundedMantissa first.2 .exact
  have hshifted := exponent_shiftToTarget first.1.roundedMantissa first.2 .exact
  generalize shiftToTargetExponent Format.binary64 first.1.roundedMantissa first.2 .exact = final
    at hfinal hshifted ⊢
  by_cases hzero : final.1.mantissa = 0
  · rw [dif_pos hzero]
    trivial
  · rw [dif_neg hzero]
    refine ⟨hfinal, ?_⟩
    have hrounded := roundedMantissa_le first.1
    have hlog : first.1.roundedMantissa.log2 ≤ 53 := log2_le_of_le (by omega)
    rw [hshifted, totalExponent]
    omega

theorem log2_shiftLeft {m : Nat} (hm : 0 < m) (k : Nat) : (m <<< k).log2 = m.log2 + k := by
  have hne : m <<< k ≠ 0 := by
    rw [Nat.shiftLeft_eq]
    exact Nat.mul_ne_zero (Nat.ne_of_gt hm) (Nat.ne_of_gt (Nat.two_pow_pos k))
  rw [Nat.log2_eq_iff hne, Nat.shiftLeft_eq, Nat.pow_add, Nat.add_right_comm, Nat.pow_add]
  exact ⟨Nat.mul_le_mul_right _ (Nat.log2_self_le (Nat.ne_of_gt hm)),
    Nat.mul_lt_mul_of_pos_right Nat.lt_log2_self (Nat.two_pow_pos k)⟩

theorem below_round {m : Nat} {e k : Int} (hm : 0 < m) (ht : totalExponent m e ≤ k + 53)
    (hk : -1074 ≤ k) (s : Sign) : Below (k + 1) (UnpackedFloat.round Format.binary64 s m e) := by
  unfold UnpackedFloat.round decreaseExponent
  dsimp only
  rw [targetExponent_eq]
  refine below_roundWithAccuracy (by omega) ?_ hk s _
  rw [totalExponent] at ht ⊢
  rw [log2_shiftLeft hm]
  omega

theorem below_normalize {m : Int} {e k : Int} (ht : totalExponent m.natAbs e ≤ k + 53)
    (hk : -1074 ≤ k) (s : Sign) : Below (k + 1) (UnpackedFloat.normalize Format.binary64 m e s) := by
  unfold UnpackedFloat.normalize
  split
  · rename_i h
    have hm : m < 0 := Int.compare_eq_lt.mp h
    have habs : (-m).toNat = m.natAbs := by omega
    rw [habs]
    exact below_round (by omega) ht hk _
  · trivial
  · rename_i h
    have hm : 0 < m := Int.compare_eq_gt.mp h
    have habs : m.toNat = m.natAbs := by omega
    rw [habs]
    exact below_round (by omega) ht hk _

theorem below_mul {u v : UnpackedFloat} {k l : Int} (hu : Below k u) (hv : Below l v)
    (hk : -1127 ≤ k + l) : Below (k + l + 54) (UnpackedFloat.mul Format.binary64 u v) := by
  cases u with
  | zero => cases v <;> trivial
  | finite s m e hm =>
    cases v with
    | zero => trivial
    | finite s' m' e' hm' =>
      have hproduct : m * m' < 2 ^ 106 := by
        have hle := Nat.mul_lt_mul'' hu.1 hv.1
        rwa [← Nat.pow_add] at hle
      have hlog : (m * m').log2 < 106 := (Nat.log2_lt (Nat.mul_ne_zero hm.ne' hm'.ne')).mpr hproduct
      have he := hu.2
      have he' := hv.2
      have hround := below_roundWithAccuracy (m := m * m') (e := e + e') (k := k + l + 53) (by omega)
        (by rw [totalExponent]; omega) (by omega) (s * s') .exact
      exact hround.mono (by omega)
    | _ => exact hv.elim
  | _ => exact hu.elim

theorem natAbs_apply (s : Sign) (m : Nat) : (s.apply m).natAbs = m := by
  cases s with
  | negative => exact Int.natAbs_neg m
  | positive => rfl

theorem isNaN_roundWithAccuracy (s : Sign) (m : Nat) (e : Int) (a : Accuracy) :
    (roundWithAccuracy Format.binary64 s m e a).isNaN = false := by
  unfold roundWithAccuracy
  generalize shiftToTargetExponent Format.binary64 m e a = first
  dsimp only
  generalize shiftToTargetExponent Format.binary64 first.1.roundedMantissa first.2 .exact = final
  by_cases hzero : final.1.mantissa = 0
  · rw [dif_pos hzero]
    rfl
  · rw [dif_neg hzero]
    rfl

theorem isNaN_mul {u v : UnpackedFloat} (hu : u.isFinite = true) (hv : v.isFinite = true) :
    (UnpackedFloat.mul Format.binary64 u v).isNaN = false := by
  cases u with
  | zero => cases v <;> first | rfl | cases hv
  | finite =>
    cases v with
    | zero => rfl
    | finite => exact isNaN_roundWithAccuracy ..
    | _ => cases hv
  | _ => cases hu

theorem below_add {u v : UnpackedFloat} {k : Int} (hu : Below k u) (hv : Below k v)
    (hk : -1074 ≤ k) : Below (k + 3) (UnpackedFloat.add Format.binary64 u v) := by
  cases u with
  | zero s =>
    cases v with
    | zero s' => cases s <;> cases s' <;> trivial
    | finite => exact hv.mono (by omega)
    | _ => exact hv.elim
  | finite s m e hm =>
    cases v with
    | zero => exact hu.mono (by omega)
    | finite s' m' e' hm' =>
      obtain ⟨hm53, he⟩ := hu
      obtain ⟨hm53', he'⟩ := hv
      unfold UnpackedFloat.add decreaseExponent
      dsimp only
      have hshift {m : Nat} {e : Int} (hm : m < 2 ^ 53) (he : e ≤ k) (c : Int) (hc : c ≤ k) :
          m <<< (e - c).toNat ≤ 2 ^ (53 + (k - c).toNat) := by
        rw [Nat.shiftLeft_eq, Nat.pow_add]
        exact Nat.mul_le_mul (Nat.le_of_lt hm) (Nat.pow_le_pow_right (by decide) (by omega))
      have hleft := hshift hm53 he (min e e') (by omega)
      have hright := hshift hm53' he' (min e e') (by omega)
      have hsum := Int.natAbs_add_le (s.apply ↑(m <<< (e - min e e').toNat))
        (s'.apply ↑(m' <<< (e' - min e e').toNat))
      rw [natAbs_apply, natAbs_apply] at hsum
      have hdouble : 2 ^ (54 + (k - min e e').toNat) = 2 * 2 ^ (53 + (k - min e e').toNat) := by
        rw [← Nat.pow_succ']
        congr 1
        omega
      have hlog := log2_le_of_le (Nat.le_trans hsum (by rw [hdouble]; omega))
      refine (below_normalize (k := k + 2) ?_ (by omega) _).mono (by omega)
      rw [totalExponent]
      omega
    | _ => exact hv.elim
  | _ => exact hu.elim

theorem log2_div_add_le {m d : Nat} (hq : 0 < m / d) : (m / d).log2 + d.log2 ≤ m.log2 := by
  have hd : d ≠ 0 := by
    rintro rfl
    simp at hq
  have hle : 2 ^ ((m / d).log2 + d.log2) ≤ m := by
    rw [Nat.pow_add]
    calc 2 ^ (m / d).log2 * 2 ^ d.log2
        ≤ m / d * d := Nat.mul_le_mul (Nat.log2_self_le hq.ne') (Nat.log2_self_le hd)
      _ ≤ m := Nat.div_mul_le_self m d
  have hm : m ≠ 0 := by
    rintro rfl
    simp at hq
  exact (Nat.le_log2 hm).mpr hle

/-- A number that is at least 2. -/
inductive AtLeastTwo : UnpackedFloat → Prop where
  | finite {s m e hm} : 2 ≤ totalExponent m e → AtLeastTwo (.finite s m e hm)

instance (u : UnpackedFloat) : Decidable (AtLeastTwo u) :=
  match u with
  | .finite _ m e _ => decidable_of_iff (2 ≤ totalExponent m e) ⟨.finite, fun h => (by cases h; assumption)⟩
  | .zero _ | .infinity _ | .notANumber => isFalse (by rintro ⟨⟩)

/-- Division by what is at least 2 makes up for rounding. -/
theorem below_div {u v : UnpackedFloat} {k : Int} (hu : Below k u) (hv : AtLeastTwo v)
    (hk : -1073 ≤ k) : Below k (UnpackedFloat.div Format.binary64 u v) := by
  cases hv with
  | @finite s' m' e' hm' hv =>
    cases u with
    | zero s => trivial
    | finite s m e hm =>
      obtain ⟨hm53, he⟩ := hu
      have hlog := (Nat.log2_lt hm.ne').mpr hm53
      unfold UnpackedFloat.div divCore
      dsimp only
      rw [targetExponent_eq]
      unfold totalExponent at hv ⊢
      generalize ht : min (e - e') (max ((m.log2 + 1 + e - (m'.log2 + 1 + e') : Int) - 53) (-1074)) = t
      refine (below_roundWithAccuracy (k := k - 1) (by omega) ?_ (by omega) _ _).mono (by omega)
      rw [totalExponent]
      rcases Nat.eq_zero_or_pos (m <<< (e - e' - t).toNat / m') with hzero | hpos
      · rw [hzero, Nat.log2_zero]
        omega
      · have hquotient := log2_div_add_le hpos
        rw [log2_shiftLeft hm] at hquotient
        omega
    | _ => exact hu.elim

theorem below_ofNat {n k : Nat} (h : n < 2 ^ k) :
    Below (k - 51) (UnpackedFloat.ofNat Format.binary64 n) := by
  have hlog : n.log2 ≤ k := log2_le_of_le (Nat.le_of_lt h)
  unfold UnpackedFloat.ofNat UnpackedFloat.ofInt
  refine (below_normalize (k := k - 52) ?_ (by omega) _).mono (by omega)
  rw [Int.natAbs_natCast, totalExponent]
  omega

end Magnitude

open Magnitude

/-- A finite number with an exponent up to a bound. -/
def FloatBelow (k : Int) (x : Float) : Prop := Below k x.toModel.unpack

namespace FloatBelow
variable {x y : Float} {k l : Int}

theorem isFinite_iff : x.isFinite = true ↔ FloatBelow 971 x := ⟨below_of_isFinite, Below.isFinite⟩

theorem isFinite (h : FloatBelow k x) : x.isFinite = true := Below.isFinite h

theorem mul (hx : FloatBelow k x) (hy : FloatBelow l y) (hk : -1127 ≤ k + l) (hk' : k + l ≤ 917) :
    FloatBelow (k + l + 54) (x * y) :=
  below_unpack_pack (below_mul hx hy hk) (by omega) (by omega)

theorem add (hx : FloatBelow k x) (hy : FloatBelow k y) (hk : -1074 ≤ k) (hk' : k ≤ 968) :
    FloatBelow (k + 3) (x + y) :=
  below_unpack_pack (below_add hx hy hk) (by omega) (by omega)

theorem toFloat (n : UInt64) : FloatBelow 13 n.toFloat :=
  below_unpack_pack (below_ofNat n.toNat_lt) (by decide) (by decide)

theorem ofNat {n : Nat} (h : n < 2 ^ 53) : FloatBelow 15 (Float.ofNat n) := by
  have hscaled : Float.ofNat n = n.toUInt64.toFloat * 1 := by
    change Float.ofScientific n false 0 = _
    rw [Float.ofScientific, dif_pos ⟨h, by decide⟩]
    rfl
  have hone : FloatBelow (-52) (1 : Float) := by
    unfold FloatBelow
    decide +kernel
  rw [hscaled]
  exact (toFloat _).mul hone (by decide) (by decide)

theorem neg (hx : FloatBelow k x) (hk : -1074 ≤ k) (hk' : k ≤ 971) : FloatBelow k (-x) := by
  have hneg : Below k x.toModel.unpack.neg := by
    unfold FloatBelow at hx
    generalize x.toModel.unpack = u at hx ⊢
    cases u with
    | zero => trivial
    | finite => exact hx
    | _ => exact hx.elim
  exact below_unpack_pack hneg hk hk'

theorem div (hx : FloatBelow k x) (hy : AtLeastTwo y.toModel.unpack) (hk : -1073 ≤ k)
    (hk' : k ≤ 971) : FloatBelow k (x / y) :=
  below_unpack_pack (below_div hx hy hk) (by omega) hk'

theorem isFinite_mul (hx : x.isFinite = true) (hy : y.isFinite = true) (h : (x * y).isInf = false) :
    (x * y).isFinite = true := by
  rcases isFinite_or_isInf_unpack_pack (isNaN_mul hx hy) with hfinite | hinf
  · exact hfinite
  · exact absurd (h.symm.trans hinf) Bool.false_ne_true

end FloatBelow

namespace Scaled

theorem powerOfTen_spec : ∀ k ≤ 308, (powerOfTen k).isFinite = true ∧
    (1 ≤ k → AtLeastTwo (powerOfTen k).toModel.unpack) := by
  decide +kernel

theorem isFinite_div {f p : Float} (hf : f.isFinite = true) (hp : AtLeastTwo p.toModel.unpack) :
    (f / p).isFinite = true :=
  ((FloatBelow.isFinite_iff.mp hf).div hp (by decide) (by decide)).isFinite

/-- What scaling gives is finite: too large a product is refused, and the rest gets smaller. -/
theorem isFinite_of_scale {f x : Float} {exponent : Int} (hf : f.isFinite = true)
    (h : scale f exponent = some x) : x.isFinite = true := by
  fun_induction scale f exponent with
  | case1 f exponent hle hneg =>
    cases h
    exact isFinite_div hf ((powerOfTen_spec _ hle).2 (by omega))
  | case2 => cases h
  | case3 f exponent hle hneg scaled hinf =>
    rw [← Option.some.inj h]
    exact FloatBelow.isFinite_mul hf (powerOfTen_spec _ hle).1 (Bool.eq_false_iff.mpr hinf)
  | case4 f =>
    cases h
    exact hf
  | case5 => cases h
  | case6 f exponent hlt hne hneg ih =>
    have hpower : (1e308 : Float) = powerOfTen 308 := rfl
    have hp := (powerOfTen_spec 308 (Nat.le_refl 308)).2 (by decide)
    rw [hpower] at h ih
    exact ih (isFinite_div hf hp) h

end Scaled

theorem Numeral.isFinite_of_float? {n : Numeral} {x : Float} (h : n.float? = some x) :
    x.isFinite = true := by
  have hmagnitude : ∀ f, n.magnitude? = some f → f.isFinite = true := by
    intro f hf
    unfold magnitude? at hf
    dsimp only at hf
    have hscaled {s : Scaled} (hs : s.toFloat? = some f) : f.isFinite = true :=
      Scaled.isFinite_of_scale (FloatBelow.toFloat _).isFinite hs
    split at hf
    · exact hscaled hf
    · split at hf
      · split at hf
        · rw [← Option.some.inj hf]
          rfl
        · cases hf
      · exact hscaled hf
  obtain ⟨f, hf, rfl⟩ := Option.map_eq_some_iff.mp h
  have hfinite := FloatBelow.isFinite_iff.mp (hmagnitude f hf)
  split
  · exact (hfinite.neg (by decide) (by decide)).isFinite
  · exact hfinite.isFinite

end FiniteAutomata
