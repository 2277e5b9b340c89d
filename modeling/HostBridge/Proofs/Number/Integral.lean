import HostBridge.Proofs.Number.Bits
/-!
Integers as numbers. Magnitudes are compared in units of the smallest subnormal, where every finite
one is a natural number. Integers up to `2 ^ 53` are numbers exactly, the next integer is none, and
a number is determined by the integer that it is.
-/
namespace HostBridge
namespace Binary

theorem decode_subnormal {w : Nat} (h : w / 2 ^ 52 = 0) : double.decode w = (w % 2 ^ 52, -1074) :=
  if_pos h

theorem decode_normal {w : Nat} (h : w / 2 ^ 52 ≠ 0) :
    double.decode w = (w % 2 ^ 52 + 2 ^ 52, (-1074 : Int) + ((w / 2 ^ 52 : Nat) - 1)) :=
  if_neg h

def unitsOfOne : Nat := 2 ^ 1074

theorem two_pow_eq_units {k : Nat} (h : k = 1074) : 2 ^ k = unitsOfOne :=
  congrArg (fun exponent => 2 ^ exponent) h

theorem two_pow_units {k m : Nat} (h : m = k + 1074) : 2 ^ m = 2 ^ k * unitsOfOne := by
  obtain ⟨one, isOne⟩ : ∃ one, one = 1074 := ⟨_, rfl⟩
  rw [h, ← isOne, Nat.pow_add, two_pow_eq_units isOne]

theorem unitsOfOne_pos : 0 < unitsOfOne := by
  obtain ⟨one, isOne⟩ : ∃ one, one = 1074 := ⟨_, rfl⟩
  rw [← two_pow_eq_units isOne]
  exact Nat.two_pow_pos one

/-- A magnitude word of a double in units of the smallest subnormal. -/
def scaled (w : Nat) : Nat :=
  let (m, e) := double.decode w
  m * 2 ^ (e + 1074).toNat

theorem scaled_subnormal {w : Nat} (h : w / 2 ^ 52 = 0) : scaled w = w % 2 ^ 52 := by
  rw [scaled, decode_subnormal h]
  exact Nat.mul_one _

theorem scaled_normal {w : Nat} (h : w / 2 ^ 52 ≠ 0) :
    scaled w = (w % 2 ^ 52 + 2 ^ 52) * 2 ^ (w / 2 ^ 52 - 1) := by
  have exponent : (-1074 + ((w / 2 ^ 52 : Nat) - 1) + 1074 : Int).toNat = w / 2 ^ 52 - 1 := by omega
  rw [scaled, decode_normal h]
  simp only [exponent]

/-- The words of one exponent field all lie below the power of two that begins the next field. -/
theorem scaled_lt_field (w : Nat) : scaled w < 2 ^ 52 * 2 ^ (w / 2 ^ 52) := by
  have low : w % 2 ^ 52 < 2 ^ 52 := Nat.mod_lt _ (by decide)
  by_cases h : w / 2 ^ 52 = 0
  · rw [scaled_subnormal h, h]
    omega
  · obtain ⟨f, hf⟩ := Nat.exists_eq_succ_of_ne_zero h
    have double : 2 ^ 52 * 2 ^ (f + 1) = 2 ^ 53 * 2 ^ f := by
      rw [← Nat.pow_add, ← Nat.pow_add]
      congr 1
      omega
    rw [scaled_normal h, hf, Nat.succ_sub_one, Nat.succ_eq_add_one, double]
    exact Nat.mul_lt_mul_of_pos_right (by omega) (Nat.two_pow_pos f)

theorem field_le_scaled {w : Nat} (h : w / 2 ^ 52 ≠ 0) :
    2 ^ 52 * 2 ^ (w / 2 ^ 52 - 1) ≤ scaled w := by
  rw [scaled_normal h]
  exact Nat.mul_le_mul_right _ (Nat.le_add_left _ _)

theorem scaled_lt {v w : Nat} (h : v < w) : scaled v < scaled w := by
  by_cases same : v / 2 ^ 52 = w / 2 ^ 52
  · by_cases sub : w / 2 ^ 52 = 0
    · rw [scaled_subnormal sub, scaled_subnormal (same.trans sub)]
      omega
    · rw [scaled_normal sub, scaled_normal (same ▸ sub), same]
      exact Nat.mul_lt_mul_of_pos_right (by omega) (Nat.two_pow_pos _)
  · have field : v / 2 ^ 52 ≤ w / 2 ^ 52 - 1 := by omega
    calc scaled v < 2 ^ 52 * 2 ^ (v / 2 ^ 52) := scaled_lt_field v
      _ ≤ 2 ^ 52 * 2 ^ (w / 2 ^ 52 - 1) :=
        Nat.mul_le_mul_left _ (Nat.pow_le_pow_right (by decide) field)
      _ ≤ scaled w := field_le_scaled (by omega)

theorem scaled_le {v w : Nat} (h : v ≤ w) : scaled v ≤ scaled w := by
  rcases Nat.lt_or_eq_of_le h with lt | eq
  · exact Nat.le_of_lt (scaled_lt lt)
  · exact Nat.le_of_eq (congrArg scaled eq)

theorem scaled_inj {v w : Nat} (h : scaled v = scaled w) : v = w := by
  rcases Nat.lt_trichotomy v w with lt | eq | gt
  · exact absurd h (Nat.ne_of_lt (scaled_lt lt))
  · exact eq
  · exact absurd h.symm (Nat.ne_of_lt (scaled_lt gt))

theorem le_of_scaled_le {v w : Nat} (h : scaled v ≤ scaled w) : v ≤ w :=
  Nat.le_of_not_lt fun gt => Nat.not_lt_of_le h (scaled_lt gt)

theorem lowest_le_decode (w : Nat) : -1074 ≤ (double.decode w).2 := by
  by_cases h : w / 2 ^ 52 = 0
  · exact Int.le_of_eq (congrArg Prod.snd (decode_subnormal h)).symm
  · rw [decode_normal h]
    simp only
    omega

theorem shifted_lt {n : Nat} (positive : n ≠ 0) (small : n < 2 ^ 53) :
    n * 2 ^ (52 - n.log2) < 2 ^ 53 := by
  have log : n.log2 < 53 := (Nat.log2_lt positive).mpr small
  calc n * 2 ^ (52 - n.log2) < 2 ^ (n.log2 + 1) * 2 ^ (52 - n.log2) :=
      Nat.mul_lt_mul_of_pos_right Nat.lt_log2_self (Nat.two_pow_pos _)
    _ = 2 ^ 53 := by
      rw [← Nat.pow_add]
      congr 1
      omega

theorem encode_integer {n : Nat} (positive : n ≠ 0) (small : n < 2 ^ 53) :
    double.encode n 0 = (n.log2 + 1022) * 2 ^ 52 + n * 2 ^ (52 - n.log2) := by
  have log : n.log2 < 53 := (Nat.log2_lt positive).mpr small
  have place : double.place n 0 = n.log2 - 52 := by
    simp only [Binary.place, double]
    omega
  have left : (0 - (n.log2 - 52 : Int)).toNat = 52 - n.log2 := by omega
  have field : ((n.log2 - 52 : Int) - -1074).toNat = n.log2 + 1022 := by omega
  have bound := shifted_lt positive small
  have below : (n.log2 - 52 : Int) ≤ 0 := by omega
  rw [encode, if_neg positive]
  simp only [place, if_pos below, left, Nat.shiftLeft_eq]
  simp only [infinity, double, field, Nat.pow_eq]
  omega

theorem scaled_encode {n : Nat} (h : n ≤ 2 ^ 53) : scaled (double.encode n 0) = n * unitsOfOne := by
  rcases Nat.lt_or_eq_of_le h with small | rfl
  · rcases Nat.eq_zero_or_pos n with rfl | positive
    · have word : double.encode 0 0 = 0 := if_pos rfl
      rw [word, scaled_subnormal (Nat.zero_div _), Nat.zero_mod, Nat.zero_mul]
    · have log : n.log2 < 53 := (Nat.log2_lt (Nat.ne_of_gt positive)).mpr small
      have low : 2 ^ 52 ≤ n * 2 ^ (52 - n.log2) := by
        calc 2 ^ 52 = 2 ^ n.log2 * 2 ^ (52 - n.log2) := by
              rw [← Nat.pow_add]
              congr 1
              omega
          _ ≤ n * 2 ^ (52 - n.log2) :=
            Nat.mul_le_mul_right _ (Nat.log2_self_le (Nat.ne_of_gt positive))
      have high : n * 2 ^ (52 - n.log2) < 2 ^ 53 := shifted_lt (Nat.ne_of_gt positive) small
      have field : double.encode n 0 / 2 ^ 52 = n.log2 + 1023 := by
        rw [encode_integer (Nat.ne_of_gt positive) small]
        omega
      have fraction : double.encode n 0 % 2 ^ 52 + 2 ^ 52 = n * 2 ^ (52 - n.log2) := by
        rw [encode_integer (Nat.ne_of_gt positive) small]
        omega
      have exponent : 52 - n.log2 + (n.log2 + 1023 - 1) = 1074 := by omega
      rw [scaled_normal (by omega), field, fraction, Nat.mul_assoc, ← Nat.pow_add,
        two_pow_eq_units exponent]
  · have word : double.encode (2 ^ 53) 0 = 1076 * 2 ^ 52 := by decide
    have exponent : 1076 * 2 ^ 52 / 2 ^ 52 - 1 = 1074 + 1 := by decide
    have fraction : 1076 * 2 ^ 52 % 2 ^ 52 + 2 ^ 52 = 2 ^ 52 := by decide
    have half (k : Nat) : 2 ^ 52 * 2 ^ (k + 1) = 2 ^ 53 * 2 ^ k := by
      rw [Nat.pow_succ]
      omega
    rw [word, scaled_normal (by decide), exponent, fraction, half, two_pow_eq_units rfl]

end Binary

namespace Number
open Binary

theorem encode_le_infinity (m : Nat) (e : Int) : double.encode m e ≤ double.infinity := by
  rw [encode]
  split
  · exact Nat.zero_le _
  · exact Nat.min_le_left _ _

theorem encode_lt (m : Nat) (e : Int) : double.encode m e < 2 ^ 63 :=
  Nat.lt_of_le_of_lt (encode_le_infinity m e) infinity_lt

theorem magnitude_ofInt (i : Int) : (ofInt i).magnitude = double.encode i.natAbs 0 :=
  magnitude_ofMagnitude _ (encode_lt _ _)

theorem negative_ofInt (i : Int) : (ofInt i).negative = decide (i < 0) :=
  negative_ofMagnitude _ (encode_lt _ _)

theorem ofInt_isNaN (i : Int) : (ofInt i).isNaN = false := by
  rw [isNaN, magnitude_ofInt]
  exact decide_eq_false (Nat.not_lt_of_le (encode_le_infinity _ _))

/-- A finite number is the integer `k` up to sign when its magnitude is `k` times one. -/
theorem integral_iff {n : Number} (finite : n.isFinite = true) (k : Nat) :
    n.isIntegral = true ∧ n.wholePart = k ↔ scaled n.magnitude = k * unitsOfOne := by
  have low := lowest_le_decode n.magnitude
  simp only [isIntegral, wholePart, scaled, finite, Bool.true_and, Bool.or_eq_true,
    decide_eq_true_eq, Nat.pow_eq]
  generalize double.decode n.magnitude = d at low ⊢
  obtain ⟨m, e⟩ := d
  simp only at low ⊢
  by_cases h : 0 ≤ e
  · have split : 2 ^ (e + 1074).toNat = 2 ^ e.toNat * unitsOfOne := two_pow_units (by omega)
    rw [if_pos h, split, ← Nat.mul_assoc, Nat.shiftLeft_eq,
      Nat.mul_right_cancel_iff unitsOfOne_pos]
    exact and_iff_right (.inl h)
  · -- The units of one are those of the last place times the factor that shifts the fraction out.
    have split : unitsOfOne = 2 ^ (-e).toNat * 2 ^ (e + 1074).toNat := by
      rw [← Nat.pow_add]
      exact (two_pow_eq_units (by omega)).symm
    have positive := Nat.two_pow_pos (-e).toNat
    rw [if_neg h, split, ← Nat.mul_assoc, Nat.shiftRight_eq_div_pow,
      Nat.mul_right_cancel_iff (Nat.two_pow_pos _)]
    simp only [h, false_or]
    generalize 2 ^ (-e).toNat = q at positive
    constructor
    · rintro ⟨whole, rfl⟩
      exact (Nat.div_mul_cancel (Nat.dvd_of_mod_eq_zero whole)).symm
    · rintro rfl
      exact ⟨Nat.mul_mod_left k q, Nat.mul_div_cancel k positive⟩

theorem toInt?_eq_some_iff {n : Number} {i : Int} :
    n.toInt? = some i ↔ n.isIntegral = true ∧ n.truncated = i := by
  unfold toInt?
  split
  · rename_i integral
    simp [integral]
  · rename_i integral
    simp [integral]

theorem finite_of_integral {n : Number} (h : n.isIntegral = true) : n.isFinite = true := by
  rw [isIntegral, Bool.and_eq_true] at h
  exact h.1

theorem scaled_of_toInt? {n : Number} {i : Int} (h : n.toInt? = some i) :
    scaled n.magnitude = i.natAbs * unitsOfOne := by
  obtain ⟨integral, whole⟩ := toInt?_eq_some_iff.mp h
  refine (integral_iff (finite_of_integral integral) _).mp ⟨integral, ?_⟩
  rw [← whole, truncated]
  split <;> omega

theorem encode_lt_infinity {n : Nat} (h : n ≤ 2 ^ 53) : double.encode n 0 < double.infinity := by
  have top : double.encode (2 ^ 53) 0 < double.infinity := by decide
  refine Nat.lt_of_le_of_lt (le_of_scaled_le ?_) top
  rw [scaled_encode h, scaled_encode (Nat.le_refl _)]
  exact Nat.mul_le_mul_right _ h

theorem toInt?_ofInt {i : Int} (h : i.natAbs ≤ 2 ^ 53) : (ofInt i).toInt? = some i := by
  have finite : (ofInt i).isFinite = true := by
    rw [isFinite, magnitude_ofInt]
    exact decide_eq_true (encode_lt_infinity h)
  have size : scaled (ofInt i).magnitude = i.natAbs * unitsOfOne := by
    rw [magnitude_ofInt, scaled_encode h]
  obtain ⟨integral, whole⟩ := (integral_iff finite _).mpr size
  refine toInt?_eq_some_iff.mpr ⟨integral, ?_⟩
  rw [truncated, whole, negative_ofInt]
  simp only [decide_eq_true_eq]
  split <;> omega

theorem clamp_ofInt {i lo hi : Int} (small : i.natAbs ≤ 2 ^ 53) (above : lo ≤ i) (below : i ≤ hi) :
    (ofInt i).clamp lo hi = i := by
  obtain ⟨-, whole⟩ := toInt?_eq_some_iff.mp (toInt?_ofInt small)
  have finite : (ofInt i).isInfinite = false := by
    rw [isInfinite, magnitude_ofInt]
    exact decide_eq_false (Nat.ne_of_lt (encode_lt_infinity small))
  rw [clamp, ofInt_isNaN, finite, whole]
  simp only [Bool.false_eq_true, if_false]
  omega

theorem eq_ofInt_of_toInt? {n : Number} {i : Int} (positive : 0 < i) (small : i.natAbs ≤ 2 ^ 53)
    (h : n.toInt? = some i) : n = ofInt i := by
  have size := scaled_of_toInt? h
  rw [← scaled_encode small, ← magnitude_ofInt] at size
  refine ext_magnitude ?_ (scaled_inj size)
  obtain ⟨-, whole⟩ := toInt?_eq_some_iff.mp h
  rw [negative_ofInt, decide_eq_false (by omega)]
  rw [truncated] at whole
  split at whole
  · omega
  · rename_i sign
    exact Bool.eq_false_iff.mpr sign

/-- The next word after that of `2 ^ 53` stands for `2 ^ 53 + 2`. -/
theorem toInt?_ne_of_gap (n : Number) : n.toInt? ≠ some (2 ^ 53 + 1) := by
  intro h
  have whole : (2 ^ 53 + 1 : Int).natAbs = 2 ^ 53 + 1 := by decide
  have size := scaled_of_toInt? h
  rw [whole] at size
  have one := unitsOfOne_pos
  have word : double.encode (2 ^ 53) 0 = 1076 * 2 ^ 52 := by decide
  have below : scaled (1076 * 2 ^ 52) = 2 ^ 53 * unitsOfOne := by
    rw [← word]
    exact scaled_encode (Nat.le_refl _)
  have above : scaled (1076 * 2 ^ 52 + 1) = (2 ^ 53 + 2) * unitsOfOne := by
    have exponent : (1076 * 2 ^ 52 + 1) / 2 ^ 52 - 1 = 1 + 1074 := by decide
    have fraction : (1076 * 2 ^ 52 + 1) % 2 ^ 52 + 2 ^ 52 = 2 ^ 52 + 1 := by decide
    rw [scaled_normal (by decide), two_pow_units exponent, fraction]
    omega
  rcases Nat.lt_or_ge (1076 * 2 ^ 52) n.magnitude with later | earlier
  · have reach : scaled (1076 * 2 ^ 52 + 1) ≤ scaled n.magnitude := scaled_le later
    omega
  · have reach := scaled_le earlier
    omega

theorem ofInt_gap : ofInt (2 ^ 53 + 1) = ofInt (2 ^ 53) := by decide

theorem isNaN_of_toInt? {n : Number} {i : Int} (h : n.toInt? = some i) : n.isNaN = false := by
  have finite := finite_of_integral (toInt?_eq_some_iff.mp h).1
  simp only [isFinite, decide_eq_true_eq] at finite
  exact decide_eq_false (Nat.not_lt_of_lt finite)

theorem one_le_iff {n : Number} {i : Int} (h : n.toInt? = some i) :
    one.le n = true ↔ 1 ≤ i := by
  have size := scaled_of_toInt? h
  have whole := (toInt?_eq_some_iff.mp h).2
  have oneWord : one.magnitude = double.encode 1 0 := by decide
  have oneSize : scaled one.magnitude = 1 * unitsOfOne := by
    rw [oneWord]
    exact scaled_encode (by decide)
  have oneRank : one.rank = one.magnitude := by decide
  have onePositive : 0 < one.magnitude := by decide
  have oneNumber : one.isNaN = false := by decide
  simp only [le, oneNumber, isNaN_of_toInt? h, oneRank, Bool.not_false, Bool.true_and,
    decide_eq_true_eq]
  rw [truncated] at whole
  unfold rank
  constructor
  · intro above
    split at above
    · omega
    · rename_i sign
      rw [if_neg sign] at whole
      have grows := scaled_le (Int.ofNat_le.mp above)
      rw [size, oneSize] at grows
      have atLeast := Nat.le_of_mul_le_mul_right grows unitsOfOne_pos
      omega
  · intro positive
    split at whole
    · omega
    · rename_i sign
      rw [if_neg sign]
      refine Int.ofNat_le.mpr (le_of_scaled_le ?_)
      rw [size, oneSize]
      exact Nat.mul_le_mul_right _ (by omega)

theorem toInt?_of_magnitude_eq_zero {n : Number} (h : n.magnitude = 0) : n.toInt? = some 0 := by
  have finite : n.isFinite = true := by
    rw [isFinite, h]
    decide
  have size : scaled n.magnitude = 0 * unitsOfOne := by
    rw [h, scaled_subnormal (Nat.zero_div _), Nat.zero_mod, Nat.zero_mul]
  obtain ⟨integral, whole⟩ := (integral_iff finite 0).mpr size
  refine toInt?_eq_some_iff.mpr ⟨integral, ?_⟩
  rw [truncated, whole]
  split <;> rfl

theorem toInt?_canonical {n : Number} (h : n.isNaN = false) : n.canonical.toInt? = n.toInt? := by
  rw [canonical, h]
  split
  · rename_i isZero
    rw [toInt?_of_magnitude_eq_zero isZero]
    exact toInt?_of_magnitude_eq_zero (by decide)
  · rfl

theorem eqv_ofInt_iff {i j : Int} (hi : i.natAbs ≤ 2 ^ 53) (hj : j.natAbs ≤ 2 ^ 53) :
    (ofInt i).eqv (ofInt j) = true ↔ i = j := by
  rw [eqv_iff]
  constructor
  · rintro ⟨ni, nj, same⟩
    have read := toInt?_canonical ni
    rw [same, toInt?_canonical nj, toInt?_ofInt hi, toInt?_ofInt hj] at read
    exact (Option.some.inj read).symm
  · rintro rfl
    exact ⟨ofInt_isNaN i, ofInt_isNaN i, rfl⟩

end Number
end HostBridge
