import Mathlib.Tactic.SplitIfs
import HostBridge.Action.Operators
/-!
The shifts of the operators against the logical shift of the 64-bit vector by a count that may be
any integer. The machine shifts an unsigned word by a count below its width only, so the run of the
shift is also given step by step, with no result for a step that leaves these limits.
-/
namespace HostBridge

theorem Arith.onIntegers_ok (f : Int64 → Int64 → Int64) {a b : Number} {x y : Int64}
    (ha : a.toInt64? = some x) (hb : b.toInt64? = some y) :
    Arith.onIntegers f a b = .ok (.ofInt64 (f x y)) := by
  rw [Arith.onIntegers, ha, hb]

namespace Word

/-- The logical shift of a vector by a mathematical count, to the left for a positive one and to the
right for a negative one. -/
def logical (v : BitVec 64) (count : Int) : BitVec 64 :=
  if 0 ≤ count then v <<< count.toNat else v >>> (-count).toNat

theorem logical_left (v : BitVec 64) (n : Nat) : logical v n = v <<< n :=
  if_pos (Int.natCast_nonneg n)

theorem logical_right (v : BitVec 64) (n : Nat) : logical v (-n) = v >>> n := by
  unfold logical
  split
  · have zero : n = 0 := by omega
    subst zero
    simp
  · rw [Int.neg_neg, Int.toNat_natCast]

/-- Bit `i` of the shifted vector is the bit that stood `count` places below it. -/
theorem getLsbD_logical (v : BitVec 64) (count : Int) (i : Nat) :
    (logical v count).getLsbD i
      = (decide (i < 64 ∧ count ≤ i) && v.getLsbD (i - count).toNat) := by
  rcases Int.eq_nat_or_neg count with ⟨n, rfl | rfl⟩
  · have place : ((i : Int) - n).toNat = i - n := by omega
    rw [logical_left, BitVec.getLsbD_shiftLeft, place]
    by_cases width : i < 64
    · by_cases low : i < n
      · simp [width, low, Nat.not_le.mpr low]
      · simp [width, low, Nat.not_lt.mp low]
    · simp [width]
  · have place : ((i : Int) - -(n : Int)).toNat = n + i := by omega
    rw [logical_right, BitVec.getLsbD_ushiftRight, place]
    by_cases width : i < 64
    · simp [width]
    · rw [BitVec.getLsbD_of_ge v (n + i) (by omega), Bool.and_false]

theorem logical_eq_zero (v : BitVec 64) {count : Int} (far : 64 ≤ count.natAbs) :
    logical v count = 0#64 := by
  apply BitVec.eq_of_getLsbD_eq
  intro i width
  rw [getLsbD_logical, BitVec.getLsbD_zero]
  by_cases reached : count ≤ i
  · rw [BitVec.getLsbD_of_ge v (i - count).toNat (by omega), Bool.and_false]
  · simp [reached]

theorem logical_logical (v : BitVec 64) {a b : Int} (ha : 0 ≤ a) (hb : 0 ≤ b) :
    logical (logical v a) b = logical v (a + b) := by
  obtain ⟨m, rfl⟩ := Int.eq_ofNat_of_zero_le ha
  obtain ⟨n, rfl⟩ := Int.eq_ofNat_of_zero_le hb
  rw [← Int.natCast_add, logical_left, logical_left, logical_left, BitVec.shiftLeft_add]

/-- There and back, by a count below the width, leaves the bits that did not leave the vector. -/
theorem getLsbD_there_and_back (v : BitVec 64) {n : Nat} (small : n < 64) (i : Nat) :
    (logical (logical v n) (-n)).getLsbD i = (decide (i < 64 - n) && v.getLsbD i) := by
  rw [getLsbD_logical, getLsbD_logical]
  have place : ((i : Int) - -(n : Int)).toNat = i + n := by omega
  have back : (((i + n : Nat) : Int) - n).toNat = i := by omega
  rw [place, back, ← Bool.and_assoc, ← Bool.decide_and]
  congr 2
  exact propext (by omega)

/-! ### The machine's words -/

theorem toInt_neg {y : Int64} (h : y ≠ Int64.minValue) : (-y).toInt = -y.toInt := by
  have least : y.toInt ≠ -2 ^ 63 := fun same =>
    h (Int64.toInt_inj.mp (same.trans Int64.toInt_minValue.symm))
  have below := y.toInt_lt
  have above := y.le_toInt
  rw [Int64.toInt_neg]
  exact Int.bmod_eq_of_le (by omega) (by omega)

/-- Where the opposite is not the mathematical one, both are out of the width's reach. -/
theorem logical_opposite (v : BitVec 64) (y : Int64) :
    logical v (opposite y).toInt = logical v (-y.toInt) := by
  by_cases h : y = Int64.minValue
  · have far : 64 ≤ (opposite y).toInt.natAbs := h ▸ (by decide)
    rw [logical_eq_zero v far, logical_eq_zero v (h ▸ (by decide))]
  · rw [opposite, if_neg h, toInt_neg h]

/-- A count below the width is the number that the machine takes for it. -/
theorem toNat_count {y : Int64} (nonneg : 0 ≤ y.toInt) (small : y.toInt < 64) :
    (y.toUInt64.toBitVec % 64).toNat = y.toInt.toNat := by
  have word : y.toUInt64.toNat = y.toInt.toNat :=
    Int64.toNat_toUInt64_of_le (Int64.le_iff_toInt_le.mpr (Int64.toInt_zero ▸ nonneg))
  have least : y.toInt.toNat % 64 = y.toInt.toNat := Nat.mod_eq_of_lt (by omega)
  rw [BitVec.toNat_umod, UInt64.toNat_toBitVec, word]
  exact least

theorem toBitVec_left (x : Int64) {y : Int64} (nonneg : 0 ≤ y.toInt) (small : y.toInt < 64) :
    (x.toUInt64 <<< y.toUInt64).toInt64.toBitVec = x.toBitVec <<< y.toInt.toNat := by
  rw [UInt64.toBitVec_toInt64, UInt64.toBitVec_shiftLeft, Int64.toBitVec_toUInt64,
    BitVec.shiftLeft_eq', toNat_count nonneg small]

theorem toBitVec_right (x : Int64) {y : Int64} (nonneg : 0 ≤ y.toInt) (small : y.toInt < 64) :
    (x.toUInt64 >>> y.toUInt64).toInt64.toBitVec = x.toBitVec >>> y.toInt.toNat := by
  rw [UInt64.toBitVec_toInt64, UInt64.toBitVec_shiftRight, Int64.toBitVec_toUInt64,
    BitVec.ushiftRight_eq', toNat_count nonneg small]

theorem nonneg_iff (y : Int64) : 0 ≤ y ↔ 0 ≤ y.toInt := Int64.le_iff_toInt_le

theorem far_iff (y : Int64) : (y ≤ -64 ∨ 64 ≤ y) ↔ 64 ≤ y.toInt.natAbs := by
  have low : y ≤ -64 ↔ y.toInt ≤ -64 := Int64.le_iff_toInt_le
  have high : 64 ≤ y ↔ 64 ≤ y.toInt := Int64.le_iff_toInt_le
  rw [low, high]
  omega

theorem toInt_neg_near {y : Int64} (near : ¬64 ≤ y.toInt.natAbs) : (-y).toInt = -y.toInt :=
  toInt_neg fun least => near (least ▸ by decide)

theorem toBitVec_shift (x y : Int64) : (shift x y).toBitVec = logical x.toBitVec y.toInt := by
  simp only [shift, far_iff, nonneg_iff]
  split_ifs with far nonneg
  · rw [logical_eq_zero _ far]
    rfl
  · rw [toBitVec_left x nonneg (by omega), logical, if_pos nonneg]
  · have back := toInt_neg_near far
    rw [toBitVec_right x (by omega) (by omega), back, logical, if_neg nonneg]

@[simp] theorem toBitVec_shiftLeft (x y : Int64) :
    (shiftLeft x y).toBitVec = logical x.toBitVec y.toInt :=
  toBitVec_shift x y

@[simp] theorem toBitVec_shiftRight (x y : Int64) :
    (shiftRight x y).toBitVec = logical x.toBitVec (-y.toInt) :=
  (toBitVec_shift x (opposite y)).trans (logical_opposite x.toBitVec y)

/-- The least integer is its own negation, and its magnitude leaves nothing on either side. -/
theorem shiftRight_eq_neg (x y : Int64) : shiftRight x y = shiftLeft x (-y) := by
  apply Int64.toBitVec_inj.mp
  rw [toBitVec_shiftRight, toBitVec_shiftLeft]
  by_cases h : y = Int64.minValue
  · have far : 64 ≤ (-y.toInt).natAbs := h ▸ (by decide)
    rw [logical_eq_zero _ far, logical_eq_zero _ (h ▸ (by decide))]
  · rw [toInt_neg h]

/-! ### The steps -/

def neg? (y : Int64) : Option Int64 := if y = Int64.minValue then none else some (-y)

def count? (y : Int64) : Option UInt64 := if 0 ≤ y ∧ y < 64 then some y.toUInt64 else none

/-- The steps of a shift to the left, each of which may have no result. -/
def shiftLeft? (x y : Int64) : Option Int64 :=
  if y ≤ -64 ∨ 64 ≤ y then some 0
  else if 0 ≤ y then do
    let n ← count? y
    return (x.toUInt64 <<< n).toInt64
  else do
    let n ← count? (← neg? y)
    return (x.toUInt64 >>> n).toInt64

def opposite? (y : Int64) : Option Int64 :=
  if y = Int64.minValue then some Int64.maxValue else neg? y

def shiftRight? (x y : Int64) : Option Int64 := do shiftLeft? x (← opposite? y)

theorem neg?_eq_some {y : Int64} (h : y ≠ Int64.minValue) : neg? y = some (-y) := if_neg h

theorem count?_eq_some {y : Int64} (nonneg : 0 ≤ y.toInt) (small : y.toInt < 64) :
    count? y = some y.toUInt64 :=
  if_pos ⟨(nonneg_iff y).mpr nonneg, Int64.lt_iff_toInt_lt.mpr small⟩

theorem shiftLeft?_eq_some (x y : Int64) : shiftLeft? x y = some (shiftLeft x y) := by
  simp only [shiftLeft?, shiftLeft, shift, far_iff, nonneg_iff]
  split_ifs with far nonneg
  · rfl
  · rw [count?_eq_some nonneg (by omega)]
    rfl
  · have back := toInt_neg_near far
    have inner : y ≠ Int64.minValue := fun least => far (least ▸ by decide)
    rw [neg?_eq_some inner, Option.bind_eq_bind, Option.bind_some,
      count?_eq_some (by omega) (by omega)]
    rfl

theorem opposite?_eq_some (y : Int64) : opposite? y = some (opposite y) := by
  unfold opposite? opposite
  split_ifs with least
  · rfl
  · exact neg?_eq_some least

theorem shiftRight?_eq_some (x y : Int64) : shiftRight? x y = some (shiftRight x y) := by
  rw [shiftRight?, opposite?_eq_some]
  exact shiftLeft?_eq_some x (opposite y)

/-- The two shift operators. On numbers they shift the words that these stand for; on any two words
the result is the logical shift, and no step on the way to it overflows or shifts by the width. -/
theorem shifts_logical (x y : Int64) :
    (∀ a b : Number, a.toInt64? = some x → b.toInt64? = some y →
      Arith.onNumbers .shl a b = .ok (.ofInt64 (shiftLeft x y)) ∧
      Arith.onNumbers .shr a b = .ok (.ofInt64 (shiftRight x y))) ∧
    (shiftLeft x y).toBitVec = logical x.toBitVec y.toInt ∧
    (shiftRight x y).toBitVec = logical x.toBitVec (-y.toInt) ∧
    (64 ≤ y.toInt.natAbs → shiftLeft x y = 0 ∧ shiftRight x y = 0) ∧
    shiftRight x y = shiftLeft x (-y) ∧
    (∀ z : Int64, 0 ≤ y → 0 ≤ z →
      (shiftLeft (shiftLeft x y) z).toBitVec = logical x.toBitVec (y.toInt + z.toInt)) ∧
    (0 ≤ y → y < 64 → ∀ i, (shiftRight (shiftLeft x y) y).toBitVec.getLsbD i
      = (decide (i < 64 - y.toInt.toNat) && x.toBitVec.getLsbD i)) ∧
    shiftLeft? x y = some (shiftLeft x y) ∧
    shiftRight? x y = some (shiftRight x y) := by
  refine ⟨fun a b ha hb => ⟨Arith.onIntegers_ok _ ha hb, Arith.onIntegers_ok _ ha hb⟩,
    toBitVec_shiftLeft x y, toBitVec_shiftRight x y, fun far => ⟨?_, ?_⟩, shiftRight_eq_neg x y,
    fun z hy hz => ?_, fun hy small i => ?_, shiftLeft?_eq_some x y, shiftRight?_eq_some x y⟩
  · apply Int64.toBitVec_inj.mp
    rw [toBitVec_shiftLeft, logical_eq_zero _ far]
    rfl
  · apply Int64.toBitVec_inj.mp
    rw [toBitVec_shiftRight, logical_eq_zero _ ((Int.natAbs_neg _).symm ▸ far)]
    rfl
  · rw [toBitVec_shiftLeft, toBitVec_shiftLeft,
      logical_logical _ ((nonneg_iff y).mp hy) ((nonneg_iff z).mp hz)]
  · obtain ⟨n, count⟩ := Int.eq_ofNat_of_zero_le ((nonneg_iff y).mp hy)
    have width : y.toInt < 64 := Int64.lt_iff_toInt_lt.mp small
    rw [toBitVec_shiftRight, toBitVec_shiftLeft, count, Int.toNat_natCast,
      getLsbD_there_and_back _ (by omega)]

/-- The sum of two counts below the width may reach it; of the word of ones, 61 bits come back. -/
theorem shifts_logical_one :
    Arith.onNumbers .shl (.ofInt 1) (.ofInt 3) = .ok (.ofInt64 8) ∧
    Arith.onNumbers .shr (.ofInt 1) (.ofInt 3) = .ok (.ofInt64 0) ∧
    shiftLeft 1 Int64.minValue = 0 ∧
    (shiftLeft (shiftLeft 1 3) 61).toBitVec = logical 1 64 ∧
    (shiftRight (shiftLeft (-1) 3) 3).toBitVec.getLsbD 61 = false := by
  have three := shifts_logical 1 3
  have numbers := three.1 (.ofInt 1) (.ofInt 3) (by decide) (by decide)
  exact ⟨numbers.1, numbers.2, ((shifts_logical 1 Int64.minValue).2.2.2.1 (by decide)).1,
    three.2.2.2.2.2.1 61 (by decide) (by decide),
    (shifts_logical (-1) 3).2.2.2.2.2.2.1 (by decide) (by decide) 61⟩

end Word
end HostBridge
