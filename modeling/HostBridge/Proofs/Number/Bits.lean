import Mathlib.Data.Nat.Bitwise
import HostBridge.Value

namespace HostBridge
namespace Number

theorem magnitude_eq_mod (n : Number) : n.magnitude = n.bits.toNat % 2 ^ 63 := by
  have mask : (0x7FFFFFFFFFFFFFFF : UInt64).toNat = 2 ^ 63 - 1 := rfl
  rw [magnitude, UInt64.toNat_and, mask, Nat.and_two_pow_sub_one_eq_mod]

theorem negative_iff (n : Number) : n.negative = true ↔ 2 ^ 63 ≤ n.bits.toNat := by
  have mask : signBit.toNat = 2 ^ 63 := rfl
  have bound : n.bits.toNat < 2 ^ 64 := n.bits.toNat_lt
  have zero : n.bits &&& signBit = 0 ↔ n.bits.toNat / 2 ^ 63 % 2 ≠ 1 := by
    rw [← UInt64.toNat_inj, UInt64.toNat_and, mask, Nat.and_two_pow,
      Nat.testBit_eq_decide_div_mod_eq]
    by_cases h : n.bits.toNat / 2 ^ 63 % 2 = 1 <;> simp
  rw [negative, bne_iff_ne, ne_eq, zero]
  omega

theorem ext_magnitude {a b : Number} (sign : a.negative = b.negative)
    (size : a.magnitude = b.magnitude) : a = b := by
  have ha := a.negative_iff
  have hb := b.negative_iff
  rw [sign] at ha
  rw [magnitude_eq_mod, magnitude_eq_mod] at size
  have la : a.bits.toNat < 2 ^ 64 := a.bits.toNat_lt
  have lb : b.bits.toNat < 2 ^ 64 := b.bits.toNat_lt
  have bits : a.bits.toNat = b.bits.toNat := by
    have same : 2 ^ 63 ≤ a.bits.toNat ↔ 2 ^ 63 ≤ b.bits.toNat := ha.symm.trans hb
    omega
  cases a
  cases b
  exact congrArg Number.mk (UInt64.toNat_inj.mp bits)

theorem toNat_ofMagnitude (neg : Bool) {w : Nat} (h : w < 2 ^ 63) :
    (ofMagnitude neg w).bits.toNat = (if neg then 2 ^ 63 else 0) + w := by
  have word : w.toUInt64.toNat = w := by
    rw [Nat.toUInt64_eq, UInt64.toNat_ofNat']
    exact Nat.mod_eq_of_lt (by omega)
  have mask : signBit.toNat = 2 ^ 63 := rfl
  cases neg with
  | false => simp [ofMagnitude, word]
  | true =>
    have parts := Nat.two_pow_add_eq_or_of_lt h 1
    rw [Nat.mul_one] at parts
    simp only [ofMagnitude, if_true, UInt64.toNat_or, mask, word]
    exact parts.symm

@[simp] theorem magnitude_ofMagnitude (neg : Bool) {w : Nat} (h : w < 2 ^ 63) :
    (ofMagnitude neg w).magnitude = w := by
  rw [magnitude_eq_mod, toNat_ofMagnitude neg h]
  cases neg with
  | false =>
    rw [if_neg Bool.false_ne_true]
    omega
  | true =>
    rw [if_pos rfl]
    omega

@[simp] theorem negative_ofMagnitude (neg : Bool) {w : Nat} (h : w < 2 ^ 63) :
    (ofMagnitude neg w).negative = neg := by
  have sign := (ofMagnitude neg w).negative_iff
  rw [toNat_ofMagnitude neg h] at sign
  cases neg with
  | false =>
    rw [if_neg Bool.false_ne_true, Nat.zero_add] at sign
    exact Bool.eq_false_iff.mpr fun negative => Nat.not_le_of_lt h (sign.mp negative)
  | true =>
    rw [if_pos rfl] at sign
    exact sign.mpr (Nat.le_add_right _ _)

theorem infinity_lt : Binary.double.infinity < 2 ^ 63 := by decide

/-- Quieting sets a bit of the magnitude, so the magnitude stays above the infinities. -/
theorem quiet_isNaN {n : Number} (h : n.isNaN = true) : n.quiet.isNaN = true := by
  have bit : (0x0008000000000000 : UInt64).toNat % 2 ^ 63 = 2 ^ 51 := rfl
  have grows : n.magnitude ≤ n.quiet.magnitude := by
    rw [magnitude_eq_mod, magnitude_eq_mod, quiet, UInt64.toNat_or, Nat.or_mod_two_pow, bit]
    exact Nat.left_le_or
  simp only [isNaN, decide_eq_true_eq] at h ⊢
  exact Nat.lt_of_lt_of_le h grows

@[simp] theorem canonical_isNaN (n : Number) : n.canonical.isNaN = n.isNaN := by
  unfold canonical
  split
  · rename_i h
    have finite : n.isNaN = false := by simp [isNaN, h]
    rw [finite]
    decide
  · split
    · rename_i h
      rw [h, quiet_isNaN h]
    · rfl

/-- The canonical datum is the same for both zeros and keeps every other number. -/
theorem canonical_eq_iff {a b : Number} (ha : a.isNaN = false) (hb : b.isNaN = false) :
    a.canonical = b.canonical ↔ a.rank = b.rank := by
  have zeroSize : zero.magnitude = 0 := by decide
  simp only [canonical, ha, hb, rank, Bool.false_eq_true, if_false]
  by_cases za : a.magnitude = 0 <;> by_cases zb : b.magnitude = 0
  · simp [za, zb]
  · have other : zero ≠ b := fun h => zb (h ▸ zeroSize)
    simp only [za, zb, if_true, if_false, other, false_iff]
    split <;> split <;> omega
  · have other : a ≠ zero := fun h => za (h ▸ zeroSize)
    simp only [za, zb, if_true, if_false, other, false_iff]
    split <;> split <;> omega
  · simp only [za, zb, if_false]
    constructor
    · rintro rfl
      rfl
    · intro h
      cases sa : a.negative <;> cases sb : b.negative <;> simp only [sa, sb] at h
      · exact ext_magnitude (sa.trans sb.symm) (by omega)
      · simp at h
        omega
      · simp at h
        omega
      · exact ext_magnitude (sa.trans sb.symm) (by omega)

theorem eqv_iff {a b : Number} :
    a.eqv b = true ↔ a.isNaN = false ∧ b.isNaN = false ∧ a.canonical = b.canonical := by
  simp only [eqv, Bool.and_eq_true, Bool.not_eq_true', beq_iff_eq]
  constructor
  · rintro ⟨⟨ha, hb⟩, h⟩
    exact ⟨ha, hb, (canonical_eq_iff ha hb).mpr h⟩
  · rintro ⟨ha, hb, h⟩
    exact ⟨⟨ha, hb⟩, (canonical_eq_iff ha hb).mp h⟩

end Number

namespace Value

def isNaN : Value → Bool
  | number n => n.isNaN
  | _ => false

end Value
end HostBridge
