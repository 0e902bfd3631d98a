import Mathlib
import Quill.Number.Text

set_option autoImplicit false

namespace Quill

structure Magnitude.Canonical (x : Magnitude) : Prop where
  small : x.significand < 2 ^ 53
  least : -1074 ≤ x.exponent
  most : x.exponent ≤ 971
  normal : x.exponent = -1074 ∨ 2 ^ 52 ≤ x.significand

namespace Double

def IsFinite (x : Double) : Prop :=
  ∃ negative magnitude, x = .finite negative magnitude

theorem ofBits_finite {bits : Nat} {negative : Bool} {x : Magnitude}
    (same : ofBits bits = .finite negative x) :
    negative = (bits / 2 ^ 63 % 2 == 1) ∧
      (x = ⟨bits % 2 ^ 52, -1074⟩ ∧ bits / 2 ^ 52 % 2048 = 0 ∨
        x = ⟨2 ^ 52 + bits % 2 ^ 52, Int.ofNat (bits / 2 ^ 52 % 2048) - 1075⟩ ∧
          0 < bits / 2 ^ 52 % 2048 ∧ bits / 2 ^ 52 % 2048 < 2047) := by
  unfold ofBits at same
  dsimp only at same
  split at same
  next => split at same <;> cases same
  next notMost =>
    have other : bits / 2 ^ 52 % 2048 ≠ 2047 := notMost
    split at same
    next least =>
      cases same
      exact ⟨rfl, .inl ⟨rfl, least⟩⟩
    next notLeast =>
      have other' : bits / 2 ^ 52 % 2048 ≠ 0 := notLeast
      cases same
      exact ⟨rfl, .inr ⟨rfl, by omega, by omega⟩⟩

theorem ofBits_canonical {bits : Nat} {negative : Bool} {x : Magnitude}
    (same : ofBits bits = .finite negative x) : x.Canonical := by
  obtain ⟨-, ⟨rfl, -⟩ | ⟨rfl, pos, lt⟩⟩ := ofBits_finite same
  · refine ⟨?_, ?_, ?_, .inl rfl⟩ <;> dsimp only <;> omega
  · refine ⟨?_, ?_, ?_, .inr ?_⟩ <;> simp only [Int.ofNat_eq_natCast] <;> omega

theorem ofBits_injective {bits bits' : Nat} (small : bits < 2 ^ 64) (small' : bits' < 2 ^ 64)
    (finite : (ofBits bits).IsFinite) (same : ofBits bits = ofBits bits') : bits = bits' := by
  obtain ⟨negative, x, finite⟩ := finite
  obtain ⟨sign, fields⟩ := ofBits_finite finite
  obtain ⟨sign', fields'⟩ := ofBits_finite (same ▸ finite)
  have signs : bits / 2 ^ 63 % 2 = bits' / 2 ^ 63 % 2 := by
    have both : (bits / 2 ^ 63 % 2 == 1) = (bits' / 2 ^ 63 % 2 == 1) := sign ▸ sign'
    have le := Nat.mod_lt (bits / 2 ^ 63) (by decide : 0 < 2)
    have le' := Nat.mod_lt (bits' / 2 ^ 63) (by decide : 0 < 2)
    rw [Bool.eq_iff_iff, beq_iff_eq, beq_iff_eq] at both
    omega
  rcases fields with ⟨rfl, least⟩ | ⟨rfl, pos, -⟩ <;>
    rcases fields' with ⟨same', least'⟩ | ⟨same', pos', -⟩ <;>
    simp only [Magnitude.mk.injEq, Int.ofNat_eq_natCast] at same' <;> omega

theorem ofFloat_injective {x y : Float} (finite : (ofFloat x).IsFinite)
    (same : ofFloat x = ofFloat y) : x = y := by
  have bits := ofBits_injective x.toBits.toNat_lt y.toBits.toNat_lt finite same
  rw [← Float.ofBits_toBits x, UInt64.toNat_inj.mp bits, Float.ofBits_toBits]

end Double

namespace Magnitude

def low (x : Magnitude) : Nat :=
  4 * x.significand - if x.significand = twoPow 52 ∧ -1074 < x.exponent then 1 else 2

def high (x : Magnitude) : Nat :=
  4 * x.significand + 2

def quarter (x : Magnitude) : ℚ :=
  2 ^ (x.exponent - 2)

def value (x : Magnitude) : ℚ :=
  4 * x.significand * x.quarter

structure Rounds (x : Magnitude) (q : ℚ) : Prop where
  above : x.low * x.quarter < q ∨ x.significand % 2 = 0 ∧ x.low * x.quarter = q
  below : q < x.high * x.quarter ∨ x.significand % 2 = 0 ∧ q = x.high * x.quarter

theorem quarter_pos (x : Magnitude) : 0 < x.quarter :=
  zpow_pos (by norm_num) _

theorem low_le (x : Magnitude) : x.low ≤ 4 * x.significand :=
  Nat.sub_le _ _

theorem rounds_value (x : Magnitude) : x.Rounds x.value := by
  have pos := x.quarter_pos
  have below : x.value < x.high * x.quarter := by
    have step : (4 * x.significand : ℚ) < x.high := by
      unfold high
      push_cast
      linarith
    exact mul_lt_mul_of_pos_right step pos
  refine ⟨?_, .inl below⟩
  by_cases zero : x.significand = 0
  · refine .inr ⟨by rw [zero], ?_⟩
    simp [value, low, zero]
  · refine .inl (mul_lt_mul_of_pos_right ?_ pos)
    have step : x.low < 4 * x.significand := by
      unfold low
      split <;> omega
    exact_mod_cast step

theorem Rounds.ends {x y : Magnitude} {q : ℚ} (hx : x.Rounds q) (hy : y.Rounds q) {d : Nat}
    (apart : y.quarter = x.quarter * 2 ^ d) :
    y.low * 2 ^ d < x.high ∨
      x.significand % 2 = 0 ∧ y.significand % 2 = 0 ∧ y.low * 2 ^ d = x.high := by
  have pos := x.quarter_pos
  have scaled (n : ℕ) : (n : ℚ) * y.quarter = (n * 2 ^ d : ℕ) * x.quarter := by
    rw [apart]
    push_cast
    ring
  have lt {m n : ℕ} (h : (m : ℚ) * x.quarter < n * x.quarter) : m < n :=
    Nat.cast_lt.mp (lt_of_mul_lt_mul_right h pos.le)
  obtain above | ⟨even', above⟩ := hy.above <;> obtain below | ⟨even, below⟩ := hx.below <;>
    rw [scaled] at above
  · exact .inl (lt (above.trans below))
  · exact .inl (lt (below ▸ above))
  · exact .inl (lt (above ▸ below))
  · refine .inr ⟨even, even', ?_⟩
    have same := mul_right_cancel₀ pos.ne' (above.trans below)
    exact_mod_cast same

theorem Rounds.exponent_le {x y : Magnitude} {q : ℚ} (hx : x.Rounds q) (hy : y.Rounds q)
    (canonical : x.Canonical) (canonical' : y.Canonical) : y.exponent ≤ x.exponent := by
  refine not_lt.mp fun lt => ?_
  obtain ⟨d, hd⟩ : ∃ d : ℕ, y.exponent - 2 = x.exponent - 2 + (d + 1 : ℕ) :=
    ⟨(y.exponent - x.exponent - 1).toNat, by omega⟩
  have apart : y.quarter = x.quarter * 2 ^ (d + 1) := by
    unfold quarter
    rw [hd, zpow_add₀ (by norm_num), zpow_natCast]
  have normal := canonical'.normal.resolve_left (by have := canonical.least; omega)
  have ends := hx.ends hy apart
  have twice : y.low * 2 ≤ y.low * 2 ^ (d + 1) :=
    Nat.mul_le_mul_left _ (by rw [pow_succ]; exact Nat.le_mul_of_pos_left 2 (by positivity))
  have small := canonical.small
  have least := canonical.least
  -- At a power of two the range below is half as long. Even then its end, doubled, is not within
  -- that of a significand of 53 bits.
  have first : y.low = 2 ^ 54 - 1 ∧ y.significand = 2 ^ 52 ∨ 2 ^ 54 + 2 ≤ y.low := by
    have lower : -1074 < y.exponent := least.trans_lt lt
    by_cases power : y.significand = 2 ^ 52
    · refine .inl ⟨?_, power⟩
      rw [Magnitude.low, if_pos ⟨power, lower⟩, power]
      rfl
    · rw [Magnitude.low, if_neg fun both => power both.1]
      omega
  unfold high at ends
  omega

theorem Rounds.unique {x y : Magnitude} {q : ℚ} (hx : x.Rounds q) (hy : y.Rounds q)
    (canonical : x.Canonical) (canonical' : y.Canonical) : x = y := by
  have exponents := le_antisymm (hy.exponent_le hx canonical' canonical)
    (hx.exponent_le hy canonical canonical')
  have same : x.quarter = y.quarter := by rw [quarter, quarter, exponents]
  have ends := hx.ends hy (by rw [same, pow_zero, mul_one])
  have ends' := hy.ends hx (by rw [same, pow_zero, mul_one])
  have low_ge (z : Magnitude) : 4 * z.significand ≤ z.low + 2 := by
    unfold low
    split <;> omega
  have ge := low_ge x
  have ge' := low_ge y
  obtain ⟨s, e⟩ := x
  obtain ⟨s', e'⟩ := y
  simp only [high, pow_zero, mul_one] at *
  have : s = s' := by omega
  rw [this, exponents]

end Magnitude

end Quill
