import Quill.Proofs.Number.Rounding

set_option autoImplicit false

namespace Quill

def Decimal.value (d : Decimal) : ℚ :=
  d.digits * 10 ^ d.exponent

namespace Grid

variable {x : Magnitude} {exponent : Int}

theorem around_scale (x : Magnitude) (exponent : Int) :
    ∃ part : ℚ, 0 < part ∧
      ((twoPow (x.exponent - 2).toNat * tenPow (-exponent).toNat : ℕ) : ℚ) = x.quarter * part ∧
      ((around x exponent).unit : ℚ) = 10 ^ exponent * part := by
  have split {b : ℚ} (nonzero : b ≠ 0) (n : ℤ) : b ^ n.toNat = b ^ n * b ^ (-n).toNat := by
    rw [← zpow_natCast, ← zpow_natCast, ← zpow_add₀ nonzero]
    congr 1
    omega
  refine ⟨2 ^ (2 - x.exponent).toNat * 10 ^ (-exponent).toNat, by positivity, ?_, ?_⟩
  · have two := split (b := 2) (by norm_num) (x.exponent - 2)
    rw [neg_sub] at two
    change ((2 ^ (x.exponent - 2).toNat * 10 ^ (-exponent).toNat : ℕ) : ℚ) = _
    push_cast
    rw [two, Magnitude.quarter]
    ring
  · have ten := split (b := 10) (by norm_num) exponent
    change ((2 ^ (2 - x.exponent).toNat * 10 ^ exponent.toNat : ℕ) : ℚ) = _
    push_cast
    rw [ten]
    ring

theorem rounds_of_admits {digits : Nat} (admitted : (around x exponent).admits digits) :
    x.Rounds (Decimal.value ⟨digits, exponent⟩) := by
  obtain ⟨part, pos, scale, unit⟩ := around_scale x exponent
  -- The grid has all three scaled by the same positive number, so it may be taken out again.
  have low : ((around x exponent).low : ℚ) = x.low * x.quarter * part := by
    change ((x.low * (twoPow _ * tenPow _) : ℕ) : ℚ) = _
    rw [Nat.cast_mul, scale]
    ring
  have high : ((around x exponent).high : ℚ) = x.high * x.quarter * part := by
    change ((x.high * (twoPow _ * tenPow _) : ℕ) : ℚ) = _
    rw [Nat.cast_mul, scale]
    ring
  have point : ((digits * (around x exponent).unit : ℕ) : ℚ) =
      Decimal.value ⟨digits, exponent⟩ * part := by
    rw [Nat.cast_mul, unit, Decimal.value]
    ring
  unfold admits at admitted
  dsimp only at admitted
  split at admitted
  next closed =>
    have even : x.significand % 2 = 0 := eq_of_beq closed
    simp only [Bool.and_eq_true, decide_eq_true_eq] at admitted
    rw [← Nat.cast_le (α := ℚ), ← Nat.cast_le (α := ℚ), low, high, point] at admitted
    have above := le_of_mul_le_mul_right admitted.1 pos
    have below := le_of_mul_le_mul_right admitted.2 pos
    exact ⟨above.lt_or_eq.imp_right (⟨even, ·⟩), below.lt_or_eq.imp_right (⟨even, ·⟩)⟩
  next =>
    simp only [Bool.and_eq_true, decide_eq_true_eq] at admitted
    rw [← Nat.cast_lt (α := ℚ), ← Nat.cast_lt (α := ℚ), low, high, point] at admitted
    exact ⟨.inl (lt_of_mul_lt_mul_right admitted.1 pos.le),
      .inl (lt_of_mul_lt_mul_right admitted.2 pos.le)⟩

theorem admits_of_nearest? {g : Grid} {tie : Tie} {digits : Nat}
    (found : g.nearest? tie = some digits) : g.admits digits := by
  unfold nearest? at found
  dsimp only at found
  split at found
  next => cases found
  next below _ =>
    cases found
    exact (Bool.and_eq_true_iff.mp below).2
  next _ above =>
    cases found
    exact above
  next below above =>
    have both := (Bool.and_eq_true_iff.mp below).2
    split at found
    next => cases found; exact both
    next => cases found; exact above
    next =>
      split at found
      next => cases found; exact above
      next =>
        cases found
        split
        · exact both
        · exact above

theorem nearest?_of_fine (tie : Tie)
    (fine : (around x exponent).unit ≤ twoPow (x.exponent - 2).toNat * tenPow (-exponent).toNat) :
    ∃ digits, (around x exponent).nearest? tie = some digits := by
  have unitPos : 0 < (around x exponent).unit :=
    Nat.mul_pos (Nat.pow_pos (by decide)) (Nat.pow_pos (by decide))
  -- The multiple above the value is at most a unit away from it, so it is short of the upper end.
  have upper : (around x exponent).admits
      ((around x exponent).value / (around x exponent).unit + 1) := by
    have high : (around x exponent).high = (around x exponent).value +
        2 * (twoPow (x.exponent - 2).toNat * tenPow (-exponent).toNat) := Nat.add_mul ..
    have low : (around x exponent).low ≤ (around x exponent).value :=
      Nat.mul_le_mul_right _ x.low_le
    generalize around x exponent = g at *
    have above : g.value < (g.value / g.unit + 1) * g.unit := Nat.lt_mul_of_div_lt
      (Nat.lt_succ_self _) unitPos
    have below : (g.value / g.unit + 1) * g.unit ≤ g.value + g.unit := by
      rw [Nat.add_mul, Nat.one_mul]
      exact Nat.add_le_add_right (Nat.div_mul_le_self _ _) _
    unfold admits
    dsimp only
    split <;> simp only [Bool.and_eq_true, decide_eq_true_eq] <;> omega
  unfold nearest?
  dsimp only
  rw [upper]
  cases (_ != 0 && _ : Bool) with
  | false => exact ⟨_, rfl⟩
  | true =>
    dsimp only
    split
    · exact ⟨_, rfl⟩
    · exact ⟨_, rfl⟩
    · cases tie <;> exact ⟨_, rfl⟩

end Grid

theorem tenPow_le_twoPow {t m : Nat} (le : 10 * t + 20 ≤ 3 * m) : 10 ^ t ≤ 2 ^ m := by
  obtain ⟨a, b, rfl, small⟩ : ∃ a b, t = 3 * a + b ∧ b < 3 := ⟨t / 3, t % 3, by omega, by omega⟩
  calc 10 ^ (3 * a + b) = (10 ^ 3) ^ a * 10 ^ b := by rw [pow_add, pow_mul]
    _ ≤ (2 ^ 10) ^ a * (2 ^ 4) ^ b :=
      Nat.mul_le_mul (Nat.pow_le_pow_left (by norm_num) a) (Nat.pow_le_pow_left (by norm_num) b)
    _ = 2 ^ (10 * a + 4 * b) := by rw [pow_add, pow_mul, pow_mul]
    _ ≤ 2 ^ m := Nat.pow_le_pow_right (by norm_num) (by omega)

theorem twoPow_le_tenPow {t m : Nat} (le : 10 * m + 27 ≤ 33 * t) : 2 ^ m ≤ 10 ^ t := by
  obtain ⟨a, b, rfl, small⟩ : ∃ a b, t = 10 * a + b ∧ b < 10 :=
    ⟨t / 10, t % 10, by omega, by omega⟩
  calc 2 ^ m ≤ 2 ^ (33 * a + 3 * b) := Nat.pow_le_pow_right (by norm_num) (by omega)
    _ = (2 ^ 33) ^ a * (2 ^ 3) ^ b := by rw [pow_add, pow_mul, pow_mul]
    _ ≤ (10 ^ 10) ^ a * 10 ^ b :=
      Nat.mul_le_mul (Nat.pow_le_pow_left (by norm_num) a) (Nat.pow_le_pow_left (by norm_num) b)
    _ = 10 ^ (10 * a + b) := by rw [pow_add, pow_mul]

namespace Magnitude

theorem Canonical.finest {x : Magnitude} (canonical : x.Canonical) :
    (Grid.around x (Decimal.ceilingExponent (x.exponent + x.significand.log2 + 1) - 23)).unit ≤
      twoPow (x.exponent - 2).toNat *
        tenPow (-(Decimal.ceilingExponent (x.exponent + x.significand.log2 + 1) - 23)).toNat := by
  have bits : x.significand.log2 ≤ 52 := by
    by_cases zero : x.significand = 0
    · simp [zero]
    · exact Nat.le_of_lt_succ ((Nat.log2_lt zero).mpr canonical.small)
  have least := canonical.least
  have most := canonical.most
  obtain ⟨exponent, top⟩ : ∃ exponent,
    Decimal.ceilingExponent (x.exponent + x.significand.log2 + 1) - 23 = exponent := ⟨_, rfl⟩
  -- The ceiling is taken from the number of bits times the logarithm of two, to five places.
  have bound : 100000 * (exponent + 21) ≤ (x.exponent + 53) * 30103 := by
    unfold Decimal.ceilingExponent at top
    omega
  have bound' : exponent ≤ 300 := by omega
  rw [top]
  change 2 ^ (2 - x.exponent).toNat * 10 ^ exponent.toNat ≤
    2 ^ (x.exponent - 2).toNat * 10 ^ (-exponent).toNat
  by_cases whole : 0 ≤ exponent
  · rw [show (2 - x.exponent).toNat = 0 by omega, show (-exponent).toNat = 0 by omega, pow_zero,
      one_mul, pow_zero, mul_one]
    exact tenPow_le_twoPow (by omega)
  · rw [show exponent.toNat = 0 by omega, pow_zero, mul_one]
    by_cases small : x.exponent < 2
    · rw [show (x.exponent - 2).toNat = 0 by omega, pow_zero, one_mul]
      exact twoPow_le_tenPow (by omega)
    · rw [show (2 - x.exponent).toNat = 0 by omega, pow_zero]
      exact Nat.mul_pos (Nat.pow_pos (by norm_num)) (Nat.pow_pos (by norm_num))

theorem shortest_rounds {x : Magnitude} (canonical : x.Canonical) (tie : Tie) :
    x.Rounds (x.shortest tie).value := by
  unfold shortest
  dsimp only
  cases found : (List.range 24).findSome? _ with
  | none =>
    obtain ⟨digits, nearest⟩ := Grid.nearest?_of_fine tie canonical.finest
    have all := List.findSome?_eq_none_iff.mp found 23 (by decide)
    exact absurd all (by simp [nearest])
  | some d =>
    obtain ⟨k, -, nearest⟩ := List.exists_of_findSome?_eq_some found
    obtain ⟨digits, near, rfl⟩ := Option.map_eq_some_iff.mp nearest
    exact Grid.rounds_of_admits (Grid.admits_of_nearest? near)

end Magnitude

end Quill
