import Quill.Proofs.Number.Shortest
import Quill.Proofs.Token.Scanning
import Quill.Tree.Printer

set_option autoImplicit false

namespace Quill

theorem isDigits_digitsOf (n : Nat) : IsDigits (digitsOf n) :=
  ⟨Nat.toDigits_ne_nil, fun _ => Nat.isDigit_of_mem_toDigits (by decide) (by decide)⟩

theorem isDigit_of_mem_zeros {n : Nat} {c : Char} (mem : c ∈ zeros n) : c.isDigit := by
  rw [List.eq_of_mem_replicate mem]
  rfl

theorem isDigits_append_zeros {digits : List Char} (h : IsDigits digits) (n : Nat) :
    IsDigits (digits ++ zeros n) :=
  ⟨List.append_ne_nil_of_left_ne_nil h.1 _,
    List.forall_mem_append.mpr ⟨h.2, fun _ => isDigit_of_mem_zeros⟩⟩

theorem isDigits_zeros_append {digits : List Char} (h : IsDigits digits) (n : Nat) :
    IsDigits (zeros n ++ digits) :=
  ⟨List.append_ne_nil_of_right_ne_nil _ h.1,
    List.forall_mem_append.mpr ⟨fun _ => isDigit_of_mem_zeros, h.2⟩⟩

theorem numeral_chars {text : List Char} (h : IsNumeral (String.ofList text)) :
    (∀ c ∈ text, c.isDigit ∨ c = '.') ∧ ∃ c rest, text = c :: rest ∧ c.isDigit := by
  unfold IsNumeral at h
  rw [String.toList_ofList] at h
  rcases h with digits | ⟨whole, fraction, digits, digits', rfl⟩
  · obtain ⟨c, rest, rfl⟩ := List.exists_cons_of_ne_nil digits.1
    exact ⟨fun c mem => .inl (digits.2 c mem), c, rest, rfl, digits.2 c List.mem_cons_self⟩
  · obtain ⟨c, rest, rfl⟩ := List.exists_cons_of_ne_nil digits.1
    refine ⟨?_, c, rest ++ '.' :: fraction, rfl, digits.2 c List.mem_cons_self⟩
    exact List.forall_mem_append.mpr ⟨fun c mem => .inl (digits.2 c mem),
      List.forall_mem_cons.mpr ⟨.inr rfl, fun c mem => .inl (digits'.2 c mem)⟩⟩

namespace Number

theorem natOfDigits_digitsOf (n : Nat) : natOfDigits (digitsOf n) = n :=
  Nat.ofDigitChars_toDigits (by decide) (by decide)

theorem natOfDigits_append_zeros (digits : List Char) (n : Nat) :
    natOfDigits (digits ++ zeros n) = 10 ^ n * natOfDigits digits := by
  change Nat.ofDigitChars 10 (digits ++ List.replicate n '0') 0 = _
  rw [Nat.ofDigitChars_append, Nat.ofDigitChars_replicate_zero]
  rfl

theorem natOfDigits_zeros_append (n : Nat) (digits : List Char) :
    natOfDigits (zeros n ++ digits) = natOfDigits digits := by
  change Nat.ofDigitChars 10 (List.replicate n '0' ++ digits) 0 = _
  rw [Nat.ofDigitChars_append, Nat.ofDigitChars_replicate_zero, Nat.mul_zero]
  rfl

structure Spells (text : List Char) (d : Decimal) : Prop where
  numeral : IsNumeral (String.ofList text)
  read : readMantissa? text = some (d.digits, d.exponent, [])

theorem Spells.unique {text : List Char} {d d' : Decimal} (h : Spells text d)
    (h' : Spells text d') : d = d' := by
  have same := h.read.symm.trans h'.read
  cases d
  cases d'
  cases same
  rfl

theorem spells_whole {digits : List Char} (h : IsDigits digits) :
    Spells digits ⟨natOfDigits digits, 0⟩ where
  numeral := .inl (by rwa [String.toList_ofList])
  read := Lexeme.readMantissa?_whole h.1 h.2

theorem spells_decimal {whole fraction : List Char} (h : IsDigits whole) (h' : IsDigits fraction) :
    Spells (whole ++ '.' :: fraction) ⟨natOfDigits (whole ++ fraction), -fraction.length⟩ where
  numeral := .inr ⟨whole, fraction, h, h', by rw [String.toList_ofList]⟩
  read := Lexeme.readMantissa?_decimal h.1 h.2 h'.2

end Number

open Number

theorem isDigits_zero : IsDigits ['0'] :=
  ⟨List.cons_ne_nil _ _, List.forall_mem_singleton.mpr rfl⟩

theorem Decimal.positional_spells (d : Decimal) :
    ∃ read, Spells d.positional.toList read ∧ read.value = d.value := by
  obtain ⟨n, exponent⟩ := d
  have digits := isDigits_digitsOf n
  have length : 0 < (digitsOf n).length := List.length_pos_iff.mpr digits.1
  unfold positional
  dsimp only
  split
  -- The point stands after all digits, right before them, among them, or before more zeros.
  next e =>
    rw [String.toList_ofList]
    refine ⟨_, spells_whole (isDigits_append_zeros digits e), ?_⟩
    rw [natOfDigits_append_zeros, natOfDigits_digitsOf]
    simp [value, mul_comm]
  next e point =>
    have point : ((digitsOf n).length : Int) + .negSucc e = 0 := point
    rw [String.toList_ofList]
    refine ⟨_, spells_decimal isDigits_zero digits, congrArg₂ (fun a b => value ⟨a, b⟩) ?_ ?_⟩
    · exact (natOfDigits_zeros_append 1 _).trans (natOfDigits_digitsOf n)
    · omega
  next e p positive point =>
    have point : ((digitsOf n).length : Int) + .negSucc e = p := point
    have pos : 0 < p := Nat.pos_of_ne_zero fun zero => positive (zero ▸ rfl)
    have front : IsDigits ((digitsOf n).take p) :=
      ⟨by simpa [List.take_eq_nil_iff] using ⟨pos.ne', digits.1⟩,
        fun c mem => digits.2 c (List.mem_of_mem_take mem)⟩
    have back : IsDigits ((digitsOf n).drop p) :=
      ⟨by rw [ne_eq, List.drop_eq_nil_iff]; omega,
        fun c mem => digits.2 c (List.mem_of_mem_drop mem)⟩
    rw [String.toList_ofList]
    refine ⟨_, spells_decimal front back, congrArg₂ (fun a b => value ⟨a, b⟩) ?_ ?_⟩
    · rw [List.take_append_drop, natOfDigits_digitsOf]
    · rw [List.length_drop]
      omega
  next e p point =>
    have point : ((digitsOf n).length : Int) + .negSucc e = .negSucc p := point
    rw [String.toList_ofList]
    have places : (zeros (p + 1) ++ digitsOf n).length = p + 1 + (digitsOf n).length := by
      rw [List.length_append, zeros, List.length_replicate]
    have spelled := spells_decimal isDigits_zero (isDigits_zeros_append digits (p + 1))
    rw [places] at spelled
    refine ⟨_, spelled, congrArg₂ (fun a b => value ⟨a, b⟩) ?_ ?_⟩
    · exact (natOfDigits_zeros_append (p + 2) _).trans (natOfDigits_digitsOf n)
    · omega

theorem spells_pointZero (n : Nat) :
    ∃ read, Spells (digitsOf n ++ ".0".toList) read ∧ read.value = n := by
  refine ⟨_, spells_decimal (isDigits_digitsOf n) isDigits_zero, ?_⟩
  change ((natOfDigits (digitsOf n ++ zeros 1) : ℕ) : ℚ) * 10 ^ (-1 : ℤ) = n
  rw [natOfDigits_append_zeros, natOfDigits_digitsOf]
  push_cast
  norm_num
  ring

theorem Magnitude.value_toNat? {x : Magnitude} {n : Nat} (same : x.toNat? = some n) :
    x.value = n := by
  have whole : x.value = x.significand * 2 ^ x.exponent := by
    rw [value, quarter, zpow_sub₀ (by norm_num)]
    ring
  rw [whole]
  unfold toNat? at same
  split at same
  next e exponent =>
    cases same
    rw [exponent]
    change _ = ((x.significand * 2 ^ e : ℕ) : ℚ)
    push_cast
    rfl
  next e exponent =>
    split at same
    next divides =>
      cases same
      have split : x.significand = x.significand / 2 ^ (e + 1) * 2 ^ (e + 1) :=
        (Nat.div_mul_cancel (Nat.dvd_of_mod_eq_zero divides)).symm
      rw [exponent, zpow_negSucc]
      change _ = ((x.significand / 2 ^ (e + 1) : ℕ) : ℚ)
      generalize x.significand / 2 ^ (e + 1) = n at split
      rw [split]
      push_cast
      field_simp
    next => cases same

namespace Literal

theorem numberText_spells {x : Magnitude} (canonical : x.Canonical) (negative : Bool) :
    ∃ text read, numberText (.finite negative x) = signed negative (String.ofList text) ∧
      Spells text read ∧ x.Rounds read.value := by
  unfold numberText
  dsimp only
  cases whole : x.toNat? with
  | some n =>
    obtain ⟨read, spells, same⟩ := spells_pointZero n
    refine ⟨_, read, ?_, spells, ?_⟩
    · rw [String.ofList_append, String.ofList_toList]
    · rw [same, ← x.value_toNat? whole]
      exact x.rounds_value
  | none =>
    have nonzero : x.significand ≠ 0 := by
      intro zero
      unfold Magnitude.toNat? at whole
      rw [zero] at whole
      split at whole
      · cases whole
      · simp at whole
    obtain ⟨read, spells, same⟩ := (x.shortest .up).positional_spells
    refine ⟨_, read, ?_, spells, ?_⟩
    · rw [String.ofList_toList, Double.plain, if_neg nonzero]
    · rw [same]
      exact x.shortest_rounds canonical .up

theorem no_sign_of_numeral {text : List Char} (h : IsNumeral (String.ofList text)) :
    '-' ∉ text :=
  fun mem => absurd ((numeral_chars h).1 _ mem) (by decide)

theorem numberText_injective {x y : Float} (finite : (Double.ofFloat x).IsFinite)
    (finite' : (Double.ofFloat y).IsFinite)
    (same : numberText (.ofFloat x) = numberText (.ofFloat y)) : x = y := by
  refine Double.ofFloat_injective finite ?_
  obtain ⟨negative, a, isA⟩ := finite
  obtain ⟨negative', b, isB⟩ := finite'
  have canonical := Double.ofBits_canonical isA
  have canonical' := Double.ofBits_canonical isB
  rw [isA, isB] at same ⊢
  obtain ⟨text, read, printed, spells, rounds⟩ := numberText_spells canonical negative
  obtain ⟨text', read', printed', spells', rounds'⟩ := numberText_spells canonical' negative'
  rw [printed, printed'] at same
  have noSign := no_sign_of_numeral spells.numeral
  have noSign' := no_sign_of_numeral spells'.numeral
  have both : negative = negative' ∧ text = text' := by
    have lists := congrArg String.toList same
    cases negative <;> cases negative' <;>
      simp only [signed, if_true, Bool.false_eq_true, if_false, String.toList_append,
        String.toList_ofList] at lists
    · exact ⟨rfl, lists⟩
    · exact absurd (lists ▸ List.mem_cons_self) noSign
    · exact absurd (lists ▸ List.mem_cons_self) noSign'
    · exact ⟨rfl, List.append_cancel_left lists⟩
  obtain ⟨rfl, rfl⟩ := both
  rw [spells.unique spells'] at rounds
  rw [rounds.unique rounds' canonical canonical']

end Literal

end Quill
