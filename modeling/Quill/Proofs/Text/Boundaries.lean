import Quill.Proofs.Text.Encoding

set_option autoImplicit false

namespace Quill.Utf8

open Lexeme (isContinuation)

theorem isContinuation_iff {b : UInt8} : isContinuation b ↔ 128 ≤ b.toNat ∧ b.toNat < 192 := by
  simp [isContinuation, UInt8.le_iff_toNat_le, UInt8.lt_iff_toNat_lt]

theorem not_ascii_of_continuation {b : UInt8} (continues : isContinuation b) : ¬ b < 0x80 := by
  have := isContinuation_iff.mp continues
  rw [UInt8.lt_iff_toNat_lt]
  change ¬ b.toNat < 128
  omega

theorem not_continuation_of_ascii {b : UInt8} (ascii : b < 0x80) : isContinuation b = false :=
  Bool.eq_false_iff.mpr fun continues => not_ascii_of_continuation continues ascii

structure Shape (bytes : List UInt8) (first : UInt8) (rest : List UInt8) : Prop where
  eq : bytes = first :: rest
  opens : isContinuation first = false
  continues : ∀ b ∈ rest, isContinuation b
  ascii : first < 0x80 → rest = []

theorem encodeChar_shape (c : Char) :
    ∃ first rest, Shape (String.utf8EncodeChar c) first rest := by
  have valid : c.val.toNat < 0x110000 := by
    rcases c.valid with low | ⟨-, high⟩
    · exact Nat.lt_trans low (by decide)
    · exact high
  have opening {n : Nat} (low : 192 ≤ n) (high : n < 256) :
      isContinuation (UInt8.ofNat n) = false ∧ ¬ UInt8.ofNat n < 0x80 := by
    rw [Bool.eq_false_iff, ne_eq, isContinuation_iff, UInt8.lt_iff_toNat_lt, toNat_ofNat high]
    refine ⟨by omega, ?_⟩
    change ¬ n < 128
    omega
  have later (n : Nat) : isContinuation (UInt8.ofNat (n % 64 + 128)) := by
    rw [isContinuation_iff, toNat_ofNat (by omega)]
    omega
  -- One, two, three and four bytes, by the size of the code point.
  unfold String.utf8EncodeChar
  simp only
  generalize c.val.toNat = v at valid
  split
  next one =>
    have ascii : UInt8.ofNat v < 0x80 := by
      rw [UInt8.lt_iff_toNat_lt, toNat_ofNat (by omega)]
      exact Nat.lt_succ_of_le one
    exact ⟨_, _, rfl, not_continuation_of_ascii ascii, by simp, fun _ => rfl⟩
  next =>
  split
  next =>
    obtain ⟨first, wide⟩ := opening (n := v / 64 % 32 + 192) (by omega) (by omega)
    refine ⟨_, _, rfl, first, ?_, fun ascii => absurd ascii wide⟩
    simp only [List.forall_mem_cons, later, List.not_mem_nil, false_imp_iff, implies_true, and_self]
  next =>
  split
  next =>
    obtain ⟨first, wide⟩ := opening (n := v / 4096 % 16 + 224) (by omega) (by omega)
    refine ⟨_, _, rfl, first, ?_, fun ascii => absurd ascii wide⟩
    simp only [List.forall_mem_cons, later, List.not_mem_nil, false_imp_iff, implies_true, and_self]
  next =>
    obtain ⟨first, wide⟩ := opening (n := v / 262144 % 8 + 240) (by omega) (by omega)
    refine ⟨_, _, rfl, first, ?_, fun ascii => absurd ascii wide⟩
    simp only [List.forall_mem_cons, later, List.not_mem_nil, false_imp_iff, implies_true, and_self]

theorem encode_ofList (chars : List Char) :
    encode (String.ofList chars) = chars.flatMap String.utf8EncodeChar := by
  rw [encode_eq, String.toList_ofList]

theorem head_flatMap_encodeChar (chars : List Char) :
    ∀ b ∈ (chars.flatMap String.utf8EncodeChar).head?, isContinuation b = false := by
  intro b mem
  cases chars with
  | nil => cases mem
  | cons c chars =>
    obtain ⟨first, rest, shape⟩ := encodeChar_shape c
    rw [List.flatMap_cons, shape.eq] at mem
    cases mem
    exact shape.opens

theorem split_flatMap_encodeChar {chars : List Char} {before after : List UInt8}
    (whole : before ++ after = chars.flatMap String.utf8EncodeChar)
    (stop : ∀ b ∈ after.head?, isContinuation b = false) :
    ∃ front back, chars = front ++ back ∧ before = front.flatMap String.utf8EncodeChar ∧
      after = back.flatMap String.utf8EncodeChar := by
  induction chars generalizing before with
  | nil =>
    obtain ⟨rfl, rfl⟩ := List.append_eq_nil_iff.mp whole
    exact ⟨[], [], rfl, rfl, rfl⟩
  | cons c chars ih =>
    obtain ⟨first, rest, shape⟩ := encodeChar_shape c
    rw [List.flatMap_cons] at whole
    rcases List.append_eq_append_iff.mp whole with ⟨part, bytes, same⟩ | ⟨part, rfl, same⟩
    · -- The place is in the first character, so at one of its ends.
      cases part with
      | nil =>
        rw [List.append_nil] at bytes
        exact ⟨[c], chars, rfl, by simp [bytes], same⟩
      | cons b part =>
        have opens : isContinuation b = false := stop b (by rw [same]; rfl)
        rw [shape.eq] at bytes
        cases before with
        | nil =>
          refine ⟨[], c :: chars, rfl, rfl, ?_⟩
          rw [List.flatMap_cons, shape.eq, same, bytes]
          rfl
        | cons _ before =>
          obtain ⟨-, rfl⟩ := List.cons.inj bytes
          rw [shape.continues b (by simp)] at opens
          cases opens
    · obtain ⟨front, back, rfl, rfl, rfl⟩ := ih same.symm
      exact ⟨c :: front, back, rfl, by simp, rfl⟩

theorem encode_split {text : String} {before after : List UInt8}
    (whole : before ++ after = encode text)
    (stop : ∀ b ∈ after.head?, isContinuation b = false) :
    ∃ front back, text = front ++ back ∧ before = encode front ∧ after = encode back := by
  rw [encode_eq] at whole
  obtain ⟨front, back, same, rfl, rfl⟩ := split_flatMap_encodeChar whole stop
  refine ⟨String.ofList front, String.ofList back, ?_, (encode_ofList _).symm, (encode_ofList _).symm⟩
  apply String.toList_injective
  simp [same]

theorem head_after_ascii {text : String} {before after : List UInt8} {b : UInt8}
    (whole : before ++ b :: after = encode text) (ascii : b < 0x80) :
    ∀ next ∈ after.head?, isContinuation next = false := by
  rw [encode_eq] at whole
  obtain ⟨front, back, -, -, same⟩ := split_flatMap_encodeChar whole (by
    rintro _ ⟨⟩
    exact not_continuation_of_ascii ascii)
  cases back with
  | nil => cases same
  | cons c back =>
    obtain ⟨first, rest, shape⟩ := encodeChar_shape c
    rw [List.flatMap_cons, shape.eq] at same
    obtain ⟨rfl, rfl⟩ := List.cons.inj same
    rw [shape.ascii ascii]
    exact head_flatMap_encodeChar back

theorem eq_singleton_of_encode {text : String} {first : UInt8} {rest : List UInt8}
    (bytes : encode text = first :: rest) (goesOn : ∀ b ∈ rest, isContinuation b) :
    ∃ c, text = String.singleton c := by
  rw [encode_eq] at bytes
  match chars : text.toList, bytes with
  | [c], _ =>
    refine ⟨c, String.toList_injective ?_⟩
    rw [chars, String.toList_singleton]
  | c :: c' :: more, bytes =>
    obtain ⟨b, tail, shape⟩ := encodeChar_shape c
    obtain ⟨b', tail', shape'⟩ := encodeChar_shape c'
    rw [List.flatMap_cons, List.flatMap_cons, shape.eq, shape'.eq] at bytes
    obtain ⟨-, rfl⟩ := List.cons.inj bytes
    have continues := goesOn b' (by simp)
    rw [shape'.opens] at continues
    cases continues

end Quill.Utf8
