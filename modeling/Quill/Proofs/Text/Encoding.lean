import Quill.Proofs.Lexeme.Classes

set_option autoImplicit false

namespace Quill.Utf8

open Lexeme (char)

theorem toList_loop (bs : ByteArray) (i : Nat) (found : List UInt8) :
    ByteArray.toList.loop bs i found = found.reverse ++ bs.data.toList.drop i := by
  fun_induction ByteArray.toList.loop bs i found with
  | case1 i found lt ih =>
    have lt' : i < bs.data.toList.length := lt
    have here : bs.get! i = bs.data.toList[i] := by
      rw [Array.getElem_toList]
      exact getElem!_pos bs.data i lt
    rw [ih, List.drop_eq_getElem_cons lt', List.reverse_cons, List.append_assoc, here]
    rfl
  | case2 i found ge =>
    have ge' : bs.data.toList.length ≤ i := Nat.le_of_not_lt ge
    rw [List.drop_eq_nil_of_le ge', List.append_nil]

theorem encode_eq (text : String) : encode text = text.toList.flatMap String.utf8EncodeChar := by
  unfold encode ByteArray.toList String.toUTF8
  rw [toList_loop, ← String.utf8Encode_toList, List.utf8Encode, List.toList_data_toByteArray]
  rfl

theorem Reader.feed_begun {b : UInt8} {p : Partial} (begun : lead b = .begun p)
    (found : List Piece) : Reader.feed ⟨found, none⟩ b = ⟨found, some p⟩ := by
  simp [Reader.feed, start, begun]

theorem Partial.feed_bits {p : Partial} {b : UInt8} {bits : Nat} (byte : b.toNat = bits + 128)
    (low : p.low.toNat ≤ bits + 128) (high : bits + 128 ≤ p.high.toNat) :
    p.feed b =
      if p.owed ≤ 1 then ([.char (Char.ofNat (p.code * 64 + bits))], none)
      else ([], some ⟨p.seen + 1, p.owed - 1, 0x80, 0xBF, p.code * 64 + bits⟩) := by
  simp [Partial.feed, UInt8.le_iff_toNat_le, byte, low, high]

theorem Reader.feed_more {p : Partial} {b : UInt8} {bits : Nat} (byte : b.toNat = bits + 128)
    (low : p.low.toNat ≤ bits + 128) (high : bits + 128 ≤ p.high.toNat) (owes : ¬p.owed ≤ 1)
    (found : List Piece) :
    Reader.feed ⟨found, some p⟩ b =
      ⟨found, some ⟨p.seen + 1, p.owed - 1, 0x80, 0xBF, p.code * 64 + bits⟩⟩ := by
  simp [Reader.feed, Partial.feed_bits byte low high, owes]

theorem Reader.feed_last {p : Partial} {b : UInt8} {bits : Nat} (byte : b.toNat = bits + 128)
    (low : p.low.toNat ≤ bits + 128) (high : bits + 128 ≤ p.high.toNat) (owes : p.owed ≤ 1)
    (found : List Piece) :
    Reader.feed ⟨found, some p⟩ b = ⟨.char (Char.ofNat (p.code * 64 + bits)) :: found, none⟩ := by
  simp [Reader.feed, Partial.feed_bits byte low high, owes]

theorem toNat_ofNat {n : Nat} (small : n < 256) : (UInt8.ofNat n).toNat = n := by
  simp [Nat.mod_eq_of_lt small]

theorem lead_two {b : UInt8} (low : 0xC2 ≤ b.toNat) (high : b.toNat < 0xE0) :
    lead b = .begun ⟨1, 1, 0x80, 0xBF, b.toNat - 0xC0⟩ := by
  unfold lead
  simp only
  rw [if_neg (by omega), if_neg (by omega), if_pos (by omega)]

theorem lead_three {b : UInt8} (low : 0xE0 ≤ b.toNat) (high : b.toNat < 0xF0) :
    lead b = .begun ⟨1, 2, if b.toNat = 0xE0 then 0xA0 else 0x80,
      if b.toNat = 0xED then 0x9F else 0xBF, b.toNat - 0xE0⟩ := by
  unfold lead
  simp only
  rw [if_neg (by omega), if_neg (by omega), if_neg (by omega), if_pos high]
  split
  next h => simp [h]
  next =>
  split
  next h => simp [h]
  next => rfl

theorem lead_four {b : UInt8} (low : 0xF0 ≤ b.toNat) (high : b.toNat < 0xF5) :
    lead b = .begun ⟨1, 3, if b.toNat = 0xF0 then 0x90 else 0x80,
      if b.toNat = 0xF4 then 0x8F else 0xBF, b.toNat - 0xF0⟩ := by
  unfold lead
  simp only
  rw [if_neg (by omega), if_neg (by omega), if_neg (by omega), if_neg (by omega),
    if_neg (by omega), if_neg (by omega)]
  split
  next h => simp [h]
  next =>
  split
  next h => simp [show b.toNat ≠ 0xF4 by omega]
  next =>
    have h : b.toNat = 0xF4 := by omega
    simp [h]

theorem feed_two {v : Nat} (low : 127 < v) (high : v ≤ 2047) (found : List Piece) :
    [UInt8.ofNat (v / 64 % 32 + 192), UInt8.ofNat (v % 64 + 128)].foldl Reader.feed
      ⟨found, none⟩ = ⟨.char (Char.ofNat v) :: found, none⟩ := by
  have first : (UInt8.ofNat (v / 64 % 32 + 192)).toNat = v / 64 + 192 := by
    rw [toNat_ofNat (by omega)]
    omega
  have last : (UInt8.ofNat (v % 64 + 128)).toNat = v % 64 + 128 := toNat_ofNat (by omega)
  have code : (v / 64 + 192 - 0xC0) * 64 + v % 64 = v := by omega
  simp only [List.foldl_cons, List.foldl_nil]
  rw [Reader.feed_begun (lead_two (by omega) (by omega)),
    Reader.feed_last last (by simp) (by simp; omega) (by simp), first, code]

theorem feed_three {v : Nat} (low : 2047 < v) (high : v ≤ 65535)
    (valid : v < 0xD800 ∨ 0xDFFF < v) (found : List Piece) :
    [UInt8.ofNat (v / 4096 % 16 + 224), UInt8.ofNat (v / 64 % 64 + 128),
      UInt8.ofNat (v % 64 + 128)].foldl Reader.feed ⟨found, none⟩ =
      ⟨.char (Char.ofNat v) :: found, none⟩ := by
  have first : (UInt8.ofNat (v / 4096 % 16 + 224)).toNat = v / 4096 + 224 := by
    rw [toNat_ofNat (by omega)]
    omega
  have middle : (UInt8.ofNat (v / 64 % 64 + 128)).toNat = v / 64 % 64 + 128 :=
    toNat_ofNat (by omega)
  have last : (UInt8.ofNat (v % 64 + 128)).toNat = v % 64 + 128 := toNat_ofNat (by omega)
  have code : ((v / 4096 + 224 - 0xE0) * 64 + v / 64 % 64) * 64 + v % 64 = v := by omega
  simp only [List.foldl_cons, List.foldl_nil]
  rw [Reader.feed_begun (lead_three (by omega) (by omega)), first,
    Reader.feed_more middle ?low ?high (by simp),
    Reader.feed_last last (by simp) (by simp; omega) (by simp), code]
  -- Overlong forms and surrogates are the second bytes that the lead byte rules out.
  case low =>
    dsimp only
    split
    next => simp; omega
    next => simp
  case high =>
    dsimp only
    split <;> simp <;> omega

theorem feed_four {v : Nat} (low : 65535 < v) (high : v < 0x110000) (found : List Piece) :
    [UInt8.ofNat (v / 262144 % 8 + 240), UInt8.ofNat (v / 4096 % 64 + 128),
      UInt8.ofNat (v / 64 % 64 + 128), UInt8.ofNat (v % 64 + 128)].foldl Reader.feed
      ⟨found, none⟩ = ⟨.char (Char.ofNat v) :: found, none⟩ := by
  have first : (UInt8.ofNat (v / 262144 % 8 + 240)).toNat = v / 262144 + 240 := by
    rw [toNat_ofNat (by omega)]
    omega
  have second : (UInt8.ofNat (v / 4096 % 64 + 128)).toNat = v / 4096 % 64 + 128 :=
    toNat_ofNat (by omega)
  have third : (UInt8.ofNat (v / 64 % 64 + 128)).toNat = v / 64 % 64 + 128 :=
    toNat_ofNat (by omega)
  have last : (UInt8.ofNat (v % 64 + 128)).toNat = v % 64 + 128 := toNat_ofNat (by omega)
  have code : (((v / 262144 + 240 - 0xF0) * 64 + v / 4096 % 64) * 64 + v / 64 % 64) * 64 +
      v % 64 = v := by omega
  simp only [List.foldl_cons, List.foldl_nil]
  rw [Reader.feed_begun (lead_four (by omega) (by omega)), first,
    Reader.feed_more second ?low ?high (by simp),
    Reader.feed_more third (by simp) (by simp; omega) (by simp),
    Reader.feed_last last (by simp) (by simp; omega) (by simp), code]
  -- Here they are overlong forms, and code points past the last one.
  case low =>
    dsimp only
    split
    next => simp; omega
    next => simp
  case high =>
    dsimp only
    split <;> simp <;> omega

theorem feed_encodeChar (c : Char) (found : List Piece) :
    (String.utf8EncodeChar c).foldl Reader.feed ⟨found, none⟩ = ⟨.char c :: found, none⟩ := by
  have valid : c.val.toNat < 0xD800 ∨ 0xDFFF < c.val.toNat ∧ c.val.toNat < 0x110000 := c.valid
  have whole : Char.ofNat c.val.toNat = c := Char.ofNat_toNat c
  unfold String.utf8EncodeChar
  simp only
  generalize c.val.toNat = v at whole valid
  rw [← whole]
  by_cases one : v ≤ 127
  · have byte : (UInt8.ofNat v).toNat = v := toNat_ofNat (by omega)
    simp [one, Reader.feed, start, lead, byte, Nat.lt_succ_of_le one]
  by_cases two : v ≤ 2047
  · simp only [one, two, if_true, if_false]
    exact feed_two (by omega) two found
  by_cases three : v ≤ 65535
  · simp only [one, two, three, if_true, if_false]
    exact feed_three (by omega) three (by omega) found
  · simp only [one, two, three, if_false]
    exact feed_four (by omega) (by omega) found

theorem feed_encodeChars (chars : List Char) (found : List Piece) :
    (chars.flatMap String.utf8EncodeChar).foldl Reader.feed ⟨found, none⟩ =
      ⟨(chars.map Piece.char).reverse ++ found, none⟩ := by
  induction chars generalizing found with
  | nil => rfl
  | cons c chars ih => simp [List.foldl_append, feed_encodeChar, ih]

theorem decodeLossy_encode (text : String) : decodeLossy (encode text) = text := by
  have read : pieces (encode text) = text.toList.map Piece.char := by
    rw [pieces, encode_eq, feed_encodeChars]
    simp [Reader.finish]
  apply String.toList_injective
  simp [decodeLossy, read, Function.comp_def, Piece.lenient]

theorem encode_append (a b : String) : encode (a ++ b) = encode a ++ encode b := by
  simp [encode_eq]

theorem encodeChar_char {b : UInt8} (ascii : b < 0x80) : String.utf8EncodeChar (char b) = [b] := by
  have small : b.toNat < 0x80 := UInt8.lt_iff_toNat_lt.mp ascii
  have code : (char b).val.toNat = b.toNat := Lexeme.char_toNat b
  simp [String.utf8EncodeChar, code, Nat.le_of_lt_succ small]

theorem encode_of_ascii {bytes : List UInt8} (ascii : ∀ b ∈ bytes, b < 0x80) :
    encode (decodeLossy bytes) = bytes := by
  rw [encode_eq, decodeLossy_of_ascii ascii, String.toList_ofList]
  induction bytes with
  | nil => rfl
  | cons b bytes ih =>
    rw [List.map_cons, List.flatMap_cons, encodeChar_char (ascii b List.mem_cons_self),
      ih fun b mem => ascii b (List.mem_cons_of_mem _ mem)]
    rfl

theorem encode_decodeLossy_ascii (before after : List UInt8) {b : UInt8} (ascii : b < 0x80) :
    encode (decodeLossy (before ++ b :: after)) =
      encode (decodeLossy before) ++ b :: encode (decodeLossy after) := by
  have alone : encode (String.singleton (char b)) = [b] := by
    rw [← decodeLossy_singleton ascii, encode_of_ascii (by simpa using ascii)]
  rw [decodeLossy_ascii before after ascii, encode_append, encode_append, alone, List.append_assoc]
  rfl

theorem mem_encodeChar {c : Char} {b : UInt8} (mem : b ∈ String.utf8EncodeChar c)
    (ascii : b < 0x80) : char b = c := by
  have small : b.toNat < 0x80 := UInt8.lt_iff_toNat_lt.mp ascii
  have wide {n : Nat} (low : 0x80 ≤ n) (high : n < 256) : b ≠ UInt8.ofNat n := by
    rintro rfl
    rw [toNat_ofNat high] at small
    omega
  unfold String.utf8EncodeChar at mem
  simp only at mem
  split at mem
  next one =>
    rw [List.mem_singleton.mp mem, Lexeme.char_eq_iff, toNat_ofNat (by omega)]
    rfl
  next =>
  split at mem
  next =>
    simp only [List.mem_cons, List.not_mem_nil, or_false] at mem
    rcases mem with h | h <;> exact absurd h (wide (by omega) (by omega))
  next =>
  split at mem
  next =>
    simp only [List.mem_cons, List.not_mem_nil, or_false] at mem
    rcases mem with h | h | h <;> exact absurd h (wide (by omega) (by omega))
  next =>
    simp only [List.mem_cons, List.not_mem_nil, or_false] at mem
    rcases mem with h | h | h | h <;> exact absurd h (wide (by omega) (by omega))

theorem mem_encode {text : String} {b : UInt8} (mem : b ∈ encode text) (ascii : b < 0x80) :
    char b ∈ text.toList := by
  rw [encode_eq] at mem
  obtain ⟨c, mem, inside⟩ := List.mem_flatMap.mp mem
  rwa [mem_encodeChar inside ascii]

def Partial.Big (p : Partial) : Prop :=
  (if p.owed ≤ 1 then 0x80 else 2) ≤ p.code * 64 + (p.low.toNat - 0x80)

theorem lead_big {b : UInt8} {p : Partial} (begun : lead b = .begun p) : p.Big := by
  unfold lead at begun
  simp only at begun
  repeat' split at begun
  all_goals cases begun <;> simp [Partial.Big] <;> omega

theorem ofNat_ne_quote {code : Nat} (big : 0x80 ≤ code) : Char.ofNat code ≠ '"' := by
  intro same
  by_cases valid : code.isValidChar
  · have back : (Char.ofNat code).toNat = code := by
      simp [Char.ofNat, valid, Char.ofNatAux, Char.toNat, UInt32.toNat]
    rw [same] at back
    change 34 = code at back
    omega
  · rw [Char.ofNat, dif_neg valid] at same
    cases same

structure Reader.Unquoted (r : Reader) : Prop where
  found : ∀ piece ∈ r.found, piece.lenient ≠ '"'
  begun : ∀ p, r.begun = some p → p.Big ∧ 0x80 ≤ p.low

theorem start_unquoted {b : UInt8} (other : Lexeme.isQuote b = false) :
    (∀ piece ∈ (start b).1, piece.lenient ≠ '"') ∧
      ∀ p, (start b).2 = some p → p.Big ∧ 0x80 ≤ p.low := by
  by_cases ascii : b < 0x80
  · have mark : char b ≠ '"' := by simpa [Lexeme.isQuote] using other
    simp [start_ascii ascii, Piece.lenient, mark]
  unfold start
  cases read : lead b with
  | complete c =>
    have wide : ¬b.toNat < 0x80 := fun small => ascii (UInt8.lt_iff_toNat_lt.mpr small)
    unfold lead at read
    simp only [wide, if_false] at read
    repeat' split at read
    all_goals cases read
  | begun p => simpa using ⟨lead_big read, lead_wide read⟩
  | impossible => simp [Piece.lenient]

theorem Partial.feed_unquoted {p : Partial} {b : UInt8} (big : p.Big) (wide : 0x80 ≤ p.low)
    (other : Lexeme.isQuote b = false) :
    (∀ piece ∈ (p.feed b).1, piece.lenient ≠ '"') ∧
      ∀ q, (p.feed b).2 = some q → q.Big ∧ 0x80 ≤ q.low := by
  obtain ⟨found, begun⟩ := start_unquoted other
  have low : 0x80 ≤ p.low.toNat := UInt8.le_iff_toNat_le.mp wide
  -- A byte goes on with the character that was begun, or ends it early and begins anew.
  unfold Partial.feed
  split
  next inside =>
    have above : p.low.toNat ≤ b.toNat := UInt8.le_iff_toNat_le.mp inside.1
    unfold Big at big
    dsimp only
    split
    next last =>
      rw [if_pos last] at big
      have code : 0x80 ≤ p.code * 64 + (b.toNat - 0x80) := by omega
      simpa [Piece.lenient] using ofNat_ne_quote code
    next more =>
      rw [if_neg more] at big
      refine ⟨fun _ mem => by simp at mem, fun q same => ?_⟩
      cases same
      refine ⟨?_, UInt8.le_refl _⟩
      unfold Big
      dsimp only
      split <;> omega
  next =>
    refine ⟨fun piece mem => ?_, begun⟩
    rcases List.mem_cons.mp mem with rfl | mem
    · simp [Piece.lenient]
    · exact found piece mem

theorem Reader.feed_unquoted {r : Reader} {b : UInt8} (plain : r.Unquoted)
    (other : Lexeme.isQuote b = false) : (r.feed b).Unquoted := by
  have add {new : List Piece} {next : Option Partial}
      (step : (∀ piece ∈ new, piece.lenient ≠ '"') ∧ ∀ p, next = some p → p.Big ∧ 0x80 ≤ p.low) :
      Reader.Unquoted ⟨new.reverse ++ r.found, next⟩ := by
    refine ⟨fun piece mem => ?_, step.2⟩
    rcases List.mem_append.mp mem with mem | mem
    · exact step.1 piece (List.mem_reverse.mp mem)
    · exact plain.found piece mem
  unfold Reader.feed
  cases begun : r.begun with
  | none => exact add (start_unquoted other)
  | some p =>
    obtain ⟨big, wide⟩ := plain.begun p begun
    exact add (Partial.feed_unquoted big wide other)

theorem foldl_feed_unquoted {bytes : List UInt8} (others : ∀ b ∈ bytes, Lexeme.isQuote b = false)
    {r : Reader} (plain : r.Unquoted) : (bytes.foldl Reader.feed r).Unquoted := by
  induction bytes generalizing r with
  | nil => exact plain
  | cons b bytes ih =>
    exact ih (fun b mem => others b (List.mem_cons_of_mem _ mem))
      (Reader.feed_unquoted plain (others b List.mem_cons_self))

theorem quote_not_mem_decodeLossy {bytes : List UInt8}
    (others : ∀ b ∈ bytes, Lexeme.isQuote b = false) : '"' ∉ (decodeLossy bytes).toList := by
  have start : Reader.Unquoted {} := ⟨by simp, by simp⟩
  have last := foldl_feed_unquoted others start
  intro mem
  rw [decodeLossy, String.toList_ofList] at mem
  obtain ⟨piece, mem, same⟩ := List.mem_map.mp mem
  unfold pieces Reader.finish at mem
  split at mem
  next => exact last.found piece (List.mem_reverse.mp mem) same
  next =>
    rcases List.mem_cons.mp (List.mem_reverse.mp mem) with rfl | old
    · exact absurd same (by simp [Piece.lenient])
    · exact last.found piece old same

end Quill.Utf8
