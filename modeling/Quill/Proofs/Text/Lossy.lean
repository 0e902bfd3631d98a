import Quill.Lexeme

set_option autoImplicit false

namespace Quill.Utf8

open Lexeme (char)

def Reader.Wide (r : Reader) : Prop :=
  ∀ p, r.begun = some p → 0x80 ≤ p.low

theorem lead_wide {b : UInt8} {p : Partial} (h : lead b = .begun p) : 0x80 ≤ p.low := by
  unfold lead at h
  simp only at h
  repeat' split at h
  all_goals cases h <;> simp only [UInt8.le_iff_toNat_le] <;> decide

theorem start_wide {b : UInt8} {p : Partial} (h : (start b).2 = some p) : 0x80 ≤ p.low := by
  unfold start at h
  split at h
  next => cases h
  next begun =>
    cases h
    exact lead_wide begun
  next => cases h

theorem Partial.feed_wide {p q : Partial} {b : UInt8} (h : (p.feed b).2 = some q) :
    0x80 ≤ q.low := by
  unfold Partial.feed at h
  split at h
  next =>
    split at h
    next => cases h
    next =>
      cases h
      exact UInt8.le_refl _
  next => exact start_wide h

theorem Reader.feed_wide (r : Reader) (b : UInt8) : (r.feed b).Wide := by
  intro p h
  cases begun : r.begun with
  | none => exact start_wide (b := b) (by simpa [Reader.feed, begun] using h)
  | some q => exact Partial.feed_wide (p := q) (b := b) (by simpa [Reader.feed, begun] using h)

theorem foldl_feed_wide (bytes : List UInt8) {r : Reader} (h : r.Wide) :
    (bytes.foldl Reader.feed r).Wide := by
  induction bytes generalizing r with
  | nil => exact h
  | cons b bytes ih => exact ih (r.feed_wide b)

theorem start_ascii {b : UInt8} (ascii : b < 0x80) : start b = ([.char (char b)], none) := by
  have small : b.toNat < 0x80 := UInt8.lt_iff_toNat_lt.mp ascii
  simp [start, lead, small, char]

theorem Reader.feed_ascii {r : Reader} {b : UInt8} (wide : r.Wide) (ascii : b < 0x80) :
    (r.feed b).begun = none ∧
      (r.feed b).finish.map Piece.lenient = r.finish.map Piece.lenient ++ [char b] := by
  cases begun : r.begun with
  | none => simp [Reader.feed, Reader.finish, begun, start_ascii ascii, Piece.lenient]
  | some p =>
    have out : ¬(p.low ≤ b ∧ b ≤ p.high) := by
      have := wide p begun
      simp only [UInt8.le_iff_toNat_le, UInt8.lt_iff_toNat_lt] at *
      omega
    simp [Reader.feed, Reader.finish, begun, Partial.feed, out, start_ascii ascii, Piece.lenient]

theorem Reader.feed_found (found : List Piece) (r : Reader) (b : UInt8) :
    Reader.feed ⟨r.found ++ found, r.begun⟩ b =
      ⟨(r.feed b).found ++ found, (r.feed b).begun⟩ := by
  simp [Reader.feed]

theorem foldl_feed_found (found : List Piece) (bytes : List UInt8) (r : Reader) :
    bytes.foldl Reader.feed ⟨r.found ++ found, r.begun⟩ =
      ⟨(bytes.foldl Reader.feed r).found ++ found, (bytes.foldl Reader.feed r).begun⟩ := by
  induction bytes generalizing r with
  | nil => rfl
  | cons b bytes ih =>
    simp only [List.foldl_cons, Reader.feed_found]
    exact ih (r.feed b)

theorem finish_found (found : List Piece) (r : Reader) :
    Reader.finish ⟨r.found ++ found, r.begun⟩ = found.reverse ++ r.finish := by
  unfold Reader.finish
  split <;> simp_all

theorem decodeLossy_ascii (before after : List UInt8) {b : UInt8} (ascii : b < 0x80) :
    decodeLossy (before ++ b :: after) =
      decodeLossy before ++ String.singleton (char b) ++ decodeLossy after := by
  have wide : Reader.Wide {} := fun p h => by cases h
  obtain ⟨between, read⟩ := Reader.feed_ascii (foldl_feed_wide before wide) ascii
  generalize reached : (before.foldl Reader.feed {}).feed b = r at between read
  have found : r.finish = r.found.reverse := by simp [Reader.finish, between]
  have later : pieces (before ++ b :: after) = r.finish ++ pieces after := by
    rw [pieces, List.foldl_append, List.foldl_cons, reached, found]
    calc (after.foldl Reader.feed r).finish
        = (after.foldl Reader.feed ⟨([] : List Piece) ++ r.found, none⟩).finish := by
          rw [← between]
          rfl
      _ = r.found.reverse ++ pieces after := by
          rw [foldl_feed_found r.found after {}, finish_found]
          rfl
  apply String.toList_injective
  simp only [decodeLossy, later, List.map_append, read, String.toList_append, String.toList_ofList,
    String.toList_singleton]
  rfl

theorem decodeLossy_of_ascii {bytes : List UInt8} (ascii : ∀ b ∈ bytes, b < 0x80) :
    decodeLossy bytes = String.ofList (bytes.map char) := by
  induction bytes with
  | nil => rfl
  | cons b bytes ih =>
    have first := decodeLossy_ascii [] bytes (ascii b List.mem_cons_self)
    rw [List.nil_append] at first
    rw [first, ih fun b mem => ascii b (List.mem_cons_of_mem _ mem)]
    apply String.toList_injective
    simp only [String.toList_append, String.toList_ofList, String.toList_singleton, List.map_cons]
    rfl

theorem decodeLossy_singleton {b : UInt8} (ascii : b < 0x80) :
    decodeLossy [b] = String.singleton (char b) := by
  rw [decodeLossy_of_ascii (by simpa using ascii)]
  rfl

end Quill.Utf8
