import Mathlib.Data.List.Induction
import Mathlib.Data.Nat.Digits.Defs
import StreamCheckpoint.Proofs.Record.Texts

/-! The bytes that are read as a value are its form, and no others are.  A number has eight bytes,
which are its digits in base 256 (`decodeNumber_eq_ok`), and a text has the UTF-8 form of its
characters; all other bytes are refused, at the end of the longest text with which they begin
(`codecs_exact`). -/

namespace StreamCheckpoint

/-- Every value is read back from its form, and no other bytes are read as it. -/
class ExactRecord (α : Type) [Record α] : Prop extends LawfulRecord α where
  encode_decode {bs : Bytes} {v : α} : Record.decode bs = .ok v → Record.encode v = bs

section Numbers

theorem bigEndian_eq_ofDigits (bs : Bytes) :
    bigEndian bs = Nat.ofDigits 256 (bs.reverse.map (·.toNat)) := by
  induction bs using List.reverseRecOn with
  | nil => rfl
  | append_singleton bs b ih =>
    rw [bigEndian_append_singleton, ih, List.reverse_append, List.reverse_singleton,
      List.singleton_append, List.map_cons, Nat.ofDigits_cons]
    omega

theorem bigEndian_lt (bs : Bytes) : bigEndian bs < 256 ^ bs.length := by
  rw [bigEndian_eq_ofDigits]
  refine (Nat.ofDigits_lt_base_pow_length (by decide) ?_).trans_eq (by simp)
  intro n hn
  obtain ⟨b, -, rfl⟩ := List.mem_map.1 hn
  exact b.toNat_lt

theorem toBigEndian_bigEndian (bs : Bytes) : toBigEndian bs.length (bigEndian bs) = bs := by
  induction bs using List.reverseRecOn with
  | nil => rfl
  | append_singleton bs b ih =>
    have digit : b.toNat < 256 := b.toNat_lt
    have left : (bigEndian bs * 256 + b.toNat) / 256 = bigEndian bs := by omega
    have last : UInt8.ofNat (bigEndian bs * 256 + b.toNat) = b := by
      refine UInt8.toNat_inj.1 ?_
      rw [UInt8.toNat_ofNat']
      omega
    rw [List.length_append, List.length_singleton, bigEndian_append_singleton, toBigEndian, left,
      last, ih]

/-- A number is read from eight bytes, and it is the one that they write. -/
theorem decodeNumber_eq_ok {bs : Bytes} {n : UInt64} :
    Record.decode bs = .ok n ↔ bs.length = 8 ∧ n.toNat = bigEndian bs := by
  by_cases width : bs.length = 8
  · have fits : bigEndian bs < 2 ^ 64 := by
      have := bigEndian_lt bs
      rwa [width] at this
    have decoded : Record.decode bs = .ok (UInt64.ofNat (bigEndian bs)) := if_pos width
    have number : (UInt64.ofNat (bigEndian bs)).toNat = bigEndian bs :=
      UInt64.toNat_ofNat_of_lt' fits
    rw [decoded, Except.ok.injEq, ← UInt64.toNat_inj, number]
    exact ⟨fun h => ⟨width, h.symm⟩, fun h => h.2.symm⟩
  · have refused : (Record.decode bs : Except DecodeError UInt64) =
        .error (.malformed (.width bs.length)) := if_neg width
    simp [refused, width]

end Numbers

section Texts

variable {bs : Bytes}

theorem decodeText_eq_ok {s : String} :
    Record.decode bs = .ok s ↔ Utf8.decode bs = .ok s.toList := by
  simp only [Record.decode]
  cases Utf8.decode bs with
  | ok cs =>
    rw [Except.ok.injEq, Except.ok.injEq]
    constructor
    · rintro rfl
      exact String.toList_ofList.symm
    · rintro rfl
      exact String.ofList_toList
  | error flaw => simp

theorem decodeText_eq_error {e : DecodeError} :
    (Record.decode bs : Except DecodeError String) = .error e ↔
      ∃ flaw, Utf8.decode bs = .error flaw ∧ e = .malformed (.text flaw) := by
  simp only [Record.decode]
  cases Utf8.decode bs with
  | ok cs => simp
  | error flaw => simp [eq_comm]

theorem exists_decodeText :
    (∃ s : String, Record.decode bs = .ok s) ↔ Utf8.WellFormed bs := by
  rw [Utf8.wellFormed_iff]
  constructor
  · rintro ⟨s, h⟩
    exact ⟨s.toList, Utf8.decode_eq_ok_iff.1 (decodeText_eq_ok.1 h)⟩
  · rintro ⟨cs, rfl⟩
    refine ⟨String.ofList cs, decodeText_eq_ok.2 ?_⟩
    rw [String.toList_ofList, Utf8.decode_encode]

/-- Reading `bs` as a text fails, and the reason names the byte with the number `index`. -/
def RefusedAt (bs : Bytes) (index : Nat) : Prop :=
  ∃ length, (Record.decode bs : Except DecodeError String) =
    .error (.malformed (.text ⟨index, length⟩))

theorem refusedAt_of_refusesFirst {before : Bytes} (text : Utf8.WellFormed before)
    (h : Utf8.RefusesFirst before.length none bs) : RefusedAt (before ++ bs) before.length := by
  obtain ⟨cs, rfl⟩ := Utf8.wellFormed_iff.1 text
  obtain ⟨length, e⟩ := Utf8.decode_encode_append h
  exact ⟨length, decodeText_eq_error.2 ⟨_, e, rfl⟩⟩

end Texts

instance : ExactRecord Bytes where
  encode_decode h := (Except.ok.inj h).symm

instance : ExactRecord (Array UInt8) where
  encode_decode {bs v} h := by
    obtain rfl : bs.toArray = v := Except.ok.inj h
    exact List.toList_toArray

instance : ExactRecord String where
  encode_decode h := (Utf8.decode_eq_ok_iff.1 (decodeText_eq_ok.1 h)).symm

instance : ExactRecord UInt64 where
  encode_decode {bs n} h := by
    obtain ⟨width, number⟩ := decodeNumber_eq_ok.1 h
    show toBigEndian 8 n.toNat = bs
    rw [number, ← width, toBigEndian_bigEndian]

/-- The record types of this library are exact.  A number is read from eight bytes and from nothing
else, and they are its digits, the most significant first.  A text is read from well-formed bytes
and from nothing else.  After a well-formed part, a form that is too long, that writes a surrogate
or a number above `0x10FFFF`, or that breaks off is refused where it begins.  Whatever is refused as
a text is malformed, and the message names the length of the longest well-formed part from the
front. -/
theorem codecs_exact :
    (ExactRecord Bytes ∧ ExactRecord (Array UInt8) ∧ ExactRecord String ∧ ExactRecord UInt64) ∧
    (∀ bs : Bytes, ((∃ n : UInt64, Record.decode bs = .ok n) ↔ bs.length = 8) ∧
      ∀ n : UInt64, Record.decode bs = .ok n →
        n.toNat = Nat.ofDigits 256 (bs.reverse.map (·.toNat))) ∧
    (∀ bs : Bytes, ((∃ s : String, Record.decode bs = .ok s) ↔ Utf8.WellFormed bs) ∧
      (Utf8.WellFormed bs ↔ bs.toByteArray.IsValidUTF8)) ∧
    (∀ before after : Bytes, Utf8.WellFormed before →
      ∀ length v, v < Utf8.room length →
        (v < Utf8.room (length - 1) ∨ 0xD800 ≤ v ∧ v ≤ 0xDFFF ∨ 0x10FFFF < v →
          RefusedAt (before ++ Utf8.form length v ++ after) before.length) ∧
        ∀ part, part <+: Utf8.form length v → part ≠ [] → part ≠ Utf8.form length v →
          (∀ b ∈ after.head?, b < 0x80 ∨ 0xBF < b) →
          RefusedAt (before ++ part ++ after) before.length) ∧
    ∀ (bs : Bytes) (e : DecodeError), (Record.decode bs : Except DecodeError String) = .error e →
      ∃ cause index what, e = .malformed cause ∧
        cause.message = what ++ (" from index " ++ toString index) ∧
        IsGreatest {n | ∃ p, p <+: bs ∧ Utf8.WellFormed p ∧ p.length = n} index := by
  refine ⟨⟨inferInstance, inferInstance, inferInstance, inferInstance⟩, fun bs => ⟨⟨?_, ?_⟩, ?_⟩,
    fun bs => ⟨exists_decodeText, Utf8.wellFormed_iff_isValidUTF8⟩, ?_, ?_⟩
  · rintro ⟨n, h⟩
    exact (decodeNumber_eq_ok.1 h).1
  · exact fun width => ⟨UInt64.ofNat (bigEndian bs), if_pos width⟩
  · intro n h
    rw [(decodeNumber_eq_ok.1 h).2, bigEndian_eq_ofDigits]
  · intro before after text length v fits
    refine ⟨fun bad => ?_, fun part short begun broken next => ?_⟩
    · rw [List.append_assoc]
      refine refusedAt_of_refusesFirst text (Utf8.readFrom_form_error fits ?_ after)
      simp only [Nat.isValidChar]
      omega
    · rw [List.append_assoc]
      refine refusedAt_of_refusesFirst text
        (Utf8.readFrom_truncated fits begun short broken fun b hb within => ?_)
      rw [Utf8.OctetRange.contains, Bool.and_eq_true, decide_eq_true_iff, decide_eq_true_iff]
        at within
      obtain ⟨low, high⟩ := within
      obtain below | above := next b hb
      · exact UInt8.not_lt.2 low below
      · exact UInt8.not_lt.2 high above
  · intro bs e h
    obtain ⟨flaw, stopped, rfl⟩ := decodeText_eq_error.1 h
    obtain ⟨what, message⟩ := flaw.exists_message_eq
    exact ⟨.text flaw, flaw.index, what, rfl, message, Utf8.index_isGreatest stopped⟩

end StreamCheckpoint
