import Mathlib.Algebra.GroupWithZero.Nat
import StreamCheckpoint.Record.Basic

/-! The form of a record can be read back: the record types of this library are lawful.  A 64-bit
number comes back from its eight digits in base 256, and a text comes back from its UTF-8 form one
character at a time (`readFrom_encodeChar`). -/

namespace StreamCheckpoint

/-- The last `width` digits of a number, in base 256, write what is left of it. -/
theorem bigEndian_toBigEndian (width n : Nat) :
    bigEndian (toBigEndian width n) = n % 256 ^ width := by
  induction width generalizing n with
  | zero => simp [toBigEndian, Nat.mod_one]
  | succ width ih =>
    rw [toBigEndian, bigEndian_append_singleton, ih, Nat.pow_succ', Nat.mod_mul, UInt8.toNat_ofNat']
    omega

namespace Utf8

/-- The octet that continues a character with the last six bits of `x`. -/
def continuing (x : Nat) : UInt8 := UInt8.ofNat (x % 64 + 128)

/-- The range of the second octet of a character, after a first one with the bits `n`: it is
narrower after the first and after the last one that there is. -/
def second (last : Nat) (low high : OctetRange) (n : Nat) : OctetRange :=
  if n = 0 then low else if n = last then high else continuation

def secondOfThree : Nat → OctetRange := second 0xD ⟨0xA0, 0xBF⟩ ⟨0x80, 0x9F⟩

def secondOfFour : Nat → OctetRange := second 4 ⟨0x90, 0xBF⟩ ⟨0x80, 0x8F⟩

theorem begin?_of_one : ∀ n < 128, begin? (UInt8.ofNat n) = some ⟨n, 1, []⟩ := by decide

theorem begin?_of_two : ∀ n < 32, 2 ≤ n →
    begin? (UInt8.ofNat (n + 192)) = some ⟨n, 1, [continuation]⟩ := by
  decide

theorem begin?_of_three : ∀ n < 16,
    begin? (UInt8.ofNat (n + 224)) = some ⟨n, 1, [secondOfThree n, continuation]⟩ := by
  decide

theorem begin?_of_four : ∀ n < 5,
    begin? (UInt8.ofNat (n + 240)) =
      some ⟨n, 1, [secondOfFour n, continuation, continuation]⟩ := by
  decide

@[simp] theorem toNat_continuing (x : Nat) : (continuing x).toNat = x % 64 + 128 := by
  rw [continuing, UInt8.toNat_ofNat_of_lt' (by simp only [UInt8.size]; omega)]

theorem contains_continuing {first last : UInt8} {x : Nat} :
    (OctetRange.mk first last).contains (continuing x) = true ↔
      first.toNat ≤ x % 64 + 128 ∧ x % 64 + 128 ≤ last.toNat := by
  simp [OctetRange.contains, UInt8.le_iff_toNat_le]

theorem continuation_contains (x : Nat) : continuation.contains (continuing x) = true := by
  refine contains_continuing.2 ?_
  simp only [UInt8.reduceToNat]
  omega

theorem second_contains {last n x : Nat} {low high : OctetRange}
    (hlow : n = 0 → low.contains (continuing x) = true)
    (hhigh : n = last → high.contains (continuing x) = true) :
    (second last low high n).contains (continuing x) = true := by
  unfold second
  split
  · next h => exact hlow h
  split
  · next h => exact hhigh h
  · exact continuation_contains x

/-- The second of three octets rules out overlong forms and surrogates, and nothing else. -/
theorem secondOfThree_contains {n x : Nat} (low : n = 0 → 32 ≤ x % 64)
    (high : n = 0xD → x % 64 < 32) : (secondOfThree n).contains (continuing x) = true := by
  refine second_contains (fun h => ?_) fun h => ?_ <;> rw [contains_continuing] <;>
    simp only [UInt8.reduceToNat]
  · have := low h
    omega
  · have := high h
    omega

/-- The second of four octets rules out overlong forms and numbers above `0x10FFFF`, and nothing
else. -/
theorem secondOfFour_contains {n x : Nat} (low : n = 0 → 16 ≤ x % 64)
    (high : n = 4 → x % 64 < 16) : (secondOfFour n).contains (continuing x) = true := by
  refine second_contains (fun h => ?_) fun h => ?_ <;> rw [contains_continuing] <;>
    simp only [UInt8.reduceToNat]
  · have := low h
    omega
  · have := high h
    omega

section Reading

variable {index value length x : Nat} {r r' : OctetRange} {owed : List OctetRange} {b : UInt8}
  {bs : Bytes}

theorem readFrom_first {c : Begun} (h : begin? b = some c) (howed : c.owed ≠ []) :
    readFrom index none (b :: bs) = readFrom index (some c) bs := by
  simp [readFrom, h, howed]

theorem readFrom_next (h : r.contains (continuing x) = true) :
    readFrom index (some ⟨value, length, r :: r' :: owed⟩) (continuing x :: bs) =
      readFrom index (some ⟨value * 64 + x % 64, length + 1, r' :: owed⟩) bs := by
  simp [readFrom, h]

theorem readFrom_last (h : r.contains (continuing x) = true) :
    readFrom index (some ⟨value, length, [r]⟩) (continuing x :: bs) =
      (readFrom (index + length + 1) none bs).map (Char.ofNat (value * 64 + x % 64) :: ·) := by
  simp [readFrom, h]

end Reading

/-- A character is read back from its UTF-8 form, and reading goes on after it. -/
theorem readFrom_encodeChar (c : Char) (index : Nat) (bs : Bytes) :
    readFrom index none (String.utf8EncodeChar c ++ bs) =
      (readFrom (index + (String.utf8EncodeChar c).length) none bs).map (c :: ·) := by
  have hc : Char.ofNat c.val.toNat = c := Char.ofNat_toNat c
  have hvalid : c.val.toNat < 0xD800 ∨ 0xDFFF < c.val.toNat ∧ c.val.toNat < 0x110000 := c.valid
  simp only [String.utf8EncodeChar]
  generalize c.val.toNat = v at hc hvalid ⊢
  -- one case for each length of the form; in each the octets write the six-bit digits of `v`
  split
  · next h => simp [readFrom, begin?_of_one v (by omega), hc]
  split
  · next h1 h2 =>
    have hfirst := begin?_of_two (v / 64 % 32) (by omega) (by omega)
    have hv : v / 64 % 32 * 64 + v % 64 = v := by omega
    simp only [List.cons_append, List.nil_append]
    rw [readFrom_first hfirst (by simp)]
    refine (readFrom_last (continuation_contains v)).trans ?_
    rw [hv, hc]
    rfl
  split
  · next h1 h2 h3 =>
    have hfirst := begin?_of_three (v / 4096 % 16) (by omega)
    have hsecond := secondOfThree_contains (n := v / 4096 % 16) (x := v / 64)
      (by omega) (by omega)
    have hv : (v / 4096 % 16 * 64 + v / 64 % 64) * 64 + v % 64 = v := by omega
    simp only [List.cons_append, List.nil_append]
    rw [readFrom_first hfirst (by simp)]
    refine (readFrom_next hsecond).trans ((readFrom_last (continuation_contains v)).trans ?_)
    rw [hv, hc]
    rfl
  · next h1 h2 h3 =>
    have hfirst := begin?_of_four (v / 262144 % 8) (by omega)
    have hsecond := secondOfFour_contains (n := v / 262144 % 8) (x := v / 4096)
      (by omega) (by omega)
    have hv : ((v / 262144 % 8 * 64 + v / 4096 % 64) * 64 + v / 64 % 64) * 64 + v % 64 = v := by
      omega
    simp only [List.cons_append, List.nil_append]
    rw [readFrom_first hfirst (by simp)]
    refine (readFrom_next hsecond).trans ((readFrom_next (continuation_contains (v / 64))).trans
      ((readFrom_last (continuation_contains v)).trans ?_))
    rw [hv, hc]
    rfl

theorem readFrom_encode (index : Nat) (cs : List Char) :
    readFrom index none (encode cs) = .ok cs := by
  induction cs generalizing index with
  | nil => rfl
  | cons c cs ih =>
    rw [encode, List.flatMap_cons, readFrom_encodeChar]
    exact congrArg (Except.map (c :: ·)) (ih _)

theorem decode_encode (cs : List Char) : decode (encode cs) = .ok cs := readFrom_encode 0 cs

end Utf8

/-- Every value of a lawful record type is read back from its form. -/
class LawfulRecord (α : Type) [Record α] : Prop where
  decode_encode (v : α) : Record.decode (Record.encode v) = .ok v

instance : LawfulRecord Bytes where
  decode_encode _ := rfl

instance : LawfulRecord (Array UInt8) where
  decode_encode _ := rfl

instance : LawfulRecord String where
  decode_encode s := by simp [Record.decode, Record.encode, Utf8.decode_encode]

instance : LawfulRecord UInt64 where
  decode_encode n := by
    have h : n.toNat % 256 ^ 8 = n.toNat := Nat.mod_eq_of_lt n.toNat_lt
    simp only [Record.decode, Record.encode, length_toBigEndian, bigEndian_toBigEndian, h,
      if_true, UInt64.ofNat_toNat]

end StreamCheckpoint
