/-! Sequences of octets and the numbers that they write in base 256, most significant octet
first. -/

namespace StreamCheckpoint

/-- A sequence of octets. -/
abbrev Bytes := List UInt8

/-- The number that `bs` writes in base 256, most significant octet first. -/
def bigEndian (bs : Bytes) : Nat := bs.foldl (fun n b => n * 256 + b.toNat) 0

/-- The last `width` base-256 digits of `n`, most significant first. -/
def toBigEndian : (width n : Nat) → Bytes
  | 0, _ => []
  | width + 1, n => toBigEndian width (n / 256) ++ [UInt8.ofNat n]

@[simp] theorem bigEndian_nil : bigEndian [] = 0 := rfl

theorem bigEndian_append_singleton (bs : Bytes) (b : UInt8) :
    bigEndian (bs ++ [b]) = bigEndian bs * 256 + b.toNat := by
  simp [bigEndian]

@[simp] theorem length_toBigEndian (width n : Nat) : (toBigEndian width n).length = width := by
  induction width generalizing n with
  | zero => rfl
  | succ width ih => simp [toBigEndian, ih]

end StreamCheckpoint
