/-! Key groups.  The keys of a job's state are divided into groups, and every part of the job has a
range of them. -/

namespace StreamCheckpoint

/-- A range of key groups, both ends included.  Key groups are numbers below `2 ^ 32`. -/
structure KeyGroupRange where
  first : Nat
  last : Nat
deriving DecidableEq, Repr

namespace KeyGroupRange

def contains (r : KeyGroupRange) (group : Nat) : Bool := r.first ≤ group && group ≤ r.last

/-- The number of key groups; a range that ends before it begins has none.  The range of all key
groups has the size `2 ^ 32`, which overflows in 32 bits, and is not empty; all other sizes fit. -/
def size (r : KeyGroupRange) : Nat := r.last + 1 - r.first

def isEmpty (r : KeyGroupRange) : Bool := r.size == 0

end KeyGroupRange

end StreamCheckpoint
