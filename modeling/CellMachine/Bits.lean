/-!
# Bitwise operations on integers

An integer is read as an infinite two's complement bit pattern: a negative number has all but
finitely many bits set. The operations are computed on natural numbers through the identity
`-(m + 1) = complement of m`.
-/

namespace CellMachine.Bits

/-- The bits of `m` that are not set in `n`. -/
def without (m n : Nat) : Nat := m ^^^ (m &&& n)

/-- Every bit flipped. -/
def complement (a : Int) : Int := -a - 1

/-- The bits set in both numbers. -/
def conj : Int → Int → Int
  | .ofNat m, .ofNat n => .ofNat (m &&& n)
  | .ofNat m, .negSucc n => .ofNat (without m n)
  | .negSucc m, .ofNat n => .ofNat (without n m)
  | .negSucc m, .negSucc n => .negSucc (m ||| n)

/-- The bits set in at least one of the numbers. -/
def disj : Int → Int → Int
  | .ofNat m, .ofNat n => .ofNat (m ||| n)
  | .ofNat m, .negSucc n => .negSucc (without n m)
  | .negSucc m, .ofNat n => .negSucc (without m n)
  | .negSucc m, .negSucc n => .negSucc (m &&& n)

/-- The bits set in exactly one of the numbers. -/
def differ : Int → Int → Int
  | .ofNat m, .ofNat n => .ofNat (m ^^^ n)
  | .ofNat m, .negSucc n => .negSucc (m ^^^ n)
  | .negSucc m, .ofNat n => .negSucc (m ^^^ n)
  | .negSucc m, .negSucc n => .ofNat (m ^^^ n)

end CellMachine.Bits
