import CellMachine.Bits

/-!
# Signed 32-bit words

Numbers are integers of any size; `wrap` brings one back to the signed 32-bit word it is
congruent to modulo 2^32. Each arithmetic operation computes on the integers it is given and
wraps its result, so an operand outside the word range is not reduced first. The right shift is
the exception: it shifts the word, so that the sign bit of the word is the one repeated.

Division truncates toward zero and the remainder takes the sign of the dividend; both are
undefined at a zero divisor.
-/

namespace CellMachine.Word

/-- The least signed 32-bit word. -/
def minimum : Int := -2147483648

/-- The greatest signed 32-bit word. -/
def maximum : Int := 2147483647

/-- A number is a signed 32-bit word. -/
def InRange (n : Int) : Prop := minimum ≤ n ∧ n ≤ maximum

instance (n : Int) : Decidable (InRange n) := inferInstanceAs (Decidable (_ ∧ _))

/-- The signed 32-bit word congruent to `n` modulo 2^32. -/
def wrap (n : Int) : Int := n.bmod 4294967296

theorem wrap_inRange (n : Int) : InRange (wrap n) := by
  unfold InRange minimum maximum wrap
  have h₁ := @Int.le_bmod n 4294967296 (by decide)
  have h₂ := @Int.bmod_lt n 4294967296 (by decide)
  omega

theorem wrap_of_inRange {n : Int} (h : InRange n) : wrap n = n := by
  unfold InRange minimum maximum at h
  unfold wrap Int.bmod
  dsimp only
  split <;> omega

@[simp] theorem wrap_wrap (n : Int) : wrap (wrap n) = wrap n :=
  wrap_of_inRange (wrap_inRange n)

/-! ### Arithmetic -/

def add (a b : Int) : Int := wrap (a + b)

def sub (a b : Int) : Int := wrap (a - b)

def mul (a b : Int) : Int := wrap (a * b)

/-- The quotient truncated toward zero; `none` for a zero divisor. -/
def div? (a b : Int) : Option Int :=
  if b = 0 then none else some (wrap (a.tdiv b))

/-- The remainder with the sign of the dividend; `none` for a zero divisor. -/
def mod? (a b : Int) : Option Int :=
  if b = 0 then none else some (wrap (a.tmod b))

/-! ### Logic and shifts -/

def bitNot (a : Int) : Int := wrap (Bits.complement a)

def bitXor (a b : Int) : Int := wrap (Bits.differ a b)

def bitOr (a b : Int) : Int := wrap (Bits.disj a b)

def bitAnd (a b : Int) : Int := wrap (Bits.conj a b)

/-- A shift count is taken modulo 32. -/
def shiftCount (count : Int) : Nat := (count % 32).toNat

def shl (a count : Int) : Int := wrap (a <<< shiftCount count)

/-- The arithmetic right shift: the sign bit of the word is repeated. -/
def shr (a count : Int) : Int := wrap (wrap a >>> shiftCount count)

/-! ### Comparison -/

/-- The flags of a comparison: bit 0 for equal, bit 1 for greater. -/
def compare (a b : Int) : Int :=
  (if a = b then 1 else 0) + (if a > b then 2 else 0)

/-- Bit 0 of the flags: the compared numbers were equal. -/
def equalFlag (flags : Int) : Bool := flags % 2 = 1

/-- Bit 1 of the flags: the first compared number was the greater one. -/
def greaterFlag (flags : Int) : Bool := flags / 2 % 2 = 1

end CellMachine.Word
