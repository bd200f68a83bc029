import CellMachine.Word

/-!
# Words as bit vectors

The operations on words are written on integers of any size: they compute there and bring the
result back by `Word.wrap`. A machine computes on 32 bits from the start. The two are the same,
because taking the last 32 bits of an integer (`BitVec.ofInt 32`) goes through every operation, and
the wrapped result is the signed number that these bits stand for (`Word.wrap_eq_toInt`).

* Sums, differences, products and left shifts go through by the laws of the library. The bitwise
  operations are computed on natural numbers, by the signs of their arguments. The bits of a
  negative number are those of a natural number, flipped, so each case is an identity of bit vectors
  (`Bits.ofInt_conj`, `Bits.ofInt_disj`, `Bits.ofInt_differ`).
* The right shift and the division read their arguments as signed numbers, so they depend on more
  than the last bits. The shift takes the word of its argument by itself; for the division the
  arguments have to be words.
* For arguments of any size, quotient and remainder give the dividend back (`Word.add_mul_div_mod`).

`Word.operations_on_bits` puts them together.
-/

namespace CellMachine

/-! ### The last bits of an integer -/

namespace Bits

variable {w : Nat}

/-- Flipping all bits flips the last ones. -/
theorem ofInt_complement (a : Int) : BitVec.ofInt w (complement a) = ~~~ BitVec.ofInt w a := by
  cases a with
  | ofNat m =>
    have hflip : complement (.ofNat m) = Int.negSucc m := by
      show -(m : Int) - 1 = -((m : Int) + 1)
      omega
    rw [hflip, BitVec.ofInt_negSucc_eq_not_ofNat]
    rfl
  | negSucc m =>
    have hflip : complement (.negSucc m) = (m : Int) := by
      show -(-((m : Int) + 1)) - 1 = (m : Int)
      omega
    rw [hflip, BitVec.ofInt_negSucc_eq_not_ofNat, BitVec.not_not, BitVec.ofInt_natCast]

/-- To take the bits of a number away is to keep the bits that it does not have. -/
theorem ofNat_without (m n : Nat) :
    BitVec.ofNat w (without m n) = BitVec.ofNat w m &&& ~~~ BitVec.ofNat w n := by
  rw [without, BitVec.ofNat_xor, BitVec.ofNat_and]
  ext i hi
  simp only [BitVec.getElem_xor, BitVec.getElem_and, BitVec.getElem_not]
  cases (BitVec.ofNat w m)[i] with
  | false => rfl
  | true => exact Bool.true_xor _

/-- The bits of a natural number, in the form in which the cases of an operation have it. -/
theorem ofInt_ofNat (m : Nat) : BitVec.ofInt w (.ofNat m) = BitVec.ofNat w m :=
  BitVec.ofInt_natCast w m

theorem ofInt_conj (a b : Int) :
    BitVec.ofInt w (conj a b) = BitVec.ofInt w a &&& BitVec.ofInt w b := by
  cases a with
  | ofNat m =>
    cases b with
    | ofNat n => exact BitVec.ofNat_and
    | negSucc n =>
      rw [BitVec.ofInt_negSucc_eq_not_ofNat]
      exact ofNat_without m n
  | negSucc m =>
    rw [BitVec.ofInt_negSucc_eq_not_ofNat]
    cases b with
    | ofNat n =>
      rw [BitVec.and_comm]
      exact ofNat_without n m
    | negSucc n =>
      rw [conj, BitVec.ofInt_negSucc_eq_not_ofNat, BitVec.ofInt_negSucc_eq_not_ofNat,
        BitVec.ofNat_or, BitVec.not_or]

theorem ofInt_disj (a b : Int) :
    BitVec.ofInt w (disj a b) = BitVec.ofInt w a ||| BitVec.ofInt w b := by
  cases a with
  | ofNat m =>
    cases b with
    | ofNat n => exact BitVec.ofNat_or
    | negSucc n =>
      rw [disj, BitVec.ofInt_negSucc_eq_not_ofNat, BitVec.ofInt_negSucc_eq_not_ofNat,
        ofNat_without, BitVec.not_and, BitVec.not_not, BitVec.or_comm, ofInt_ofNat]
  | negSucc m =>
    cases b with
    | ofNat n =>
      rw [disj, BitVec.ofInt_negSucc_eq_not_ofNat, BitVec.ofInt_negSucc_eq_not_ofNat,
        ofNat_without, BitVec.not_and, BitVec.not_not, ofInt_ofNat]
    | negSucc n =>
      rw [disj, BitVec.ofInt_negSucc_eq_not_ofNat, BitVec.ofInt_negSucc_eq_not_ofNat,
        BitVec.ofInt_negSucc_eq_not_ofNat, BitVec.ofNat_and, BitVec.not_and]

theorem ofInt_differ (a b : Int) :
    BitVec.ofInt w (differ a b) = BitVec.ofInt w a ^^^ BitVec.ofInt w b := by
  cases a with
  | ofNat m =>
    cases b with
    | ofNat n => exact BitVec.ofNat_xor
    | negSucc n =>
      rw [differ, BitVec.ofInt_negSucc_eq_not_ofNat, BitVec.ofInt_negSucc_eq_not_ofNat,
        BitVec.ofNat_xor, BitVec.not_xor_right, ofInt_ofNat]
  | negSucc m =>
    cases b with
    | ofNat n =>
      rw [differ, BitVec.ofInt_negSucc_eq_not_ofNat, BitVec.ofInt_negSucc_eq_not_ofNat,
        BitVec.ofNat_xor, BitVec.not_xor_left, ofInt_ofNat]
    | negSucc n =>
      -- flipping both arguments changes no bit in which they differ
      rw [differ, BitVec.ofInt_negSucc_eq_not_ofNat, BitVec.ofInt_negSucc_eq_not_ofNat,
        ofInt_ofNat, BitVec.ofNat_xor, ← BitVec.not_xor_left, ← BitVec.not_xor_right,
        BitVec.not_not]

theorem ofInt_shiftLeft (a : Int) (k : Nat) :
    BitVec.ofInt w (a <<< k) = BitVec.ofInt w a <<< k := by
  rw [Int.shiftLeft_eq', BitVec.ofInt_mul, BitVec.ofInt_natCast, BitVec.shiftLeft_eq_mul_twoPow]
  -- the factor is the bit that a one is shifted to
  refine congrArg (BitVec.ofInt w a * ·) (BitVec.eq_of_toNat_eq ?_)
  rw [BitVec.toNat_ofNat, BitVec.toNat_twoPow]

end Bits

/-! ### The operations -/

namespace Word

/-- **The word of a number** is the signed number that its last 32 bits stand for. -/
theorem wrap_eq_toInt (n : Int) : wrap n = (BitVec.ofInt 32 n).toInt :=
  (BitVec.toInt_ofInt (n := 32) n).symm

/-- What 32 bits stand for is a word already. -/
theorem wrap_toInt (x : BitVec 32) : wrap x.toInt = x.toInt := by
  rw [wrap_eq_toInt, BitVec.ofInt_toInt]

/-- The last bits of a word stand for it. -/
theorem toInt_ofInt_of_inRange {n : Int} (h : InRange n) : (BitVec.ofInt 32 n).toInt = n := by
  rw [← wrap_eq_toInt, wrap_of_inRange h]

section Bitwise

variable (a b : Int)

theorem add_eq_toInt : add a b = (BitVec.ofInt 32 a + BitVec.ofInt 32 b).toInt := by
  rw [add, wrap_eq_toInt, BitVec.ofInt_add]

theorem sub_eq_toInt : sub a b = (BitVec.ofInt 32 a - BitVec.ofInt 32 b).toInt := by
  rw [sub, wrap_eq_toInt, Int.sub_eq_add_neg, BitVec.ofInt_add, BitVec.ofInt_neg,
    ← BitVec.sub_eq_add_neg]

theorem mul_eq_toInt : mul a b = (BitVec.ofInt 32 a * BitVec.ofInt 32 b).toInt := by
  rw [mul, wrap_eq_toInt, BitVec.ofInt_mul]

theorem bitAnd_eq_toInt : bitAnd a b = (BitVec.ofInt 32 a &&& BitVec.ofInt 32 b).toInt := by
  rw [bitAnd, wrap_eq_toInt, Bits.ofInt_conj]

theorem bitOr_eq_toInt : bitOr a b = (BitVec.ofInt 32 a ||| BitVec.ofInt 32 b).toInt := by
  rw [bitOr, wrap_eq_toInt, Bits.ofInt_disj]

theorem bitXor_eq_toInt : bitXor a b = (BitVec.ofInt 32 a ^^^ BitVec.ofInt 32 b).toInt := by
  rw [bitXor, wrap_eq_toInt, Bits.ofInt_differ]

theorem bitNot_eq_toInt : bitNot a = (~~~ BitVec.ofInt 32 a).toInt := by
  rw [bitNot, wrap_eq_toInt, Bits.ofInt_complement]

theorem shl_eq_toInt : shl a b = (BitVec.ofInt 32 a <<< (b % 32).toNat).toInt := by
  rw [shl, wrap_eq_toInt, Bits.ofInt_shiftLeft, shiftCount]

/-- The word is shifted and not the number, so that the bit that comes in is the sign of the word. -/
theorem shr_eq_toInt : shr a b = ((BitVec.ofInt 32 a).sshiftRight (b % 32).toNat).toInt := by
  rw [shr, wrap_eq_toInt a, ← BitVec.toInt_sshiftRight, wrap_toInt, shiftCount]

end Bitwise

/-! ### Division -/

section Division

variable {a b : Int}

/-- There is no quotient exactly if the divisor is zero. -/
theorem div?_eq_none_iff : div? a b = none ↔ b = 0 := by
  unfold div?
  split <;> simp_all

/-- There is no remainder exactly if the divisor is zero. -/
theorem mod?_eq_none_iff : mod? a b = none ↔ b = 0 := by
  unfold mod?
  split <;> simp_all

theorem div?_of_ne (hb : b ≠ 0) : div? a b = some (wrap (a.tdiv b)) := if_neg hb

theorem mod?_of_ne (hb : b ≠ 0) : mod? a b = some (wrap (a.tmod b)) := if_neg hb

/-- The quotient of words wraps as that of bits does: only the least word by minus one is no word. -/
theorem div?_eq_toInt (ha : InRange a) (hb : InRange b) (hne : b ≠ 0) :
    div? a b = some ((BitVec.ofInt 32 a).sdiv (BitVec.ofInt 32 b)).toInt := by
  rw [div?_of_ne hne, BitVec.toInt_sdiv, toInt_ofInt_of_inRange ha, toInt_ofInt_of_inRange hb]
  rfl

/-- The remainder is smaller than the divisor, and it is zero or has the sign of the dividend. -/
theorem tmod_bounds (a : Int) (hne : b ≠ 0) :
    (a.tmod b).natAbs < b.natAbs ∧ (a.tmod b = 0 ∨ (a.tmod b).sign = a.sign) := by
  constructor
  · rw [Int.natAbs_tmod]
    exact Nat.mod_lt _ (Int.natAbs_pos.mpr hne)
  · rw [Int.sign_tmod]
    by_cases hdvd : b ∣ a
    · exact Or.inl (Int.tmod_eq_zero_of_dvd hdvd)
    · exact Or.inr (if_neg hdvd)

/-- The remainder by a word is a word. -/
theorem inRange_tmod (a : Int) (hb : InRange b) (hne : b ≠ 0) : InRange (a.tmod b) := by
  have hlt := (tmod_bounds a hne).1
  unfold InRange minimum maximum at *
  omega

/-- The remainder of a word is a word, as it lies between the word and zero. -/
theorem inRange_tmod_of_dividend (ha : InRange a) (b : Int) : InRange (a.tmod b) := by
  have hle : (a.tmod b).natAbs ≤ a.natAbs := by
    rw [Int.natAbs_tmod]
    exact Nat.mod_le _ _
  have hsign : a < 0 → a.tmod b ≤ 0 := fun ha => by
    have hneg : 0 ≤ (-a).tmod b := Int.tmod_nonneg b (by omega)
    rw [Int.neg_tmod] at hneg
    omega
  unfold InRange minimum maximum at *
  omega

/-- A remainder is left as it is exactly if it is a word. -/
theorem wrap_tmod_eq_iff : wrap (a.tmod b) = a.tmod b ↔ InRange (a.tmod b) := by
  refine ⟨fun h => ?_, wrap_of_inRange⟩
  rw [← h]
  exact wrap_inRange _

/-- The remainder by a word needs no wrapping, as it is smaller than the divisor. -/
theorem mod?_eq_tmod (a : Int) (hb : InRange b) (hne : b ≠ 0) : mod? a b = some (a.tmod b) := by
  rw [mod?_of_ne hne, wrap_of_inRange (inRange_tmod a hb hne)]

/-- The remainder of words is that of bits. -/
theorem mod?_eq_toInt (ha : InRange a) (hb : InRange b) (hne : b ≠ 0) :
    mod? a b = some ((BitVec.ofInt 32 a).srem (BitVec.ofInt 32 b)).toInt := by
  rw [mod?_eq_tmod a hb hne, BitVec.toInt_srem, toInt_ofInt_of_inRange ha,
    toInt_ofInt_of_inRange hb]

/-- **Quotient and remainder give the dividend back**, also where the quotient was wrapped. -/
theorem add_mul_div_mod (a b : Int) :
    add (mul (wrap (a.tdiv b)) b) (wrap (a.tmod b)) = wrap a := by
  calc wrap (wrap (wrap (a.tdiv b) * b) + wrap (a.tmod b))
      = wrap (wrap (a.tdiv b) * b + a.tmod b) := by
        unfold wrap
        rw [Int.bmod_add_bmod, Int.add_bmod_bmod]
    _ = wrap (a.tdiv b * b + a.tmod b) := by
        unfold wrap
        rw [← Int.bmod_add_bmod, Int.bmod_mul_bmod, Int.bmod_add_bmod]
    _ = wrap a := by rw [Int.tdiv_mul_add_tmod]

end Division

/-- **Words are computed on 32 bits.** Each operation gives the signed number of the operation on
the last 32 bits of its arguments, which may be integers of any size; a shift count is taken modulo
32. For words the division is the signed one, truncating toward zero, with the least word by minus
one wrapping to itself. A zero divisor, and nothing else, leaves a division undefined. -/
theorem operations_on_bits :
    (∀ a b : Int,
      add a b = (BitVec.ofInt 32 a + BitVec.ofInt 32 b).toInt ∧
      sub a b = (BitVec.ofInt 32 a - BitVec.ofInt 32 b).toInt ∧
      mul a b = (BitVec.ofInt 32 a * BitVec.ofInt 32 b).toInt ∧
      bitAnd a b = (BitVec.ofInt 32 a &&& BitVec.ofInt 32 b).toInt ∧
      bitOr a b = (BitVec.ofInt 32 a ||| BitVec.ofInt 32 b).toInt ∧
      bitXor a b = (BitVec.ofInt 32 a ^^^ BitVec.ofInt 32 b).toInt ∧
      bitNot a = (~~~ BitVec.ofInt 32 a).toInt ∧
      shl a b = (BitVec.ofInt 32 a <<< (b % 32).toNat).toInt ∧
      shr a b = ((BitVec.ofInt 32 a).sshiftRight (b % 32).toNat).toInt) ∧
    (∀ a b : Int, InRange a → InRange b → b ≠ 0 →
      div? a b = some ((BitVec.ofInt 32 a).sdiv (BitVec.ofInt 32 b)).toInt ∧
      mod? a b = some ((BitVec.ofInt 32 a).srem (BitVec.ofInt 32 b)).toInt) ∧
    (div? minimum (-1) = some minimum ∧ mod? minimum (-1) = some 0) ∧
    (∀ a b : Int, b ≠ 0 → ∃ q r, div? a b = some q ∧ mod? a b = some r ∧
      add (mul q b) r = wrap a ∧
      (InRange a → InRange b → r.natAbs < b.natAbs ∧ (r = 0 ∨ r.sign = a.sign))) ∧
    (∀ a b : Int, (div? a b = none ↔ b = 0) ∧ (mod? a b = none ↔ b = 0)) := by
  refine ⟨fun a b => ?_, fun a b ha hb hne => ?_, ⟨rfl, rfl⟩, fun a b hne => ?_, fun a b => ?_⟩
  · exact ⟨add_eq_toInt a b, sub_eq_toInt a b, mul_eq_toInt a b, bitAnd_eq_toInt a b,
      bitOr_eq_toInt a b, bitXor_eq_toInt a b, bitNot_eq_toInt a, shl_eq_toInt a b,
      shr_eq_toInt a b⟩
  · exact ⟨div?_eq_toInt ha hb hne, mod?_eq_toInt ha hb hne⟩
  · refine ⟨_, _, div?_of_ne hne, mod?_of_ne hne, add_mul_div_mod a b, fun _ hb => ?_⟩
    rw [wrap_of_inRange (inRange_tmod a hb hne)]
    exact tmod_bounds a hne
  · exact ⟨div?_eq_none_iff, mod?_eq_none_iff⟩

/-- The division at the two ends of the words, and the way back from its quotient. -/
theorem least_by_greatest_on_bits :
    InRange minimum ∧ InRange maximum ∧ maximum ≠ 0 ∧
      (div? minimum maximum =
        some ((BitVec.ofInt 32 minimum).sdiv (BitVec.ofInt 32 maximum)).toInt ∧
      mod? minimum maximum =
        some ((BitVec.ofInt 32 minimum).srem (BitVec.ofInt 32 maximum)).toInt) ∧
      ∃ q r, div? minimum maximum = some q ∧ mod? minimum maximum = some r ∧
        add (mul q maximum) r = wrap minimum ∧
        r.natAbs < maximum.natAbs ∧ (r = 0 ∨ r.sign = minimum.sign) := by
  have hmin : InRange minimum := by decide
  have hmax : InRange maximum := by decide
  have hne : maximum ≠ 0 := by decide
  obtain ⟨-, hbits, -, hback, -⟩ := operations_on_bits
  obtain ⟨q, r, hq, hr, hadd, hbounds⟩ := hback minimum maximum hne
  exact ⟨hmin, hmax, hne, hbits _ _ hmin hmax hne, q, r, hq, hr, hadd, hbounds hmin hmax⟩

end Word

end CellMachine
