/-!
# Positions in a sequence

A position is an integer. `ofInt?` accepts only the positions from the front; `fromEnd?` also
reads a negative position as counted from the end, so that -1 is the last element.
-/

namespace CellMachine.Index

/-- The position `i` of a sequence of length `size`, counted from the front. -/
def ofInt? (size : Nat) (i : Int) : Option (Fin size) :=
  if h : 0 ≤ i ∧ i < size then some ⟨i.toNat, by omega⟩ else none

/-- The position `i` of a sequence of length `size`; a negative one counts from the end. -/
def fromEnd? (size : Nat) (i : Int) : Option (Fin size) :=
  ofInt? size (if i < 0 then i + size else i)

/-- A position is a signed 64-bit number. -/
def Fits (i : Int) : Prop := -9223372036854775808 ≤ i ∧ i ≤ 9223372036854775807

instance (i : Int) : Decidable (Fits i) := inferInstanceAs (Decidable (_ ∧ _))

theorem ofInt?_of_lt {size : Nat} {i : Int} (h : 0 ≤ i ∧ i < size) :
    ofInt? size i = some ⟨i.toNat, by omega⟩ := dif_pos h

theorem fromEnd?_of_nonneg {size : Nat} {i : Int} (h : 0 ≤ i) :
    fromEnd? size i = ofInt? size i := by
  unfold fromEnd?
  rw [if_neg (by omega)]

theorem val_of_ofInt? {size : Nat} {i : Int} {c : Fin size} (h : ofInt? size i = some c) :
    (c.val : Int) = i := by
  unfold ofInt? at h
  split at h
  · next hi =>
    obtain rfl := Option.some.inj h
    exact Int.toNat_of_nonneg hi.1
  · cases h

/-- Counting from the end is counting modulo the length. -/
theorem fromEnd?_eq_some {size : Nat} {i : Int} {c : Fin size} (h : fromEnd? size i = some c) :
    (c.val : Int) = i % size ∧ -(size : Int) ≤ i ∧ i < size := by
  have hc := val_of_ofInt? h
  have hlt : (c.val : Int) < size := Int.ofNat_lt.mpr c.isLt
  split at hc
  · -- the position from the front is the remainder, since it lies in the sequence
    have hmod : i % (size : Int) = i + size := by
      rw [← Int.add_emod_right, Int.emod_eq_of_lt (by omega) (by omega)]
    omega
  · have hmod : i % (size : Int) = i := Int.emod_eq_of_lt (by omega) (by omega)
    omega

end CellMachine.Index
