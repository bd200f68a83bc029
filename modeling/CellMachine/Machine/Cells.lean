import Std.Data.TreeMap

/-!
# Cells

The contents of a block: a number for every index, zero where nothing was stored. Only stored
cells take room, so a large block costs nothing before it is used.
-/

namespace CellMachine

structure Cells where
  stored : Std.TreeMap Nat Int := ∅

namespace Cells

/-- Every cell is zero. -/
def zero : Cells := ⟨∅⟩

def get (c : Cells) (i : Nat) : Int := c.stored.getD i 0

def set (c : Cells) (i : Nat) (v : Int) : Cells := ⟨c.stored.insert i v⟩

@[simp] theorem get_zero (i : Nat) : zero.get i = 0 := by
  simp [zero, get]

theorem get_set (c : Cells) (i j : Nat) (v : Int) :
    (c.set i v).get j = if i = j then v else c.get j := by
  simp [get, set, Std.TreeMap.getD_insert]

@[simp] theorem get_set_self (c : Cells) (i : Nat) (v : Int) : (c.set i v).get i = v := by
  simp [get_set]

theorem get_set_of_ne (c : Cells) {i j : Nat} (v : Int) (h : i ≠ j) :
    (c.set i v).get j = c.get j := by
  simp [get_set, h]

/-- The cells from `start` on, `count` of them, in order. -/
def range (c : Cells) (start count : Nat) : List Int :=
  (List.range count).map fun k => c.get (start + k)

/-- The cells that differ between two states, with the old and the new number, in order. A cell
that was never stored in the later state is not looked at. -/
def changes (earlier later : Cells) : List (Nat × Int × Int) :=
  later.stored.toList.filterMap fun (i, new) =>
    let old := earlier.get i
    if old = new then none else some (i, old, new)

end Cells

end CellMachine
