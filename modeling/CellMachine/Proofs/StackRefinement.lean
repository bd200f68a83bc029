import CellMachine.Proofs.BoundsChecks
import CellMachine.Proofs.Effects
import CellMachine.Proofs.FaultSafety

/-!
# The stack as a list

The stack of a machine is a stretch of its block below the stack base, and the stack pointer tells
where it begins. Seen from outside it is a list of words: a push puts a word in front, a pop takes
the first one off, and a stack that is full or empty refuses (`StackOperation.onList?`).

* `WordStack` is the list, together with the greatest length that it has had. The greatest length is
  there for the cells: what lies below the deepest word that was ever pushed is untouched.
* `Machine.Holds` relates a machine to such a list. The live words are the cells from the stack
  pointer upward, in order.
* `Machine.Holds.accepted` is an operation that the list accepts, `Machine.Holds.refused` one that it
  refuses. A checked machine refuses it as well, and nothing has changed then. An unchecked machine
  does not refuse, so there the operations have to keep to the block (`StaysWithin`).
* `stack_refines_list` is a whole sequence of operations.
-/

namespace CellMachine

namespace Cells

theorem range_succ (c : Cells) (start count : Nat) :
    c.range start (count + 1) = c.get start :: c.range (start + 1) count := by
  unfold range
  rw [List.range_succ_eq_map, List.map_cons, List.map_map, Nat.add_zero]
  refine congrArg (c.get start :: ·) (List.map_congr_left fun k _ => ?_)
  show c.get (start + (k + 1)) = c.get (start + 1 + k)
  rw [Nat.add_assoc, Nat.add_comm 1 k]

/-- A cell before a range is no part of it. -/
theorem range_set_of_lt (c : Cells) {i start : Nat} (v : Int) (count : Nat) (h : i < start) :
    (c.set i v).range start count = c.range start count := by
  refine List.map_congr_left fun k _ => c.get_set_of_ne v ?_
  omega

end Cells

/-! ### Lists of words -/

/-- What a host does with a stack. -/
inductive StackOperation where
  | push (v : Int)
  | pop
  deriving DecidableEq, Repr

/-- A stack of words, the top first. -/
structure WordStack where
  words : List Int := []
  /-- The greatest number of words that there have been. -/
  deepest : Nat := 0
  deriving DecidableEq, Repr

namespace StackOperation

/-- The answer and the words that are left, on a stack with room for `capacity` words. A push onto
a full stack and a pop of an empty one are refused. -/
def onList? (capacity : Nat) : StackOperation → List Int → Option (Option Int × List Int)
  | .push v, words => if words.length = capacity then none else some (none, Word.wrap v :: words)
  | .pop, word :: words => some (some word, words)
  | .pop, [] => none

/-- The operation on the stack of a machine. Only a pop has an answer. -/
def onMachine : StackOperation → Exec (Option Int)
  | .push v => do
    Machine.push v
    return none
  | .pop => do return some (← Machine.pop)

/-- The fault with which a checked machine refuses the operation. -/
def refusal (m : Machine) : StackOperation → Fault
  | .push _ => .stackOverflow (m.registers.sp - 1) m.stackLimit
  | .pop => .stackUnderflow m.registers.sp

/-- The number of words that the operation adds. -/
def delta : StackOperation → Int
  | .push _ => 1
  | .pop => -1

end StackOperation

open StackOperation

/-- The stack after an operation. One that is refused leaves it as it is. -/
def WordStack.after (capacity : Nat) (t : WordStack) (op : StackOperation) : WordStack :=
  match op.onList? capacity t.words with
  | some (_, words) => ⟨words, max t.deepest words.length⟩
  | none => t

/-- The machine after an operation, whether or not it failed. -/
def Machine.afterOperation (m : Machine) (op : StackOperation) : Machine :=
  match op.onMachine m with
  | .ok _ m' => m'
  | .error _ m' => m'

/-- The stack of words after a sequence of operations, which finds it empty. -/
def WordStack.ofOperations (capacity : Nat) (ops : List StackOperation) : WordStack :=
  ops.foldl (WordStack.after capacity) {}

/-- The machine after a sequence of operations. A failure does not end the sequence. -/
def Machine.afterOperations (m : Machine) (ops : List StackOperation) : Machine :=
  ops.foldl Machine.afterOperation m

/-- The depth that a stack has after some operations, if none of them is refused. -/
def depthAfter : List StackOperation → Int
  | [] => 0
  | op :: ops => op.delta + depthAfter ops

theorem depthAfter_cons (op : StackOperation) (ops : List StackOperation) :
    depthAfter (op :: ops) = op.delta + depthAfter ops := rfl

theorem depthAfter_concat (ops : List StackOperation) (op : StackOperation) :
    depthAfter (ops ++ [op]) = depthAfter ops + op.delta := by
  induction ops with
  | nil => exact Int.add_comm _ _
  | cons first ops ih => rw [List.cons_append, depthAfter_cons, ih, depthAfter_cons, Int.add_assoc]

/-- The depth stays between zero and a number of words at all times. -/
def StaysWithin (count : Nat) (ops : List StackOperation) : Prop :=
  ∀ k, 0 ≤ depthAfter (ops.take k) ∧ depthAfter (ops.take k) ≤ count

namespace Machine

variable {capacity : Nat} {m₀ m : Machine} {t : WordStack} {op : StackOperation}

/-! ### The relation -/

/-- A machine with an empty stack that has room for `capacity` words. An unchecked one takes as many
as its block has cells. -/
structure Stacked (capacity : Nat) (m₀ : Machine) : Prop where
  held : m₀.released = false
  count : (m₀.cellCount : Int) ≤ sizeLimit
  base : m₀.registers.bp = m₀.cellCount
  pointer : m₀.registers.sp = m₀.cellCount
  room : capacity ≤ m₀.cellCount
  limit : m₀.checked = true → m₀.stackSize / wordSize = capacity

/-- **A machine holds a stack of words**, and nothing else has changed since it was empty. -/
structure Holds (capacity : Nat) (m₀ : Machine) (t : WordStack) (m : Machine) : Prop where
  fits : t.words.length ≤ capacity
  sp : m.registers.sp = m₀.cellCount - t.words.length
  depth : m.stackDepth = t.words.length
  /-- The live words are the cells from the stack pointer to the end of the block. -/
  live : m.cells.range (m₀.cellCount - t.words.length) t.words.length = t.words
  below : ∀ c : Nat, c + t.deepest < m₀.cellCount → m.cells.get c = m₀.cells.get c
  register : ∀ s, s ≠ Slot.sp → m.registers.get s = m₀.registers.get s
  rest : m = { m₀ with registers := m.registers, cells := m.cells }

/-- **A machine answers an operation as the list does.** Only a checked machine refuses one, and it
is left as it was. -/
inductive Answers (capacity : Nat) (words : List Int) (m : Machine) (op : StackOperation) : Prop
  | done {answer : Option Int} {words' : List Int} {m' : Machine}
      (hlist : op.onList? capacity words = some (answer, words'))
      (hmachine : op.onMachine m = .ok answer m') : Answers capacity words m op
  | refused (hlist : op.onList? capacity words = none) (hchecked : m.checked = true)
      (hmachine : op.onMachine m = .error (op.refusal m) m)
      (htold : (op.refusal m).isTold = true) : Answers capacity words m op

/-- **A machine does what the list does**, over a sequence of operations and for whatever is asked
of it next. -/
structure Refines (capacity : Nat) (m₀ : Machine) (ops : List StackOperation)
    (asked : StackOperation → Prop) : Prop where
  holds : Holds capacity m₀ (.ofOperations capacity ops) (m₀.afterOperations ops)
  answers : ∀ op, asked op →
    Answers capacity (WordStack.ofOperations capacity ops).words (m₀.afterOperations ops) op

theorem Stacked.holds (h : Stacked capacity m₀) : Holds capacity m₀ {} m₀ where
  fits := Nat.zero_le capacity
  sp := h.pointer.trans (Int.sub_zero _).symm
  depth := by
    show m₀.registers.bp - m₀.registers.sp = 0
    rw [h.base, h.pointer, Int.sub_self]
  live := rfl
  below _ _ := rfl
  register _ _ := rfl
  rest := rfl

theorem Holds.block (h : Holds capacity m₀ t m) :
    m.cellCount = m₀.cellCount ∧ m.checked = m₀.checked ∧ m.stackSize = m₀.stackSize ∧
      m.released = m₀.released := by
  rw [h.rest]
  exact ⟨rfl, rfl, rfl, rfl⟩

section Related

variable (h₀ : Stacked capacity m₀) (h : Holds capacity m₀ t m)

include h₀ h

/-- The stack base is never moved. -/
theorem Holds.base : m.registers.bp = m₀.cellCount :=
  (congrArg Value.toInt (h.register Slot.bp (by decide))).trans h₀.base

/-- The stack limit leaves room for the capacity, on a machine that looks at it. -/
theorem Holds.stackLimit_eq (hc : m₀.checked = true) :
    m.stackLimit = m₀.cellCount - capacity := by
  obtain ⟨-, -, hsize, -⟩ := h.block
  unfold stackLimit
  rw [h.base h₀, hsize, h₀.limit hc]

/-- Every index of the block refers to its own cell. -/
theorem Holds.locate_eq {c : Nat} (hc : c < m₀.cellCount) (whenReleased : Fault) :
    m.locate whenReleased c = .ok c := by
  obtain ⟨hcount, -, -, hreleased⟩ := h.block
  have hheld : m.released = false := hreleased.trans h₀.held
  exact locate_of_held (by omega) hheld (hcount ▸ h₀.count) whenReleased

/-- The stack pointer goes to where a stack begins that the cells have. -/
theorem Holds.move (t' : WordStack) {cells : Cells} (hfits : t'.words.length ≤ capacity)
    (hlive : cells.range (m₀.cellCount - t'.words.length) t'.words.length = t'.words)
    (hbelow : ∀ c : Nat, c + t'.deepest < m₀.cellCount → cells.get c = m₀.cells.get c) :
    Holds capacity m₀ t' { m.setSp (m₀.cellCount - t'.words.length) with cells := cells } where
  fits := hfits
  sp := sp_setSp m _
  depth := by
    show (m.setSp _).registers.bp - (m.setSp _).registers.sp = _
    have hbase : (m.setSp (m₀.cellCount - t'.words.length)).registers.bp = m.registers.bp :=
      congrArg Value.toInt (m.get_setSp _ (by decide))
    rw [hbase, h.base h₀, sp_setSp]
    omega
  live := hlive
  below := hbelow
  register s hs := (m.get_setSp _ hs).trans (h.register s hs)
  rest := by
    rw [h.rest]
    rfl

/-! ### One operation -/

/-- **A push** below the capacity writes the cell below the live words. -/
theorem Holds.push (v : Int) (hroom : t.words.length ≠ capacity) :
    ∃ m', push v m = .ok () m' ∧
      Holds capacity m₀ ⟨Word.wrap v :: t.words, max t.deepest (t.words.length + 1)⟩ m' := by
  have hfits := h.fits
  have hcapacity := h₀.room
  -- the cell below the stack pointer
  obtain ⟨c, hc⟩ : ∃ c : Nat, c + (t.words.length + 1) = m₀.cellCount :=
    ⟨m₀.cellCount - (t.words.length + 1), by omega⟩
  have hcell : m.registers.sp - 1 = c := by
    rw [h.sp]
    omega
  have hcheck : ¬ (m.checked = true ∧ m.registers.sp - 1 < m.stackLimit) := by
    rintro ⟨hchecked, hlimit⟩
    rw [h.block.2.1] at hchecked
    rw [h.stackLimit_eq h₀ hchecked, hcell] at hlimit
    omega
  have hpush : Machine.push v m =
      .ok () { m.setSp (m₀.cellCount - (t.words.length + 1 : Nat)) with
        cells := m.cells.set c (Word.wrap v) } := by
    have hsp : (m₀.cellCount : Int) - (t.words.length + 1 : Nat) = c := by omega
    rw [push_eq, if_neg hcheck, hcell, hsp]
    unfold cellSet
    rw [locate_setSp, h.locate_eq h₀ (by omega)]
    rfl
  refine ⟨_, hpush, h.move h₀ ⟨Word.wrap v :: t.words, _⟩ ?_ ?_ ?_⟩
  · show t.words.length + 1 ≤ capacity
    omega
  · -- the new word stands before the live ones, which it leaves as they are
    show (m.cells.set c (Word.wrap v)).range (m₀.cellCount - (t.words.length + 1))
      (t.words.length + 1) = Word.wrap v :: t.words
    have hstart : m₀.cellCount - (t.words.length + 1) = c := by omega
    have hnext : c + 1 = m₀.cellCount - t.words.length := by omega
    rw [hstart, Cells.range_succ, Cells.get_set_self, Cells.range_set_of_lt _ _ _ (by omega),
      hnext, h.live]
  · intro d hd
    have hlt : d + max t.deepest (t.words.length + 1) < m₀.cellCount := hd
    rw [Cells.get_set_of_ne _ _ (by omega)]
    exact h.below d (by omega)

/-- **A pop** of a stack that is not empty reads its top and leaves the cells alone. -/
theorem Holds.pop {word : Int} {words : List Int} (hwords : t.words = word :: words) :
    ∃ m', pop m = .ok word m' ∧
      Holds capacity m₀ ⟨words, max t.deepest words.length⟩ m' := by
  have hfits := h.fits
  have hcapacity := h₀.room
  have hlive := h.live
  have hsp := h.sp
  rw [hwords, List.length_cons] at hfits hlive hsp
  -- the cell of the top
  obtain ⟨c, hc⟩ : ∃ c : Nat, c + (words.length + 1) = m₀.cellCount :=
    ⟨m₀.cellCount - (words.length + 1), by omega⟩
  have hcell : m.registers.sp = c := by omega
  have hstart : m₀.cellCount - (words.length + 1) = c := by omega
  have hnext : c + 1 = m₀.cellCount - words.length := by omega
  rw [hstart, Cells.range_succ, hnext] at hlive
  obtain ⟨htop, hrest⟩ := List.cons.inj hlive
  have hcheck : ¬ (m.checked = true ∧ m.registers.bp ≤ m.registers.sp) := by
    rintro ⟨-, hle⟩
    rw [h.base h₀, hcell] at hle
    omega
  have hpop : Machine.pop m =
      .ok word { m.setSp (m₀.cellCount - words.length) with cells := m.cells } := by
    have hafter : (c : Int) + 1 = m₀.cellCount - words.length := by omega
    rw [pop_eq, if_neg hcheck, hcell, ← hafter]
    unfold cellAt
    rw [h.locate_eq h₀ (by omega)]
    show EStateM.Result.ok (m.cells.get c) _ = _
    rw [htop]
    rfl
  refine ⟨_, hpop, h.move h₀ ⟨words, _⟩ (Nat.le_of_succ_le hfits) hrest ?_⟩
  intro d hd
  have hlt : d + max t.deepest words.length < m₀.cellCount := hd
  exact h.below d (by omega)

/-- **An operation that the list accepts** succeeds with the answer of the list. -/
theorem Holds.accepted {answer : Option Int} {words : List Int}
    (hop : op.onList? capacity t.words = some (answer, words)) :
    ∃ m', op.onMachine m = .ok answer m' ∧
      Holds capacity m₀ ⟨words, max t.deepest words.length⟩ m' := by
  cases op with
  | push v =>
    rw [onList?] at hop
    split at hop
    · cases hop
    · next hroom =>
      obtain ⟨rfl, rfl⟩ := Prod.mk.inj (Option.some.inj hop)
      obtain ⟨m', hpush, hm'⟩ := h.push h₀ v hroom
      refine ⟨m', ?_, hm'⟩
      rw [onMachine, Exec.bind_apply, hpush]
      rfl
  | pop =>
    cases hwords : t.words with
    | nil =>
      rw [hwords] at hop
      cases hop
    | cons word rest =>
      rw [hwords] at hop
      obtain ⟨rfl, rfl⟩ := Prod.mk.inj (Option.some.inj hop)
      obtain ⟨m', hpop, hm'⟩ := h.pop h₀ hwords
      refine ⟨m', ?_, hm'⟩
      rw [onMachine, Exec.bind_apply, hpop]
      rfl

/-- **An operation that the list refuses** is refused by a checked machine, which tells why and is
left as it was. -/
theorem Holds.refused (hchecked : m₀.checked = true) (hop : op.onList? capacity t.words = none) :
    op.onMachine m = .error (op.refusal m) m ∧ (op.refusal m).isTold = true := by
  have hchecked' : m.checked = true := h.block.2.1.trans hchecked
  have hcapacity := h₀.room
  cases op with
  | push v =>
    -- the list is full, so the next cell is the one below the limit
    have hfull : t.words.length = capacity := by
      rw [onList?] at hop
      split at hop
      · assumption
      · cases hop
    have hcell : m.registers.sp - 1 = m₀.cellCount - capacity - 1 := by
      rw [h.sp, hfull]
    have hlimit := h.stackLimit_eq h₀ hchecked
    constructor
    · rw [onMachine, Exec.bind_apply, push_eq, if_pos ⟨hchecked', by omega⟩]
      rfl
    · refine List.all_eq_true.mpr (List.forall_mem_cons.mpr ⟨?_, List.forall_mem_singleton.mpr ?_⟩)
      · exact isWritable_near_block h₀.count (by omega) (by omega)
      · exact isWritable_near_block h₀.count (by omega) (by omega)
  | pop =>
    have hempty : t.words = [] := by
      cases hwords : t.words with
      | nil => rfl
      | cons word words =>
        rw [hwords] at hop
        cases hop
    have hcell : m.registers.sp = m₀.cellCount := by
      rw [h.sp, hempty]
      exact Int.sub_zero _
    have hbase := h.base h₀
    constructor
    · rw [onMachine, Exec.bind_apply, pop_eq, if_pos ⟨hchecked', by omega⟩]
      rfl
    · refine List.all_eq_true.mpr (List.forall_mem_singleton.mpr ?_)
      exact isWritable_near_block h₀.count (by omega) (by omega)

end Related

/-! ### Sequences of operations -/

/-- One operation on a checked machine, accepted or not. -/
theorem Holds.checked_step (h₀ : Stacked capacity m₀) (hchecked : m₀.checked = true)
    (h : Holds capacity m₀ t m) (op : StackOperation) :
    Holds capacity m₀ (t.after capacity op) (m.afterOperation op) := by
  unfold WordStack.after afterOperation
  cases hop : op.onList? capacity t.words with
  | none =>
    rw [(h.refused h₀ hchecked hop).1]
    exact h
  | some result =>
    obtain ⟨answer, words⟩ := result
    obtain ⟨m', hm', hholds⟩ := h.accepted h₀ hop
    rw [hm']
    exact hholds

/-- **Any sequence** of operations on a checked machine. -/
theorem Holds.checked_run (h₀ : Stacked capacity m₀) (hchecked : m₀.checked = true)
    (h : Holds capacity m₀ t m) (ops : List StackOperation) :
    Holds capacity m₀ (ops.foldl (WordStack.after capacity) t) (ops.foldl afterOperation m) := by
  induction ops generalizing t m with
  | nil => exact h
  | cons op ops ih => exact ih (h.checked_step h₀ hchecked op)

/-- An operation after which the depth is in range is accepted, and the depth changes by it. -/
theorem exists_onList? {words : List Int} (hlow : 0 ≤ words.length + op.delta)
    (hhigh : words.length + op.delta ≤ capacity) :
    ∃ answer words', op.onList? capacity words = some (answer, words') ∧
      (words'.length : Int) = words.length + op.delta := by
  cases op with
  | push v =>
    have hroom : words.length ≠ capacity := by
      have hlt : (words.length : Int) + 1 ≤ capacity := hhigh
      omega
    exact ⟨none, Word.wrap v :: words, if_neg hroom, rfl⟩
  | pop =>
    cases words with
    | nil => exact absurd hlow (by decide)
    | cons word words =>
      refine ⟨some word, words, rfl, ?_⟩
      rw [List.length_cons, delta]
      omega

/-- **A sequence that keeps to the capacity** has every operation accepted, so that it does not
matter whether the machine is checked. -/
theorem Holds.within_run (h₀ : Stacked capacity m₀) (h : Holds capacity m₀ t m)
    (ops : List StackOperation)
    (hwithin : ∀ k, 0 ≤ t.words.length + depthAfter (ops.take k) ∧
      t.words.length + depthAfter (ops.take k) ≤ capacity) :
    Holds capacity m₀ (ops.foldl (WordStack.after capacity) t) (ops.foldl afterOperation m) ∧
      ((ops.foldl (WordStack.after capacity) t).words.length : Int)
        = t.words.length + depthAfter ops := by
  induction ops generalizing t m with
  | nil => exact ⟨h, (Int.add_zero _).symm⟩
  | cons op ops ih =>
    -- after the first operation the depth is still in range
    have hfirst := hwithin 1
    rw [List.take_succ_cons, List.take_zero, depthAfter_cons] at hfirst
    obtain ⟨answer, words, hop, hlength⟩ : ∃ answer words,
        op.onList? capacity t.words = some (answer, words) ∧
          (words.length : Int) = t.words.length + op.delta :=
      exists_onList? (by simpa [depthAfter] using hfirst.1) (by simpa [depthAfter] using hfirst.2)
    obtain ⟨m', hm', hholds⟩ := h.accepted h₀ hop
    have hstack : t.after capacity op = ⟨words, max t.deepest words.length⟩ := by
      unfold WordStack.after
      rw [hop]
    have hmachine : m.afterOperation op = m' := by
      unfold afterOperation
      rw [hm']
    rw [List.foldl_cons, List.foldl_cons, hstack, hmachine, depthAfter_cons, ← Int.add_assoc,
      ← hlength]
    refine ih hholds fun k => ?_
    have hnext := hwithin (k + 1)
    rw [List.take_succ_cons, depthAfter_cons, ← Int.add_assoc, ← hlength] at hnext
    exact hnext

/-- A checked machine answers everything as the list does. -/
theorem Stacked.refines_checked (h₀ : Stacked capacity m₀) (hchecked : m₀.checked = true)
    (ops : List StackOperation) : Refines capacity m₀ ops fun _ => True := by
  have hholds := h₀.holds.checked_run h₀ hchecked ops
  refine ⟨hholds, fun op _ => ?_⟩
  cases hop : op.onList? capacity (WordStack.ofOperations capacity ops).words with
  | none =>
    obtain ⟨hmachine, htold⟩ := hholds.refused h₀ hchecked hop
    exact .refused hop (hholds.block.2.1.trans hchecked) hmachine htold
  | some result =>
    obtain ⟨m', hm', -⟩ := hholds.accepted h₀ hop
    exact .done hop hm'

/-- Every machine answers as the list does for as long as the depth stays within the capacity. -/
theorem Stacked.refines_within (h₀ : Stacked capacity m₀) {ops : List StackOperation}
    (hwithin : StaysWithin capacity ops) :
    Refines capacity m₀ ops fun op => StaysWithin capacity (ops ++ [op]) := by
  have hempty : ((({} : WordStack).words.length : Nat) : Int) = 0 := rfl
  obtain ⟨hholds, hdepth⟩ := h₀.holds.within_run h₀ ops fun k => by
    rw [hempty, Int.zero_add]
    exact hwithin k
  rw [hempty, Int.zero_add] at hdepth
  refine ⟨hholds, fun op hop => ?_⟩
  -- the depth after the next operation is that of the whole sequence
  have hnext := hop (ops ++ [op]).length
  rw [List.take_length, depthAfter_concat, ← hdepth] at hnext
  obtain ⟨answer, words, hlist, -⟩ := exists_onList? hnext.1 hnext.2
  obtain ⟨m', hm', -⟩ := hholds.accepted h₀ hlist
  exact .done hlist hm'

end Machine

open Machine

/-- Two states of one block. -/
def Machine.SameBlock (m block : Machine) : Prop :=
  m.cellCount = block.cellCount ∧ m.checked = block.checked ∧ m.released = block.released

/-- A block of a size that is accepted is provided, unless it is too large. -/
theorem Machine.create_of_validateSizes {memorySize stackSize : Int}
    (h : Layout.validateSizes memorySize stackSize = .ok ()) (checked : Bool) :
    (sizeLimit ≤ memorySize ∧ ∃ fault, create memorySize checked = .error fault) ∨
      (memorySize < sizeLimit ∧ create memorySize checked =
        .ok { cellCount := (memorySize / wordSize).toNat, checked }) := by
  have hsize : ¬ (memorySize ≤ 0 ∨ memorySize % wordSize ≠ 0) := by
    unfold Layout.validateSizes at h
    split at h
    · cases h
    · assumption
  unfold create
  rw [if_neg hsize]
  by_cases hlimit : sizeLimit ≤ memorySize
  · left
    by_cases hfits : Index.Fits memorySize
    · rw [if_neg (not_not_intro hfits), if_pos hlimit]
      exact ⟨hlimit, _, rfl⟩
    · rw [if_pos hfits]
      exact ⟨hlimit, _, rfl⟩
  · right
    have hfits : Index.Fits memorySize := by
      unfold sizeLimit at hlimit
      unfold Index.Fits
      omega
    rw [if_neg (not_not_intro hfits), if_neg hlimit]
    exact ⟨Int.not_le.mp hlimit, rfl⟩

/-- A stack that was just created is empty. -/
theorem Machine.stacked_createStack {m : Machine} {stackSize : Int} {capacity : Nat}
    (hheld : m.released = false) (hcount : (m.cellCount : Int) ≤ sizeLimit)
    (hroom : capacity ≤ m.cellCount)
    (hlimit : m.checked = true → stackSize / wordSize = capacity) :
    Stacked capacity (m.createStack stackSize) where
  held := hheld
  count := hcount
  base := by
    show (((m.registers.setBp m.cellCount).setSp m.cellCount).get Slot.bp).toInt = _
    unfold RegisterFile.setSp RegisterFile.setBp
    rw [RegisterFile.get_set_of_ne _ _ (by decide), RegisterFile.get_set_self]
    rfl
  pointer := congrArg Value.toInt (RegisterFile.get_set_self _ Slot.sp _)
  room := hroom
  limit := hlimit

/-- **The stack of a machine is a list of words.** Take any sizes that are accepted, and any
operations on the stack that was created on a block of these sizes. A checked machine does what a
list with room for the stack size does: it holds the same words, it answers a pop with the top, and
it refuses a push onto a full stack and a pop of an empty one, which leaves it as it was. An
unchecked machine does the same for operations whose depth stays between zero and the size of the
block. -/
theorem stack_refines_list {memorySize stackSize : Int}
    (hsizes : Layout.validateSizes memorySize stackSize = .ok ()) (checked : Bool) :
    (sizeLimit ≤ memorySize ∧ ∃ fault, create memorySize checked = .error fault) ∨
    ∃ block, create memorySize checked = .ok block ∧
      ∀ (m : Machine) (ops : List StackOperation), m.SameBlock block →
        (checked = true →
          Refines (stackSize / wordSize).toNat (m.createStack stackSize) ops fun _ => True) ∧
        (checked = false → StaysWithin block.cellCount ops →
          Refines block.cellCount (m.createStack stackSize) ops fun op =>
            StaysWithin block.cellCount (ops ++ [op])) := by
  rcases create_of_validateSizes hsizes checked with hlarge | ⟨hlimit, hcreate⟩
  · exact Or.inl hlarge
  refine Or.inr ⟨_, hcreate, fun m ops hm => ?_⟩
  have hcount : m.cellCount = (memorySize / wordSize).toNat := hm.1
  obtain ⟨hnonneg, hle⟩ := Layout.validateSizes_eq_ok hsizes
  have hsize : (m.cellCount : Int) ≤ sizeLimit := by
    rw [hcount]
    unfold wordSize
    omega
  constructor
  · intro hchecked
    have hroom : (stackSize / wordSize).toNat ≤ m.cellCount := by
      rw [hcount]
      unfold wordSize
      omega
    have hcapacity : stackSize / wordSize = ((stackSize / wordSize).toNat : Int) := by
      unfold wordSize
      omega
    exact (stacked_createStack hm.2.2 hsize hroom fun _ => hcapacity).refines_checked
      (hm.2.1.trans hchecked) ops
  · intro hunchecked hwithin
    have hkind : m.checked = false := hm.2.1.trans hunchecked
    rw [← hm.1] at hwithin ⊢
    refine (stacked_createStack hm.2.2 hsize (Nat.le_refl _) fun hchecked => ?_).refines_within
      hwithin
    rw [hkind] at hchecked
    cases hchecked

/-- A block of four cells. -/
def fourCells (checked : Bool) : Machine := { cellCount := 4, checked }

/-- The second word of three is wrapped, and the third finds the stack full. -/
def threePushes : List StackOperation := [.push 5, .push 2147483648, .push 7]

/-- With checks the third word is refused; without them it goes to a cell of the data. -/
theorem threePushes_refine :
    Layout.validateSizes 16 8 = .ok () ∧
    (create 16 true = .ok (fourCells true) ∧
      Holds 2 ((fourCells true).createStack 8) ⟨[-2147483648, 5], 2⟩
        (((fourCells true).createStack 8).afterOperations threePushes) ∧
      Answers 2 [-2147483648, 5] (((fourCells true).createStack 8).afterOperations threePushes)
        (.push 7)) ∧
    (create 16 false = .ok (fourCells false) ∧ StaysWithin 4 threePushes ∧
      Holds 4 ((fourCells false).createStack 8) ⟨[7, -2147483648, 5], 3⟩
        (((fourCells false).createStack 8).afterOperations threePushes)) := by
  have hsizes : Layout.validateSizes 16 8 = .ok () := rfl
  have hsmall : ¬ sizeLimit ≤ 16 := by decide
  have hwithin : StaysWithin 4 threePushes := by
    intro k
    match k with
    | 0 | 1 | 2 => decide
    | k + 3 =>
      rw [List.take_of_length_le (Nat.le_add_left 3 k)]
      decide
  refine ⟨hsizes, ?_, ?_⟩
  · rcases stack_refines_list hsizes true with ⟨hlarge, -⟩ | ⟨block, hblock, h⟩
    · exact absurd hlarge hsmall
    · obtain rfl : fourCells true = block := Except.ok.inj hblock
      have hrefines := (h (fourCells true) threePushes ⟨rfl, rfl, rfl⟩).1 rfl
      exact ⟨rfl, hrefines.holds, hrefines.answers (.push 7) trivial⟩
  · rcases stack_refines_list hsizes false with ⟨hlarge, -⟩ | ⟨block, hblock, h⟩
    · exact absurd hlarge hsmall
    · obtain rfl : fourCells false = block := Except.ok.inj hblock
      exact ⟨rfl, hwithin, ((h (fourCells false) threePushes ⟨rfl, rfl, rfl⟩).2 rfl hwithin).holds⟩

end CellMachine
