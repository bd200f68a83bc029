import CellMachine.Proofs.BitVectors
import CellMachine.Proofs.CallReturn
import CellMachine.Proofs.WordSized

/-!
# What branches and remainders observe

A comparison leaves its result in the flags and a modulo leaves its result in the remainder, and
another instruction looks at it later. No operand names the flags or the remainder, so nothing that
happens in between can change them: a conditional jump looks at the latest comparison and a `rem` at
the latest modulo, however long ago that was and whatever was executed since. The flags can be
pushed, but what is popped goes to an operand and not back into the flags.

* `Run.latest` is the latest use of a kind among the first rounds of a run, and `Run.view_after` is
  the induction: what only such a use sets is what the latest one has set it to.
* `Machine.leaves_flags` and `Machine.leaves_remainder` are the steps, for the flags and for the
  remainder.
* `Run.Observes` is what is observed at a point of a run. A jump that comes after a comparison is
  taken by the relation of the two compared numbers (`Opcode.relation?`), and what a `rem` stores is
  the truncated remainder as a word.
* `Context.fresh_run_observes` has this at every point of every run in a fresh context.

A remainder is wrapped before it is kept. It is the truncated one, with the sign of its dividend,
exactly if that is a word, and so it is whenever dividend or divisor is. In a block of more cells
than there are positive words both can be pointers that are no words, and the remainder that is kept
can have the wrong sign (`Context.wideModulo_wraps`).
-/

namespace CellMachine

/-! ### Relations -/

/-- The equal flag is set by a comparison of equal numbers. -/
theorem Word.equalFlag_compare (a b : Int) : equalFlag (compare a b) = decide (a = b) := by
  unfold equalFlag compare
  apply decide_eq_decide.mpr
  split <;> split <;> omega

/-- The greater flag is set by a comparison with a smaller number. -/
theorem Word.greaterFlag_compare (a b : Int) : greaterFlag (compare a b) = decide (b < a) := by
  unfold greaterFlag compare
  apply decide_eq_decide.mpr
  split <;> split <;> omega

/-- The relation of two compared numbers under which a conditional jump is taken. -/
def Opcode.relation? : Opcode → Option (Int → Int → Bool)
  | .je => some fun a b => a = b
  | .jne => some fun a b => a ≠ b
  | .jg => some fun a b => a > b
  | .jge => some fun a b => a ≥ b
  | .jl => some fun a b => a < b
  | .jle => some fun a b => a ≤ b
  | _ => none

/-- A conditional jump has one operand, its target. -/
theorem Opcode.signature_of_relation {opcode : Opcode} {relation : Int → Int → Bool}
    (h : opcode.relation? = some relation) : opcode.signature = [.source] := by
  cases opcode <;> first | rfl | cases h

namespace Machine

variable {m : Machine} {ins : Instruction}

/-- **The condition of a jump**, at the flags of a comparison, is its relation. -/
theorem jumpCondition_compare {opcode : Opcode} {relation : Int → Int → Bool}
    (h : opcode.relation? = some relation) :
    ∃ condition, jumpCondition opcode = some condition ∧
      ∀ a b, condition (Word.compare a b) = relation a b := by
  -- the two flags tell equal, greater and less apart, and a relation allows some of the three
  cases opcode with
  | je | jne | jg =>
    obtain rfl := Option.some.inj h
    refine ⟨_, rfl, fun a b => ?_⟩
    simp only [Word.equalFlag_compare, Word.greaterFlag_compare, ← decide_not]
  | jge | jl | jle =>
    obtain rfl := Option.some.inj h
    refine ⟨_, rfl, fun a b => ?_⟩
    simp only [Word.equalFlag_compare, Word.greaterFlag_compare, ← Bool.decide_or, ← decide_not]
    apply decide_eq_decide.mpr
    omega
  | _ => cases h

/-! ### Instructions that use two numbers -/

/-- The numbers that two operands refer to. -/
def pairOf? (m : Machine) : List Operand → Option (Int × Int)
  | [x, y] =>
    match m.valueOf x, m.valueOf y with
    | .ok a, .ok b => some (a, b)
    | _, _ => none
  | _ => none

/-- The numbers that an instruction compares. -/
def compared? (m : Machine) (ins : Instruction) : Option (Int × Int) :=
  if ins.opcode = .cmp then m.pairOf? ins.operands else none

/-- The numbers of which an instruction takes the remainder, dividend and divisor. -/
def divided? (m : Machine) (ins : Instruction) : Option (Int × Int) :=
  if ins.opcode = .mod then (m.pairOf? ins.operands).filter (·.2 ≠ 0) else none

/-- A pair of numbers comes from two operands that can both be read. -/
theorem pairOf?_eq_some {operands : List Operand} {a b : Int}
    (h : m.pairOf? operands = some (a, b)) :
    ∃ x y, operands = [x, y] ∧ m.valueOf x = .ok a ∧ m.valueOf y = .ok b := by
  unfold pairOf? at h
  split at h
  · next x y =>
    split at h
    · next hx hy =>
      obtain ⟨rfl, rfl⟩ := Prod.mk.inj (Option.some.inj h)
      exact ⟨x, y, rfl, hx, hy⟩
    · cases h
  · cases h

/-- A modulo is counted only if its divisor is not zero. -/
theorem divided?_eq_some {a b : Int} (h : m.divided? ins = some (a, b)) :
    ins.opcode = .mod ∧ m.pairOf? ins.operands = some (a, b) ∧ b ≠ 0 := by
  unfold divided? at h
  split at h
  · next hop =>
    obtain ⟨hpair, hb⟩ := Option.filter_eq_some_iff.mp h
    exact ⟨hop, hpair, of_decide_eq_true hb⟩
  · cases h

/-- An action leaves a machine with some property, whether or not it fails. -/
def Leaves (x : Exec Unit) (m : Machine) (Q : Machine → Prop) : Prop :=
  Exec.Ends x m (fun _ => Q) (fun _ => Q)

/-- **Using two numbers.** What an instruction leaves that reads two operands and then acts on their
numbers. Without these it leaves the machine as it was. -/
theorem leaves_withTwo {f : Int → Int → Exec Unit} {Q : Machine → Prop} (operands : List Operand)
    (hpair : ∀ a b, m.pairOf? operands = some (a, b) → Leaves (f a b) m Q)
    (hnone : m.pairOf? operands = none → Q m) :
    Leaves (withTwo operands fun x y => do f (← load x) (← load y)) m Q := by
  unfold withTwo
  split
  · next x y =>
    -- the operands are read one after the other, and either can fail
    refine Exec.ends_load_bind (fun fault hx => ?_) fun a hx =>
      Exec.ends_load_bind (fun fault hy => ?_) fun b hy => ?_
    · exact hnone (by simp only [pairOf?, hx])
    · exact hnone (by simp only [pairOf?, hx, hy])
    · exact hpair a b (by simp only [pairOf?, hx, hy])
  · next hne =>
    -- the wrong number of operands is a fault, and there is no pair
    apply hnone
    unfold pairOf?
    split
    · next x y => exact absurd rfl (hne x y)
    · rfl

/-- An instruction leaves whatever neither its effect nor its failure touches. -/
theorem leaves_execute {Q : Machine → Prop} (heffect : ∀ m', m.Effect ins m' → Q m')
    (hspoilt : ∀ fault m', m.Spoilt ins fault m' → Q m') :
    Leaves (execute ins.opcode ins.operands) m Q := by
  have hends := execute_ends m ins
  unfold Leaves Exec.Ends
  cases hx : execute ins.opcode ins.operands m with
  | ok a m' => exact heffect m' (hends.ok hx)
  | error fault m' => exact hspoilt fault m' (hends.error hx)

/-- **The flags** are set by a comparison, and by nothing else. -/
theorem leaves_flags (m : Machine) (ins : Instruction) :
    Leaves (execute ins.opcode ins.operands) m fun m' =>
      m'.flags = (m.compared? ins).elim m.flags fun x => Word.compare x.1 x.2 := by
  unfold compared?
  by_cases hop : ins.opcode = .cmp
  · rw [if_pos hop, hop]
    apply leaves_withTwo ins.operands
    · intro a b hpair
      rw [hpair]
      rfl
    · intro hnone
      rw [hnone]
      rfl
  · -- no other opcode reaches the flags, whether it succeeds or fails
    rw [if_neg hop]
    exact leaves_execute (fun _ h => h.flags_eq.resolve_right hop) fun _ _ h => h.framed.flags

/-- **The remainder** is set by a modulo whose divisor is not zero, and by nothing else. -/
theorem leaves_remainder (m : Machine) (ins : Instruction) :
    Leaves (execute ins.opcode ins.operands) m fun m' =>
      m'.remainder = (m.divided? ins).elim m.remainder fun x => Word.wrap (x.1.tmod x.2) := by
  unfold divided?
  by_cases hop : ins.opcode = .mod
  · rw [if_pos hop, hop]
    apply leaves_withTwo ins.operands
    · intro a b hpair
      rw [hpair, Option.filter_some]
      by_cases hb : b = 0
      · -- a modulo by zero fails before the remainder is set
        subst hb
        rfl
      · rw [Word.mod?_of_ne hb, if_pos (decide_eq_true hb)]
        rfl
    · intro hnone
      rw [hnone]
      rfl
  · rw [if_neg hop]
    exact leaves_execute (fun _ h => h.remainder_eq.resolve_right hop)
      fun _ _ h => h.framed.remainder

/-! ### Instructions that look -/

/-- **A conditional jump** sets the instruction pointer one before its target, or does nothing. -/
theorem execute_conditional {opcode : Opcode} {condition : Int → Bool}
    (h : jumpCondition opcode = some condition) (m : Machine) (t : Operand) :
    execute opcode [t] m = m.settle
      (if condition m.flags then (m.valueOf t).map fun i => m.setIp (i - 1) else .ok m) := by
  have hjump : transferIf condition t m = m.settle
      (if condition m.flags then (m.valueOf t).map fun i => m.setIp (i - 1) else .ok m) := by
    unfold transferIf
    rw [Exec.bind_apply, Exec.get_apply]
    -- a target that cannot be read is a fault of a jump that is taken, and of no other
    by_cases hc : condition m.flags
    · simp only [if_pos hc]
      unfold transfer
      rw [load_bind]
      cases m.valueOf t with
      | ok i => rfl
      | error fault => rfl
    · simp only [if_neg hc]
      rfl
  cases opcode with
  | je | jne | jg | jge | jl | jle =>
    obtain rfl := Option.some.inj h
    exact hjump
  | _ => cases h

/-- `rem` stores the remainder and does nothing else. -/
theorem execute_rem (m : Machine) (o : Operand) :
    execute .rem [o] m = m.settle (m.stored o m.remainder) :=
  store_eq o m.remainder m

end Machine

/-! ### Rounds -/

namespace Run

open Machine

variable {p : Program} {r : Run} {ins : Instruction} {α : Type}

/-- What the next round makes of the machine: the run goes on with another one, or it fails and
leaves the machine as it is. -/
def Turns (p : Program) (r : Run) : Except Fault Machine → Prop
  | .ok m => (advance p r).status = .running ∧ (advance p r).session.machine = m
  | .error fault =>
    (advance p r).status = .faulted fault ∧ (advance p r).session.machine = r.session.machine

/-- The next round is a jump to what an operand refers to. -/
def JumpsTo (p : Program) (r : Run) (t : Operand) : Prop :=
  Turns p r ((r.session.machine.valueOf t).map r.session.machine.setIp)

/-- The next round does nothing but move on. -/
def MovesOn (p : Program) (r : Run) : Prop :=
  Turns p r (.ok (r.session.machine.setIp (r.session.machine.registers.ip + 1)))

/-- The next round stores a number through an operand, where it can be read back, and moves on. -/
def Stores (p : Program) (r : Run) (o : Operand) (v : Int) : Prop :=
  Turns p r ((r.session.machine.stored o v).map fun m => m.setIp (m.registers.ip + 1)) ∧
    ∀ m, r.session.machine.stored o v = .ok m → m.valueOf o = .ok v

/-- What an instruction makes of the machine is what its round makes of it, moved on by one. -/
theorem turns_of_execute {x : Except Fault Machine} (hdue : due? p r = some ins)
    (hx : execute ins.opcode ins.operands r.session.machine = r.session.machine.settle x) :
    Turns p r (x.map fun m => m.setIp (m.registers.ip + 1)) := by
  have hadvance := advance_of_due hdue
  rw [hx] at hadvance
  cases x with
  | ok m => exact ⟨congrArg status hadvance, congrArg (·.session.machine) hadvance⟩
  | error fault => exact ⟨congrArg status hadvance, congrArg (·.session.machine) hadvance⟩

/-- **A jump after a comparison** is taken by the relation of the compared numbers. -/
theorem branch_of_flags {relation : Int → Int → Bool} {t : Operand} {a b : Int}
    (hdue : due? p r = some ins) (ht : ins.operands = [t])
    (hrelation : ins.opcode.relation? = some relation)
    (hflags : r.session.machine.flags = Word.compare a b) :
    if relation a b then JumpsTo p r t else MovesOn p r := by
  obtain ⟨condition, hcondition, hcompare⟩ := jumpCondition_compare hrelation
  have hx := execute_conditional hcondition r.session.machine t
  rw [hflags, hcompare, ← ht] at hx
  have hturns := turns_of_execute hdue hx
  by_cases h : relation a b
  · rw [if_pos h] at hturns ⊢
    -- one before the target, and on by one
    have hnext : ∀ i, (r.session.machine.setIp (i - 1)).setIp
        ((r.session.machine.setIp (i - 1)).registers.ip + 1) = r.session.machine.setIp i := by
      intro i
      rw [setIp_next, Int.sub_add_cancel, setIp_wrap]
    unfold JumpsTo
    cases hv : r.session.machine.valueOf t with
    | ok i =>
      rw [hv] at hturns
      show Turns p r (.ok (r.session.machine.setIp i))
      rw [← hnext i]
      exact hturns
    | error fault =>
      rw [hv] at hturns
      exact hturns
  · rw [if_neg h] at hturns ⊢
    exact hturns

/-- The remainder is stored as it is, as it is a word. -/
theorem stores_of_rem {o : Operand} (hdue : due? p r = some ins) (hop : ins.opcode = .rem)
    (ho : ins.operands = [o]) (hword : Word.InRange r.session.machine.remainder) :
    Stores p r o r.session.machine.remainder := by
  have hx : execute ins.opcode ins.operands r.session.machine
      = r.session.machine.settle (r.session.machine.stored o r.session.machine.remainder) := by
    rw [hop, ho]
    exact execute_rem _ o
  refine ⟨turns_of_execute hdue hx, fun m hm => ?_⟩
  rw [valueOf_of_stored hm, Word.wrap_of_inRange hword]

/-! ### The latest use -/

/-- What the latest of the first rounds has used, among those that have used something. -/
def latest (use : Machine → Instruction → Option α) (p : Program) (r : Run) : Nat → Option α
  | 0 => none
  | n + 1 =>
    ((due? p (after p n r)).bind (use (after p n r).session.machine)).or (latest use p r n)

/-- The numbers that were compared last, in the first rounds of a run. -/
def lastCompared (p : Program) (r : Run) (n : Nat) : Option (Int × Int) := latest compared? p r n

/-- Dividend and divisor of the last modulo that succeeded, in the first rounds of a run. -/
def lastDivided (p : Program) (r : Run) (n : Nat) : Option (Int × Int) := latest divided? p r n

/-- The latest use is a use in one of the rounds. -/
theorem exists_of_latest {use : Machine → Instruction → Option α} {n : Nat} {x : α}
    (h : latest use p r n = some x) :
    ∃ k < n, ∃ ins, due? p (after p k r) = some ins ∧
      use (after p k r).session.machine ins = some x := by
  induction n with
  | zero => cases h
  | succ n ih =>
    rcases Option.or_eq_some_iff.mp h with hlast | ⟨-, hbefore⟩
    · obtain ⟨ins, hdue, huse⟩ := Option.bind_eq_some_iff.mp hlast
      exact ⟨n, Nat.lt_succ_self n, ins, hdue, huse⟩
    · obtain ⟨k, hk, hused⟩ := ih hbefore
      exact ⟨k, Nat.lt_succ_of_lt hk, hused⟩

/-- A modulo by zero does not succeed. -/
theorem lastDivided_ne_zero {n : Nat} {a b : Int} (h : lastDivided p r n = some (a, b)) :
    b ≠ 0 := by
  obtain ⟨k, -, ins, -, huse⟩ := exists_of_latest h
  exact (divided?_eq_some huse).2.2

section View

variable (view : Machine → Int) {use : Machine → Instruction → Option α} {value : α → Int}

/-- **One round.** A part of the machine that is set by a use, and not by moving on. -/
theorem view_advance (hip : ∀ m i, view (m.setIp i) = view m)
    (hexecute : ∀ m ins, Leaves (execute ins.opcode ins.operands) m fun m' =>
      view m' = (use m ins).elim (view m) value) (p : Program) (r : Run) :
    view (advance p r).session.machine =
      ((due? p r).bind (use r.session.machine)).elim (view r.session.machine) value := by
  cases hdue : due? p r with
  | none =>
    -- a round that executes nothing leaves the machine
    rw [advance_of_not_due hdue]
    rfl
  | some ins =>
    rw [advance_of_due hdue]
    have hleaves := hexecute r.session.machine ins
    cases hx : execute ins.opcode ins.operands r.session.machine with
    | ok a m => exact (hip m _).trans (Exec.Ends.ok hleaves hx)
    | error fault m => exact Exec.Ends.error hleaves hx

/-- **A whole run.** Such a part of the machine is what the latest use has set it to. -/
theorem view_after (hip : ∀ m i, view (m.setIp i) = view m)
    (hexecute : ∀ m ins, Leaves (execute ins.opcode ins.operands) m fun m' =>
      view m' = (use m ins).elim (view m) value) (p : Program) (r : Run) (n : Nat) :
    view (after p n r).session.machine =
      (latest use p r n).elim (view r.session.machine) value := by
  induction n with
  | zero => rfl
  | succ n ih =>
    rw [after_succ, view_advance view hip hexecute, ih]
    -- the last round is the latest use if it uses something, and leaves the latest one if not
    show _ = (((due? p (after p n r)).bind _).or (latest use p r n)).elim _ value
    cases (due? p (after p n r)).bind (use (after p n r).session.machine) with
    | none => rfl
    | some x => rfl

end View

/-! ### What is observed -/

/-- **What is observed** after the first rounds of a run. -/
structure Observes (p : Program) (r : Run) (n : Nat) : Prop where
  flags : (after p n r).session.machine.flags =
    (lastCompared p r n).elim 0 fun x => Word.compare x.1 x.2
  remainder : match lastDivided p r n with
    | none => (after p n r).session.machine.remainder = 0
    | some (a, b) => Word.mod? a b = some (after p n r).session.machine.remainder
  /-- It is the truncated remainder exactly if that is a word. -/
  truncated : ∀ a b, lastDivided p r n = some (a, b) →
    ((after p n r).session.machine.remainder = a.tmod b ↔ Word.InRange (a.tmod b))
  /-- Then it is smaller than the divisor, and it is zero or has the sign of the dividend. -/
  signed : ∀ a b, lastDivided p r n = some (a, b) → Word.InRange (a.tmod b) →
    (after p n r).session.machine.remainder.natAbs < b.natAbs ∧
    ((after p n r).session.machine.remainder = 0 ∨
      (after p n r).session.machine.remainder.sign = a.sign)
  /-- The remainder of a word or by a word is one. Only in a block of more cells than there are
  positive words can a pointer be no word. -/
  words : ∀ a b, lastDivided p r n = some (a, b) →
    (Word.InRange a ∨ Word.InRange b → Word.InRange (a.tmod b)) ∧
    ((r.session.machine.cellCount : Int) ≤ Word.maximum → Word.InRange a ∧ Word.InRange b)
  /-- A conditional jump is taken by the relation of the numbers that were compared last. -/
  branch : ∀ ins ∈ due? p (after p n r), ∀ relation ∈ ins.opcode.relation?,
    ∃ t, ins.operands = [t] ∧ ∀ a b, lastCompared p r n = some (a, b) →
      if relation a b then JumpsTo p (after p n r) t else MovesOn p (after p n r)
  rem : ∀ ins ∈ due? p (after p n r), ins.opcode = .rem →
    ∃ o, ins.operands = [o] ∧
      Stores p (after p n r) o (after p n r).session.machine.remainder

variable {l : Layout}

/-- The remainder at a point of the run in a fresh context. -/
theorem remainder_after_start (p : Program) (l : Layout) (w : Monitor) (n : Nat) :
    match lastDivided p (start p ⟨l.machine, w⟩) n with
    | none => (after p n (start p ⟨l.machine, w⟩)).session.machine.remainder = 0
    | some (a, b) =>
      Word.mod? a b = some (after p n (start p ⟨l.machine, w⟩)).session.machine.remainder := by
  have hview := view_after Machine.remainder (fun _ _ => rfl) leaves_remainder p
    (start p ⟨l.machine, w⟩) n
  unfold lastDivided
  cases hlast : latest divided? p (start p ⟨l.machine, w⟩) n with
  | none =>
    rw [hlast] at hview
    exact hview
  | some x =>
    obtain ⟨a, b⟩ := x
    rw [hlast] at hview
    show Word.mod? a b = _
    rw [hview, Word.mod?_of_ne (lastDivided_ne_zero hlast)]
    rfl

/-- **Dividend and divisor** are words, if the block is not too large for that. -/
theorem inRange_lastDivided (hp : p.validate = .ok ())
    (hl : (l.machine.cellCount : Int) ≤ Word.maximum) {w : Monitor} {n : Nat} {a b : Int}
    (h : lastDivided p (start p ⟨l.machine, w⟩) n = some (a, b)) :
    Word.InRange a ∧ Word.InRange b := by
  obtain ⟨k, -, ins, hdue, huse⟩ := exists_of_latest h
  obtain ⟨hop, hpair, -⟩ := divided?_eq_some huse
  obtain ⟨x, y, hos, hx, hy⟩ := pairOf?_eq_some hpair
  -- the machine was word-sized at that round, and both are read through source operands
  have hwords := Discipline.inv_of_due (D := wordSized) (s := ⟨l.machine, w⟩)
    ⟨Layout.machine_wordSized hl, hl⟩ (wordSized_admitsProgram hp) hdue
  have hsource : ∀ o ∈ [x, y], Operand.WellFormed .source o := by
    intro o ho
    refine (wellFormed_of_due hp hdue).operands (.source, o) ?_
    rw [hop, hos]
    exact List.mem_map_of_mem ho
  exact ⟨hwords.1.valueOf (hsource x List.mem_cons_self) hx,
    hwords.1.valueOf (hsource y (List.mem_cons_of_mem _ List.mem_cons_self)) hy⟩

/-- **A run in a fresh context.** -/
theorem observes_start (hp : p.validate = .ok ()) (l : Layout) (w : Monitor) (n : Nat) :
    Observes p (start p ⟨l.machine, w⟩) n := by
  have hremainder := remainder_after_start p l w n
  have hflags := view_after Machine.flags (fun _ _ => rfl) leaves_flags p
    (start p ⟨l.machine, w⟩) n
  have hwrapped {a b : Int} (hlast : lastDivided p (start p ⟨l.machine, w⟩) n = some (a, b)) :
      (after p n (start p ⟨l.machine, w⟩)).session.machine.remainder = Word.wrap (a.tmod b) := by
    rw [hlast] at hremainder
    exact Option.some.inj (hremainder.symm.trans (Word.mod?_of_ne (lastDivided_ne_zero hlast)))
  refine ⟨hflags, hremainder, ?_, ?_, ?_, ?_, ?_⟩
  · intro a b hlast
    rw [hwrapped hlast]
    exact Word.wrap_tmod_eq_iff
  · intro a b hlast hword
    rw [hwrapped hlast, Word.wrap_of_inRange hword]
    exact Word.tmod_bounds a (lastDivided_ne_zero hlast)
  · intro a b hlast
    refine ⟨fun h => h.elim (fun ha => ?_) fun hb => ?_, fun hl => inRange_lastDivided hp hl hlast⟩
    · exact Word.inRange_tmod_of_dividend ha b
    · exact Word.inRange_tmod a hb (lastDivided_ne_zero hlast)
  · intro ins hdue relation hrelation
    obtain ⟨t, ht⟩ := (wellFormed_of_due hp hdue).one_operand
      (Opcode.signature_of_relation hrelation)
    refine ⟨t, ht, fun a b hlast => branch_of_flags hdue ht hrelation ?_⟩
    unfold lastCompared at hlast
    rw [hlast] at hflags
    exact hflags
  · intro ins hdue hop
    have hkind : ins.opcode.signature = [.target] := by
      rw [hop]
      rfl
    obtain ⟨o, ho⟩ := (wellFormed_of_due hp hdue).one_operand hkind
    refine ⟨o, ho, stores_of_rem hdue hop ho ?_⟩
    -- what is stored is wrapped, but a remainder is a word already
    split at hremainder
    · rw [hremainder]
      decide
    · exact Word.mod?_inRange hremainder

end Run

namespace Context

/-- **Branches and remainders observe the last comparison and the last modulo.** A valid program can
be loaded into a fresh context. At every point of its run the flags and the remainder are those of
the last comparison and the last modulo; a conditional jump goes by the relation of the numbers that
were compared, and `rem` stores the remainder as it was kept. That is the truncated one, with the
sign of the dividend, exactly if the truncated one is a word, as it is if dividend or divisor is. In
a block of no more cells than there are positive words both are. -/
theorem fresh_run_observes {l : Layout} {c : Context} (hc : create l = .ok c) {p : Program}
    (hp : p.validate = .ok ()) :
    ∃ c', load p c = .ok () c' ∧ c'.machine = some l.machine ∧ c'.program = some p.installed ∧
      ∀ w n, Run.Observes p.installed (Run.start p.installed ⟨l.machine, w⟩) n := by
  obtain ⟨-, -, hmachine, -⟩ := create_eq_ok hc
  exact ⟨_, load_eq_ok hp c, hmachine, rfl, Run.observes_start (Program.validate_make hp) l⟩

/-- A program that compares and divides, has the flags pushed and popped, and calls a function that
branches and asks for the remainder. -/
def lateBranch : Program :=
  .make #[⟨.cmp, [.immediate 7, .immediate 3]⟩, ⟨.pushf, []⟩,
    ⟨.mod, [.immediate (-7), .immediate 2]⟩, ⟨.popf, [.cell 0]⟩, ⟨.call, [.immediate 5]⟩,
    ⟨.jg, [.immediate 7]⟩, ⟨.nop, []⟩, ⟨.rem, [.register 0]⟩] 0 .empty .empty

/-- Its run on sixteen cells, after a number of rounds. -/
def lateRun (n : Nat) : Run :=
  Run.after lateBranch.installed n
    (Run.start lateBranch.installed ⟨Layout.machine ⟨64, 16, false⟩, {}⟩)

/-- The function jumps by the comparison of its caller, and stores the remainder of its caller. -/
theorem lateBranch_observes :
    (∃ c, create ⟨64, 16, false⟩ = .ok c ∧ ∃ c', load lateBranch c = .ok () c') ∧
    Run.JumpsTo lateBranch.installed (lateRun 5) (.immediate 7) ∧
    Run.Stores lateBranch.installed (lateRun 6) (.register 0) (-1) := by
  obtain ⟨c, hc⟩ : ∃ c, create ⟨64, 16, false⟩ = .ok c := ⟨_, rfl⟩
  obtain ⟨c', hload, -, -, hobserves⟩ := fresh_run_observes hc (p := lateBranch) rfl
  refine ⟨⟨c, hc, c', hload⟩, ?_, ?_⟩
  · obtain ⟨t, ht, hbranch⟩ := (hobserves {} 5).branch ⟨.jg, [.immediate 7]⟩ (by decide) _ rfl
    obtain rfl : .immediate 7 = t := (List.cons.inj ht).1
    exact hbranch 7 3 (by decide)
  · obtain ⟨o, ho, hstores⟩ := (hobserves {} 6).rem ⟨.rem, [.register 0]⟩ (by decide) rfl
    have hvalue := ((hobserves {} 6).truncated (-7) 2 (by decide)).mpr (by decide)
    rw [hvalue] at hstores
    obtain rfl : .register 0 = o := (List.cons.inj ho).1
    exact hstores

/-- A program that takes the remainder of one pointer by another. -/
def wideModulo : Program :=
  .make #[⟨.push, [.immediate 0]⟩, ⟨.mod, [.ofSlot Slot.sp, .ofSlot Slot.bp]⟩,
    ⟨.rem, [.register 0]⟩] 0 .empty .empty

/-- A block of one and a half times as many cells as there are positive words. -/
def wideLayout : Layout := ⟨12884901888, 16, false⟩

/-- Its run on that block, before the first round. -/
def wideStart : Run := Run.start wideModulo.installed ⟨wideLayout.machine, {}⟩

/-- The exception is real: in a block of so many cells the remainder of the two pointers is
positive, as they are, and what is kept and stored is negative. -/
theorem wideModulo_wraps :
    (∃ c, create wideLayout = .ok c ∧ ∃ c', load wideModulo c = .ok () c') ∧
    Run.lastDivided wideModulo.installed wideStart 2 = some (3221225471, 3221225472) ∧
    Run.Stores wideModulo.installed (Run.after wideModulo.installed 2 wideStart) (.register 0)
      (-1073741825) ∧
    ¬ Run.Stores wideModulo.installed (Run.after wideModulo.installed 2 wideStart) (.register 0)
      ((3221225471 : Int).tmod 3221225472) := by
  refine ⟨⟨_, rfl, _, rfl⟩, by decide, ?_, fun h => ?_⟩
  · have hdue : Run.due? wideModulo.installed (Run.after wideModulo.installed 2 wideStart)
        = some ⟨.rem, [.register 0]⟩ := by decide
    exact Run.stores_of_rem hdue rfl rfl (by decide)
  · -- what is stored is read back as a word, and the truncated remainder is none
    have hread := (Machine.valueOf_of_stored rfl).symm.trans (h.2 _ rfl)
    exact absurd (Except.ok.inj hread) (by decide)

end Context

end CellMachine
