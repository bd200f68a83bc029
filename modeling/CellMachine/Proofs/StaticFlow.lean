import CellMachine.Proofs.CallReturn
import CellMachine.Proofs.DirectTarget
import CellMachine.Proofs.Frames

/-!
# Where a program goes

In general only the run tells where a program goes: a target may be in a register, a return goes
where the stack says, and the instruction pointer can be written. An instruction that does none of
this is static (`Instruction.Static`), and its successors can be read off it: the next instruction,
and its target if it branches (`Program.LeadsTo`).

* `execute_proper` is about what can go wrong in a well-formed instruction, on any machine. An
  access to the block or the stack is refused, a divisor is zero, or a number is to be printed that
  has too many digits; that the program was left is never a fault of an instruction.
* `Direct.execute_successor` says where a static instruction goes. It is stated for the machine with
  direct targets, in which no target is corrected by one.
* A program is enclosed if its instructions are static, its targets lie in it and its last
  instruction is an end (`Program.Enclosed`). `Run.Round` is all that can happen in a round of such
  a program, and by `Run.inside_of_running` no run leaves it.
-/

namespace CellMachine

open Exec

/-! ### The faults of an instruction -/

/-- The block or the stack refused an access. -/
def Fault.isMemory : Fault → Bool
  | .outsideBlock _ _ | .stackOverflow _ _ | .stackUnderflow _ | .noSuchCell | .wideIndex => true
  | _ => false

/-- The opcodes that show a number. -/
def Opcode.prints : Opcode → Bool
  | .prn => true
  | _ => false

/-- The faults of a well-formed instruction. That a number has too many digits is one of them only
where numbers are shown, and a block that was given back has no cells to use. -/
def Fault.OfInstruction (shows released : Bool) (f : Fault) : Prop :=
  f.isMemory = true ∨ f.isDivision = true ∨ shows = true ∧ f = .unwritable ∨
    released = true ∧ (f = .releasedRead ∨ f = .releasedWrite)

/-- No instruction fails by leaving the program. -/
theorem Fault.OfInstruction.isExecution_eq_false {shows released : Bool} {f : Fault}
    (h : f.OfInstruction shows released) : f.isExecution = false := by
  cases f <;> simp_all [OfInstruction, isMemory, isDivision, isExecution]

/-- Where more is shown, more can go wrong. -/
theorem Fault.OfInstruction.mono {shows more released : Bool} {f : Fault}
    (h : f.OfInstruction shows released) (hmore : shows = true → more = true) :
    f.OfInstruction more released :=
  h.imp_right fun h => h.imp_right fun h => h.imp_left fun hf => ⟨hmore hf.1, hf.2⟩

/-- An action fails as instructions do, and it does not give the block back. -/
def Exec.Proper {α : Type} (shows : Bool) (x : Exec α) : Prop :=
  ∀ m, Ends x m (fun _ m' => m'.released = m.released)
    (fun f _ => f.OfInstruction shows m.released)

namespace Exec

variable {α β : Type} {shows : Bool}

theorem proper_get : Proper shows (get : Exec Machine) := fun _ => rfl

/-- A change to the machine may be to all of it but the block being held. -/
theorem proper_modify {f : Machine → Machine} (h : ∀ m, (f m).released = m.released) :
    Proper shows (modify f : Exec Unit) := h

/-- What comes after an action works on the same block. -/
theorem Proper.bind {x : Exec α} {f : α → Exec β} (hx : Proper shows x)
    (hf : ∀ a, Proper shows (f a)) : Proper shows (x >>= f) := by
  intro m
  refine (hx m).bind fun a m' (hm' : m'.released = m.released) => ?_
  -- the second action fails as on the machine that the first one started on
  have hnext := hf a m'
  rwa [hm'] at hnext

end Exec

namespace Machine

variable {m : Machine} {ins : Instruction} {o source : Operand} {f : Fault} {shows : Bool}

/-- An index that no cell answers to is a refused access, or the block was given back. -/
theorem ofInstruction_of_locate {whenReleased : Fault} {i : Int}
    (hw : whenReleased = .releasedRead ∨ whenReleased = .releasedWrite)
    (h : m.locate whenReleased i = .error f) : f.OfInstruction shows m.released := by
  rcases locate_eq_error h with ⟨-, -, rfl⟩ | ⟨hr, rfl⟩ | ⟨-, -, rfl⟩ | ⟨-, -, rfl⟩
  · exact Or.inl rfl
  · exact Or.inr (Or.inr (Or.inr ⟨hr, hw⟩))
  · exact Or.inl rfl
  · exact Or.inl rfl

/-- An operand that is fit to be read fails only at its cell. -/
theorem ofInstruction_of_valueOf (ho : Operand.WellFormed .source o)
    (h : m.valueOf o = .error f) : f.OfInstruction shows m.released := by
  rcases valueOf_eq_error h with ⟨i, rfl, hs⟩ | ⟨i, rfl, hl⟩ | ⟨name, rfl, -⟩
  · obtain ⟨s, -, hs'⟩ := slot_of_inRange ho .noSuchRegister
    rw [hs'] at hs
    cases hs
  · exact ofInstruction_of_locate (Or.inl rfl) hl
  · exact absurd ho id

/-- What may be read is loaded, or its cell is missing. -/
theorem proper_load (ho : Operand.WellFormed .source o) : Proper shows (load o) := by
  intro m
  unfold Ends
  rw [load_eq]
  cases hv : m.valueOf o with
  | ok v => exact rfl
  | error f => exact ofInstruction_of_valueOf ho hv

/-- The same holds of the value with its mark as an address. -/
theorem proper_loadValue (ho : Operand.WellFormed .source o) : Proper shows (loadValue o) := by
  intro m
  unfold Ends
  rw [loadValue_eq]
  cases hv : m.taggedOf o with
  | ok v => exact rfl
  | error f => exact ofInstruction_of_valueOf ho (valueOf_of_taggedOf_error hv)

/-- A register that there is can be set. -/
theorem proper_setRegister {i : Int} (hi : 0 ≤ i ∧ i < slotCount) (v : Value) :
    Proper shows (setRegister i v) := by
  intro m
  obtain ⟨s, -, hs⟩ := slot_of_inRange hi .noSuchTarget
  unfold Ends
  rw [setRegister_eq, registerSet, hs]
  exact rfl

/-- A cell is written, or there is none. -/
theorem proper_writeCell (i v : Int) : Proper shows (writeCell i v) := by
  intro m
  unfold Ends
  rw [writeCell_eq]
  cases hc : m.cellSet i v with
  | ok m' =>
    obtain ⟨c, -, rfl⟩ := cellSet_eq_ok hc
    exact rfl
  | error f => exact ofInstruction_of_locate (Or.inr rfl) (cellSet_eq_error hc)

/-- A target is a register or a cell, and no other operand is stored to. -/
theorem proper_store (ho : Operand.WellFormed .target o) (v : Int) : Proper shows (store o v) := by
  cases o with
  | register i => exact proper_setRegister ho _
  | cell i => exact proper_writeCell i v
  | immediate n => exact absurd ho id
  | label name => exact absurd ho id

theorem proper_storeValue (ho : Operand.WellFormed .target o) (v : Value) :
    Proper shows (storeValue o v) := by
  cases o with
  | register i => exact proper_setRegister ho v
  | cell i => exact proper_writeCell i v.toInt
  | immediate n => exact absurd ho id
  | label name => exact absurd ho id

/-- A push fails at the limit of the stack or at its cell. -/
theorem proper_push (v : Int) : Proper shows (push v) := fun _ =>
  ends_push (fun _ _ => Or.inl rfl) (fun _ hl => ofInstruction_of_locate (Or.inr rfl) hl)
    fun _ _ => rfl

/-- A pop fails at the base of the stack or at its cell. -/
theorem proper_pop : Proper shows pop := fun _ =>
  ends_pop (fun _ _ => Or.inl rfl) (fun _ hl => ofInstruction_of_locate (Or.inl rfl) hl)
    fun _ _ => rfl

theorem proper_transfer (ho : Operand.WellFormed .source o) : Proper shows (transfer o) :=
  (proper_load ho).bind fun _ => proper_modify fun _ => rfl

theorem proper_unary (ho : Operand.WellFormed .target o) (g : Int → Int) :
    Proper shows (unary g o) :=
  (proper_load ho.source).bind fun _ => proper_store ho _

theorem proper_binary (ho : Operand.WellFormed .target o)
    (hs : Operand.WellFormed .source source) (g : Int → Int → Int) :
    Proper shows (binary g o source) :=
  (proper_load ho.source).bind fun _ => (proper_load hs).bind fun _ => proper_store ho _

/-- A quotient is stored, unless there is none. -/
theorem proper_divide (ho : Operand.WellFormed .target o)
    (hs : Operand.WellFormed .source source) : Proper shows (divide o source) := by
  refine (proper_load ho.source).bind fun a => (proper_load hs).bind fun b => ?_
  cases Word.div? a b with
  | some q => exact proper_store ho q
  | none => exact fun _ => Or.inr (Or.inl rfl)

/-- A remainder is kept, unless there is none. -/
theorem proper_modulo (ho : Operand.WellFormed .source o)
    (hs : Operand.WellFormed .source source) : Proper shows (modulo o source) := by
  refine (proper_load ho).bind fun a => (proper_load hs).bind fun b => ?_
  cases Word.mod? a b with
  | some r => exact proper_modify fun _ => rfl
  | none => exact fun _ => Or.inr (Or.inl rfl)

/-- A jump that is not taken does not look at its target. -/
theorem proper_transferIf (ho : Operand.WellFormed .source o) (condition : Int → Bool) :
    Proper shows (transferIf condition o) := by
  refine proper_get.bind fun m => ?_
  split
  · exact proper_transfer ho
  · exact fun _ => rfl

/-- Only here is a number shown. -/
theorem proper_print (ho : Operand.WellFormed .source o) : Proper true (print o) := by
  refine (proper_load ho).bind fun v => ?_
  cases Text.isWritable v with
  | true => exact proper_modify fun _ => rfl
  | false => exact fun _ => Or.inr (Or.inr (Or.inl ⟨rfl, rfl⟩))

/-- An instruction whose signature has one kind finds an operand of that kind. -/
theorem proper_withOne {kind : OperandKind} {action : Operand → Exec Unit} (hins : ins.WellFormed)
    (hkind : ins.opcode.signature = [kind])
    (h : ∀ o, Operand.WellFormed kind o → Proper shows (action o)) :
    Proper shows (withOne ins.operands action) := by
  obtain ⟨o, ho⟩ := hins.one_operand hkind
  have hfit := hins.operands (kind, o)
  rw [hkind, ho] at hfit
  rw [ho]
  exact h o (hfit (List.mem_singleton_self _))

/-- The same for two kinds. -/
theorem proper_withTwo {first second : OperandKind} {action : Operand → Operand → Exec Unit}
    (hins : ins.WellFormed) (hkinds : ins.opcode.signature = [first, second])
    (h : ∀ a b, Operand.WellFormed first a → Operand.WellFormed second b →
      Proper shows (action a b)) :
    Proper shows (withTwo ins.operands action) := by
  obtain ⟨a, b, hab⟩ := hins.two_operands hkinds
  have hfit := hins.operands
  rw [hkinds, hab] at hfit
  rw [hab]
  exact h a b (hfit (first, a) List.mem_cons_self)
    (hfit (second, b) (List.mem_cons_of_mem _ (List.mem_singleton_self _)))

/-- **What goes wrong in an instruction** is an access to the block or the stack, or a division, or
the number that it prints. -/
theorem execute_proper (hins : ins.WellFormed) :
    Proper ins.opcode.prints (execute ins.opcode ins.operands) := by
  generalize hop : ins.opcode = opcode
  -- instructions of one shape fail alike, whatever function they compute
  cases opcode with
  | stop | nop | int => exact fun _ => rfl
  | mov =>
    exact proper_withTwo hins (by rw [hop]; rfl) fun t s ht hs =>
      (proper_loadValue hs).bind fun v => proper_storeValue ht v
  | push =>
    exact proper_withOne hins (by rw [hop]; rfl) fun s hs => (proper_load hs).bind proper_push
  | pop | popf =>
    exact proper_withOne hins (by rw [hop]; rfl) fun t ht =>
      proper_pop.bind fun v => proper_store ht v
  | pushf => exact proper_get.bind fun m => proper_push m.flags
  | inc | dec | not =>
    exact proper_withOne hins (by rw [hop]; rfl) fun t ht => proper_unary ht _
  | add | sub | mul | xor | or | and | shl | shr =>
    exact proper_withTwo hins (by rw [hop]; rfl) fun t s ht hs => proper_binary ht hs _
  | div => exact proper_withTwo hins (by rw [hop]; rfl) fun t s ht hs => proper_divide ht hs
  | mod => exact proper_withTwo hins (by rw [hop]; rfl) fun a b ha hb => proper_modulo ha hb
  | rem =>
    exact proper_withOne hins (by rw [hop]; rfl) fun t ht =>
      proper_get.bind fun m => proper_store ht m.remainder
  | cmp =>
    exact proper_withTwo hins (by rw [hop]; rfl) fun a b ha hb =>
      (proper_load ha).bind fun _ => (proper_load hb).bind fun _ => proper_modify fun _ => rfl
  | jmp => exact proper_withOne hins (by rw [hop]; rfl) fun t ht => proper_transfer ht
  | call =>
    exact proper_withOne hins (by rw [hop]; rfl) fun t ht =>
      proper_get.bind fun m => (proper_push _).bind fun _ => proper_transfer ht
  | ret => exact proper_pop.bind fun _ => proper_modify fun _ => rfl
  | je | jne | jg | jge | jl | jle =>
    exact proper_withOne hins (by rw [hop]; rfl) fun t ht => proper_transferIf ht _
  | prn => exact proper_withOne hins (by rw [hop]; rfl) fun s hs => proper_print hs

end Machine

/-! ### The successors of an instruction -/

/-- The opcodes whose operand says where the program goes on. -/
def Opcode.isBranch : Opcode → Bool
  | .jmp | .call | .je | .jne | .jg | .jge | .jl | .jle => true
  | _ => false

/-- An instruction whose successors can be read off it: a branch has its target written out, and
there is no other way to move the instruction pointer. -/
structure Instruction.Static (ins : Instruction) : Prop where
  target : ins.opcode.isBranch = true → ∀ o ∈ ins.operands, ∃ t, o = .immediate t
  no_return : ins.opcode ≠ .ret
  ip_kept : ¬ ins.Writes (.ofSlot Slot.ip)

/-- The index `j` comes next after the instruction at `i`. The index that follows is a word. -/
def Instruction.Successor (ins : Instruction) (i j : Int) : Prop :=
  j = Word.wrap (i + 1) ∨ ins.opcode.isBranch = true ∧ .immediate j ∈ ins.operands

/-- A static branch has one operand, which is a word. -/
theorem Instruction.Static.operands_eq {ins : Instruction} (h : ins.Static) (hins : ins.WellFormed)
    (hbranch : ins.opcode.isBranch = true) :
    ∃ t, ins.operands = [.immediate t] ∧ Word.InRange t := by
  -- the signatures of the branches are all the same
  have hkind : ins.opcode.signature = [.source] := by
    revert hbranch
    cases ins.opcode <;> decide
  obtain ⟨o, ho⟩ := hins.one_operand hkind
  obtain ⟨t, rfl⟩ := h.target hbranch o (by rw [ho]; exact List.mem_singleton_self o)
  have hfit := hins.operands (.source, .immediate t)
  rw [hkind, ho] at hfit
  exact ⟨t, ho, hfit (List.mem_singleton_self _)⟩

/-- Every successor is a word. -/
theorem Instruction.Successor.inRange {ins : Instruction} {i j : Int} (h : ins.Successor i j)
    (hstatic : ins.Static) (hins : ins.WellFormed) : Word.InRange j := by
  rcases h with rfl | ⟨hbranch, hj⟩
  · exact Word.wrap_inRange _
  · obtain ⟨t, ht, hrange⟩ := hstatic.operands_eq hins hbranch
    rw [ht, List.mem_singleton, Operand.immediate.injEq] at hj
    rwa [hj]

/-- Only a branch or a return transfers control. -/
theorem Machine.Transfers.isBranch {m : Machine} {opcode : Opcode} (h : m.Transfers opcode)
    (hret : opcode ≠ .ret) : opcode.isBranch = true := by
  rcases h with rfl | rfl | h | h
  · rfl
  · rfl
  · exact absurd h hret
  · -- the opcodes with a condition are branches
    cases opcode <;> first | rfl | cases h

/-- A static instruction that does not branch leaves the instruction pointer as it was. -/
theorem Machine.Effect.ip_eq {m m' : Machine} {ins : Instruction} (h : m.Effect ins m')
    (hins : ins.WellFormed) (hstatic : ins.Static) (hbranch : ins.opcode.isBranch = false) :
    m'.registers.ip = m.registers.ip := by
  rcases h.register_cases hins Slot.ip with hkept | hwrites | ⟨hsp, -⟩ | ⟨-, htransfers⟩
  · exact congrArg Value.toInt hkept
  · exact absurd hwrites hstatic.ip_kept
  · -- the stack pointer is another register
    exact absurd hsp (by decide)
  · rw [htransfers.isBranch hstatic.no_return] at hbranch
    cases hbranch

namespace Direct

open Machine

variable {ins : Instruction}

/-- An instruction that neither branches nor returns goes on behind itself. -/
theorem execute_eq_following {opcode : Opcode} (hbranch : opcode.isBranch = false)
    (hret : opcode ≠ .ret) (operands : List Operand) :
    execute opcode operands = following (Machine.execute opcode operands) := by
  cases opcode with
  | jmp | call | je | jne | jg | jge | jl | jle => cases hbranch
  | ret => exact absurd rfl hret
  | _ => rfl

/-- **Where a static instruction goes.** -/
theorem execute_successor (hins : ins.WellFormed) (hstatic : ins.Static) (m : Machine) :
    Ends (execute ins.opcode ins.operands) m
      (fun j _ => ins.Successor m.registers.ip j) (fun _ _ => True) := by
  cases hbranch : ins.opcode.isBranch with
  | false =>
    rw [execute_eq_following hbranch hstatic.no_return]
    -- the instruction has left the instruction pointer as it was
    have hkept : Ends (Machine.execute ins.opcode ins.operands) m
        (fun _ m' => m'.registers.ip = m.registers.ip) (fun _ _ => True) :=
      (m.execute_ends ins).imp (fun _ _ h => h.ip_eq hins hstatic hbranch) fun _ _ _ => trivial
    refine hkept.bind fun _ m' hm' => ?_
    exact Or.inl (by rw [← hm'])
  | true =>
    obtain ⟨t, ht, hrange⟩ := hstatic.operands_eq hins hbranch
    have htarget : ins.Successor m.registers.ip (Word.wrap t) := by
      refine Or.inr ⟨hbranch, ?_⟩
      rw [Word.wrap_of_inRange hrange, ht]
      exact List.mem_singleton_self _
    rw [ht]
    generalize hop : ins.opcode = opcode at hbranch
    cases opcode with
    | jmp => exact htarget
    | call =>
      -- the target is written out, so it does not matter what the push has changed
      apply ends_get_bind
      have hpush : Ends (push m.registers.ip) m (fun _ _ => True) (fun _ _ => True) :=
        ends_push (fun _ _ => trivial) (fun _ _ => trivial) fun _ _ => trivial
      exact hpush.bind fun _ _ _ => htarget
    | je | jne | jg | jge | jl | jle =>
      apply ends_get_bind
      split
      · exact htarget
      · exact Or.inl rfl
    | _ => cases hbranch

end Direct

/-! ### Rounds -/

/-- Where a run is. -/
def Run.position (r : Run) : Int := r.session.machine.registers.ip

namespace Program

variable {p : Program} {i j : Int} {ins : Instruction}

/-- What is fetched stands at the index, counted from the front. -/
theorem fetch_eq_ok_iff :
    p.fetch i = .ok ins ↔ 0 ≤ i ∧ p.instructions[i.toNat]? = some ins := by
  unfold fetch instruction?
  by_cases hi : 0 ≤ i
  · rw [if_pos hi]
    cases p.instructions[i.toNat]? with
    | some ins' => simp [hi]
    | none => simp
  · simp [hi]

/-- Instructions are fetched from inside the program only. -/
theorem inside_of_fetch (h : p.fetch i = .ok ins) : 0 ≤ i ∧ i < p.size := by
  obtain ⟨hi, hget⟩ := fetch_eq_ok_iff.mp h
  have hlt : i.toNat < p.size := (Array.getElem?_eq_some_iff.mp hget).1
  omega

/-- From everywhere inside the program an instruction is fetched. -/
theorem exists_fetch (hi : 0 ≤ i ∧ i < p.size) : ∃ ins, p.fetch i = .ok ins := by
  have hlt : i.toNat < p.instructions.size := by
    unfold size at hi
    omega
  exact ⟨p.instructions[i.toNat], fetch_eq_ok_iff.mpr ⟨hi.1, Array.getElem?_eq_getElem hlt⟩⟩

/-- The program has an end at an index. -/
def StopsAt (p : Program) (i : Int) : Prop := ∃ ins, p.fetch i = .ok ins ∧ ins.opcode = .stop

/-- The program can go from one index to another: to the next one, or to the target of a branch. -/
def LeadsTo (p : Program) (i j : Int) : Prop :=
  ∃ ins, p.fetch i = .ok ins ∧ ins.opcode ≠ .stop ∧
    (j = i + 1 ∨ ins.opcode.isBranch = true ∧ .immediate j ∈ ins.operands)

/-- **A program that keeps control.** It can be seen from its instructions where they go, and they
go to instructions of it. -/
structure Enclosed (p : Program) : Prop where
  valid : p.validate = .ok ()
  /-- Every index is a word. -/
  size : (p.size : Int) ≤ 2147483648
  /-- The last instruction does not go on behind itself. -/
  closed : p.StopsAt (p.size - 1)
  static : ∀ ins ∈ p.instructions, ins.opcode ≠ .stop → ins.Static
  targets : ∀ ins ∈ p.instructions, ins.opcode.isBranch = true →
    ∀ t : Int, .immediate t ∈ ins.operands → 0 ≤ t ∧ t < p.size

/-- An instruction that goes on is not the last one. -/
theorem Enclosed.succ_lt (hp : p.Enclosed) (hfetch : p.fetch i = .ok ins)
    (hstop : ins.opcode ≠ .stop) : i + 1 < p.size := by
  obtain ⟨last, hlast, hends⟩ := hp.closed
  have hi := inside_of_fetch hfetch
  -- the last instruction is an end, and this one is none
  have hne : i ≠ p.size - 1 := by
    rintro rfl
    obtain rfl : last = ins := Except.ok.inj (hlast.symm.trans hfetch)
    exact hstop hends
  omega

/-- What an enclosed program can go to is inside it. -/
theorem Enclosed.inside_of_leadsTo (hp : p.Enclosed) (h : p.LeadsTo i j) :
    0 ≤ j ∧ j < p.size := by
  obtain ⟨ins, hfetch, hstop, rfl | ⟨hbranch, hj⟩⟩ := h
  · have hi := inside_of_fetch hfetch
    have hnext := hp.succ_lt hfetch hstop
    omega
  · exact hp.targets ins (mem_of_fetch hfetch) hbranch j hj

/-- The successor of an instruction of an enclosed program is where the program leads to. -/
theorem Enclosed.leadsTo_of_successor (hp : p.Enclosed) (hfetch : p.fetch i = .ok ins)
    (hstop : ins.opcode ≠ .stop) (h : ins.Successor i j) : p.LeadsTo i j := by
  refine ⟨ins, hfetch, hstop, h.imp_left fun hj => ?_⟩
  -- no index of the program is too large to be followed by a word
  have hi := inside_of_fetch hfetch
  have hnext := hp.succ_lt hfetch hstop
  have hsize := hp.size
  rw [hj, Word.wrap_of_inRange]
  unfold Word.InRange Word.minimum Word.maximum
  omega

end Program

namespace Run

variable {p : Program} {r : Run} {ins : Instruction}

/-- A round after which the run goes on has gone to a successor of its instruction. -/
theorem successor_of_advance (hdue : due? p r = some ins) (hins : ins.WellFormed)
    (hstatic : ins.Static) (h : (advance p r).status = .running) :
    ins.Successor r.position (advance p r).position := by
  rw [Direct.advance_eq_direct] at h ⊢
  obtain ⟨⟨m, w⟩, steps, status⟩ := r
  obtain ⟨hs, hfetch, hstop, hbalks⟩ := due?_eq_some_iff.mp hdue
  obtain rfl : status = .running := hs
  have hnext := Direct.execute_successor hins hstatic m
  have hw : w.balks m.registers.ip ins m.registers ≠ true := Bool.eq_false_iff.mp hbalks
  simp only [Direct.advance, hfetch, if_neg hstop, if_neg hw] at h ⊢
  cases hx : Direct.execute ins.opcode ins.operands m with
  | ok j m' =>
    have hj : ins.Successor m.registers.ip j := hnext.ok hx
    show ins.Successor m.registers.ip (m'.setIp j).registers.ip
    rw [Machine.ip_setIp, Word.wrap_of_inRange (hj.inRange hstatic hins)]
    exact hj
  | error fault m' =>
    rw [hx] at h
    cases h

/-- Numbers are shown in a run: each instruction is traced, or the program prints some. -/
def shows (p : Program) (r : Run) : Bool :=
  r.session.monitor.tracing || p.instructions.any (·.opcode.prints)

/-- The run is traced, or one of the instructions prints. -/
theorem shows_eq_true_iff :
    shows p r = true ↔
      r.session.monitor.tracing = true ∨ ∃ ins ∈ p.instructions, ins.opcode.prints = true := by
  unfold shows
  rw [Bool.or_eq_true_iff, Array.any_eq_true']

/-- Whether numbers are shown does not change during a run. -/
theorem shows_after (p : Program) (r : Run) (n : Nat) : shows p (after p n r) = shows p r := by
  unfold shows
  rw [tracing_after]

/-- **What a round can do** in a program that keeps control. -/
inductive Round (p : Program) (r r' : Run) : Prop
  | goes (hstatus : r'.status = .running) (hsteps : r'.steps = r.steps + 1)
      (hreleased : r'.session.machine.released = r.session.machine.released)
      (hleads : p.LeadsTo r.position r'.position)
  | ends (hstatus : r'.status = .finished) (hsteps : r'.steps = r.steps)
      (hposition : r'.position = r.position) (hstops : p.StopsAt r.position)
  | fails (fault : Fault) (hstatus : r'.status = .faulted fault) (hsteps : r'.steps = r.steps)
      (hfault : fault.OfInstruction (shows p r) r.session.machine.released)
      (hbefore : r.position + 1 < p.size)

section Inversion

variable {r' : Run} (h : Round p r r')

include h

/-- The run goes on only by going to where the program leads. -/
theorem Round.of_running (hstatus : r'.status = .running) :
    r'.steps = r.steps + 1 ∧ r'.session.machine.released = r.session.machine.released ∧
      p.LeadsTo r.position r'.position := by
  cases h with
  | goes _ hsteps hreleased hleads => exact ⟨hsteps, hreleased, hleads⟩
  | ends hfinished => rw [hstatus] at hfinished; cases hfinished
  | fails fault hfaulted => rw [hstatus] at hfaulted; cases hfaulted

/-- The run finishes only at an end. -/
theorem Round.of_finished (hstatus : r'.status = .finished) :
    r'.steps = r.steps ∧ r'.position = r.position ∧ p.StopsAt r.position := by
  cases h with
  | goes hrunning => rw [hstatus] at hrunning; cases hrunning
  | ends _ hsteps hposition hstops => exact ⟨hsteps, hposition, hstops⟩
  | fails fault hfaulted => rw [hstatus] at hfaulted; cases hfaulted

/-- The run fails only as instructions do, and before the last index. -/
theorem Round.of_faulted {fault : Fault} (hstatus : r'.status = .faulted fault) :
    r'.steps = r.steps ∧ fault.OfInstruction (shows p r) r.session.machine.released ∧
      r.position + 1 < p.size := by
  cases h with
  | goes hrunning => rw [hstatus] at hrunning; cases hrunning
  | ends hfinished => rw [hstatus] at hfinished; cases hfinished
  | fails fault' hfaulted hsteps hfault hbefore =>
    obtain rfl := Status.faulted.inj (hstatus.symm.trans hfaulted)
    exact ⟨hsteps, hfault, hbefore⟩

end Inversion

/-- **One round.** It never leaves the program. -/
theorem Round.of_enclosed (hp : p.Enclosed) (hrun : r.status = .running)
    (hin : 0 ≤ r.position ∧ r.position < p.size) : Round p r (advance p r) := by
  obtain ⟨ins, hfetch⟩ := Program.exists_fetch hin
  by_cases hstop : ins.opcode = .stop
  · -- an end stops the run where it is
    obtain ⟨s, steps, status⟩ := r
    obtain rfl : status = .running := hrun
    have hadvance : advance p ⟨s, steps, .running⟩ = ⟨s, steps, .finished⟩ := by
      change p.fetch s.machine.registers.ip = .ok ins at hfetch
      simp only [advance, hfetch, if_pos hstop]
    rw [hadvance]
    exact .ends rfl rfl rfl ⟨ins, hfetch, hstop⟩
  have hupcoming : upcoming? p r = some ins := upcoming?_eq_some_iff.mpr ⟨hrun, hfetch, hstop⟩
  have hbefore := hp.succ_lt hfetch hstop
  cases hbalks : r.balks ins with
  | true =>
    -- the instruction cannot be recorded, so the run is traced
    have htracing : r.session.monitor.tracing = true := (Bool.and_eq_true_iff.mp hbalks).1
    have hshows : shows p r = true := shows_eq_true_iff.mpr (Or.inl htracing)
    rw [advance_of_balks hupcoming hbalks]
    exact .fails .unwritable rfl rfl (Or.inr (Or.inr (Or.inl ⟨hshows, rfl⟩))) hbefore
  | false =>
    have hdue : due? p r = some ins := due?_eq_some_iff_upcoming.mpr ⟨hupcoming, hbalks⟩
    have hins : ins.WellFormed := wellFormed_of_due hp.valid hdue
    have hstatic : ins.Static := hp.static ins (mem_of_due hdue) hstop
    have hproper := Machine.execute_proper hins r.session.machine
    have hadvance := advance_of_due hdue
    cases hx : Machine.execute ins.opcode ins.operands r.session.machine with
    | ok a m' =>
      have hreleased : m'.released = r.session.machine.released := hproper.ok hx
      rw [hx] at hadvance
      have hstatus : (advance p r).status = .running := by rw [hadvance]; rfl
      -- where the run has gone is read off the machine with direct targets
      have hnext := successor_of_advance hdue hins hstatic hstatus
      refine .goes hstatus ?_ ?_ (hp.leadsTo_of_successor hfetch hstop hnext)
      · rw [hadvance]; rfl
      · rw [hadvance]; exact hreleased
    | error fault m' =>
      rw [hx] at hadvance
      rw [hadvance]
      refine .fails fault rfl rfl ((hproper.error hx).mono fun hprints => ?_) hbefore
      exact shows_eq_true_iff.mpr (Or.inr ⟨ins, mem_of_due hdue, hprints⟩)

/-- A run starts where its program does. -/
theorem position_start (hp : p.Enclosed) (s : Session) : (start p s).position = p.start := by
  obtain ⟨hstart, -⟩ := Program.validate_eq_ok_iff.mp hp.valid
  have hsize := hp.size
  show (s.machine.setIp p.start).registers.ip = p.start
  rw [Machine.ip_setIp, Word.wrap_of_inRange]
  unfold Word.InRange Word.minimum Word.maximum
  omega

/-- A run that has stopped had a last round. -/
theorem exists_last_round {n : Nat} (hrun : r.status = .running)
    (hstop : (after p n r).status ≠ .running) :
    ∃ k, (after p k r).status = .running ∧ after p n r = advance p (after p k r) := by
  induction n with
  | zero => exact absurd hrun hstop
  | succ n ih =>
    by_cases hlast : (after p n r).status = .running
    · exact ⟨n, hlast, after_succ p n r⟩
    · -- the run had stopped before, and the round has changed nothing
      obtain ⟨k, hrunning, hafter⟩ := ih hlast
      refine ⟨k, hrunning, ?_⟩
      rw [after_eq_of_stopped hlast (Nat.le_succ n), hafter]

/-- **Every round.** A run that has not stopped is in its program, and still has its block if it had
one. -/
theorem inside_of_running (hp : p.Enclosed) (s : Session) {n : Nat}
    (hrun : (after p n (start p s)).status = .running) :
    (0 ≤ (after p n (start p s)).position ∧ (after p n (start p s)).position < p.size) ∧
      (after p n (start p s)).session.machine.released = s.machine.released := by
  -- a run that goes on has made no round but such as go on, and these lead from inside to inside
  induction n with
  | zero =>
    rw [after, position_start hp]
    exact ⟨(Program.validate_eq_ok_iff.mp hp.valid).1, rfl⟩
  | succ n ih =>
    have hbefore := running_of_le (Nat.le_succ n) hrun
    obtain ⟨hin, hreleased⟩ := ih hbefore
    rw [after_succ] at hrun ⊢
    obtain ⟨-, hkept, hleads⟩ := (Round.of_enclosed hp hbefore hin).of_running hrun
    exact ⟨hp.inside_of_leadsTo hleads, hkept.trans hreleased⟩

/-- **The last round** is all that a run has to be judged by once it has stopped. -/
theorem exists_last_of_enclosed (hp : p.Enclosed) (s : Session) {n : Nat}
    (hstop : (after p n (start p s)).status ≠ .running) :
    ∃ k, (after p k (start p s)).status = .running ∧
      (after p k (start p s)).session.machine.released = s.machine.released ∧
      Round p (after p k (start p s)) (after p n (start p s)) := by
  obtain ⟨k, hrunning, hafter⟩ := exists_last_round rfl hstop
  obtain ⟨hin, hreleased⟩ := inside_of_running hp s hrunning
  refine ⟨k, hrunning, hreleased, ?_⟩
  rw [hafter]
  exact .of_enclosed hp hrunning hin

end Run

end CellMachine
