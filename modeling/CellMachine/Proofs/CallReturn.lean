import CellMachine.Proofs.DirectTarget
import CellMachine.Proofs.FaultSafety
import CellMachine.Proofs.Frames

/-!
# Calls and returns

A call pushes its own index, and the return that belongs to it pops that index; the increment that
ends every round then brings control to the instruction after the call. Nothing marks the return
that belongs to a call. It is the one at which the words that were put on the stack since the call
have all been taken off, whatever else was called, pushed, popped and jumped to in between
(`Run.Excursion`).

The stack shares its block with data, so this is a promise to programs that keep off the live part
of the stack: no write through a cell operand reaches the cells from the stack pointer upward, and
nothing but the instructions of the stack moves the stack pointer.

* `Machine.Away` is the invariant of an excursion. The stack pointer is as far below the place of
  the call as the count of words says, which is at least one, and from the return index upward the
  block is as the call has left it.
* `Machine.Away.effect` is one instruction, `Run.Excursion.away_after` the rounds up to the return.
* `Run.call_returns` is the whole excursion: control is at the next instruction, the stack pointer
  where it was, and the cells of the caller are untouched.
-/

namespace CellMachine

theorem Opcode.neg_one_le_stackDelta (opcode : Opcode) : -1 ≤ opcode.stackDelta := by
  cases opcode <;> decide

/-- An instruction that can be executed was there before the sentinel was added. -/
theorem Program.index_lt_of_fetch {p : Program} {i : Int} {ins : Instruction}
    (h : p.installed.fetch i = .ok ins) (hstop : ins.opcode ≠ .stop) : 0 ≤ i ∧ i < p.size := by
  have hclosed : ∀ k : Nat, (closed p.instructions)[k]? = some ins → k < p.size := by
    intro k hk
    unfold closed at hk
    split at hk
    · split at hk
      · exact (Array.getElem?_eq_some_iff.mp hk).1
      · rw [Array.getElem?_push] at hk
        split at hk
        · -- this would be the sentinel
          obtain rfl := Option.some.inj hk
          exact absurd rfl hstop
        · exact (Array.getElem?_eq_some_iff.mp hk).1
    · have hmem := Array.mem_of_getElem? hk
      obtain rfl := Array.mem_singleton.mp hmem
      exact absurd rfl hstop
  unfold fetch instruction? at h
  split at h
  · next ins' hi =>
    obtain rfl : ins' = ins := Except.ok.inj h
    split at hi
    · next hnonneg =>
      have hlt := hclosed i.toNat hi
      omega
    · cases hi
  · cases h

namespace Machine

variable {m m' m₁ : Machine} {ins : Instruction} {s d : Int}

/-- The stack pointer at the moment at which an instruction writes its target. A pop has moved it by
then. -/
def spAtWrite (m : Machine) : Opcode → Int
  | .pop | .popf => m.registers.sp + 1
  | _ => m.registers.sp

/-- An instruction has done all that it does to the stack when it writes its target. -/
theorem spAtWrite_of_writes {o : Operand} (h : ins.Writes o) (m : Machine) :
    m.spAtWrite ins.opcode = m.registers.sp - ins.opcode.stackDelta := by
  have htarget : ∀ opcode : Opcode, opcode.signature.head? = some .target →
      m.spAtWrite opcode = m.registers.sp - opcode.stackDelta := by
    intro opcode hhead
    cases opcode with
    | pop | popf => exact (Int.sub_neg _ _).symm
    | push | pushf | call | ret => cases hhead
    | _ => exact (Int.sub_zero _).symm
  exact htarget _ h.head.1

/-! ### The two ends -/

/-- What a call does. -/
theorem Effect.of_call (h : m.Effect ins m') (hop : ins.opcode = .call) :
    ∃ c t, m.locate .releasedWrite (m.registers.sp - 1) = .ok c ∧
      m' = (m.pushed m.registers.ip c).setIp (t - 1) := by
  cases h with
  | call t hop' hc => exact ⟨_, t, hc, rfl⟩
  -- every other effect is one of another opcode
  | _ => simp_all [Opcode.stackDelta, taken?, jumpCondition]

/-- What a return does. -/
theorem Effect.of_ret (h : m.Effect ins m') (hop : ins.opcode = .ret) :
    ∃ c, m.locate .releasedRead m.registers.sp = .ok c ∧
      m' = (m.setSp (m.registers.sp + 1)).setIp (m.cells.get c) := by
  cases h with
  | ret hop' hc => exact ⟨_, hc, rfl⟩
  | _ => simp_all [Opcode.stackDelta, taken?, jumpCondition]

/-! ### In between -/

/-- **Away from the caller.** The call was made with the stack pointer at `s` and has left the
machine `m₁`; since then `d` words are on the stack, the return index among them. -/
structure Away (s : Int) (m₁ : Machine) (d : Int) (m : Machine) : Prop where
  deep : 1 ≤ d
  sp : m.registers.sp = s - d
  kept : ∀ c : Nat, s - 1 ≤ c → m.cells.get c = m₁.cells.get c

theorem Away.setIp (h : Away s m₁ d m) (index : Int) : Away s m₁ d (m.setIp index) where
  deep := h.deep
  sp := (m.sp_setIp index).trans h.sp
  kept := h.kept

/-- **One instruction away from the caller.** It leaves the return index and all above it alone,
if it writes below the stack pointer and takes no more words off the stack than were put there. -/
theorem Away.effect (h : Away s m₁ d m) (he : m.Effect ins m') (hins : ins.WellFormed)
    (hdeep : 1 ≤ d + ins.opcode.stackDelta) (hpointer : ¬ ins.Writes (.ofSlot Slot.sp))
    (hsp : 0 ≤ m'.registers.sp)
    (hbelow : ∀ i, ins.Writes (.cell i) → i < m.spAtWrite ins.opcode) :
    Away s m₁ (d + ins.opcode.stackDelta) m' := by
  have hsp' : m'.registers.sp = s - (d + ins.opcode.stackDelta) := by
    rw [he.sp_eq hins hpointer, h.sp]
    omega
  refine ⟨hdeep, hsp', fun c hc => ?_⟩
  rw [← h.kept c hc]
  rcases he.cell_cases hins c with hsame | hwrites | ⟨hdelta, hpushed⟩
  · exact hsame
  · -- the target lies below the stack pointer, and so below the return index
    exfalso
    have hlt := hbelow c hwrites
    rw [spAtWrite_of_writes hwrites, h.sp] at hlt
    omega
  · -- a push goes to a word further down than the return index
    exfalso
    have hle : m'.registers.sp % m.cellCount ≤ m'.registers.sp := by
      obtain ⟨k, hk⟩ := Int.eq_ofNat_of_zero_le hsp
      rw [hk]
      exact Int.ofNat_le.mpr (Nat.mod_le k m.cellCount)
    have hd := h.deep
    omega

end Machine

/-! ### Excursions -/

namespace Run

open Machine

variable {p : Program} {r : Run} {n : Nat}

/-- The number of words that the first rounds of a run put on the stack. -/
def depth (p : Program) (r : Run) : Nat → Int
  | 0 => 0
  | n + 1 => depth p r n + ((due? p (after p n r)).elim 0 fun ins => ins.opcode.stackDelta)

theorem depth_succ {ins : Instruction} (h : due? p (after p n r) = some ins) :
    depth p r (n + 1) = depth p r n + ins.opcode.stackDelta := by
  rw [depth, h]
  rfl

/-- **An excursion**: a call, `n` rounds later the return that belongs to it, and no fault up to
there. -/
structure Excursion (p : Program) (r : Run) (n : Nat) : Prop where
  call : ∃ ins ∈ due? p r, ins.opcode = .call
  ret : ∃ ins ∈ due? p (after p n r), ins.opcode = .ret
  running : (after p (n + 1) r).status = .running
  /-- The words since the call are first all taken off at the return. -/
  away : ∀ j ≤ n, 0 < j → depth p r j ≠ 0
  back : depth p r (n + 1) = 0
  /-- Only the instructions of the stack move the stack pointer, and they do not move it out of the
  block at its lower end. -/
  pointer : ∀ j < n, 0 < j → ∀ ins ∈ due? p (after p j r), ¬ ins.Writes (.ofSlot Slot.sp)
  inside : ∀ j ≤ n, 0 < j → 0 ≤ (after p j r).session.machine.registers.sp
  /-- What is written through a cell operand lies below the stack pointer. -/
  below : ∀ j < n, 0 < j → ∀ ins ∈ due? p (after p j r), ∀ i, ins.Writes (.cell i) →
    i < (after p j r).session.machine.spAtWrite ins.opcode

/-- A run that goes on was going on before. -/
theorem running_of_le {j k : Nat} (hjk : j ≤ k) (h : (after p k r).status = .running) :
    (after p j r).status = .running := by
  refine Classical.byContradiction fun hstopped => ?_
  rw [after_eq_of_stopped hstopped hjk] at h
  exact hstopped h

/-- A round of a run that goes on after it: the instruction, and what it did. -/
theorem exists_effect {k : Nat} (h : (after p k r).status = .running) (hn : n < k) :
    ∃ ins m', due? p (after p n r) = some ins ∧ (after p n r).session.machine.Effect ins m' ∧
      (after p (n + 1) r).session.machine = m'.setIp (m'.registers.ip + 1) := by
  have hrunning : (advance p (after p n r)).status = .running := by
    rw [← after_succ]
    exact running_of_le hn h
  obtain ⟨ins, m', hdue, hx, hm⟩ := exists_of_advance_running hrunning
  exact ⟨ins, m', hdue, (execute_ends _ ins).ok hx, by rw [after_succ]; exact hm⟩

/-- A due instruction of a valid program has the operands of its signature. -/
theorem wellFormed_of_due {ins : Instruction} (hp : p.validate = .ok ())
    (hdue : due? p r = some ins) : ins.WellFormed :=
  Program.wellFormed_of_validate hp (mem_of_due hdue) (due?_eq_some_iff.mp hdue).2.2.1

/-- The return is another instruction than the call. -/
theorem Excursion.pos (h : Excursion p r n) : 0 < n := by
  refine Nat.pos_of_ne_zero ?_
  rintro rfl
  obtain ⟨ins, hdue, hcall⟩ := h.call
  obtain ⟨ins', hdue', hret⟩ := h.ret
  obtain rfl : ins = ins' := Option.some.inj (hdue.symm.trans hdue')
  rw [hcall] at hret
  cases hret

/-- **The call** puts its index on the stack, and changes no other cell. -/
theorem Excursion.called (h : Excursion p r n) :
    depth p r 1 = 1 ∧
    (after p 1 r).session.machine.registers.sp = r.session.machine.registers.sp - 1 ∧
    ∃ c : Nat, (c : Int) = r.session.machine.registers.sp - 1 ∧
      (after p 1 r).session.machine.cells.get c = Word.wrap r.session.machine.registers.ip ∧
      ∀ e, e ≠ c → (after p 1 r).session.machine.cells.get e = r.session.machine.cells.get e := by
  obtain ⟨ins, hdue, hcall⟩ := h.call
  obtain ⟨ins', m', hdue', heffect, hm⟩ := exists_effect h.running (Nat.succ_pos n)
  obtain rfl : ins = ins' := Option.some.inj (hdue.symm.trans hdue')
  have hdepth : depth p r 1 = 1 := by
    rw [depth_succ hdue', hcall]
    rfl
  obtain ⟨c, t, hc, rfl⟩ := heffect.of_call hcall
  have hsp : (after p 1 r).session.machine.registers.sp = r.session.machine.registers.sp - 1 := by
    rw [hm, sp_setIp, sp_setIp, sp_pushed]
    rfl
  -- the stack pointer is in the block after the call, so the cell is the one that it refers to
  have hinside := h.inside 1 h.pos Nat.one_pos
  rw [hsp] at hinside
  refine ⟨hdepth, hsp, c, locate_eq_ok_of_nonneg hc hinside, ?_, fun e he => ?_⟩
  · rw [hm]
    exact r.session.machine.cells.get_set_self c _
  · rw [hm]
    exact r.session.machine.cells.get_set_of_ne _ (Ne.symm he)

/-- **In between** the run is away from the caller. -/
theorem Excursion.away_after (h : Excursion p r n) (hp : p.validate = .ok ()) {j : Nat}
    (hpos : 0 < j) (hj : j ≤ n) :
    Away r.session.machine.registers.sp (after p 1 r).session.machine (depth p r j)
      (after p j r).session.machine := by
  induction j with
  | zero => exact absurd hpos (Nat.lt_irrefl 0)
  | succ j ih =>
    rcases Nat.eq_zero_or_pos j with rfl | hpos'
    · obtain ⟨hdepth, hsp, -⟩ := h.called
      rw [hdepth]
      exact ⟨Int.le_refl 1, hsp, fun _ _ => rfl⟩
    · have haway := ih hpos' (Nat.le_of_succ_le hj)
      obtain ⟨ins, m', hdue, heffect, hm⟩ := exists_effect h.running (Nat.lt_succ_of_lt hj)
      have hins := wellFormed_of_due hp hdue
      have hsp : 0 ≤ m'.registers.sp := by
        have hinside := h.inside (j + 1) hj hpos
        rw [hm, sp_setIp] at hinside
        exact hinside
      -- one instruction takes off one word at most, so the count cannot pass zero
      have hdeep : 1 ≤ depth p r j + ins.opcode.stackDelta := by
        have hne := h.away (j + 1) hj hpos
        rw [depth_succ hdue] at hne
        have hdelta := ins.opcode.neg_one_le_stackDelta
        have hd := haway.deep
        omega
      rw [hm, depth_succ hdue]
      exact (haway.effect heffect hins hdeep (h.pointer j hj hpos' ins hdue) hsp
        (h.below j hj hpos' ins hdue)).setIp _

/-- **A call returns.** In a loaded program, the return that belongs to a call brings control to the
instruction after the call and the stack pointer to where it was, and the cells from there upward
hold what they held before the call. -/
theorem call_returns {p : Program} (hp : p.validate = .ok ()) (hsize : p.size < 2147483648)
    {r : Run} {n : Nat} (h : Excursion p.installed r n) :
    (after p.installed (n + 1) r).session.machine.registers.ip
      = r.session.machine.registers.ip + 1 ∧
    (after p.installed (n + 1) r).session.machine.registers.sp = r.session.machine.registers.sp ∧
    ∀ c : Nat, r.session.machine.registers.sp ≤ c →
      (after p.installed (n + 1) r).session.machine.cells.get c
        = r.session.machine.cells.get c := by
  have hindex : 0 ≤ r.session.machine.registers.ip ∧ r.session.machine.registers.ip < p.size := by
    obtain ⟨ins, hdue, -⟩ := h.call
    obtain ⟨-, hfetch, hstop, -⟩ := due?_eq_some_iff.mp hdue
    exact Program.index_lt_of_fetch hfetch hstop
  obtain ⟨-, -, c₀, hc₀, hreturn, hrest⟩ := h.called
  have haway := h.away_after (Program.validate_make hp) h.pos (Nat.le_refl n)
  obtain ⟨ins, hdue, hret⟩ := h.ret
  obtain ⟨ins', m', hdue', heffect, hm⟩ := exists_effect h.running (Nat.lt_succ_self n)
  obtain rfl : ins = ins' := Option.some.inj (hdue.symm.trans hdue')
  -- the return takes off the last word, which is the index of the call
  have hdepth : depth p.installed r n = 1 := by
    have hback := h.back
    rw [depth_succ hdue, hret] at hback
    change _ + -1 = 0 at hback
    omega
  rw [hdepth] at haway
  obtain ⟨c, hc, rfl⟩ := heffect.of_ret hret
  have hcell : c = c₀ := by
    have hnat := locate_eq_ok_of_nonneg hc (h.inside n (Nat.le_refl n) h.pos)
    rw [haway.sp] at hnat
    omega
  subst hcell
  have hvalue : (after p.installed n r).session.machine.cells.get c
      = Word.wrap r.session.machine.registers.ip := by
    rw [haway.kept c (by omega), hreturn]
  rw [hm, setIp_next, hvalue]
  refine ⟨?_, ?_, fun e he => ?_⟩
  · have hrange : Word.InRange (r.session.machine.registers.ip + 1) := by
      unfold Word.InRange Word.minimum Word.maximum
      omega
    rw [ip_setIp, Word.wrap_wrap, Word.wrap_wrap_add, Word.wrap_of_inRange hrange]
  · rw [sp_setIp, sp_setSp, haway.sp]
    omega
  · have hkept := haway.kept e (by omega)
    have hsame := hrest e (by omega)
    exact hkept.trans hsame

/-- A program whose function puts a word on the stack, calls another function, and takes the word
off again into a cell. -/
def nestedCalls : Program :=
  .make #[⟨.push, [.immediate 5]⟩, ⟨.call, [.immediate 3]⟩, ⟨.jmp, [.immediate 8]⟩,
    ⟨.push, [.immediate 7]⟩, ⟨.call, [.immediate 7]⟩, ⟨.pop, [.cell 0]⟩, ⟨.ret, []⟩,
    ⟨.ret, []⟩] 0 .empty .empty

/-- Its run on sixteen cells, at the outer call. -/
def atOuterCall : Run :=
  after nestedCalls 1 (start nestedCalls ⟨Layout.machine ⟨64, 16, false⟩, {}⟩)

/-- The function returns behind the outer call, with the word of the caller still on the stack. -/
theorem nestedCalls_returns :
    Excursion nestedCalls.installed atOuterCall 5 ∧
    (after nestedCalls.installed 6 atOuterCall).session.machine.registers.ip = 2 ∧
    (after nestedCalls.installed 6 atOuterCall).session.machine.registers.sp = 15 ∧
    (after nestedCalls.installed 6 atOuterCall).session.machine.cells.get 15 = 5 := by
  -- the only cell that is written through an operand is the first one
  have htargets : ∀ ins ∈ nestedCalls.installed.instructions,
      ∀ x ∈ ins.opcode.signature.zip ins.operands, x.1 = .target → x.2 = .cell 0 := by decide
  have hbelow : ∀ j < 5, 0 < j →
      ∀ ins ∈ due? nestedCalls.installed (after nestedCalls.installed j atOuterCall),
        0 < (after nestedCalls.installed j atOuterCall).session.machine.spAtWrite ins.opcode := by
    decide
  have hexcursion : Excursion nestedCalls.installed atOuterCall 5 :=
    { call := ⟨⟨.call, [.immediate 3]⟩, by decide, rfl⟩
      ret := ⟨⟨.ret, []⟩, by decide, rfl⟩
      running := by decide
      away := by decide
      back := by decide
      pointer := by decide
      inside := by decide
      below := fun j hj hpos ins hdue i hi => by
        have hcell := htargets ins (mem_of_due hdue) _ hi rfl
        obtain rfl := Operand.cell.inj hcell
        exact hbelow j hj hpos ins hdue }
  obtain ⟨hip, hsp, hcells⟩ := call_returns (p := nestedCalls) rfl (by decide) hexcursion
  refine ⟨hexcursion, hip, hsp, ?_⟩
  rw [hcells 15 (by decide)]
  decide

end Run

end CellMachine
