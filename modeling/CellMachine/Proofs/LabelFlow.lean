import CellMachine.Proofs.Acceptance
import CellMachine.Proofs.StaticFlow

/-!
# Programs that branch to labels

A label stands for an index of the program it is written in, or for the index of the sentinel if it
comes after the last instruction. So a program whose branches all go to labels cannot branch out of
itself. If moreover it does not return and does not write the instruction pointer, then it is
enclosed (`Assembly.enclosed_of_parse`), and its runs stay in it for as long as they last, from any
state (`label_flow_contained`). The sentinel is the only end that such a program has, so this is
where it stops.
-/

namespace CellMachine

open Assembly

/-- A run is contained in its program: it is always at one of the instructions, it never fails by
having left the program, and it stops at the last instruction. -/
structure Run.Contained (p : Program) (r : Run) : Prop where
  inside : r.status = .running → 0 ≤ r.position ∧ r.position ≤ (p.size : Int) - 1
  kept : ∀ fault, r.status = .faulted fault → fault.isExecution = false
  stopped : r.status = .finished → r.position = (p.size : Int) - 1

/-- A label resolves to the index that it has in the table. -/
theorem Operand.Resolves.of_isLabel {labels : Table Int} {o o' : Operand}
    (h : Operand.Resolves labels o o') (ho : o.isLabel = true) :
    ∃ name index, labels.find? name = some index ∧ o' = .immediate index := by
  cases h with
  | label hfind => exact ⟨_, _, hfind, rfl⟩
  | same hsame =>
    rw [ho] at hsame
    cases hsame

namespace Assembly

/-- Every operand of a resolved instruction comes from one that was written. -/
theorem exists_resolves_of_mem {labels : Table Int} {ins ins' : Instruction}
    (h : ins.Resolves labels ins') {o' : Operand} (ho' : o' ∈ ins'.operands) :
    ∃ o, o ∈ ins.operands ∧ Operand.Resolves labels o o' := by
  obtain ⟨i, hi⟩ := List.mem_iff_getElem?.mp ho'
  obtain ⟨o, ho, hresolves⟩ := exists_getElem?_of_forall₂ h.operands.flip hi
  exact ⟨o, List.mem_iff_getElem?.mpr ⟨i, ho⟩, hresolves⟩

/-- **The targets of a parsed program** lie in it, if they were all written as labels. -/
theorem targets_of_parse {tokenLines : List (List String)} {defines : Table String} {p : Program}
    (hparse : (parse tokenLines defines).program = .ok p)
    (hlabels : ∀ ins ∈ instructionsOf (tokenLines.map Line.ofTokens),
      ins.opcode.isBranch = true → ∀ o ∈ ins.operands, o.isLabel = true)
    {ins : Instruction} (hins : ins ∈ p.instructions) (hbranch : ins.opcode.isBranch = true)
    {o : Operand} (ho : o ∈ ins.operands) : ∃ t : Int, o = .immediate t ∧ 0 ≤ t ∧ t < p.size := by
  have hsize := size_of_parse hparse
  obtain ⟨ls, body, rfl, -, -, hresolves, rfl⟩ := parse_eq_ok_iff.mp hparse
  rcases Array.mem_push.mp hins with hbody | rfl
  · -- the instruction and its operand were written before labels had indices
    obtain ⟨i, hi⟩ := List.mem_iff_getElem?.mp (List.mem_toArray.mp hbody)
    obtain ⟨source, hsource, hins⟩ := exists_getElem?_of_forall₂ hresolves.flip hi
    obtain ⟨o₀, ho₀, hoperand⟩ := exists_resolves_of_mem hins ho
    rw [hins.opcode] at hbranch
    have hlabel := hlabels source (List.mem_iff_getElem?.mpr ⟨i, hsource⟩) hbranch o₀ ho₀
    obtain ⟨name, index, hfind, rfl⟩ := hoperand.of_isLabel hlabel
    have hbounds := labelTable_bounds (Table.mem_entries_of_find? hfind)
    dsimp only at hbounds
    exact ⟨index, rfl, by omega⟩
  · -- the sentinel is no branch
    cases hbranch

/-- **A parsed program that branches to labels** keeps control. -/
theorem enclosed_of_parse {tokenLines : List (List String)} {defines : Table String} {p : Program}
    (hparse : (parse tokenLines defines).program = .ok p)
    (hsize : (p.size : Int) - 1 ≤ Word.maximum)
    (hlabels : ∀ ins ∈ instructionsOf (tokenLines.map Line.ofTokens),
      ins.opcode.isBranch = true → ∀ o ∈ ins.operands, o.isLabel = true)
    (hret : ∀ ins ∈ p.instructions, ins.opcode ≠ .ret)
    (hip : ∀ ins ∈ p.instructions, ¬ ins.Writes (.ofSlot Slot.ip)) : p.Enclosed where
  valid := by
    have hcount := size_of_parse hparse
    exact (assembled_of_parse (by omega) hparse).validate
  size := by
    unfold Word.maximum at hsize
    omega
  closed := by
    obtain ⟨ls, body, rfl, -, -, -, rfl⟩ := parse_eq_ok_iff.mp hparse
    refine ⟨.sentinel, Program.fetch_eq_ok_iff.mpr ⟨?_, ?_⟩, rfl⟩
    · rw [Program.size, Array.size_push]
      omega
    · rw [Program.size, Array.size_push, Int.natCast_succ, Int.add_sub_cancel, Int.toNat_natCast]
      exact Array.getElem?_push_size
  static ins hins _ :=
    { target := fun hbranch o ho =>
        (targets_of_parse hparse hlabels hins hbranch ho).imp fun _ h => h.1
      no_return := hret ins hins
      ip_kept := hip ins hins }
  targets ins hins hbranch t ht := by
    obtain ⟨t', ht', hbounds⟩ := targets_of_parse hparse hlabels hins hbranch ht
    obtain rfl : t = t' := Operand.immediate.inj ht'
    exact hbounds

/-- The only end of a parsed program is its last instruction. -/
theorem eq_last_of_stopsAt {tokenLines : List (List String)} {defines : Table String} {p : Program}
    (hparse : (parse tokenLines defines).program = .ok p) {i : Int} (h : p.StopsAt i) :
    i = (p.size : Int) - 1 := by
  obtain ⟨ls, body, rfl, -, -, hresolves, rfl⟩ := parse_eq_ok_iff.mp hparse
  obtain ⟨ins, hfetch, hstop⟩ := h
  obtain ⟨hi, hget⟩ := Program.fetch_eq_ok_iff.mp hfetch
  dsimp only at hget
  rw [Array.getElem?_push] at hget
  rw [Program.size, Array.size_push]
  split at hget
  · -- this is the sentinel that parsing adds
    omega
  · obtain ⟨source, hwritten, hins⟩ := exists_written_of_resolves hresolves
      (List.mem_toArray.mp (Array.mem_of_getElem? hget))
    rw [hins.opcode] at hstop
    exact absurd hstop hwritten.ne_stop

end Assembly

/-- **Control that goes to labels stays in the program.** In a parsed program of no more
instructions than there are 32-bit indices, let every branch go to a label, let there be no return,
and let no instruction write the instruction pointer. Then every run, from any state and for any
number of rounds, is contained in the program. -/
theorem label_flow_contained {tokenLines : List (List String)} {defines : Table String}
    {p : Program} (hparse : (parse tokenLines defines).program = .ok p)
    (hsize : (p.size : Int) - 1 ≤ Word.maximum)
    (hlabels : ∀ ins ∈ instructionsOf (tokenLines.map Line.ofTokens),
      ins.opcode.isBranch = true → ∀ o ∈ ins.operands, o.isLabel = true)
    (hret : ∀ ins ∈ p.instructions, ins.opcode ≠ .ret)
    (hip : ∀ ins ∈ p.instructions, ¬ ins.Writes (.ofSlot Slot.ip))
    (m : Machine) (w : Monitor) (n : Nat) :
    (Run.after p n (Run.start p ⟨m, w⟩)).Contained p := by
  -- labels are resolved to indices of the program, so that it keeps control
  have hp : p.Enclosed := enclosed_of_parse hparse hsize hlabels hret hip
  refine ⟨fun hrun => ?_, fun fault hfaulted => ?_, fun hfinished => ?_⟩
  · obtain ⟨hin, -⟩ := Run.inside_of_running hp ⟨m, w⟩ hrun
    omega
  · obtain ⟨k, -, -, hround⟩ :=
      Run.exists_last_of_enclosed hp ⟨m, w⟩ (by rw [hfaulted]; exact nofun)
    obtain ⟨-, hfault, -⟩ := hround.of_faulted hfaulted
    exact hfault.isExecution_eq_false
  · obtain ⟨k, -, -, hround⟩ :=
      Run.exists_last_of_enclosed hp ⟨m, w⟩ (by rw [hfinished]; exact nofun)
    obtain ⟨-, hposition, hstops⟩ := hround.of_finished hfinished
    exact hposition.trans (eq_last_of_stopsAt hparse hstops)

/-- A loop whose head is the first instruction, entered from below, with its exit behind the last
instruction. -/
def loopLines : List (List String) :=
  [["top:", "dec", "eax"], ["cmp", "eax", "0"], ["jne", "top"], ["jmp", "done"],
    ["start:", "mov", "eax", "2"], ["jmp", "top"], ["done:"]]

/-- The program of these lines. -/
def loopProgram : Program where
  instructions := #[⟨.dec, [.register 0]⟩, ⟨.cmp, [.register 0, .immediate 0]⟩,
    ⟨.jne, [.immediate 0]⟩, ⟨.jmp, [.immediate 6]⟩, ⟨.mov, [.register 0, .immediate 2]⟩,
    ⟨.jmp, [.immediate 0]⟩, .sentinel]
  start := 4
  labels := ⟨[("top", 0), ("start", 4), ("done", 6)]⟩

/-- Its runs are contained. One goes to the first instruction and ends at the sentinel. -/
theorem loopLines_contained :
    (parse loopLines .empty).program = .ok loopProgram ∧
    (∀ m w n, (Run.after loopProgram n (Run.start loopProgram ⟨m, w⟩)).Contained loopProgram) ∧
    (Run.after loopProgram 2
      (Run.start loopProgram ⟨{ cellCount := 0, checked := true }, {}⟩)).position = 0 ∧
    (Run.after loopProgram 10
      (Run.start loopProgram ⟨{ cellCount := 0, checked := true }, {}⟩)).status = .finished := by
  have hparse : (parse loopLines .empty).program = .ok loopProgram := rfl
  refine ⟨hparse, fun m w n => label_flow_contained hparse (by decide) ?_ ?_ ?_ m w n, rfl, rfl⟩
  · decide
  · decide
  · decide

end CellMachine
