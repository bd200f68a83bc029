import CellMachine.Proofs.Histories
import CellMachine.Proofs.TraceLines

/-!
# Tracing observes

While tracing is on, the monitor writes a line for every instruction that is about to be executed.
A host turns tracing on and off and clears the trace whenever it likes, between operations that load
and execute programs (`Context.Call`). Two things are shown of all such histories.

The trace tells what has happened. What a step dispatches is the instruction at the instruction
pointer, unless the step is refused (`Session.dispatch?`), and a run dispatches one instruction a
round (`Run.dispatches`). From this a host could keep a ledger of its own, with everything that was
dispatched while tracing was on, since the last time it was cleared (`Context.Ledger`). The trace has
the last lines of that ledger, and index and registers can be read from each.

* `Monitor.Holds` relates the lines that are stored to those of a ledger. More lines are stored than
  are shown, and old ones are dropped many at a time, so the two are compared by what they end in.
* `Context.monitor_step` and `Context.monitor_run` say that the monitor is told of what is
  dispatched, whether or not it is then executed without a fault.
* `Context.Ledger.Matches.call` is one call, `Context.Ledger.Matches.calls` a history.

The trace has no part in what happens, as long as every line can be written. Where a line holds a
number of too many digits, a run that is traced ends, and one that is not goes on
(`Run.observed_start`, `Context.farBranch_interferes`). No line does in programs whose cells can be
written (`writableNext_after`). There histories with the same operations look the same to the host,
whatever it does about tracing in between (`Context.sights_eq`). Operations that read files are left
out here: lines of the trace are written to the log as well, and the log may be one of the files.
-/

namespace CellMachine

/-! ### Dispatches -/

/-- An instruction that is about to be executed, and the registers at this moment. -/
structure Dispatch where
  index : Int
  instruction : Instruction
  registers : RegisterFile

/-- The line of a trace for it. -/
def Dispatch.line (d : Dispatch) : String := Monitor.traceLine d.index d.instruction d.registers

namespace Session

variable {p : Program} {s s' : Session}

/-- What a step dispatches. It is refused outside the program and at a sentinel, and where its line
is to be recorded and cannot be written; nothing is dispatched then. -/
def dispatch? (p : Program) (s : Session) : Option Dispatch :=
  match p.fetch s.machine.registers.ip with
  | .ok ins =>
    if ins.opcode = .stop then none
    else if s.monitor.balks s.machine.registers.ip ins s.machine.registers then none
    else some ⟨s.machine.registers.ip, ins, s.machine.registers⟩
  | .error _ => none

/-- The fault of a step that dispatches nothing. -/
def refusal (p : Program) (s : Session) : Fault :=
  match p.fetch s.machine.registers.ip with
  | .ok ins => if ins.opcode = .stop then .atEnd s.machine.registers.ip else .unwritable
  | .error fault => fault

/-- Of the monitor it matters only whether it traces. -/
theorem dispatch?_congr (hmachine : s.machine = s'.machine)
    (htracing : s.monitor.tracing = s'.monitor.tracing) : dispatch? p s = dispatch? p s' := by
  unfold dispatch? Monitor.balks
  rw [hmachine, htracing]

end Session

namespace Run

variable {p : Program} {r : Run}

/-- What the next round of a run dispatches. -/
def dispatch? (p : Program) (r : Run) : Option Dispatch :=
  if r.status = .running then r.session.dispatch? p else none

/-- What the first rounds of a run dispatch, in order. -/
def dispatches (p : Program) (r : Run) : Nat → List Dispatch
  | 0 => []
  | n + 1 => dispatches p r n ++ (dispatch? p (after p n r)).toList

/-- A round dispatches the instruction that is due. -/
theorem dispatch?_eq_map_due (p : Program) (r : Run) :
    dispatch? p r =
      (due? p r).map fun ins =>
        ⟨r.session.machine.registers.ip, ins, r.session.machine.registers⟩ := by
  obtain ⟨s, steps, status⟩ := r
  cases status with
  | finished => rfl
  | faulted fault => rfl
  | running =>
    show s.dispatch? p = _
    unfold Session.dispatch? due? upcoming? balks
    dsimp only
    cases p.fetch s.machine.registers.ip with
    | error fault => rfl
    | ok ins =>
      dsimp only
      by_cases hstop : ins.opcode = .stop
      · rw [if_pos hstop, if_pos hstop]
        rfl
      · rw [if_neg hstop, if_neg hstop, Option.filter_some]
        -- a line that cannot be written holds the instruction up, here and there
        cases s.monitor.balks s.machine.registers.ip ins s.machine.registers with
        | true => rfl
        | false => rfl

/-- What is dispatched depends on the monitor only by whether it traces. -/
theorem dispatches_alike {r' : Run} (h : Alike r r')
    (htracing : r'.session.monitor.tracing = r.session.monitor.tracing) (n : Nat) :
    dispatches p r n = dispatches p r' n := by
  induction n with
  | zero => rfl
  | succ n ih =>
    have hafter := after_alike (p := p) h htracing n
    -- the rounds before have left the two monitors as they were as to tracing
    have hnext : dispatch? p (after p n r) = dispatch? p (after p n r') := by
      unfold dispatch?
      rw [hafter.status, Session.dispatch?_congr hafter.machine]
      rw [tracing_after, tracing_after, htracing]
    rw [dispatches, dispatches, ih, hnext]

end Run

/-! ### The stored lines -/

namespace Monitor

variable {w : Monitor} {trace : Array String} {lines : List String}

/-- The stored lines are the last of some lines. They are all of them, or at least as many as are to
be kept. -/
def Holds (trace : Array String) (lines : List String) : Prop :=
  ∃ older, lines = older ++ trace.toList ∧ (older = [] ∨ traceLimit ≤ trace.size)

/-- From an index to the end is what is left after as many are dropped. -/
theorem toList_extract_size (trace : Array String) (i : Nat) :
    (trace.extract i trace.size).toList = trace.toList.drop i := by
  have hlength : (trace.toList.drop i).length = trace.size - i := by
    rw [List.length_drop, Array.length_toList]
  rw [Array.toList_extract, List.extract_eq_take_drop]
  exact List.take_of_length_le (Nat.le_of_eq hlength)

/-- **A line is stored** after the others. -/
theorem Holds.keep (h : Holds trace lines) (line : String) :
    Holds (keep trace line) (lines ++ [line]) := by
  obtain ⟨older, rfl, hkept⟩ := h
  unfold Monitor.keep
  split
  · refine ⟨older, ?_, hkept.imp_right fun hsize => ?_⟩
    · rw [Array.toList_push, List.append_assoc]
    · rw [Array.size_push]
      omega
  · next hfull =>
    -- what is dropped joins the lines that were dropped before, and enough lines are left
    refine ⟨older ++ trace.toList.take traceLimit, ?_, Or.inr ?_⟩
    · rw [Array.toList_push, toList_extract_size, List.append_assoc, List.append_assoc,
        ← List.append_assoc (List.take _ _), List.take_append_drop]
    · rw [Array.size_push, Array.size_extract]
      omega

/-- **The lines that are shown** are the last lines, as many as there are up to the limit. -/
theorem Holds.recent (h : Holds w.trace lines) :
    w.recent.toList = lines.drop (lines.length - min lines.length traceLimit) := by
  obtain ⟨older, rfl, hkept⟩ := h
  have hsize : w.trace.toList.length = w.trace.size := Array.length_toList
  unfold Monitor.recent
  rw [toList_extract_size, List.length_append, hsize]
  rcases hkept with rfl | hlimit
  · have hdrop : w.trace.size - min w.trace.size traceLimit = w.trace.size - traceLimit := by omega
    rw [List.length_nil, Nat.zero_add, List.nil_append, hdrop]
  · -- all lines that were dropped are older than those that are shown
    have hdrop : older.length + w.trace.size -
        min (older.length + w.trace.size) traceLimit =
          older.length + (w.trace.size - traceLimit) := by omega
    rw [hdrop, List.drop_append, List.drop_of_length_le (Nat.le_add_right _ _), List.nil_append,
      Nat.add_sub_cancel_left]

/-- Two monitors trace alike and store the same lines. What was logged may differ. -/
structure SameTrace (w w' : Monitor) : Prop where
  tracing : w.tracing = w'.tracing
  trace : w.trace = w'.trace

/-- The monitor after it was told of some dispatches. -/
def note (w : Monitor) (ds : List Dispatch) : Monitor :=
  ds.foldl (fun w d => w.observe d.index d.instruction d.registers) w

/-- A monitor is told of some dispatches and then of others. -/
theorem note_append (w : Monitor) (ds ds' : List Dispatch) :
    w.note (ds ++ ds') = (w.note ds).note ds' :=
  List.foldl_append

/-- While tracing is on, a dispatch adds its line. -/
theorem observe_of_tracing (h : w.tracing = true) (d : Dispatch) :
    (w.observe d.index d.instruction d.registers).tracing = true ∧
      (w.observe d.index d.instruction d.registers).trace = Monitor.keep w.trace d.line := by
  obtain ⟨tracing, trace, log⟩ := w
  obtain rfl : tracing = true := h
  exact ⟨rfl, rfl⟩

/-- While it is off, the monitor takes no notice. -/
theorem observe_of_not_tracing (h : w.tracing = false) (d : Dispatch) :
    w.observe d.index d.instruction d.registers = w := by
  obtain ⟨tracing, trace, log⟩ := w
  obtain rfl : tracing = false := h
  rfl

/-- Nor does it of many dispatches. -/
theorem note_of_not_tracing (h : w.tracing = false) (ds : List Dispatch) : w.note ds = w := by
  induction ds with
  | nil => rfl
  | cons d ds ih =>
    show (w.observe d.index d.instruction d.registers).note ds = w
    rw [observe_of_not_tracing h, ih]

/-- **While tracing is on**, there is a line for every dispatch. -/
theorem Holds.note (h : Holds w.trace lines) (hw : w.tracing = true) (ds : List Dispatch) :
    (w.note ds).tracing = true ∧ Holds (w.note ds).trace (lines ++ ds.map Dispatch.line) := by
  induction ds generalizing w lines with
  | nil =>
    rw [List.map_nil, List.append_nil]
    exact ⟨hw, h⟩
  | cons d ds ih =>
    obtain ⟨hon, htrace⟩ := observe_of_tracing hw d
    have hline : Holds (w.observe d.index d.instruction d.registers).trace (lines ++ [d.line]) :=
      htrace ▸ h.keep d.line
    rw [List.map_cons, List.append_cons]
    exact ih hline hon

end Monitor

/-! ### What the monitor is told -/

namespace Session

variable {p : Program} {s : Session}

/-- **A step that dispatches** executes the instruction, of which the monitor was told before. -/
theorem step_of_dispatch {d : Dispatch} (h : s.dispatch? p = some d) :
    step p s =
      match Machine.execute d.instruction.opcode d.instruction.operands s.machine with
      | .ok () m => .ok () ⟨m, s.monitor.note [d]⟩
      | .error fault m => .error fault ⟨m, s.monitor.note [d]⟩ := by
  obtain ⟨m, w⟩ := s
  unfold dispatch? at h
  unfold step
  dsimp only at h ⊢
  cases hf : p.fetch m.registers.ip with
  | error fault =>
    rw [hf] at h
    cases h
  | ok ins =>
    rw [hf] at h
    dsimp only at h ⊢
    by_cases hstop : ins.opcode = .stop
    · rw [if_pos hstop] at h
      cases h
    · rw [if_neg hstop] at h ⊢
      by_cases hbalks : w.balks m.registers.ip ins m.registers = true
      · rw [if_pos hbalks] at h
        cases h
      · rw [if_neg hbalks] at h ⊢
        obtain rfl := Option.some.inj h
        rfl

/-- **A step that dispatches nothing** is refused, and leaves everything as it was. -/
theorem step_of_refused (h : s.dispatch? p = none) : step p s = .error (s.refusal p) s := by
  obtain ⟨m, w⟩ := s
  unfold dispatch? at h
  unfold step refusal
  dsimp only at h ⊢
  cases hf : p.fetch m.registers.ip with
  | error fault => rfl
  | ok ins =>
    rw [hf] at h
    dsimp only at h ⊢
    by_cases hstop : ins.opcode = .stop
    · rw [if_pos hstop, if_pos hstop]
    · rw [if_neg hstop] at h
      by_cases hbalks : w.balks m.registers.ip ins m.registers = true
      · rw [if_neg hstop, if_neg hstop, if_pos hbalks]
      · rw [if_neg hbalks] at h
        cases h

end Session

/-- A round tells the monitor of what it dispatches, also if the instruction fails. -/
theorem Run.monitor_advance (p : Program) (r : Run) :
    (advance p r).session.monitor = r.session.monitor.note (dispatch? p r).toList := by
  rw [dispatch?_eq_map_due]
  cases hdue : due? p r with
  | none =>
    rw [advance_of_not_due hdue]
    rfl
  | some ins =>
    rw [advance_of_due hdue]
    cases Machine.execute ins.opcode ins.operands r.session.machine with
    | ok a m => rfl
    | error fault m => rfl

/-- A run tells it of all that its rounds dispatch. -/
theorem Run.monitor_after (p : Program) (r : Run) (n : Nat) :
    (after p n r).session.monitor = r.session.monitor.note (dispatches p r n) := by
  induction n with
  | zero => rfl
  | succ n ih => rw [after_succ, monitor_advance, ih, dispatches, Monitor.note_append]

namespace Context

/-- **A step** tells the monitor of what it dispatches, also if the instruction fails. -/
theorem monitor_step (p : Program) (s : Session) :
    (left (step (ofSession p s))).monitor =
      s.monitor.note (s.dispatch? p).toList := by
  rw [step_ofSession]
  cases hd : s.dispatch? p with
  | none =>
    rw [Session.step_of_refused hd]
    rfl
  | some d =>
    rw [Session.step_of_dispatch hd]
    cases Machine.execute d.instruction.opcode d.instruction.operands s.machine with
    | ok a m => rfl
    | error fault m => rfl

/-- A run leaves the session that it has come to. -/
theorem left_run (p : Program) (s : Session) (rounds : Nat) :
    left (run rounds (ofSession p s)) =
      ofSession p (Run.after p rounds (Run.start p s)).session := by
  rw [run_ofSession]
  obtain ⟨s', steps, status⟩ := Run.after p rounds (Run.start p s)
  cases status with
  | running => rfl
  | finished => rfl
  | faulted fault => rfl

/-- **A run** tells the monitor of what it dispatches. -/
theorem monitor_run (p : Program) (s : Session) (rounds : Nat) :
    (left (run rounds (ofSession p s))).monitor =
      s.monitor.note (Run.dispatches p (Run.start p s) rounds) := by
  rw [left_run]
  exact Run.monitor_after p (Run.start p s) rounds

/-! ### Calls -/

/-- What a host does with a context that can be traced. -/
inductive Call where
  | operate (op : Operation)
  | enableTrace (on : Bool)
  | clearTrace

/-- The context after a call, whether or not it failed. -/
def Call.on (c : Context) : Call → Context
  | .operate op => left (op.perform c)
  | .enableTrace on => { c with monitor := c.monitor.setTracing on }
  | .clearTrace => { c with monitor := c.monitor.clearTrace }

/-- The context after some calls. -/
def afterCalls (c : Context) (calls : List Call) : Context := calls.foldl Call.on c

/-- The number of steps that a run returns is not part of what it leaves. -/
theorem Operation.left_perform_run (rounds : Nat) (c : Context) :
    left ((Operation.run rounds).perform c) = left (Context.run rounds c) :=
  left_discard _ c

/-- Nor is what reading a file returns. -/
theorem Operation.left_perform_interpret (files : Files.Live) (rounds : Nat) (filename : String)
    (c : Context) :
    left ((Operation.interpret files rounds filename).perform c) =
      left (Context.interpret files rounds filename c) :=
  left_discard _ c

/-- What an operation dispatches, with tracing on or off. The monitor that the context has is not
looked at. -/
def Operation.dispatches (tracing : Bool) : Operation → Context → List Dispatch
  | .step, ⟨some m, some p, _⟩ => (Session.dispatch? p ⟨m, { tracing }⟩).toList
  | .run rounds, ⟨some m, some p, _⟩ => Run.dispatches p (Run.start p ⟨m, { tracing }⟩) rounds
  | _, _ => []

/-- What a host writes down that follows every dispatch itself: whether tracing is on, and all that
was dispatched while it was, since the last time the trace was cleared. -/
structure Ledger where
  tracing : Bool
  entries : List Dispatch

namespace Ledger

/-- The ledger of a new context. -/
def blank : Ledger := ⟨false, []⟩

/-- The ledger after a call on a context. -/
def call (k : Ledger) (c : Context) : Call → Ledger
  | .operate op =>
    if k.tracing then ⟨true, k.entries ++ op.dispatches true c⟩ else k
  | .enableTrace on => ⟨on, k.entries⟩
  | .clearTrace => ⟨k.tracing, []⟩

/-- The ledger after some calls, the first of them on the context `c`. -/
def calls (k : Ledger) (c : Context) : List Call → Ledger
  | [] => k
  | call :: rest => (k.call c call).calls (call.on c) rest

/-- The last entries, as many as there are up to the limit. -/
def recent (k : Ledger) : List Dispatch :=
  k.entries.drop (k.entries.length - min k.entries.length Monitor.traceLimit)

end Ledger

/-! ### The trace and the ledger -/

/-- Loading a program writes to the log only. -/
theorem sameTrace_load (p : Program) (c : Context) :
    (left (load p c)).monitor.SameTrace c.monitor := by
  unfold Context.load
  cases p.validate with
  | error defect => exact ⟨rfl, rfl⟩
  | ok _ => exact ⟨rfl, rfl⟩

/-- Assembling writes to the log only as well. -/
theorem sameTrace_loadSource (files : Files.Live) (rounds : Nat) (source : String)
    (base : Option Files.Path) (c : Context) :
    (left (loadSource files rounds source base c)).monitor.SameTrace c.monitor := by
  unfold Context.loadSource
  split
  · exact ⟨rfl, rfl⟩
  · next p log _ =>
    have hload := sameTrace_load p (c.withLog log)
    exact ⟨hload.tracing, hload.trace⟩

/-- And so does reading a file. -/
theorem sameTrace_interpret (files : Files.Live) (rounds : Nat) (filename : String) (c : Context) :
    (left (interpret files rounds filename c)).monitor.SameTrace c.monitor := by
  unfold Context.interpret
  split
  · exact ⟨rfl, rfl⟩
  · exact ⟨rfl, rfl⟩
  · next source log _ =>
    have hload := sameTrace_loadSource files rounds source.text (some source.path.parent)
      (c.withLog log)
    split
    · next c' hc =>
      rw [hc] at hload
      exact ⟨hload.tracing, hload.trace⟩
    · next failure c' hc =>
      rw [hc] at hload
      -- a failure that is reported is logged, which is no matter of the trace
      split
      · exact ⟨hload.tracing, hload.trace⟩
      · exact ⟨hload.tracing, hload.trace⟩

/-- **An operation** tells the monitor of what it dispatches, and does nothing else to the trace. -/
theorem Operation.sameTrace_perform (op : Operation) (p : Program) (s : Session) :
    (left (op.perform (ofSession p s))).monitor.SameTrace
      (s.monitor.note (op.dispatches s.monitor.tracing (ofSession p s))) := by
  cases op with
  | load q => exact sameTrace_load q _
  | loadSource files rounds source base => exact sameTrace_loadSource files rounds source base _
  | interpret files rounds filename =>
    rw [left_perform_interpret]
    exact sameTrace_interpret files rounds filename _
  | run rounds =>
    have hsame : Run.dispatches p (Run.start p s) rounds =
        Run.dispatches p (Run.start p ⟨s.machine, { tracing := s.monitor.tracing }⟩) rounds :=
      Run.dispatches_alike
        (Run.start_alike p s.machine s.monitor { tracing := s.monitor.tracing }) rfl rounds
    rw [left_perform_run, monitor_run, hsame]
    exact ⟨rfl, rfl⟩
  | step =>
    have hsame : s.dispatch? p =
        Session.dispatch? p ⟨s.machine, { tracing := s.monitor.tracing }⟩ :=
      Session.dispatch?_congr rfl rfl
    show (left (Context.step (ofSession p s))).monitor.SameTrace _
    rw [monitor_step, hsame]
    exact ⟨rfl, rfl⟩
  | moveTo index => exact ⟨rfl, rfl⟩

/-- A monitor traces when the ledger says so, and stores the last lines of the ledger. -/
structure Ledger.Matches (k : Ledger) (w : Monitor) : Prop where
  tracing : w.tracing = k.tracing
  holds : Monitor.Holds w.trace (k.entries.map Dispatch.line)

/-- **The trace** has the lines of the last entries. -/
theorem Ledger.Matches.traceText {k : Ledger} {w : Monitor} (h : k.Matches w) :
    w.traceText = "\n".intercalate (k.recent.map Dispatch.line) := by
  rw [Monitor.traceText, h.holds.recent, List.length_map, ← List.map_drop]
  rfl

/-! ### Reachable contexts -/

variable {l : Layout} {c : Context}

/-- How often a call may fail while it executes. -/
def Call.uses : Call → Nat
  | .operate (.run _) | .operate .step => 1
  | _ => 0

/-- The number of runs and steps among some calls. -/
def usesOf : List Call → Nat
  | [] => 0
  | call :: calls => call.uses + usesOf calls

/-- A context that has a sound machine and a validated program has them after every call. -/
theorem Sound.call {k : Nat} (h : c.Sound l k) (call : Call) :
    (call.on c).Sound l (k + call.uses) := by
  obtain ⟨p, s, rfl, hm, hp⟩ := h.eq_ofSession
  cases call with
  | enableTrace on => exact ⟨h.machine, h.program⟩
  | clearTrace => exact ⟨h.machine, h.program⟩
  | operate op =>
    cases op with
    | load q => exact h.load q
    | loadSource files rounds source base => exact h.loadSource files rounds source base
    | interpret files rounds filename =>
      rw [Call.on, Operation.left_perform_interpret]
      exact h.interpret files rounds filename
    | run rounds =>
      rw [Call.on, Operation.left_perform_run]
      exact (sound_run hm hp rounds).1
    | step => exact (sound_step hm hp).1
    | moveTo index => exact h.moveTo index

/-- **One call** keeps the trace in agreement with the ledger. -/
theorem Ledger.Matches.call {k : Ledger} {n : Nat} (h : k.Matches c.monitor) (hc : c.Sound l n)
    (call : Call) : (k.call c call).Matches (call.on c).monitor := by
  obtain ⟨p, s, rfl, -, -⟩ := hc.eq_ofSession
  cases call with
  | enableTrace on => exact ⟨rfl, h.holds⟩
  | clearTrace => exact ⟨h.tracing, [], rfl, Or.inl rfl⟩
  | operate op =>
    obtain ⟨htracing, htrace⟩ := op.sameTrace_perform p s
    rw [Call.on]
    cases hon : k.tracing with
    | true =>
      have hw : s.monitor.tracing = true := h.tracing.trans hon
      have hentry : k.call (ofSession p s) (.operate op) =
          ⟨true, k.entries ++ op.dispatches true (ofSession p s)⟩ := if_pos hon
      obtain ⟨hstays, hholds⟩ := h.holds.note hw (op.dispatches true (ofSession p s))
      rw [hw] at htracing htrace
      rw [hentry]
      refine ⟨htracing.trans hstays, ?_⟩
      rw [htrace, List.map_append]
      exact hholds
    | false =>
      -- nothing is written down, neither here nor there
      have hw : s.monitor.tracing = false := h.tracing.trans hon
      have hentry : k.call (ofSession p s) (.operate op) = k :=
        if_neg (Bool.eq_false_iff.mp hon)
      rw [Monitor.note_of_not_tracing hw] at htracing htrace
      rw [hentry]
      refine ⟨htracing.trans h.tracing, ?_⟩
      rw [htrace]
      exact h.holds

/-- **A history** keeps the trace in agreement with the ledger, and the machine sound. -/
theorem Ledger.Matches.calls {k : Ledger} {n : Nat} (h : k.Matches c.monitor) (hc : c.Sound l n)
    (calls : List Call) :
    (k.calls c calls).Matches (c.afterCalls calls).monitor ∧
      (c.afterCalls calls).Sound l (n + usesOf calls) := by
  -- the ledger is kept on the contexts as they were, so the first call is taken off, not the last
  induction calls generalizing c k n with
  | nil => exact ⟨h, hc⟩
  | cons call rest ih =>
    rw [usesOf, ← Nat.add_assoc]
    exact ih (h.call hc call) (hc.call call)

/-- The trace of a fresh context is empty, and so is a new ledger. -/
theorem matches_of_create (h : create l = .ok c) : Ledger.blank.Matches c.monitor := by
  unfold Context.create at h
  split at h
  · cases h
  · split at h
    · cases h
    · cases h
    · obtain rfl := Except.ok.inj h
      exact ⟨rfl, [], rfl, Or.inl rfl⟩

end Context

/-! ### Runs that are traced and runs that are not -/

namespace Run

variable {p : Program} {m : Machine} {w : Monitor}

/-- **How a run that is traced compares with one that is not.** They are alike for as long as every
line can be written. Where one cannot, the traced run ends, before it executes the instruction. -/
structure Observed (p : Program) (traced plain : Nat → Run) : Prop where
  alike : ∀ n, (∀ k < n, WritableNext p (plain k)) → Alike (traced n) (plain n)
  stops : ∀ n, (∀ k < n, WritableNext p (plain k)) → ¬ WritableNext p (plain n) →
    ∀ j, n < j → traced j = { traced n with status := .faulted .unwritable }

/-- The run of a program on a machine, traced or not. -/
def underTrace (p : Program) (m : Machine) (w : Monitor) (on : Bool) (n : Nat) : Run :=
  after p n (start p ⟨m, w.setTracing on⟩)

/-- Traced and untraced runs are alike while the lines can be written. -/
theorem alike_of_writable {n : Nat}
    (hlines : ∀ k < n, WritableNext p (underTrace p m w false k)) :
    Alike (underTrace p m w true n) (underTrace p m w false n) :=
  (after_alike_of_writable (start_alike p m (w.setTracing false) (w.setTracing true)) hlines).symm

/-- **Traced runs only observe**, up to the first line that cannot be written. -/
theorem observed_start (p : Program) (m : Machine) (w : Monitor) :
    Observed p (underTrace p m w true) (underTrace p m w false) where
  alike _ hlines := alike_of_writable hlines
  stops n hlines hline j hj := by
    have halike := alike_of_writable hlines
    have htracing : (underTrace p m w true n).session.monitor.tracing = true := tracing_after _ _ _
    -- the run that is not traced has come to the same line, so it is this one that balks
    obtain ⟨ins, hins, hbalks⟩ :=
      exists_balks (fun h => hline (halike.symm.writableNext h)) htracing
    have hnext : underTrace p m w true (n + 1) =
        { underTrace p m w true n with status := .faulted .unwritable } := by
      rw [← advance_of_balks hins hbalks]
      exact after_succ p n _
    -- the run has stopped, so that further rounds change nothing
    rw [← hnext]
    refine after_eq_of_stopped ?_ hj
    show (underTrace p m w true (n + 1)).status ≠ .running
    rw [hnext]
    exact nofun

end Run

namespace Context

variable {l : Layout} {c : Context}

/-! ### What a host sees -/

/-- What a host sees of an operation: the number that it returns, if it returns one, or the failure,
and the machine and the program that it leaves. -/
structure Sight where
  result : Except Failure (Option Nat)
  machine : Option Machine
  program : Option Program

def Sight.of {α : Type} (number : α → Option Nat) : EStateM.Result Failure Context α → Sight
  | .ok a c => ⟨.ok (number a), c.machine, c.program⟩
  | .error failure c => ⟨.error failure, c.machine, c.program⟩

def Operation.sight (c : Context) : Operation → Sight
  | .run rounds => .of some (Context.run rounds c)
  | .interpret files rounds filename => .of some (Context.interpret files rounds filename c)
  | op => .of (fun _ => none) (op.perform c)

/-- What a host sees of some calls, one after the other, if it does not look at the trace. -/
def sights (c : Context) : List Call → List Sight
  | [] => []
  | .operate op :: calls => op.sight c :: sights (left (op.perform c)) calls
  | call :: calls => sights (call.on c) calls

/-- The operation reads files, of which the log may be one. -/
def Operation.readsFiles : Operation → Bool
  | .loadSource .. | .interpret .. => true
  | _ => false

def Call.operation? : Call → Option Operation
  | .operate op => some op
  | _ => none

/-- Contexts that differ at most in their monitors. -/
structure Alike (c c' : Context) : Prop where
  machine : c.machine = c'.machine
  program : c.program = c'.program

/-- The program of the context refers to no cell by a number that cannot be written. -/
def Legible (c : Context) : Prop := ∀ p, c.program = some p → p.Legible

/-- **A run looks the same** with every monitor, if all lines can be written. -/
theorem sight_run {p : Program} {m : Machine} (w w' : Monitor) {rounds : Nat}
    (hlines : ∀ k < rounds, Run.WritableNext p (Run.after p k (Run.start p ⟨m, w⟩))) :
    Sight.of some (run rounds (ofSession p ⟨m, w⟩)) =
      Sight.of some (run rounds (ofSession p ⟨m, w'⟩)) := by
  have halike := Run.after_alike_of_writable (Run.start_alike p m w w') hlines
  rw [run_ofSession, run_ofSession]
  -- the two runs have come to the same machine, count and status
  generalize Run.after p rounds (Run.start p ⟨m, w⟩) = r at halike ⊢
  generalize Run.after p rounds (Run.start p ⟨m, w'⟩) = r' at halike ⊢
  obtain ⟨⟨m₁, w₁⟩, steps, status⟩ := r
  obtain ⟨⟨m₂, w₂⟩, steps', status'⟩ := r'
  obtain rfl : m₁ = m₂ := halike.machine
  obtain rfl : steps = steps' := halike.steps
  obtain rfl : status = status' := halike.status
  cases status with
  | running => rfl
  | finished => rfl
  | faulted fault => rfl

/-- What a step dispatches does not depend on the monitor, if its line can be written. -/
theorem dispatch?_eq_of_writable {p : Program} {m : Machine} (w w' : Monitor)
    (hline : Run.WritableNext p ⟨⟨m, w⟩, 0, .running⟩) :
    Session.dispatch? p ⟨m, w⟩ = Session.dispatch? p ⟨m, w'⟩ := by
  -- a step dispatches what the next round of a run would
  have hround (w : Monitor) : Session.dispatch? p ⟨m, w⟩ =
      (Run.due? p ⟨⟨m, w⟩, 0, .running⟩).map fun ins => ⟨m.registers.ip, ins, m.registers⟩ :=
    Run.dispatch?_eq_map_due p ⟨⟨m, w⟩, 0, .running⟩
  have halike : Run.Alike ⟨⟨m, w⟩, 0, .running⟩ ⟨⟨m, w'⟩, 0, .running⟩ := ⟨rfl, rfl, rfl⟩
  have hdue : Run.due? p ⟨⟨m, w'⟩, 0, .running⟩ = Run.due? p ⟨⟨m, w⟩, 0, .running⟩ :=
    halike.due fun ins hins =>
      (hline.balks hins halike.machine).trans (hline.balks hins rfl).symm
  rw [hround, hround, hdue]

/-- **A step looks the same** with every monitor, if its line can be written. -/
theorem sight_step {p : Program} {m : Machine} (w w' : Monitor) (number : Unit → Option Nat)
    (hline : Run.WritableNext p ⟨⟨m, w⟩, 0, .running⟩) :
    Sight.of number (step (ofSession p ⟨m, w⟩)) =
      Sight.of number (step (ofSession p ⟨m, w'⟩)) := by
  have hsame := dispatch?_eq_of_writable w w' hline
  rw [step_ofSession, step_ofSession]
  cases hd : Session.dispatch? p ⟨m, w⟩ with
  | none =>
    rw [Session.step_of_refused hd, Session.step_of_refused (hsame.symm.trans hd)]
    rfl
  | some d =>
    -- both execute the instruction on the same machine
    rw [Session.step_of_dispatch hd, Session.step_of_dispatch (hsame.symm.trans hd)]
    dsimp only
    cases Machine.execute d.instruction.opcode d.instruction.operands m with
    | ok a m' => rfl
    | error fault m' => rfl

/-- The operation reads no files, and a program that it loads refers to no cell by a number that
cannot be written. -/
def Operation.Plain (op : Operation) : Prop :=
  op.readsFiles = false ∧ ∀ p, op = .load p → p.installed.Legible

/-- **An operation looks the same** on contexts that differ in their monitors. -/
theorem Alike.sight {c' : Context} {k : Nat} (h : Alike c c') (hc : c.Sound l k)
    (hlegible : c.Legible) (hk : 2 * Machine.sizeLimit + k < Text.writableBound) {op : Operation}
    (hop : op.Plain) : op.sight c = op.sight c' := by
  obtain ⟨p, ⟨m, w⟩, rfl, hm, hp⟩ := hc.eq_ofSession
  obtain ⟨machine, program, w'⟩ := c'
  obtain rfl : some m = machine := h.machine
  obtain rfl : some p = program := h.program
  have hcells : p.Legible := hlegible p rfl
  cases op with
  | loadSource files rounds source base => cases hop.1
  | interpret files rounds filename => cases hop.1
  | load q =>
    show Sight.of _ (Context.load q _) = Sight.of _ (Context.load q _)
    unfold Context.load
    cases q.validate with
    | error defect => rfl
    | ok _ => rfl
  | moveTo index => rfl
  | run rounds =>
    exact sight_run w w' fun n _ => writableNext_after (s := ⟨m, w⟩) hm hp hcells hk n
  | step => exact sight_step w w' _ (writableNext_of_sound hm hp hcells hk)

/-- Machine and program are seen as they are left, whether or not the operation failed. -/
theorem Sight.of_left {α : Type} (number : α → Option Nat)
    (x : EStateM.Result Failure Context α) :
    (Sight.of number x).machine = (left x).machine ∧
      (Sight.of number x).program = (left x).program := by
  cases x with
  | ok a c => exact ⟨rfl, rfl⟩
  | error failure c => exact ⟨rfl, rfl⟩

/-- The machine and the program that are seen are those that are left. -/
theorem Operation.sight_left (op : Operation) (c : Context) :
    (op.sight c).machine = (left (op.perform c)).machine ∧
      (op.sight c).program = (left (op.perform c)).program := by
  cases op with
  | interpret files rounds filename =>
    rw [left_perform_interpret]
    exact Sight.of_left some _
  | run rounds =>
    rw [left_perform_run]
    exact Sight.of_left some _
  | load q => exact Sight.of_left _ _
  | loadSource files rounds source base => exact Sight.of_left _ _
  | step => exact Sight.of_left _ _
  | moveTo index => exact Sight.of_left _ _

/-- A plain operation leaves a program that can be written. -/
theorem Legible.perform {k : Nat} (h : c.Legible) (hc : c.Sound l k) {op : Operation}
    (hop : op.Plain) : (left (op.perform c)).Legible := by
  obtain ⟨p, s, rfl, -, -⟩ := hc.eq_ofSession
  cases op with
  | loadSource files rounds source base => cases hop.1
  | interpret files rounds filename => cases hop.1
  | load q =>
    show (left (Context.load q _)).Legible
    unfold Context.load
    cases q.validate with
    | error defect => exact h
    | ok _ =>
      intro p' hp'
      obtain rfl : q.installed = p' := Option.some.inj hp'
      exact hop.2 q rfl
  | moveTo index => exact h
  | run rounds =>
    rw [Operation.left_perform_run, left_run]
    exact h
  | step =>
    show (left (Context.step (ofSession p s))).Legible
    rw [step_ofSession]
    cases s.step p with
    | ok a s' => exact h
    | error fault s' => exact h

/-- What is done about tracing can be left out. -/
theorem Alike.sights_operations {c' : Context} {k : Nat} (h : Alike c c') (hc : c.Sound l k)
    (hlegible : c.Legible) (calls : List Call)
    (hk : 2 * Machine.sizeLimit + (k + usesOf calls : Nat) < Text.writableBound)
    (hcalls : ∀ op ∈ calls.filterMap Call.operation?, op.Plain) :
    c.sights calls = c'.sights ((calls.filterMap Call.operation?).map .operate) := by
  -- the first call is taken off, and what it leaves is again alike, sound and legible
  induction calls generalizing c c' k with
  | nil => rfl
  | cons call calls ih =>
    have hnext := hc.call call
    rw [usesOf, ← Nat.add_assoc] at hk
    cases call with
    | enableTrace on =>
      have hon : Alike ((Call.enableTrace on).on c) c' := ⟨h.machine, h.program⟩
      exact ih hon hnext hlegible hk hcalls
    | clearTrace =>
      have hon : Alike (Call.clearTrace.on c) c' := ⟨h.machine, h.program⟩
      exact ih hon hnext hlegible hk hcalls
    | operate op =>
      obtain ⟨hop, hrest⟩ := List.forall_mem_cons.mp hcalls
      have hsight : op.sight c = op.sight c' := h.sight hc hlegible (by omega) hop
      -- what is seen has all that is left but the monitor, so the contexts stay alike
      have hleft : Alike (left (op.perform c)) (left (op.perform c')) :=
        { machine := by rw [← (op.sight_left c).1, ← (op.sight_left c').1, hsight]
          program := by rw [← (op.sight_left c).2, ← (op.sight_left c').2, hsight] }
      show op.sight c :: (left (op.perform c)).sights calls =
        op.sight c' :: (left (op.perform c')).sights _
      rw [hsight, ih hleft hnext (hlegible.perform hc hop) hk hrest]

/-- Calls with the same operations have the same number of runs and steps. -/
theorem usesOf_eq (calls : List Call) :
    usesOf calls = usesOf ((calls.filterMap Call.operation?).map .operate) := by
  induction calls with
  | nil => rfl
  | cons call calls ih =>
    cases call with
    | operate op =>
      show (Call.operate op).uses + usesOf calls = (Call.operate op).uses + _
      rw [ih]
    | enableTrace on =>
      show 0 + usesOf calls = _
      rw [Nat.zero_add, ih]
      rfl
    | clearTrace =>
      show 0 + usesOf calls = _
      rw [Nat.zero_add, ih]
      rfl

/-- **Histories with the same operations look the same**, whatever is done about tracing. -/
theorem sights_eq {k : Nat} (hc : c.Sound l k) (hlegible : c.Legible) {calls calls' : List Call}
    (hk : 2 * Machine.sizeLimit + (k + usesOf calls : Nat) < Text.writableBound)
    (hsame : calls.filterMap Call.operation? = calls'.filterMap Call.operation?)
    (hcalls : ∀ op ∈ calls.filterMap Call.operation?, op.Plain) :
    c.sights calls = c.sights calls' := by
  have halike : Alike c c := ⟨rfl, rfl⟩
  have hk' : 2 * Machine.sizeLimit + (k + usesOf calls' : Nat) < Text.writableBound := by
    rw [usesOf_eq calls', ← hsame, ← usesOf_eq]
    exact hk
  rw [halike.sights_operations hc hlegible calls hk hcalls,
    halike.sights_operations hc hlegible calls' hk' (hsame ▸ hcalls), hsame]

/-- **Tracing observes.** A host has created a context and made any calls: it has loaded, run and
stepped through programs, moved the instruction pointer, turned tracing on and off and cleared the
trace. The trace then has the last lines of those that were recorded since it was last cleared, up
to the limit: one for every instruction that was dispatched while tracing was on, whether or not it
then failed, and none for a step that was refused. From every line its index can be read and the
registers as they were before the instruction was executed.

The context has a validated program. A run of it goes the same way with tracing on and off up to the
first line that cannot be written: after every number of rounds the machine with its output, the
number of steps and the status with its fault are the same. At such a line the run that is traced
ends. There is none if the cells of the program can be written and the host has not run and stepped
through programs more often than there are numbers of that length. Then all further histories that
differ only in what they do about tracing look the same: each operation returns the same or fails in
the same way, and leaves the same machine and program. -/
theorem tracing_only_observes {created : Context} (hcreate : create l = .ok created)
    {calls : List Call} (hcalls : created.afterCalls calls = c) :
    c.monitor.traceText =
      "\n".intercalate ((Ledger.blank.calls created calls).recent.map Dispatch.line) ∧
    (∀ d : Dispatch, TraceLine.read? d.line = some ⟨d.index, d.registers⟩) ∧
    (∃ p m w, c = ⟨some m, some p, w⟩ ∧ p.validate = .ok () ∧
      Run.Observed p (Run.underTrace p m w true) (Run.underTrace p m w false) ∧
      (p.Legible → 2 * Machine.sizeLimit + usesOf calls < Text.writableBound →
        ∀ n, Run.Alike (Run.underTrace p m w true n) (Run.underTrace p m w false n))) ∧
    ∀ calls₁ calls₂ : List Call,
      calls₁.filterMap Call.operation? = calls₂.filterMap Call.operation? →
      (∀ op ∈ calls₁.filterMap Call.operation?, op.Plain) → c.Legible →
      2 * Machine.sizeLimit + (usesOf calls + usesOf calls₁ : Nat) < Text.writableBound →
      c.sights calls₁ = c.sights calls₂ := by
  obtain ⟨hmatches, hsound⟩ := (matches_of_create hcreate).calls (sound_of_create hcreate) calls
  rw [hcalls, Nat.zero_add] at hsound
  rw [hcalls] at hmatches
  obtain ⟨p, ⟨m, w⟩, hc, hm, hp⟩ := hsound.eq_ofSession
  refine ⟨hmatches.traceText, fun d => TraceLine.read?_traceLine _ _ _,
    ⟨p, m, w, hc, hp, Run.observed_start p m w, fun hlegible hk n => ?_⟩,
    fun calls₁ calls₂ hsame hplain hlegible hk => sights_eq hsound hlegible hk hsame hplain⟩
  have hm' : Machine.Sound l (usesOf calls) (⟨m, w.setTracing false⟩ : Session).machine := hm
  exact Run.alike_of_writable fun j _ => writableNext_after hm' hp hlegible hk j

/-- A program whose second instruction fails on an empty stack. -/
def lonePop : Program := .make #[⟨.nop, []⟩, ⟨.pop, [.register 0]⟩] 0 .empty .empty

/-- A first step is not recorded, then there is a run that fails, and at the end a step that is
refused. -/
def lonePopCalls : List Call :=
  [.operate (.load lonePop), .operate .step, .enableTrace true, .operate (.run 5),
    .operate (.moveTo 2), .operate .step]

/-- The trace has the two instructions of the run, and a further run does not depend on whether it
is traced. -/
theorem lonePop_traced :
    ∃ c, create ⟨64, 16, true⟩ = .ok c ∧
      (Ledger.blank.calls c lonePopCalls).recent.map Dispatch.index = [0, 1] ∧
      (c.afterCalls lonePopCalls).monitor.traceText =
        "\n".intercalate ((Ledger.blank.calls c lonePopCalls).recent.map Dispatch.line) ∧
      (c.afterCalls lonePopCalls).sights [.enableTrace true, .operate (.run 5)] =
        (c.afterCalls lonePopCalls).sights [.enableTrace false, .operate (.run 5)] := by
  obtain ⟨c, hc⟩ : ∃ c, create ⟨64, 16, true⟩ = .ok c := ⟨_, rfl⟩
  obtain ⟨htext, -, -, hsights⟩ := tracing_only_observes hc (rfl : c.afterCalls lonePopCalls = _)
  have hindices : (Ledger.blank.calls c lonePopCalls).recent.map Dispatch.index = [0, 1] := by
    obtain rfl := Except.ok.inj hc
    decide +kernel
  have hprogram : (c.afterCalls lonePopCalls).program = some lonePop.installed := by
    obtain rfl := Except.ok.inj hc
    decide +kernel
  have hlegible : (c.afterCalls lonePopCalls).Legible := by
    intro p hp ins hins i hi
    obtain rfl : lonePop.installed = p := Option.some.inj (hprogram.symm.trans hp)
    have hnumbers : ∀ ins ∈ lonePop.installed.instructions, ∀ o ∈ ins.operands,
        ∀ n ∈ o.numbers, Text.isWritable n = true := by decide +kernel
    exact hnumbers ins hins _ hi i (List.mem_singleton_self i)
  refine ⟨c, hc, hindices, htext, hsights _ _ rfl (fun op hop => ?_) hlegible (by decide +kernel)⟩
  obtain rfl : op = .run 5 := List.mem_singleton.mp hop
  exact ⟨rfl, nofun⟩

/-- A branch to a cell whose index has one digit more than can be written. It is not taken on a
fresh machine. -/
def farBranch : Program := .make #[⟨.je, [.cell Text.writableBound]⟩] 0 .empty .empty

/-- The exception is real: the program can be loaded into a fresh context, and there it comes to its
end, unless it is traced. -/
theorem farBranch_interferes :
    (∃ c c', create ⟨64, 16, true⟩ = .ok c ∧ load farBranch c = .ok () c' ∧
      c'.machine = some (Layout.machine ⟨64, 16, true⟩) ∧
      c'.program = some farBranch.installed) ∧
    (Run.underTrace farBranch.installed (Layout.machine ⟨64, 16, true⟩) {} true 2).status =
      .faulted .unwritable ∧
    (Run.underTrace farBranch.installed (Layout.machine ⟨64, 16, true⟩) {} false 2).status =
      .finished := by
  have hvalid : farBranch.validate = .ok () := by
    have hoption : farBranch.validate.toOption = some () := by decide +kernel
    cases hv : farBranch.validate with
    | ok _ => rfl
    | error defect =>
      rw [hv] at hoption
      cases hoption
  exact ⟨⟨_, _, rfl, load_eq_ok hvalid _, rfl, rfl⟩, by decide +kernel, by decide +kernel⟩

end Context

end CellMachine
