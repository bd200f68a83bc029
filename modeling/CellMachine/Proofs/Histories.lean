import CellMachine.Proofs.FaultSafety

/-!
# Histories of a context

`Context.Reachable` follows a context through all that a host can do with it. Some promises are
made only to a host that keeps to something: that it stops at the first failure, or that it runs
only programs of a certain kind. Here a history is a sequence of operations of which each was
allowed at the context it was performed on (`Context.Reached`), and what is allowed is a parameter.

A discipline holds along such a history (`Context.Reached.inv`): it holds of the machine of a fresh
context, loading does not touch the machine, and the steps and runs keep it. What a failure leaves
is asked for only where the history may go on after one.
-/

namespace CellMachine.Context

/-- What a host does with a context. Between its steps it may move the instruction pointer. -/
inductive Operation where
  | load (p : Program)
  | loadSource (files : Files.Live) (rounds : Nat) (source : String) (base : Option Files.Path)
  | interpret (files : Files.Live) (rounds : Nat) (filename : String)
  | run (rounds : Nat)
  | step
  | moveTo (index : Int)

/-- The operation as an action, without its result. -/
def Operation.perform : Operation → Host Unit
  | .load p => Context.load p
  | .loadSource files rounds source base => Context.loadSource files rounds source base
  | .interpret files rounds filename => discard (Context.interpret files rounds filename)
  | .run rounds => discard (Context.run rounds)
  | .step => Context.step
  | .moveTo index => onMachine (modify (·.setIp index))

/-- An operation does not fail. -/
def Operation.Succeeds (op : Operation) (c : Context) : Prop := ∃ c', op.perform c = .ok () c'

/-- **Histories.** The contexts that are reached from a fresh one by operations that were each
allowed where they were performed. -/
inductive Reached (l : Layout) (allowed : Operation → Context → Prop) : Context → Prop
  | create {c : Context} (h : create l = .ok c) : Reached l allowed c
  | perform {c : Context} (op : Operation) (h : Reached l allowed c) (hop : allowed op c) :
    Reached l allowed (left (op.perform c))

variable {l : Layout} {allowed : Operation → Context → Prop} {c : Context}

/-- The result does not matter for the context that is left. -/
theorem left_discard {α : Type} (x : Host α) (c : Context) : left (discard x c) = left (x c) := by
  change left (EStateM.map (fun _ => PUnit.unit) x c) = left (x c)
  unfold EStateM.map
  cases x c with
  | ok a c' => rfl
  | error failure c' => rfl

/-- What a history reaches is reachable. -/
theorem Reached.reachable (h : Reached l allowed c) : ∃ k, Reachable l k c := by
  induction h with
  | create h => exact ⟨0, .create h⟩
  | perform op _ _ ih =>
    obtain ⟨k, hk⟩ := ih
    cases op with
    | load p => exact ⟨k, hk.load p⟩
    | loadSource files rounds source base => exact ⟨k, hk.loadSource files rounds source base⟩
    | interpret files rounds filename =>
      refine ⟨k, ?_⟩
      change Reachable l k (left (discard (Context.interpret files rounds filename) _))
      rw [left_discard]
      exact hk.interpret files rounds filename
    | run rounds =>
      refine ⟨k + 1, ?_⟩
      change Reachable l (k + 1) (left (discard (Context.run rounds) _))
      rw [left_discard]
      exact hk.run rounds
    | step => exact ⟨k + 1, hk.step⟩
    | moveTo index => exact ⟨k, hk.moveTo index⟩

/-- A context that was reached has a machine and a validated program. -/
theorem Reached.eq_ofSession (h : Reached l allowed c) :
    ∃ p s, c = ofSession p s ∧ p.validate = .ok () := by
  obtain ⟨k, hk⟩ := h.reachable
  obtain ⟨p, s, hc, -, hp⟩ := hk.sound.eq_ofSession
  exact ⟨p, s, hc, hp⟩

/-! ### Loading leaves the machine alone -/

/-- Loading a program replaces the program. -/
theorem machine_load (p : Program) (c : Context) : (left (load p c)).machine = c.machine := by
  unfold Context.load
  cases p.validate with
  | error defect => rfl
  | ok _ => rfl

/-- Loading a source does no more than that. -/
theorem machine_loadSource (files : Files.Live) (rounds : Nat) (source : String)
    (base : Option Files.Path) (c : Context) :
    (left (loadSource files rounds source base c)).machine = c.machine := by
  unfold Context.loadSource
  split
  · rfl
  · next p log _ => exact machine_load p (c.withLog log)

/-- Nor does loading a file. -/
theorem machine_interpret (files : Files.Live) (rounds : Nat) (filename : String) (c : Context) :
    (left (interpret files rounds filename c)).machine = c.machine := by
  unfold Context.interpret
  split
  · rfl
  · rfl
  · next source log _ =>
    have hload := machine_loadSource files rounds source.text (some source.path.parent)
      (c.withLog log)
    split
    · next c' hc =>
      rw [hc] at hload
      exact hload
    · next failure c' hc =>
      rw [hc] at hload
      -- a failure that is reported is logged, which is no matter of the machine
      split
      · exact hload
      · exact hload

/-! ### Invariants along a history -/

section Inv

variable {D : Discipline}

/-- A step keeps a discipline; where it fails, the fault has to give it back. -/
theorem inv_step {p : Program} {s : Session} (hm : D.inv s.machine) (hp : D.AdmitsProgram p)
    (hfault : ∀ failure c', step (ofSession p s) = .error failure c' →
      ∀ f m, D.fault f m → D.inv m) :
    ∃ m, (left (step (ofSession p s))).machine = some m ∧ D.inv m := by
  have hstep := Discipline.step (w := s.monitor) hm hp
  rw [step_ofSession] at hfault ⊢
  cases hx : s.step p with
  | ok a s' =>
    rw [hx] at hstep
    exact ⟨s'.machine, rfl, hstep⟩
  | error f s' =>
    rw [hx] at hstep hfault
    exact ⟨s'.machine, rfl, hfault _ _ rfl _ _ hstep⟩

/-- A run keeps a discipline; where it fails, the fault has to give it back. -/
theorem inv_run {p : Program} {s : Session} (hm : D.inv s.machine) (hp : D.AdmitsProgram p)
    {rounds : Nat}
    (hfault : ∀ failure c', run rounds (ofSession p s) = .error failure c' →
      ∀ f m, D.fault f m → D.inv m) :
    ∃ m, (left (run rounds (ofSession p s))).machine = some m ∧ D.inv m := by
  have hafter := Discipline.after (.start hm p) hp rounds
  rw [run_ofSession] at hfault ⊢
  generalize Run.after p rounds (Run.start p s) = r at hafter hfault ⊢
  obtain ⟨s', steps, status⟩ := r
  cases status with
  | running => exact ⟨s'.machine, rfl, hafter⟩
  | finished => exact ⟨s'.machine, rfl, hafter⟩
  | faulted f => exact ⟨s'.machine, rfl, hfault _ _ rfl _ _ hafter⟩

/-- An action that fails also fails without its result. -/
theorem error_discard {α : Type} {x : Host α} {c c' : Context} {failure : Failure}
    (h : x c = .error failure c') : discard x c = .error failure c' := by
  change EStateM.map (fun _ => PUnit.unit) x c = .error failure c'
  unfold EStateM.map
  rw [h]

/-- **Invariants along a history.** A discipline holds of every machine that is reached, if it
holds of the fresh machine, admits every program that an operation finds loaded, and is given back
by the faults after which the history may go on. -/
theorem Reached.inv (h : Reached l allowed c)
    (hcreate : ∀ c, Context.create l = .ok c → D.inv l.machine)
    (hadmits : ∀ op p s, allowed op (ofSession p s) → p.validate = .ok () → D.AdmitsProgram p)
    (hfault : ∀ op c, allowed op c → ∀ failure c', op.perform c = .error failure c' →
      ∀ f m, D.fault f m → D.inv m) :
    ∃ m, c.machine = some m ∧ D.inv m := by
  induction h with
  | create h => exact ⟨l.machine, (create_eq_ok h).2.2.1, hcreate _ h⟩
  | @perform c op hc hop ih =>
    obtain ⟨p, s, rfl, hp⟩ := hc.eq_ofSession
    obtain ⟨m, hm, hinv⟩ := ih
    obtain rfl : s.machine = m := Option.some.inj hm
    have hprogram := hadmits op p s hop hp
    have hgiven := hfault op _ hop
    cases op with
    | load q => exact ⟨s.machine, machine_load q _, hinv⟩
    | loadSource files rounds source base =>
      exact ⟨s.machine, machine_loadSource files rounds source base _, hinv⟩
    | interpret files rounds filename =>
      refine ⟨s.machine, ?_, hinv⟩
      change (left (discard (Context.interpret files rounds filename) _)).machine = _
      rw [left_discard]
      exact machine_interpret files rounds filename _
    | run rounds =>
      change ∃ m, (left (discard (Context.run rounds) _)).machine = some m ∧ _
      rw [left_discard]
      exact inv_run hinv hprogram fun failure c' hrun =>
        hgiven failure c' (error_discard hrun)
    | step => exact inv_step hinv hprogram hgiven
    | moveTo index => exact ⟨s.machine.setIp index, rfl, D.setIp index hinv⟩

end Inv

end CellMachine.Context
