import WebcomSdk.Lib.LinkedQueue
import WebcomSdk.Datasync.Path

/-!
The program of a script, `tools/wcsh_program.c`: the statements that wait to be
executed, and the idle watcher that executes them. A read through a pointer that
does not point to a cell, or libev told to initialise a watcher that is started,
ends the run with `none`.
-/

namespace WebcomSdk.Tools

open WebcomSdk.Lib WebcomSdk.Datasync

/-- The `argc` strings at `argv`. -/
abbrev Statement := List Bytes

inductive ProgramState
  | paused
  | running
deriving DecidableEq

inductive RunnerState
  | inactive
  | active
deriving DecidableEq

/-- The variables of the file. `statements` are `program_head` and `program_tail`, with the
cells; `idle` says whether the watcher is started. -/
structure Program where
  programState : ProgramState
  runnerState : RunnerState
  statements : LinkedQueue Statement
  pendingCommands : ℕ
  idle : Bool

def programStart : Program := ⟨.running, .inactive, .empty, 0, false⟩

def wcshProgramResume (p : Program) : Option Program :=
  let p := { p with programState := .running }
  if p.pendingCommands > 0 then
    if p.idle then none else some { p with runnerState := .active, idle := true }
  else some p

def wcshProgramPause (p : Program) : Program :=
  { p with programState := .paused, runnerState := .inactive, idle := false }

/-- `malloc` returns `cell`. -/
def wcshProgramAppend (p : Program) (cell : ℕ) (argv : Statement) : Option Program :=
  if argv.length > 0 then
    (p.statements.push cell argv).bind fun statements =>
      let p := { p with statements, pendingCommands := p.pendingCommands + 1 }
      if p.pendingCommands > 0 ∧ p.programState = .running ∧ p.runnerState = .inactive then
        wcshProgramResume p
      else some p
  else some p

def removeHead (p : Program) : Option Program :=
  if p.pendingCommands > 0 then
    p.statements.pop.map fun statements =>
      let p := { p with statements, pendingCommands := p.pendingCommands - 1 }
      if p.pendingCommands = 0 then
        { p with statements := p.statements.resetTail, programState := .paused }
      else p
  else some p

def wcshProgramIsFinished (p : Program) : Bool := p.pendingCommands = 0

/-! ### The queue -/

/-- The program holds the statements `q`. -/
structure Program.Queued (p : Program) (q : List Statement) : Prop where
  held : p.statements.Holds q
  count : p.pendingCommands = q.length

theorem queued_programStart : programStart.Queued [] := ⟨LinkedQueue.holds_empty, rfl⟩

variable {p p' : Program} {q : List Statement} {argv : Statement}

theorem Program.Queued.pause (h : p.Queued q) : (wcshProgramPause p).Queued q := ⟨h.held, h.count⟩

/-- What `wcsh_program_resume` does when the watcher is not started. -/
theorem Program.Queued.resume (h : p.Queued q) (hidle : p.idle = false) :
    ∃ p', wcshProgramResume p = some p' ∧ p'.Queued q ∧ p'.programState = .running ∧
      (q ≠ [] → p'.runnerState = .active ∧ p'.idle = true) ∧
      (q = [] → p'.runnerState = p.runnerState ∧ p'.idle = false) := by
  by_cases hq : q = []
  · subst hq
    refine ⟨{ p with programState := .running }, ?_, ⟨h.held, h.count⟩, rfl,
      fun hne => absurd rfl hne, fun _ => ⟨rfl, hidle⟩⟩
    simp [wcshProgramResume, h.count]
  · have hpos : 0 < q.length := List.length_pos_of_ne_nil hq
    refine ⟨{ p with programState := .running, runnerState := .active, idle := true }, ?_,
      ⟨h.held, h.count⟩, rfl, fun _ => ⟨rfl, rfl⟩, fun heq => absurd heq hq⟩
    simp [wcshProgramResume, h.count, hpos, hidle]

/-- The watcher is started exactly when the runner is active, and then there may be nothing to
run; an inactive runner has nothing to run unless the program is paused. -/
structure Program.Consistent (p : Program) (q : List Statement) : Prop where
  queued : p.Queued q
  idle_iff : p.idle = true ↔ p.runnerState = .active
  waiting : p.idle = false → q ≠ [] → p.programState = .paused

theorem consistent_programStart : programStart.Consistent [] :=
  ⟨queued_programStart, by simp [programStart], fun _ hne => absurd rfl hne⟩

theorem Program.Consistent.pause (h : p.Consistent q) : (wcshProgramPause p).Consistent q :=
  ⟨h.queued.pause, by simp [wcshProgramPause], fun _ _ => rfl⟩

theorem Program.Consistent.resume (h : p.Consistent q) (hidle : p.idle = false) :
    ∃ p', wcshProgramResume p = some p' ∧ p'.Consistent q ∧ p'.programState = .running := by
  obtain ⟨p', hrun, hqueued, hstate, hsome, hnone⟩ := h.queued.resume hidle
  refine ⟨p', hrun, ⟨hqueued, ?_, ?_⟩, hstate⟩
  · by_cases hq : q = []
    · rw [(hnone hq).1, (hnone hq).2, ← h.idle_iff, hidle]
    · rw [(hsome hq).1, (hsome hq).2]
      simp
  · intro hidle' hq
    rw [(hsome hq).2] at hidle'
    cases hidle'

/-- **Appending** puts the statement last and starts the watcher unless the program is paused. -/
theorem Program.Consistent.append (h : p.Consistent q) {cell : ℕ}
    (hfree : p.statements.heap cell = none) (hargv : argv ≠ []) :
    ∃ p', wcshProgramAppend p cell argv = some p' ∧ p'.Consistent (q ++ [argv]) ∧
      p'.programState = p.programState ∧
      (p.programState = .running → p'.idle = true) ∧
      (p.programState = .paused → p'.idle = p.idle) := by
  obtain ⟨statements, hpush, hheld⟩ := h.queued.held.push hfree argv
  have hqueued : Program.Queued { p with
      statements, pendingCommands := p.pendingCommands + 1 } (q ++ [argv]) :=
    ⟨hheld, by rw [List.length_append, ← h.queued.count]; rfl⟩
  have hargc : argv.length > 0 := List.length_pos_of_ne_nil hargv
  have happend : wcshProgramAppend p cell argv =
      if p.programState = .running ∧ p.runnerState = .inactive then
        wcshProgramResume { p with statements, pendingCommands := p.pendingCommands + 1 }
      else some { p with statements, pendingCommands := p.pendingCommands + 1 } := by
    rw [wcshProgramAppend, if_pos hargc, hpush]
    simp
  have hidle : p.runnerState = .inactive → p.idle = false := by
    intro hinactive
    rw [Bool.eq_false_iff, Ne, h.idle_iff, hinactive]
    exact RunnerState.noConfusion
  rw [happend]
  by_cases hstart : p.programState = .running ∧ p.runnerState = .inactive
  · rw [if_pos hstart]
    obtain ⟨p', hrun, hqueued', hstate, hsome, -⟩ := hqueued.resume (hidle hstart.2)
    have hne : q ++ [argv] ≠ [] := by simp
    refine ⟨p', hrun, ⟨hqueued', by simp [hsome hne], ?_⟩, hstate.trans hstart.1.symm,
      fun _ => (hsome hne).2, fun hpaused => ?_⟩
    · intro hidle'
      rw [(hsome hne).2] at hidle'
      cases hidle'
    · rw [hpaused] at hstart
      cases hstart.1
  · rw [if_neg hstart]
    refine ⟨_, rfl, ⟨hqueued, h.idle_iff, ?_⟩, rfl, ?_, fun _ => rfl⟩
    · intro hidle' _
      -- a running program has an active runner here
      cases hstate : p.programState with
      | paused => rfl
      | running =>
          cases hrunner : p.runnerState with
          | inactive => exact absurd ⟨hstate, hrunner⟩ hstart
          | active =>
              refine absurd (h.idle_iff.mpr hrunner) ?_
              rw [show p.idle = _ from hidle']
              simp
    · intro hstate
      rw [h.idle_iff]
      cases hrunner : p.runnerState with
      | inactive => exact absurd ⟨hstate, hrunner⟩ hstart
      | active => rfl

theorem resume_statements (h : wcshProgramResume p = some p') : p'.statements = p.statements := by
  rw [wcshProgramResume] at h
  dsimp only at h
  split at h
  · split at h
    · cases h
    · exact Option.some.inj h ▸ rfl
  · exact Option.some.inj h ▸ rfl

/-- What is free stays free, but for the cell of the new statement. -/
theorem append_free {cell b : ℕ} (h : wcshProgramAppend p cell argv = some p') (hb : b ≠ cell)
    (hfree : p.statements.heap b = none) : p'.statements.heap b = none := by
  rw [wcshProgramAppend] at h
  split at h
  · obtain ⟨statements, hpush, h⟩ := Option.bind_eq_some_iff.mp h
    have hheap : statements.heap b = none := LinkedQueue.push_free hpush hb hfree
    dsimp only at h
    split at h
    · rw [resume_statements h]
      exact hheap
    · exact Option.some.inj h ▸ hheap
  · exact Option.some.inj h ▸ hfree

/-- **Removing** the first statement leaves the watcher as it is, and pauses a program that is
over. -/
theorem Program.Consistent.removeHead (h : p.Consistent (argv :: q)) :
    ∃ p', removeHead p = some p' ∧ p'.Consistent q ∧ p'.idle = p.idle ∧
      p'.programState = if q = [] then .paused else p.programState := by
  obtain ⟨statements, hpop, hmore, hlast⟩ := h.queued.held.pop
  have hcount : p.pendingCommands = q.length + 1 := h.queued.count
  by_cases hq : q = []
  · subst hq
    refine ⟨{ p with
      statements := statements.resetTail, pendingCommands := 0, programState := .paused }, ?_,
      ⟨⟨hlast rfl, rfl⟩, h.idle_iff, fun _ _ => rfl⟩, rfl, rfl⟩
    rw [WebcomSdk.Tools.removeHead, if_pos (by omega), hpop]
    simp [hcount]
  · refine ⟨{ p with statements, pendingCommands := q.length }, ?_,
      ⟨⟨hmore hq, rfl⟩, h.idle_iff, fun hidle _ => h.waiting hidle (List.cons_ne_nil _ _)⟩, rfl, ?_⟩
    · rw [WebcomSdk.Tools.removeHead, if_pos (by omega), hpop]
      have hne : q.length ≠ 0 := fun hzero => hq (List.length_eq_zero_iff.mp hzero)
      simp [hcount, hne]
    · rw [if_neg hq]

end WebcomSdk.Tools
