import WebcomSdk.Cache.NullWrites
import WebcomSdk.Cache.TreenodeJson
import WebcomSdk.Datasync.Message
import WebcomSdk.Lib.Run
import WebcomSdk.Tools.Commands
import WebcomSdk.Tools.Program

/-!
The shell as it runs a script, `tools/wcsh.c`: the statements executed one by one
from the idle watcher, the commands that pause the program, and the events that let
it go on. What the other commands do to the server and the cache comes back as
events.
-/

namespace WebcomSdk.Tools

open WebcomSdk.Lib WebcomSdk.Datasync WebcomSdk.Cache

/-- An `on_handle_t`. `NULL` is 0. -/
abbrev Handle := ℕ

structure Waiting where
  connected : Bool
  disconnected : Bool
  data : Bool
  dataCb : Handle
  dataHash : TreenodeHash

/-- The variables of the file. `sleeping` says whether the timer of `exec_sleep` is started,
`subs` are the handles under which `data_wait_cb` is registered, and `appended` and `executed`
record what has been done. -/
structure Shell where
  program : Program
  connected : Bool
  disconnect : Bool
  done : Bool
  waiting : Waiting
  sleeping : Bool
  subs : List (Handle × Path)
  root : Treenode
  appended : List Statement
  executed : List Statement

def shellStart : Shell where
  program := programStart
  connected := false
  disconnect := false
  done := false
  waiting := ⟨false, false, false, 0, nullHash⟩
  sleeping := false
  subs := []
  root := dataCacheNew
  appended := []
  executed := []

def isdigit (c : UInt8) : Bool := 48 ≤ c && c ≤ 57

/-- Whether `sscanf(s, "%u", &t)` reads a number. -/
def sscanfU (s : Bytes) : Bool :=
  let s := s.dropWhile isspace
  let s := match s with
    | c :: rest => if c = 43 ∨ c = 45 then rest else s
    | [] => s
  s.head?.any isdigit

section Functions

variable (wcSHA1 : SHA1) (keyCmp : Key → Key → Ordering) (jsonC : JsonC)

/-- `treenode_hash_get(data_cache_get(cache, path))`. The hash that the node remembers from
then on is left out. -/
def cachedHash (root : Treenode) (path : Bytes) : Option TreenodeHash :=
  (dataCacheGet keyCmp path root).bind fun n => (treenodeHashGet wcSHA1 n).2

def resumeProgram (s : Shell) : Option Shell :=
  (wcshProgramResume s.program).map fun program => { s with program }

/-- The second result is what the callback returns. The handle must be alive. -/
def dataWaitCb (handle : Handle) (s : Shell) : Option (Shell × Bool) :=
  if handle = s.waiting.dataCb then
    (s.subs.find? fun sub => sub.1 = handle).bind fun sub =>
      if treenodeHashEq (some s.waiting.dataHash)
          (cachedHash wcSHA1 keyCmp s.root (wcDatasyncPathToStr sub.2)) then
        (resumeProgram { s with waiting := { s.waiting with data := false } }).map fun s =>
          (s, false)
      else some (s, true)
  else some (s, true)

/-- A call of `data_wait_cb` by the registry: a result of 0 ends the registration. -/
def callDataWait (handle : Handle) (s : Shell) : Option Shell :=
  (dataWaitCb wcSHA1 keyCmp handle s).map fun (s, keep) =>
    if keep then s else { s with subs := s.subs.filter fun sub => sub.1 ≠ handle }

/-- `wc_datasync_on_value(ctx, path, data_wait_cb)`: the new handle, and a call at once
if there is a value. -/
def onValueDataWait (handle : Handle) (atOnce : Bool) (path : Bytes) (s : Shell) : Option Shell :=
  let s := { s with subs := s.subs ++ [(handle, wcDatasyncPathParse path)] }
  if atOnce then callDataWait wcSHA1 keyCmp handle s else some s

def pauseProgram (s : Shell) : Shell := { s with program := wcshProgramPause s.program }

/-- libev must not be told to initialise a timer that is started. -/
def execSleep (argv : Statement) (s : Shell) : Option Shell :=
  if sscanfU (argv.getD 0 []) then
    if s.sleeping then none else some (pauseProgram { s with sleeping := true })
  else some s

def execWait (handle : Handle) (atOnce : Bool) (argv : Statement) (s : Shell) : Option Shell :=
  if argv.getD 0 [] = ascii "connected" then
    if ¬ s.connected then
      some (pauseProgram { s with waiting := { s.waiting with connected := true } })
    else some s
  else if argv.getD 0 [] = ascii "disconnected" then
    if s.connected then
      some (pauseProgram { s with waiting := { s.waiting with disconnected := true } })
    else some s
  else if argv.getD 0 [] = ascii "data" ∧ argv.length = 3 then
    let n := treenodeFromJsonR keyCmp (jsonC.tokenerParse (argv.getD 2 []))
    let wantedHash := (treenodeHashGet wcSHA1 n).2
    if ¬ treenodeHashEq wantedHash (cachedHash wcSHA1 keyCmp s.root (argv.getD 1 [])) then
      let s := { s with
        waiting := { s.waiting with dataHash := treenodeHashCopy wantedHash, data := true } }
      (onValueDataWait wcSHA1 keyCmp handle atOnce (argv.getD 1 []) s).map fun s =>
        pauseProgram { s with waiting := { s.waiting with dataCb := handle } }
    else some s
  else some s

/-- `wcsh_exec`: the handle is the one that the registry would give. -/
def wcshExec (handle : Handle) (atOnce : Bool) (argv : Statement) (s : Shell) : Option Shell :=
  match findCommand (argv.getD 0 []) with
  | none => some s
  | some cmd =>
      if argv.length - 1 > cmd.maxArgs ∨ argv.length - 1 < cmd.minArgs then some s
      else
        match cmd.execute with
        | .sleep => execSleep argv.tail s
        | .wait => execWait wcSHA1 keyCmp jsonC handle atOnce argv.tail s
        | .exit => some { s with done := true }
        | .connect => some { s with disconnect := false }
        | .disconnect => some { s with disconnect := true }
        | _ => some s

/-- `wcsh_program_run_step`. -/
def wcshProgramRunStep (handle : Handle) (atOnce : Bool) (s : Shell) : Option Shell :=
  if ¬ wcshProgramIsFinished s.program then
    s.program.statements.front.bind fun argv =>
      (wcshExec wcSHA1 keyCmp jsonC handle atOnce argv s).bind fun s =>
        (removeHead s.program).map fun program =>
          { s with program, executed := s.executed ++ [argv] }
  else some s

inductive Event where
  /-- A statement is read from the script; `malloc` returns `cell`. -/
  | append (cell : ℕ) (argv : Statement)
  /-- The idle watcher fires. -/
  | idle (handle : Handle) (atOnce : Bool)
  | sleepOver
  | onConnected
  | onDisconnected
  | onError
  /-- The cache changes. -/
  | cache (root : Treenode)
  /-- The registry calls `data_wait_cb`. -/
  | dataWait (handle : Handle)

def shellStep (s : Shell) : Event → Option Shell
  | .append cell argv =>
      (wcshProgramAppend s.program cell argv).map fun program =>
        { s with program, appended := s.appended ++ [argv] }
  | .idle handle atOnce => wcshProgramRunStep wcSHA1 keyCmp jsonC handle atOnce s
  | .sleepOver => resumeProgram { s with sleeping := false }
  | .onConnected =>
      let s := { s with connected := true }
      if s.waiting.connected then
        resumeProgram { s with waiting := { s.waiting with connected := false } }
      else some s
  | .onDisconnected =>
      let s := { s with connected := false }
      if s.waiting.disconnected then
        resumeProgram { s with waiting := { s.waiting with disconnected := false } }
      else some s
  | .onError => some { s with connected := false }
  | .cache root => some { s with root }
  | .dataWait handle => callDataWait wcSHA1 keyCmp handle s

/-- What libev, the allocator and the registry promise: watchers fire when they are started,
the memory given out is not in use, and a callback is called as long as it is registered. The
parser hands over no empty statement. -/
def Occurs (s : Shell) : Event → Prop
  | .append cell argv => s.program.statements.heap cell = none ∧ argv ≠ []
  | .idle handle _ => s.program.idle = true ∧ handle ∉ s.subs.map Prod.fst
  | .sleepOver => s.sleeping = true
  | .dataWait handle => handle ∈ s.subs.map Prod.fst
  | .onConnected | .onDisconnected | .onError | .cache _ => True

instance Occurs.decidable (s : Shell) : DecidablePred (Occurs s)
  | .append _ _ => inferInstanceAs (Decidable (_ ∧ _))
  | .idle _ _ => inferInstanceAs (Decidable (_ ∧ _))
  | .sleepOver => inferInstanceAs (Decidable (_ = _))
  | .dataWait _ => inferInstanceAs (Decidable (_ ∈ _))
  | .onConnected | .onDisconnected | .onError | .cache _ => isTrue trivial

end Functions

/-- What the event appends to the program. -/
def Event.appends : Event → List Statement
  | .append _ argv => [argv]
  | _ => []

/-! ### What the program waits for -/

/-- The events that the shell waits for. -/
def Shell.waits (s : Shell) : List Bool :=
  [s.waiting.connected, s.waiting.disconnected, s.waiting.data, s.sleeping]

/-- What is executed and what waits to be is what has been read, in order. The program waits for
nothing and is not held up, or it waits for one thing and is. -/
structure Shell.Sound (s : Shell) : Prop where
  program : ∃ q, s.program.Consistent q ∧ s.appended = s.executed ++ q
  single : s.waits.count true ≤ 1
  held : true ∈ s.waits → s.program.idle = false ∧ s.program.programState = .paused
  free : true ∉ s.waits → s.program.idle = false → s.program.programState = .running
  subs : s.subs.map Prod.fst = if s.waiting.data then [s.waiting.dataCb] else []

theorem shellStart_sound : shellStart.Sound :=
  ⟨⟨[], consistent_programStart, rfl⟩, by decide, by decide, fun _ _ => rfl, rfl⟩

section Steps

variable (wcSHA1 : SHA1) (keyCmp : Key → Key → Ordering) (jsonC : JsonC) {s s' : Shell}

/-- A statement that pauses the program sets one flag, the others leave the program alone. -/
inductive Paused (s s' : Shell) : Prop
  | going (hprogram : s'.program = s.program) (hwaits : s'.waits = s.waits)
      (hsubs : s'.subs = s.subs) (hdata : s'.waiting.data = s.waiting.data)
  | paused (hprogram : s'.program = wcshProgramPause s.program) (hwaits : s'.waits.count true = 1)
      (hsubs : s'.subs.map Prod.fst = if s'.waiting.data then [s'.waiting.dataCb] else [])

/-- The call at once finds the hash that the command has just found wrong. -/
theorem onValueDataWait_eq {handle : Handle} {atOnce : Bool} {path : Bytes}
    {wanted : Option TreenodeHash} (hhash : s.waiting.dataHash = treenodeHashCopy wanted)
    (hne : treenodeHashEq wanted (cachedHash wcSHA1 keyCmp s.root path) = false)
    (hfresh : handle ∉ s.subs.map Prod.fst) :
    onValueDataWait wcSHA1 keyCmp handle atOnce path s =
      some { s with subs := s.subs ++ [(handle, wcDatasyncPathParse path)] } := by
  have hfind : (s.subs ++ [(handle, wcDatasyncPathParse path)]).find?
      (fun sub => sub.1 = handle) = some (handle, wcDatasyncPathParse path) := by
    rw [List.find?_append, List.find?_eq_none.mpr, Option.none_or]
    · simp
    · intro sub hsub heq
      exact hfresh (List.mem_map.mpr ⟨sub, hsub, of_decide_eq_true heq⟩)
  have hsame : cachedHash wcSHA1 keyCmp s.root
      (wcDatasyncPathToStr (wcDatasyncPathParse path)) = cachedHash wcSHA1 keyCmp s.root path := by
    rw [cachedHash, cachedHash, dataCacheGet, dataCacheGet, parse_pathToStr]
  have hwrong : treenodeHashEq (some (treenodeHashCopy wanted))
      (cachedHash wcSHA1 keyCmp s.root path) = false := by
    rw [Bool.eq_false_iff, Ne, treenodeHashEq_iff] at hne ⊢
    exact hne
  cases atOnce with
  | false => rfl
  | true =>
      rw [onValueDataWait]
      simp only [if_true, callDataWait, dataWaitCb, hfind, Option.bind_some, hsame, hhash, hwrong]
      split <;> rfl

theorem free_iff : true ∉ s.waits ↔ s.waiting.connected = false ∧
    s.waiting.disconnected = false ∧ s.waiting.data = false ∧ s.sleeping = false := by
  simp [Shell.waits]

theorem execWait_spec {handle : Handle} (atOnce : Bool) (argv : Statement) (hfree : true ∉ s.waits)
    (hsubs : s.subs = []) :
    ∃ s', execWait wcSHA1 keyCmp jsonC handle atOnce argv s = some s' ∧ Paused s s' ∧
      s'.appended = s.appended ∧ s'.executed = s.executed := by
  obtain ⟨hconnected, hdisconnected, hdata, hsleeping⟩ := free_iff.mp hfree
  have hsame : Paused s s := .going rfl rfl rfl rfl
  rw [execWait]
  split
  next =>
    split
    next =>
      refine ⟨_, rfl, .paused rfl ?_ ?_, rfl, rfl⟩
      · simp [Shell.waits, pauseProgram, hdisconnected, hdata, hsleeping]
      · simp [pauseProgram, hsubs, hdata]
    next => exact ⟨s, rfl, hsame, rfl, rfl⟩
  next =>
    split
    next =>
      split
      next =>
        refine ⟨_, rfl, .paused rfl ?_ ?_, rfl, rfl⟩
        · simp [Shell.waits, pauseProgram, hconnected, hdata, hsleeping]
        · simp [pauseProgram, hsubs, hdata]
      next => exact ⟨s, rfl, hsame, rfl, rfl⟩
    next =>
      split
      next =>
        dsimp only
        split
        next hne =>
          rw [Bool.not_eq_true] at hne
          rw [onValueDataWait_eq wcSHA1 keyCmp (s := { s with
            waiting := { s.waiting with dataHash := treenodeHashCopy _, data := true } }) rfl hne
            (by simp [hsubs])]
          refine ⟨_, rfl, .paused rfl ?_ ?_, rfl, rfl⟩
          · simp [Shell.waits, pauseProgram, hconnected, hdisconnected, hsleeping]
          · simp [pauseProgram, hsubs]
        next => exact ⟨s, rfl, hsame, rfl, rfl⟩
      next => exact ⟨s, rfl, hsame, rfl, rfl⟩

theorem execSleep_spec (argv : Statement) (hfree : true ∉ s.waits) (hsubs : s.subs = []) :
    ∃ s', execSleep argv s = some s' ∧ Paused s s' ∧ s'.appended = s.appended ∧
      s'.executed = s.executed := by
  obtain ⟨hconnected, hdisconnected, hdata, hsleeping⟩ := free_iff.mp hfree
  rw [execSleep, hsleeping]
  split
  next =>
    refine ⟨_, rfl, .paused rfl ?_ ?_, rfl, rfl⟩
    · simp [Shell.waits, pauseProgram, hconnected, hdisconnected, hdata]
    · simp [pauseProgram, hsubs, hdata]
  next => exact ⟨s, rfl, .going rfl rfl rfl rfl, rfl, rfl⟩

/-- **One command.** It leaves the program alone, or it pauses it and waits for one thing. -/
theorem wcshExec_spec (handle : Handle) (atOnce : Bool) (argv : Statement) (hfree : true ∉ s.waits)
    (hsubs : s.subs = []) :
    ∃ s', wcshExec wcSHA1 keyCmp jsonC handle atOnce argv s = some s' ∧ Paused s s' ∧
      s'.appended = s.appended ∧ s'.executed = s.executed := by
  have hsame : Paused s s := .going rfl rfl rfl rfl
  rw [wcshExec]
  cases findCommand (argv.getD 0 []) with
  | none => exact ⟨s, rfl, hsame, rfl, rfl⟩
  | some cmd =>
      dsimp only
      split
      next => exact ⟨s, rfl, hsame, rfl, rfl⟩
      next =>
        cases cmd.execute with
        | sleep => exact execSleep_spec argv.tail hfree hsubs
        | wait => exact execWait_spec wcSHA1 keyCmp jsonC atOnce argv.tail hfree hsubs
        | exit | connect | disconnect => exact ⟨_, rfl, .going rfl rfl rfl rfl, rfl, rfl⟩
        | _ => exact ⟨s, rfl, hsame, rfl, rfl⟩

/-- **One statement.** The first one is executed, and the rest wait behind it. -/
theorem wcshProgramRunStep_spec (handle : Handle) (atOnce : Bool) (h : s.Sound)
    (hidle : s.program.idle = true) :
    ∃ s', wcshProgramRunStep wcSHA1 keyCmp jsonC handle atOnce s = some s' ∧ s'.Sound ∧
      s'.appended = s.appended ∧
      (s.executed ≠ s.appended → ∃ argv, s'.executed = s.executed ++ [argv]) := by
  obtain ⟨q, hq, happended⟩ := h.program
  have hfree : true ∉ s.waits := fun hwaits => by
    rw [(h.held hwaits).1] at hidle
    cases hidle
  have hsubs : s.subs = [] := by
    have hkeys := h.subs
    rw [(free_iff.mp hfree).2.2.1] at hkeys
    simpa using hkeys
  rw [wcshProgramRunStep, wcshProgramIsFinished, hq.queued.count]
  cases q with
  | nil =>
      refine ⟨s, rfl, h, rfl, fun hne => absurd ?_ hne⟩
      rw [happended, List.append_nil]
  | cons argv q =>
      obtain ⟨s', hexec, hpaused, happended', hexecuted⟩ :=
        wcshExec_spec wcSHA1 keyCmp jsonC handle atOnce argv hfree hsubs
      have hconsistent : s'.program.Consistent (argv :: q) := by
        cases hpaused with
        | going hprogram => exact hprogram ▸ hq
        | paused hprogram => exact hprogram ▸ hq.pause
      obtain ⟨p, hremove, hp, hpidle, hpstate⟩ := hconsistent.removeHead
      refine ⟨{ s' with program := p, executed := s'.executed ++ [argv] }, ?_, ?_, happended',
        fun _ => ⟨argv, by rw [← hexecuted]⟩⟩
      · simp only [List.length_cons, Nat.add_eq_zero_iff, one_ne_zero, and_false, decide_false,
          Bool.false_eq_true, not_false_eq_true, if_true, hq.queued.held.front, Option.bind_some,
          hexec, hremove]
        rfl
      · have hlog : s'.appended = (s'.executed ++ [argv]) ++ q := by
          rw [happended', hexecuted, happended, List.append_assoc, List.singleton_append]
        cases hpaused with
        | going hprogram hwaits hsame hdata =>
            have hpidle : p.idle = true := by rw [hpidle, hprogram, hidle]
            have hfree' : true ∉ s'.waits := hwaits ▸ hfree
            refine ⟨⟨q, hp, hlog⟩, ?_, fun hwaits => absurd hwaits hfree', ?_, ?_⟩
            · exact hwaits ▸ h.single
            · intro _ hnot
              rw [show p.idle = _ from hnot] at hpidle
              cases hpidle
            · show s'.subs.map Prod.fst = if s'.waiting.data then _ else []
              rw [hsame, hsubs, hdata, (free_iff.mp hfree).2.2.1]
              rfl
        | paused hprogram hwaits hsubs' =>
            have hpaused : p.idle = false ∧ p.programState = .paused := by
              rw [hpidle, hpstate, hprogram]
              refine ⟨rfl, ?_⟩
              split <;> rfl
            refine ⟨⟨q, hp, hlog⟩, hwaits.le, fun _ => hpaused, fun hnone => ?_, hsubs'⟩
            have hzero : s'.waits.count true = 0 := List.count_eq_zero.mpr hnone
            rw [hwaits] at hzero
            cases hzero

/-- The shell waits for one thing at a time. -/
theorem others_free : ∀ connected disconnected data sleeping : Bool,
    [connected, disconnected, data, sleeping].count true ≤ 1 →
      (connected = true → disconnected = false ∧ data = false ∧ sleeping = false) ∧
      (disconnected = true → connected = false ∧ data = false ∧ sleeping = false) ∧
      (data = true → connected = false ∧ disconnected = false ∧ sleeping = false) ∧
      (sleeping = true → connected = false ∧ disconnected = false ∧ data = false) := by
  decide

/-- What the program waits for has come: `s'` waits for nothing any more. -/
theorem Shell.Sound.wake (h : s.Sound) (s' : Shell) (hwaits : true ∈ s.waits)
    (hprogram : s'.program = s.program)
    (hlog : s'.appended = s.appended ∧ s'.executed = s.executed) (hfree : true ∉ s'.waits) :
    ∃ p, wcshProgramResume s'.program = some p ∧
      (s'.subs = [] → Shell.Sound { s' with program := p }) := by
  obtain ⟨q, hq, happended⟩ := h.program
  obtain ⟨p, hrun, hp, hstate⟩ := hq.resume (h.held hwaits).1
  refine ⟨p, hprogram ▸ hrun, fun hsubs => ⟨⟨q, hp, ?_⟩, ?_, fun hwaits => absurd hwaits hfree,
    fun _ _ => hstate, ?_⟩⟩
  · show s'.appended = s'.executed ++ q
    rw [hlog.1, hlog.2, happended]
  · exact (List.count_eq_zero.mpr hfree).le.trans (Nat.zero_le 1)
  · show s'.subs.map Prod.fst = if s'.waiting.data then _ else []
    rw [hsubs, (free_iff.mp hfree).2.2.1]
    rfl

/-- **Every event goes through**, and leaves the shell in order. -/
theorem shellStep_sound (h : s.Sound) {e : Event} (he : Occurs s e) :
    ∃ s', shellStep wcSHA1 keyCmp jsonC s e = some s' ∧ s'.Sound ∧
      s'.appended = s.appended ++ e.appends := by
  obtain ⟨hconnected, hdisconnected, hdata, hsleeping⟩ := others_free _ _ _ _ h.single
  have hsubs : s.waiting.data = false → s.subs = [] := by
    intro hfalse
    have hkeys := h.subs
    rw [hfalse] at hkeys
    simpa using hkeys
  have hsame : s.appended = s.appended ++ [] := (List.append_nil _).symm
  cases e with
  | append cell argv =>
      obtain ⟨q, hq, happended⟩ := h.program
      obtain ⟨p, hrun, hp, hstate, hrunning, hpaused⟩ := hq.append he.1 he.2
      refine ⟨{ s with program := p, appended := s.appended ++ [argv] },
        by rw [shellStep, hrun]; rfl, ⟨⟨q ++ [argv], hp, ?_⟩, h.single, ?_, ?_, h.subs⟩, rfl⟩
      · rw [happended, List.append_assoc]
      · intro hwaits
        obtain ⟨hidle, hpause⟩ := h.held hwaits
        exact ⟨(hpaused hpause).trans hidle, hstate.trans hpause⟩
      · intro hfree hidle
        cases hpause : s.program.programState with
        | running => exact hstate.trans hpause
        | paused =>
            have hrunning' := h.free hfree ((hpaused hpause).symm.trans hidle)
            rw [hpause] at hrunning'
            cases hrunning'
  | idle handle atOnce =>
      obtain ⟨s', hrun, hs', happended, -⟩ :=
        wcshProgramRunStep_spec wcSHA1 keyCmp jsonC handle atOnce h he.1
      exact ⟨s', hrun, hs', happended.trans hsame⟩
  | sleepOver =>
      have hsleep : s.sleeping = true := he
      obtain ⟨hc, hd, hw⟩ := hsleeping hsleep
      obtain ⟨p, hrun, hsound⟩ := h.wake { s with sleeping := false }
        (by simp [Shell.waits, hsleep]) rfl ⟨rfl, rfl⟩ (free_iff.mpr ⟨hc, hd, hw, rfl⟩)
      exact ⟨_, by rw [shellStep, resumeProgram, hrun]; rfl, hsound (hsubs hw), hsame⟩
  | onConnected =>
      rw [shellStep]
      cases hc : s.waiting.connected with
      | false =>
          exact ⟨{ s with connected := true }, by simp,
            ⟨h.program, h.single, h.held, h.free, h.subs⟩, hsame⟩
      | true =>
          obtain ⟨hd, hw, hsleep⟩ := hconnected hc
          obtain ⟨p, hrun, hsound⟩ := h.wake { s with
              connected := true, waiting := { s.waiting with connected := false } }
            (by simp [Shell.waits, hc]) rfl ⟨rfl, rfl⟩ (free_iff.mpr ⟨rfl, hd, hw, hsleep⟩)
          exact ⟨_, by simp only [if_true, resumeProgram]; rw [hrun]; rfl, hsound (hsubs hw), hsame⟩
  | onDisconnected =>
      rw [shellStep]
      cases hd : s.waiting.disconnected with
      | false =>
          exact ⟨{ s with connected := false }, by simp,
            ⟨h.program, h.single, h.held, h.free, h.subs⟩, hsame⟩
      | true =>
          obtain ⟨hc, hw, hsleep⟩ := hdisconnected hd
          obtain ⟨p, hrun, hsound⟩ := h.wake { s with
              connected := false, waiting := { s.waiting with disconnected := false } }
            (by simp [Shell.waits, hd]) rfl ⟨rfl, rfl⟩ (free_iff.mpr ⟨hc, rfl, hw, hsleep⟩)
          exact ⟨_, by simp only [if_true, resumeProgram]; rw [hrun]; rfl, hsound (hsubs hw), hsame⟩
  | onError => exact ⟨_, rfl, ⟨h.program, h.single, h.held, h.free, h.subs⟩, hsame⟩
  | cache root => exact ⟨_, rfl, ⟨h.program, h.single, h.held, h.free, h.subs⟩, hsame⟩
  | dataWait handle =>
      have hmem : handle ∈ s.subs.map Prod.fst := he
      have hkeys := h.subs
      cases hw : s.waiting.data with
      | false =>
          rw [hsubs hw] at hmem
          cases hmem
      | true =>
          rw [hw, if_pos rfl] at hkeys
          obtain ⟨⟨_, path⟩, hpath, rfl⟩ := List.map_eq_singleton_iff.mp hkeys
          obtain rfl : handle = s.waiting.dataCb := by simpa [hkeys] using hmem
          obtain ⟨hc, hd, hsleep⟩ := hdata hw
          rw [shellStep, callDataWait, dataWaitCb, if_pos rfl, hpath]
          simp only [List.find?_cons, decide_true, Option.bind_some]
          split
          next =>
            obtain ⟨p, hrun, hsound⟩ := h.wake { s with
                waiting := { s.waiting with data := false }, subs := [] }
              (by simp [Shell.waits, hw]) rfl ⟨rfl, rfl⟩ (free_iff.mpr ⟨hc, hd, rfl, hsleep⟩)
            refine ⟨_, ?_, hsound rfl, hsame⟩
            simp only [resumeProgram]
            rw [show wcshProgramResume s.program = some p from hrun]
            simp
          next => exact ⟨s, rfl, h, hsame⟩

theorem sound_of_reach {s : Shell}
    (run : Reach (shellStep wcSHA1 keyCmp jsonC) Occurs shellStart s) : s.Sound := by
  apply run.invariant shellStart_sound
  intro s e s' hs he hstep
  obtain ⟨t, ht, hsound, -⟩ := shellStep_sound wcSHA1 keyCmp jsonC hs he
  rw [ht] at hstep
  exact Option.some.inj hstep ▸ hsound

/-- A program that is neither held up nor over has its watcher started. -/
theorem Shell.Sound.idle (h : s.Sound) (hfree : true ∉ s.waits) (hne : s.executed ≠ s.appended) :
    s.program.idle = true := by
  obtain ⟨q, hq, happended⟩ := h.program
  by_contra hidle
  rw [Bool.not_eq_true] at hidle
  have hq' : q ≠ [] := fun hnil => hne (by rw [happended, hnil, List.append_nil])
  have hpaused := hq.waiting hidle hq'
  rw [h.free hfree hidle] at hpaused
  cases hpaused

end Steps

end WebcomSdk.Tools
