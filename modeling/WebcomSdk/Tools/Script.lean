import WebcomSdk.Tools.Chunks
import WebcomSdk.Tools.Shell

/-!
A script from its file to its execution: `script_data_event` of `tools/wcsh.c`
reads some bytes, the parser hands over the statements that end in them, and the
other events come in between.
-/

namespace WebcomSdk.Tools

open WebcomSdk.Lib WebcomSdk.Datasync WebcomSdk.Cache

/-- The parser and the shell. `reading` says whether the watcher of the file is started;
`chunks` records what the parser has been fed. -/
structure Script where
  fsm : WcshFsm
  shell : Shell
  reading : Bool
  chunks : List Bytes

def scriptStart : Script := ⟨wcshNew, shellStart, true, []⟩

/-- `sizeof(buf)`. -/
def scriptBufSize : ℕ := 2

section Functions

variable (wcSHA1 : SHA1) (keyCmp : Key → Key → Ordering) (jsonC : JsonC)

/-- The statements are appended one by one, with the cells that `malloc` returns. -/
def appendAll (s : Shell) (statements : List (ℕ × Statement)) : Option Shell :=
  statements.foldlM (fun s (cell, argv) => shellStep wcSHA1 keyCmp jsonC s (.append cell argv)) s

/-- `fsm_feed` and what `on_command_end` hands over in it. -/
def feedScript (buf : Bytes) (cells : List ℕ) (s : Script) : Option Script :=
  (wcshChunkEval s.fsm buf).bind fun (fsm, _) =>
    (appendAll wcSHA1 keyCmp jsonC s.shell
      (cells.zip (fsm.user.commands.drop s.fsm.user.commands.length))).map fun shell =>
        { s with fsm, shell, chunks := s.chunks ++ [if buf = [] then [10] else buf] }

/-- `script_data_event`, `buf` being what `read` has put in the buffer: nothing at the end of
the file. -/
def scriptDataEvent (buf : Bytes) (cells : List ℕ) (endCell : ℕ) (s : Script) : Option Script :=
  if buf.length > 0 then feedScript wcSHA1 keyCmp jsonC buf cells s
  else
    (feedScript wcSHA1 keyCmp jsonC [] cells s).bind fun s =>
      (shellStep wcSHA1 keyCmp jsonC s.shell (.append endCell [ascii "exit"])).map fun shell =>
        { s with shell, reading := false }

inductive ScriptEvent where
  | readable (buf : Bytes) (cells : List ℕ) (endCell : ℕ)
  | other (e : Event)

def scriptStep (s : Script) : ScriptEvent → Option Script
  | .readable buf cells endCell => scriptDataEvent wcSHA1 keyCmp jsonC buf cells endCell s
  | .other e => (shellStep wcSHA1 keyCmp jsonC s.shell e).map fun shell => { s with shell }

/-- The file is read while its watcher is started, and there is a new cell for each statement.
No statement comes from elsewhere. -/
def ScriptOccurs (s : Script) : ScriptEvent → Prop
  | .readable buf cells endCell =>
      s.reading = true ∧ buf.length ≤ scriptBufSize ∧ (endCell :: cells).Nodup ∧
      (∀ cell ∈ endCell :: cells, s.shell.program.statements.heap cell = none) ∧
      ∀ fsm ∈ wcshChunkEval s.fsm buf,
        cells.length = fsm.1.user.commands.length - s.fsm.user.commands.length
  | .other (.append _ _) => False
  | .other e => Occurs s.shell e

end Functions

/-! ### The parser -/

/-- The parser hands over no empty statement. -/
theorem commands_ne_nil {f f' : WcshFsm} {buf : Bytes} (h : wcshFeed f buf = some f')
    (hf : ∀ argv ∈ f.user.commands, argv ≠ []) : ∀ argv ∈ f'.user.commands, argv ≠ [] := by
  have hend : ∀ (c : UInt8) (user user' : WcshCmdParse), (∀ argv ∈ user.commands, argv ≠ []) →
      onCommandEnd c user = some user' → ∀ argv ∈ user'.commands, argv ≠ [] := by
    intro c user user' huser hexec
    obtain rfl := Option.some.inj hexec
    show ∀ argv ∈ (if user.tokenList.length > 0 then _ else _), argv ≠ []
    split
    next hlen =>
      rw [List.forall_mem_append, List.forall_mem_singleton]
      exact ⟨huser, List.ne_nil_of_length_pos hlen⟩
    next => exact huser
  refine fsmFeed_keeps (P := fun user => ∀ argv ∈ user.commands, argv ≠ []) ?_ hf h
  intro a c user user' huser hexec
  cases a with
  | onTokenStart | onGroupStart =>
      obtain rfl := Option.some.inj hexec
      exact huser
  | saveChar =>
      obtain ⟨-, rfl⟩ := saveChar_eq_some.mp hexec
      exact huser
  | saveToken =>
      obtain ⟨-, rfl⟩ := (saveToken_eq_some (c := c)).mp hexec
      exact huser
  | onCommandEnd => exact hend c user user' huser hexec
  | saveTokenEndCommand =>
      obtain ⟨user₁, hsave, hexec⟩ := Option.bind_eq_some_iff.mp hexec
      obtain ⟨-, rfl⟩ := saveToken_eq_some.mp hsave
      exact hend c _ user' (by exact huser) hexec

/-- A call of `wcsh_chunk_eval` feeds the chunk, or a newline at the end of the file. -/
theorem wcshChunkEval_feeds {f f' : WcshFsm} {buf : Bytes} {error : Bool}
    (h : wcshChunkEval f buf = some (f', error)) :
    ∃ f₁, wcshFeed f (if buf = [] then [10] else buf) = some f₁ ∧ f₁.user = f'.user ∧
      (buf ≠ [] → f₁ = f') := by
  rw [wcshChunkEval] at h
  by_cases hnil : buf = []
  · rw [if_neg (by simp [hnil])] at h
    obtain ⟨f₁, hfeed, heq⟩ := Option.map_eq_some_iff.mp h
    refine ⟨f₁, by rw [if_pos hnil, hfeed], ?_, fun hne => absurd hnil hne⟩
    -- `fsm_end` leaves the commands alone
    split at heq <;> exact (Prod.mk.inj heq).1 ▸ rfl
  · rw [if_pos (List.length_pos_of_ne_nil hnil)] at h
    obtain ⟨f₁, hfeed, heq⟩ := Option.map_eq_some_iff.mp h
    obtain rfl := (Prod.mk.inj heq).1
    exact ⟨f₁, by rw [if_neg hnil, hfeed], rfl, fun _ => rfl⟩

/-! ### The statements on their way -/

section Steps

variable (wcSHA1 : SHA1) (keyCmp : Key → Key → Ordering) (jsonC : JsonC)

/-- What the parser hands over in one call. -/
theorem appendAll_spec (statements : List (ℕ × Statement)) {s : Shell} (h : s.Sound)
    (hnodup : (statements.map Prod.fst).Nodup)
    (hfree : ∀ c ∈ statements, s.program.statements.heap c.1 = none)
    (hargv : ∀ c ∈ statements, c.2 ≠ []) :
    ∃ s', appendAll wcSHA1 keyCmp jsonC s statements = some s' ∧ s'.Sound ∧
      s'.appended = s.appended ++ statements.map Prod.snd ∧
      ∀ cell, cell ∉ statements.map Prod.fst → s.program.statements.heap cell = none →
        s'.program.statements.heap cell = none := by
  induction statements generalizing s with
  | nil => exact ⟨s, rfl, h, (List.append_nil _).symm, fun _ _ hcell => hcell⟩
  | cons statement statements ih =>
      obtain ⟨cell, argv⟩ := statement
      rw [List.forall_mem_cons] at hfree hargv
      rw [List.map_cons, List.nodup_cons] at hnodup
      obtain ⟨s₁, hstep, hsound, -⟩ := shellStep_sound wcSHA1 keyCmp jsonC h
        (show Occurs s (.append cell argv) from ⟨hfree.1, hargv.1⟩)
      obtain ⟨program, happend, rfl⟩ := Option.map_eq_some_iff.mp hstep
      have hstill : ∀ c ∈ statements, program.statements.heap c.1 = none := by
        intro c hc
        have hmem : c.1 ∈ statements.map Prod.fst := List.mem_map_of_mem hc
        have hne : c.1 ≠ cell := fun heq => hnodup.1 (heq ▸ hmem)
        exact append_free happend hne (hfree.2 c hc)
      obtain ⟨s', hrest, hs', happended, hfree'⟩ := ih hsound hnodup.2 hstill hargv.2
      refine ⟨s', ?_, hs', ?_, fun b hb hheap => ?_⟩
      · rw [appendAll, List.foldlM_cons]
        show (shellStep wcSHA1 keyCmp jsonC s (.append cell argv)).bind _ = _
        rw [hstep]
        exact hrest
      · rw [happended, List.map_cons, List.append_assoc, List.singleton_append]
      · rw [List.map_cons, List.mem_cons, not_or] at hb
        exact hfree' b hb.2 (append_free happend hb.1 hheap)

/-- The shell is in order, and what has been appended to it is what the parser has handed over,
and then the end. -/
structure Script.Sound (s : Script) : Prop where
  shell : s.shell.Sound
  fed : ∃ f, wcshFeedChunks wcshNew s.chunks = some f ∧ f.user = s.fsm.user ∧
    (s.reading = true → s.fsm = f)
  statements : ∀ argv ∈ s.fsm.user.commands, argv ≠ []
  appended : s.shell.appended =
    s.fsm.user.commands ++ if s.reading then [] else [[ascii "exit"]]

theorem scriptStart_sound : scriptStart.Sound :=
  ⟨shellStart_sound, ⟨wcshNew, rfl, rfl, fun _ => rfl⟩, List.forall_mem_nil _, rfl⟩

variable {s : Script}

/-- One call of `wcsh_chunk_eval`. -/
theorem Script.Sound.feed (h : s.Sound) (hreading : s.reading = true) {buf : Bytes}
    {cells : List ℕ} (hnodup : cells.Nodup)
    (hfree : ∀ cell ∈ cells, s.shell.program.statements.heap cell = none)
    {fsm : WcshFsm} {error : Bool} (heval : wcshChunkEval s.fsm buf = some (fsm, error))
    (hcells : cells.length = fsm.user.commands.length - s.fsm.user.commands.length) :
    ∃ shell, feedScript wcSHA1 keyCmp jsonC buf cells s = some { s with
        fsm, shell, chunks := s.chunks ++ [if buf = [] then [10] else buf] } ∧
      shell.Sound ∧ shell.appended = fsm.user.commands ∧
      (∃ f, wcshFeedChunks wcshNew (s.chunks ++ [if buf = [] then [10] else buf]) = some f ∧
        f.user = fsm.user ∧ (buf ≠ [] → fsm = f)) ∧
      (∀ argv ∈ fsm.user.commands, argv ≠ []) ∧
      ∀ cell, cell ∉ cells → s.shell.program.statements.heap cell = none →
        shell.program.statements.heap cell = none := by
  obtain ⟨f, hfed, huser, hsame⟩ := h.fed
  obtain rfl := hsame hreading
  obtain ⟨f₁, hfeed, huser₁, hsame₁⟩ := wcshChunkEval_feeds heval
  have hchunks : wcshFeedChunks wcshNew (s.chunks ++ [if buf = [] then [10] else buf]) =
      some f₁ := by
    rw [wcshFeedChunks, feedChunks_append,
      show feedChunks _ _ wcshNew s.chunks = some s.fsm from hfed, Option.bind_some, feedChunks,
      show fsmFeed _ _ s.fsm _ = some f₁ from hfeed]
    rfl
  have hcommands : ∀ argv ∈ fsm.user.commands, argv ≠ [] := by
    rw [← huser₁]
    exact commands_ne_nil hfeed h.statements
  have hgrow : s.fsm.user.commands <+: fsm.user.commands := by
    have hone : wcshFeedChunks s.fsm [if buf = [] then [10] else buf] = some f₁ := by
      rw [wcshFeedChunks, feedChunks, show fsmFeed _ _ s.fsm _ = some f₁ from hfeed]
      rfl
    rw [← huser₁]
    exact commands_grow hone
  obtain ⟨more, hmore⟩ := hgrow
  rw [← hmore, List.length_append, Nat.add_sub_cancel_left] at hcells
  have hdrop : fsm.user.commands.drop s.fsm.user.commands.length = more := by
    rw [← hmore, List.drop_left]
  have hfst : (cells.zip more).map Prod.fst = cells := List.map_fst_zip hcells.le
  have hsnd : (cells.zip more).map Prod.snd = more := List.map_snd_zip hcells.ge
  obtain ⟨shell, happend, hshell, happended, hkept⟩ := appendAll_spec wcSHA1 keyCmp jsonC
    (cells.zip more) h.shell (by rw [hfst]; exact hnodup)
    (fun c hc => hfree _ (hfst ▸ List.mem_map_of_mem hc))
    (fun c hc => hcommands _ (hmore ▸ List.mem_append_right _ (hsnd ▸ List.mem_map_of_mem hc)))
  refine ⟨shell, ?_, hshell, ?_, ⟨f₁, hchunks, huser₁, fun hne => (hsame₁ hne).symm⟩, hcommands, ?_⟩
  · rw [feedScript, heval, Option.bind_some]
    dsimp only
    rw [hdrop, happend]
    rfl
  · rw [happended, hsnd, h.appended, hreading, if_pos rfl, List.append_nil, hmore]
  · rw [hfst] at hkept
    exact hkept

/-- **Every event goes through** unless the parser leaves its arrays, and keeps the script in
order. -/
theorem scriptStep_sound (h : s.Sound) {e : ScriptEvent} (he : ScriptOccurs s e) :
    (∃ s', scriptStep wcSHA1 keyCmp jsonC s e = some s' ∧ s'.Sound) ∨
      ∃ buf cells endCell, e = .readable buf cells endCell ∧ wcshChunkEval s.fsm buf = none := by
  cases e with
  | other e =>
      have hoccurs : Occurs s.shell e := by
        cases e with
        | append _ _ => cases he
        | _ => exact he
      obtain ⟨shell, hstep, hshell, happended⟩ :=
        shellStep_sound wcSHA1 keyCmp jsonC h.shell hoccurs
      have hsame : shell.appended = s.shell.appended := by
        cases e with
        | append _ _ => cases he
        | _ => exact happended.trans (List.append_nil _)
      refine .inl ⟨{ s with shell }, by rw [scriptStep, hstep]; rfl, hshell, h.fed,
        h.statements, ?_⟩
      exact hsame.trans h.appended
  | readable buf cells endCell =>
      obtain ⟨hreading, -, hnodup, hfree, hcells⟩ := he
      cases heval : wcshChunkEval s.fsm buf with
      | none => exact .inr ⟨buf, cells, endCell, rfl, heval⟩
      | some result =>
          obtain ⟨fsm, error⟩ := result
          rw [List.nodup_cons] at hnodup
          rw [List.forall_mem_cons] at hfree
          obtain ⟨shell, hfeed, hshell, happended, ⟨f, hfed, huser, hsame⟩, hcommands, hkept⟩ :=
            h.feed wcSHA1 keyCmp jsonC hreading hnodup.2 hfree.2 heval (hcells _ heval)
          left
          rw [scriptStep, scriptDataEvent]
          by_cases hnil : buf = []
          · subst hnil
            obtain ⟨shell', hend, hshell', happended'⟩ := shellStep_sound wcSHA1 keyCmp jsonC hshell
              (show Occurs shell (.append endCell [ascii "exit"]) from
                ⟨hkept endCell hnodup.1 hfree.1, List.cons_ne_nil _ _⟩)
            refine ⟨_, by rw [if_neg (by simp), hfeed, Option.bind_some, hend]; rfl, hshell',
              ⟨f, hfed, huser, fun hmore => absurd hmore Bool.false_ne_true⟩, hcommands, ?_⟩
            show shell'.appended = fsm.user.commands ++ [[ascii "exit"]]
            rw [happended', happended]
            rfl
          · rw [if_pos (List.length_pos_of_ne_nil hnil), hfeed]
            refine ⟨_, rfl, hshell, ⟨f, hfed, huser, fun _ => hsame hnil⟩, hcommands, ?_⟩
            rw [happended, hreading, if_pos rfl, List.append_nil]

theorem scriptSound_of_reach
    (run : Reach (scriptStep wcSHA1 keyCmp jsonC) ScriptOccurs scriptStart s) : s.Sound := by
  apply run.invariant scriptStart_sound
  intro s e s' hs he hstep
  rcases scriptStep_sound wcSHA1 keyCmp jsonC hs he with
    ⟨t, ht, hsound⟩ | ⟨buf, cells, endCell, rfl, heval⟩
  · rw [ht] at hstep
    exact Option.some.inj hstep ▸ hsound
  · exfalso
    rw [scriptStep, scriptDataEvent, feedScript, feedScript] at hstep
    by_cases hnil : buf = []
    · subst hnil
      rw [if_neg (by simp), heval] at hstep
      cases hstep
    · rw [if_pos (List.length_pos_of_ne_nil hnil), heval] at hstep
      cases hstep

/-- What the parser has handed over is what it would hand over if it were fed the text at once,
as long as that parses. -/
theorem Script.Sound.commands_eq (h : s.Sound) {g : WcshFsm}
    (hparse : wcshFeed wcshNew s.chunks.flatten = some g) (hps : g.ps = .parsing) :
    s.fsm.user.commands = g.user.commands := by
  obtain ⟨f, hfed, huser, -⟩ := h.fed
  have hcut : wcshFeedChunks wcshNew s.chunks = wcshFeed wcshNew s.chunks.flatten ∨ _ :=
    feedChunks_cases s.chunks rfl
  rcases hcut with hsame | ⟨-, -, f₁, -, -, hps₁, hwhole⟩
  · obtain rfl : f = g := Option.some.inj (hfed.symm.trans (hsame.trans hparse))
    rw [huser]
  · obtain rfl : g = f₁ := Option.some.inj (hparse.symm.trans hwhole)
    rw [hps] at hps₁
    cases hps₁

end Steps

end WebcomSdk.Tools
