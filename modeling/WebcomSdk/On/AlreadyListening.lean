import WebcomSdk.On.Reentrancy
import WebcomSdk.Datasync.ListenCoverage

/-!
Paths that are listened to already. `wc_is_listening` runs the loop of
`is_masked`, which ends one part before the path itself, so an item that only
listens for its own path is not seen. A callback of type `ON_VALUE` that is
registered there while connected waits for the next change if there is no value.
-/

namespace WebcomSdk.On

open WebcomSdk.Collection WebcomSdk.Datasync WebcomSdk.Cache Std

section

variable (wcSHA1 : SHA1) (keyCmp : Key → Key → Ordering)

/-- The server sends the data of the path: an item at the path or above it
listens. -/
def OnState.Covers (ctx : OnState) (p : Path) : Prop :=
  ∃ a, a <+: p ∧ ctx.listen.Listens keyCmp a

/-- `wc_datasync_on_value`, called outside callbacks. The callback does what
`answers` says. -/
def onValue (answers : ℕ → CbRun) (path : Bytes) (ctx : OnCtx) : OnCtx :=
  wcDatasyncOnValue wcSHA1 keyCmp (fun c ctx =>
    ((answers ctx.log.length).run wcSHA1 keyCmp none (ctx.emit (.call c))).1) path ctx

/-- The first thing that happens is a call of the new callback with the current
value. -/
def CalledAtOnce (path : Bytes) (ctx : OnCtx) : Prop :=
  ∀ answers, ctx.log ++ [.call ⟨⟨ctx.alloc, wcDatasyncPathParse path⟩, .value,
    ctx.cached keyCmp (wcDatasyncPathParse path), none, none⟩] <+:
      (onValue wcSHA1 keyCmp answers path ctx).log

/-- The function says whether the path is covered, and a further callback on a
covered path is called at once. -/
structure ListeningSeen (path : Bytes) (ctx : OnCtx) : Prop where
  told : wcIsListening keyCmp ctx.listen (wcDatasyncPathParse path) = true ↔
    ctx.Covers keyCmp (wcDatasyncPathParse path)
  called : ctx.Covers keyCmp (wcDatasyncPathParse path) → CalledAtOnce wcSHA1 keyCmp path ctx

end

variable {wcSHA1 : SHA1} {keyCmp : Key → Key → Ordering} {ctx : OnCtx}

theorem wcIsListening_iff {p : Path} :
    wcIsListening keyCmp ctx.listen p = true ↔
      ∃ a, Above a p ∧ ctx.listen.Listens keyCmp a := isMasked_eq_true_iff

theorem covers_iff {p : Path} :
    ctx.Covers keyCmp p ↔
      ctx.listen.Listens keyCmp p ∨ ∃ a, Above a p ∧ ctx.listen.Listens keyCmp a := by
  constructor
  · rintro ⟨a, hpre, hlis⟩
    rcases eq_or_ne a p with rfl | hne
    · exact .inl hlis
    · exact .inr ⟨a, ⟨hpre, hne⟩, hlis⟩
  · rintro (hlis | ⟨a, habove, hlis⟩)
    · exact ⟨p, List.prefix_rfl, hlis⟩
    · exact ⟨a, habove.1, hlis⟩

/-! ### The log of a registration -/

theorem log_invoked {calls : List Call} {ctx ctx' : OnCtx}
    (h : Invoked (fun ctx ctx' => ctx.log <+: ctx'.log) calls ctx ctx') : ctx.log <+: ctx'.log := by
  induction h with
  | nil ctx => exact List.prefix_rfl
  | cons hcall _ ih => exact (List.prefix_append _ _).trans (hcall.trans ih)

/-- What happened stays in the log. -/
theorem log_run (dispatch : Option Dispatch) (r : CbRun) (ctx : OnCtx) :
    ctx.log <+: (r.run wcSHA1 keyCmp dispatch ctx).1.log := by
  refine CbRun.run_induction (R := fun ctx ctx' => ctx.log <+: ctx'.log)
    (fun _ => List.prefix_rfl) (fun _ _ _ h h' => h.trans h') ?_ r ctx
  intro type path ctx ctx' hinvoked
  exact (List.prefix_append _ _).trans (log_invoked hinvoked)

variable (wcSHA1 keyCmp) in
theorem onValue_invoked (answers : ℕ → CbRun) (path : Bytes) (ctx : OnCtx) :
    ∃ ctx', Invoked (fun ctx ctx' => ctx.log <+: ctx'.log)
        (initCalls keyCmp .value (wcDatasyncPathParse path) ctx.toOnState)
        (linkCb keyCmp .value (wcDatasyncPathParse path) ctx) ctx' ∧
      (onValue wcSHA1 keyCmp answers path ctx).log = ctx'.log := by
  have hon : ∃ ctx', Invoked (fun ctx ctx' => ctx.log <+: ctx'.log)
        (initCalls keyCmp .value (wcDatasyncPathParse path) ctx.toOnState)
        (linkCb keyCmp .value (wcDatasyncPathParse path) ctx) ctx' ∧
      wcDatasyncOn wcSHA1 keyCmp .value (fun c ctx =>
        ((answers ctx.log.length).run wcSHA1 keyCmp none (ctx.emit (.call c))).1) path ctx =
        finishOn wcSHA1 keyCmp .value path ctx.toOnState ctx' :=
    wcDatasyncOn_invoked (fun c ctx => log_run none _ _) .value path ctx
  obtain ⟨ctx', hinvoked, heq⟩ := hon
  exact ⟨ctx', hinvoked, by rw [onValue, wcDatasyncOnValue, heq]; rfl⟩

/-- The new callback is called at once under the condition of
`on_registry_add`. -/
theorem calledAtOnce_iff {path : Bytes} :
    CalledAtOnce wcSHA1 keyCmp path ctx ↔
      ctx.callsAtOnce keyCmp (wcDatasyncPathParse path) = true := by
  constructor
  · intro hcalled
    by_contra hsilent
    obtain ⟨ctx', hinvoked, hlog⟩ := onValue_invoked wcSHA1 keyCmp (fun _ => .ret true) path ctx
    rw [initCalls, if_neg hsilent] at hinvoked
    have hlen := (hcalled fun _ => .ret true).length_le
    cases hinvoked
    rw [hlog] at hlen
    simp [linkCb] at hlen
  · intro hcalls answers
    obtain ⟨ctx', hinvoked, hlog⟩ := onValue_invoked wcSHA1 keyCmp answers path ctx
    rw [initCalls, if_pos hcalls] at hinvoked
    rw [hlog]
    cases hinvoked with
    | cons hcall hrest => exact hcall.trans (log_invoked hrest)

/-- **Seeing what is listened to.** In every state `wc_is_listening` sees that a
path is covered, and a further callback is called at once there, if and only if
the item at the path does not listen or an item above it does. On a covered path
the callback is called at once if and only if there is a value, or an item above
listens, or there is no connection. -/
theorem listening_seen_iff (wcSHA1 : SHA1) (keyCmp : Key → Key → Ordering) (ctx : OnCtx)
    (path : Bytes) :
    (ListeningSeen wcSHA1 keyCmp path ctx ↔
      (ctx.listen.Listens keyCmp (wcDatasyncPathParse path) →
        ∃ a, Above a (wcDatasyncPathParse path) ∧ ctx.listen.Listens keyCmp a)) ∧
    (CalledAtOnce wcSHA1 keyCmp path ctx ↔
      (ctx.cached keyCmp (wcDatasyncPathParse path)).isSome ∨
        (∃ a, Above a (wcDatasyncPathParse path) ∧ ctx.listen.Listens keyCmp a) ∨
        ctx.listen.state = .disconnected) := by
  have hcalled : CalledAtOnce wcSHA1 keyCmp path ctx ↔
      (ctx.cached keyCmp (wcDatasyncPathParse path)).isSome ∨
        (∃ a, Above a (wcDatasyncPathParse path) ∧ ctx.listen.Listens keyCmp a) ∨
        ctx.listen.state = .disconnected := by
    rw [calledAtOnce_iff, OnState.callsAtOnce, Bool.or_eq_true, Bool.or_eq_true,
      wcIsListening_iff, decide_eq_true_iff, or_assoc]
  refine ⟨⟨fun hseen hlis => ?_, fun habove => ?_⟩, hcalled⟩
  · exact wcIsListening_iff.mp (hseen.told.mpr (covers_iff.mpr (.inl hlis)))
  · have hcovers : ctx.Covers keyCmp (wcDatasyncPathParse path) ↔
        ∃ a, Above a (wcDatasyncPathParse path) ∧ ctx.listen.Listens keyCmp a := by
      rw [covers_iff]
      exact ⟨fun h => h.elim habove id, .inr⟩
    exact ⟨by rw [wcIsListening_iff, hcovers], fun h => hcalled.mpr (.inr (.inl (hcovers.mp h)))⟩

/-- A path is watched over a connection, and the server has accepted. -/
def watchA : List OnOp :=
  [.connect, .handshake, .on .value pathA keepAlways, .response 1 true]

/-- The item of `/a` is active, but the path does not count as listened to and a
second callback is not called. -/
theorem active_item_not_seen :
    ∃ ctx, watchA.foldlM (OnCtx.step zeroSHA1 strcmp) onCtxNew = some ctx ∧
      (ctx.listen.item strcmp [pathA.tail]).map (·.status) = some .active ∧
      wcIsListening strcmp ctx.listen [pathA.tail] = false ∧
      (onValue zeroSHA1 strcmp keepAlways pathA ctx).log.length = ctx.log.length ∧
      ¬ ListeningSeen zeroSHA1 strcmp pathA ctx := by
  refine ⟨_, rfl, rfl, rfl, rfl, fun hseen => ?_⟩
  have hlis := hseen.told.mpr ⟨[pathA.tail], List.prefix_rfl, _, rfl, rfl⟩
  exact absurd hlis (by decide)

end WebcomSdk.On
