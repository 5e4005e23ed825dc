import WebcomSdk.Datasync.ListenRoot
import WebcomSdk.On.Reentrancy

/-!
What the on registry does to the listen registry: it watches paths and stops
watching them, and the network does the rest. What each of these keeps is kept
by every operation, whatever the callbacks register.
-/

namespace WebcomSdk.On

open WebcomSdk.Lib WebcomSdk.Collection WebcomSdk.Datasync WebcomSdk.Cache Std

section

variable {wcSHA1 : SHA1} {keyCmp : Key → Key → Ordering} {answers : ℕ → CbRun} {ctx ctx' : OnCtx}
  {P : ListenCtx → Prop}

section Registering

variable (hwatch : ∀ path addr listen, P listen → P (wcDatasyncWatch keyCmp path addr listen))
include hwatch

theorem finishOn_listen {type : OnEventType} {path : Bytes} {before : OnState} {calls : List Call}
    (hinvoked : Invoked (fun ctx ctx' => P ctx.listen → P ctx'.listen) calls ctx ctx')
    (h : P ctx.listen) : P (finishOn wcSHA1 keyCmp type path before ctx').listen := by
  have hcalls : P ctx'.listen := by
    induction hinvoked with
    | nil ctx => exact h
    | cons hcall _ ih => exact ih (hcall h)
  exact hwatch _ _ _ hcalls

theorem run_listen (dispatch : Option Dispatch) (r : CbRun) (ctx : OnCtx) (h : P ctx.listen) :
    P (r.run wcSHA1 keyCmp dispatch ctx).1.listen := by
  refine CbRun.run_induction (R := fun ctx ctx' => P ctx.listen → P ctx'.listen)
    (fun _ h => h) (fun _ _ _ h h' hP => h' (h hP)) ?_ r ctx h
  intro type path ctx ctx' hinvoked h
  exact finishOn_listen hwatch hinvoked h

theorem callCb_listen (dispatch : Dispatch) (ctx : OnCtx) (c : Call) (h : P ctx.listen) :
    P (callCb wcSHA1 keyCmp answers dispatch ctx c).listen := by
  rw [callCb]
  have hrun : P ((answers ctx.log.length).run wcSHA1 keyCmp (some dispatch)
      (ctx.emit (.call c))).1.listen := run_listen hwatch _ _ _ h
  dsimp only
  split
  · exact hrun
  · exact hrun

theorem triggerLoop_listen (walking : Bool) (path : Path) (t : ChildTrigger) (cbs : List OnCb)
    (ctx : OnCtx) (h : P ctx.listen) :
    P (triggerLoop wcSHA1 keyCmp answers walking path t cbs ctx).listen := by
  induction cbs generalizing ctx with
  | nil => exact h
  | cons pCb cbs ih => exact ih _ (callCb_listen hwatch _ ctx _ h)

theorem triggers_listen (walking : Bool) (path : Path) (ts : List ChildTrigger) (ctx : OnCtx)
    (h : P ctx.listen) :
    P (ts.foldl (triggerOnChildCbList wcSHA1 keyCmp answers walking path) ctx).listen := by
  refine List.foldlRecOn (motive := fun ctx : OnCtx => P ctx.listen) ts _ h fun ctx h t _ => ?_
  rw [triggerOnChildCbList_eq]
  exact triggerLoop_listen hwatch walking path t _ ctx h

theorem trig_listen (walking : Bool) (path : Path) (ctx : OnCtx) (h : P ctx.listen) :
    P (trig wcSHA1 keyCmp answers walking path ctx).listen := by
  have hchild : P (onChildTrig wcSHA1 keyCmp answers walking path ctx).listen := by
    rw [onChildTrig]
    split
    · exact h
    · split
      · dsimp only
        split <;> exact triggers_listen hwatch walking path _ ctx h
      · exact triggers_listen hwatch walking path _ ctx h
  have hvalue : ∀ ctx : OnCtx, P ctx.listen →
      P (onValTrig wcSHA1 keyCmp answers walking path ctx).listen := by
    intro ctx h
    rw [onValTrig]
    split
    · exact h
    · dsimp only
      split
      · exact h
      · exact List.foldlRecOn (motive := fun ctx : OnCtx => P ctx.listen) _ _ h
          fun ctx h pCb _ => callCb_listen hwatch _ ctx _ h
  rw [trig]
  split
  · exact h
  · dsimp only
    split
    · exact hvalue _ hchild
    · exact hvalue _ h

end Registering

variable (hwatch : ∀ path addr listen, P listen → P (wcDatasyncWatch keyCmp path addr listen))
  (hstep : ∀ op listen listen', P listen → ListenCtx.step keyCmp listen op = some listen' →
    P listen')

include hstep in
theorem unwatch_listen (path : Path) (n : ℕ) (h : P ctx.listen) :
    P (unwatch keyCmp path n ctx).listen := by
  rw [unwatch]
  split
  next listen hunwatch => exact hstep (.unwatchEx path n) _ _ h hunwatch
  next => exact h

theorem listen_onRegistryRemove (path : Path) (typeMask : OnEventType → Bool) (hdl : Option OnCb)
    (ctx : OnCtx) : (onRegistryRemove keyCmp path typeMask hdl ctx).1.listen = ctx.listen := by
  rw [onRegistryRemove]
  split
  · rfl
  · dsimp only
    split <;> rfl

include hstep in
theorem gcLoop_listen (queue : List OnCb) (ctx : OnCtx) (h : P ctx.listen) :
    P (gcLoop keyCmp queue ctx).listen := by
  induction queue generalizing ctx with
  | nil => exact h
  | cons pCb queue ih =>
      rw [gcLoop]
      split
      · refine ih _ ?_
        rw [listen_onRegistryRemove]
        exact unwatch_listen hstep _ _ h
      · exact h

include hwatch hstep

/-- **One operation**, whatever its callbacks register. -/
theorem onStep_listen {op : OnOp} (h : P ctx.listen)
    (hop : ctx.step wcSHA1 keyCmp op = some ctx') : P ctx'.listen := by
  have hpush : ∀ {cache answers path fuel},
      onRegistryDispatchOnEvent wcSHA1 keyCmp answers path fuel { ctx with cache } = some ctx' →
        P ctx'.listen := by
    intro cache answers path fuel hdispatch
    have hstored : P ({ ctx with cache } : OnCtx).listen := h
    obtain ⟨ctx₁, h₁, rfl⟩ := dispatch_induction (P := fun ctx : OnCtx => P ctx.listen)
      (fun walking q ctx h => trig_listen hwatch walking q ctx h) hstored hdispatch
    exact gcLoop_listen hstep _ _ h₁
  have hnet : ∀ op : ListenOp,
      ((ctx.listen.step keyCmp op).map fun listen => { ctx with listen }) = some ctx' →
        P ctx'.listen := by
    intro op hnet
    obtain ⟨listen, hlisten, rfl⟩ := Option.map_eq_some_iff.mp hnet
    exact hstep op _ _ h hlisten
  have hoff : ∀ path eventMask cb, wcDatasyncOffW keyCmp path eventMask cb ctx = ctx' →
      P ctx'.listen := by
    rintro path eventMask cb rfl
    have hremoved : (onRegistryRemove keyCmp (wcDatasyncPathParse path) eventMask cb
        ctx).1.listen = ctx.listen := listen_onRegistryRemove _ _ _ _
    exact unwatch_listen hstep _ _ (hremoved ▸ h)
  unfold OnCtx.step at hop
  split at hop
  case isTrue => cases hop
  cases op with
  | on type path answers =>
      obtain rfl := Option.some.inj hop
      have hrun : ∀ c (ctx : OnCtx), P (ctx.emit (.call c)).listen →
          P ((answers ctx.log.length).run wcSHA1 keyCmp none (ctx.emit (.call c))).1.listen :=
        fun c ctx h => run_listen hwatch none _ _ h
      obtain ⟨ctx', hinvoked, heq⟩ := wcDatasyncOn_invoked
        (R := fun ctx ctx' => P ctx.listen → P ctx'.listen) hrun type path ctx
      rw [heq]
      exact finishOn_listen hwatch hinvoked h
  | off hdl =>
      simp only at hop
      split at hop
      · exact hoff _ _ _ (Option.some.inj hop)
      · cases hop
  | offPath path => exact hoff _ _ _ (Option.some.inj hop)
  | offPathType path type => exact hoff _ _ _ (Option.some.inj hop)
  | updatePut path data answers fuel => exact hpush hop
  | updateMerge path data answers fuel => exact hpush hop
  | cnxLost => exact hnet _ hop
  | handshake => exact hnet _ hop
  | response id ok => exact hnet _ hop
  | connect => exact hnet _ hop
  | closeCnx => exact hnet _ hop

end

/-- In every state that is reached the item of the root is not masked. -/
theorem reach_rootHeard {wcSHA1 : SHA1} {keyCmp : Key → Key → Ordering} [TransCmp keyCmp]
    [LawfulEqCmp keyCmp] {ctx : OnCtx}
    (run : Reach (OnCtx.step wcSHA1 keyCmp) (fun _ _ => True) onCtxNew ctx) :
    ctx.listen.RootHeard keyCmp :=
  run.invariant (I := fun ctx => ctx.listen.RootHeard keyCmp) rootHeard_new
    fun _ _ _ h _ hstep => onStep_listen (P := ListenCtx.RootHeard keyCmp)
      (fun path addr _ h => (wcDatasyncWatch_rootHeard h path addr).1)
      (fun _ _ _ h hstep => step_rootHeard h hstep) h hstep

end WebcomSdk.On
