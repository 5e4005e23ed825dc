import WebcomSdk.Cache.CacheFrame
import WebcomSdk.On.RefCounts

/-!
Steps whose callbacks return 1 and register nothing. There are three kinds: a
callback is registered, callbacks are unlinked, or a push is dispatched. What
each of them does is stated once, path by path.
-/

namespace WebcomSdk.On

open WebcomSdk.Collection WebcomSdk.Datasync WebcomSdk.Cache Std

/-- Every callback returns 1 and registers nothing. -/
def OnOp.Keeps (op : OnOp) : Prop := ∀ answers ∈ op.answers, ∀ n, answers n = .ret true

/-- The operation is a pushed put or merge. -/
def OnOp.IsPush : OnOp → Prop
  | .updatePut .. | .updateMerge .. => True
  | _ => False

section

variable (wcSHA1 : SHA1) (keyCmp : Key → Key → Ordering)

/-- Callbacks are unlinked, at most. -/
structure Trimmed (ctx ctx' : OnCtx) : Prop where
  cache : ctx'.cache = ctx.cache
  log : ctx'.log = ctx.log
  alloc : ctx'.alloc = ctx.alloc
  sub : ∀ q sub', ctx'.sub keyCmp q = some sub' →
    ∃ hit sub, ctx.sub keyCmp q = some sub ∧ sub' = sub.without hit

/-- The cache has changed on the line of the path, and every subscription there
was looked at once. -/
structure Pushed (path : Path) (ctx ctx' : OnCtx) : Prop where
  alloc : ctx'.alloc = ctx.alloc
  cacheOk : ctx'.cache.Forall (NodeOk wcSHA1 keyCmp)
  cached : ∀ q, ¬ Related path q → ctx'.cached keyCmp q = ctx.cached keyCmp q
  sub : ∀ q, ctx'.sub keyCmp q = (ctx.sub keyCmp q).map fun sub =>
    if Related path q then trigSub wcSHA1 keyCmp (ctx'.cached keyCmp q) sub else sub
  log : ∃ calls : List Call, ctx'.log = ctx.log ++ calls.map .call ∧
    (∀ c ∈ calls, c.pCb.addr < ctx.alloc) ∧
    ∀ q sub, ctx.sub keyCmp q = some sub → calls.filter (fun c => c.pCb.sub = q) =
      if Related path q then trigCalls wcSHA1 keyCmp (ctx'.cached keyCmp q) sub else []

end

variable {wcSHA1 : SHA1} {keyCmp : Key → Key → Ordering} {answers : ℕ → CbRun} {ctx ctx' : OnCtx}

theorem OnOp.Keeps.onlyReturns {op : OnOp} (h : op.Keeps) : op.OnlyReturns := fun answers ha n =>
  ⟨true, h answers ha n⟩

theorem OnOp.Keeps.cancelsOnce {op : OnOp} (h : op.Keeps) : CancelsOnce wcSHA1 keyCmp ctx op := by
  have hzero : ∀ answers ∈ op.answers, ∀ log pCb n, ¬ ReturnsZero answers log pCb n := by
    intro answers ha log pCb n hzero
    have hret := hzero.2
    rw [h answers ha n] at hret
    cases hret
  cases op with
  | updatePut path data answers fuel =>
      exact fun ctx' _ pCb m n _ _ hm _ => hzero answers rfl _ _ _ hm
  | updateMerge path data answers fuel =>
      exact fun ctx' _ pCb m n _ _ hm _ => hzero answers rfl _ _ _ hm
  | _ => trivial

theorem keeps_on (type : OnEventType) (path : Bytes) : (OnOp.on type path keepAlways).Keeps := by
  rintro answers ⟨⟩ n
  rfl

theorem keeps_updatePut (path : Bytes) (data : Json) (fuel : ℕ) :
    (OnOp.updatePut path data keepAlways fuel).Keeps := by
  rintro answers ⟨⟩ n
  rfl

theorem keeps_of_no_answers {op : OnOp} (h : op.answers = none) : op.Keeps := by
  intro answers ha
  rw [h] at ha
  cases ha

theorem cancelled_eq_nil (h : ∀ n, answers n = .ret true) (n : ℕ) (calls : List Call) :
    cancelled answers n calls = [] := by
  induction calls generalizing n with
  | nil => rfl
  | cons c calls ih =>
      rw [cancelled, h n]
      exact ih (n + 1)

theorem without_nothing (sub : OnSub) : sub.without (fun _ _ => false) = sub := by
  simp [OnSub.without]

section Steps

variable [TransCmp keyCmp] [LawfulEqCmp keyCmp]

omit [TransCmp keyCmp] [LawfulEqCmp keyCmp] in
theorem trimmed_of_onReg_eq (hcache : ctx'.cache = ctx.cache) (hlog : ctx'.log = ctx.log)
    (halloc : ctx'.alloc = ctx.alloc) (hreg : ctx'.onReg = ctx.onReg) :
    Trimmed keyCmp ctx ctx' where
  cache := hcache
  log := hlog
  alloc := halloc
  sub := by
    intro q sub' hsub
    rw [OnState.sub, hreg] at hsub
    exact ⟨_, sub', hsub, (without_nothing sub').symm⟩

theorem wcDatasyncOffW_trimmed (hreg : ctx.onReg.Ordered (wcDatasyncPathCmp keyCmp))
    (path : Bytes) (eventMask : OnEventType → Bool) (cb : Option OnCb) :
    Trimmed keyCmp ctx (wcDatasyncOffW keyCmp path eventMask cb ctx) := by
  obtain ⟨reg, heq, -, -, hfind⟩ :=
    onRegistryRemove_spec hreg (wcDatasyncPathParse path) eventMask cb
  obtain ⟨listen, fault, hoff⟩ := wcDatasyncOffW_eq heq
  rw [hoff]
  refine ⟨rfl, rfl, rfl, fun q sub' hsub => ?_⟩
  have hsub' : avlFind (wcDatasyncPathCmp keyCmp) q reg = some sub' := hsub
  rw [hfind] at hsub'
  split at hsub'
  next hq =>
    subst hq
    obtain ⟨sub, hold, hsub'⟩ := Option.bind_eq_some_iff.mp hsub'
    split at hsub'
    · cases hsub'
    · exact ⟨_, sub, hold, (Option.some.inj hsub').symm⟩
  next => exact ⟨_, sub', hsub', (without_nothing sub').symm⟩

omit [TransCmp keyCmp] [LawfulEqCmp keyCmp] in
theorem filter_flatMap_callsAt (hwf : ctx.WellFormed keyCmp) {paths : List Path}
    (hnodup : paths.Nodup) (q : Path) :
    (paths.flatMap (callsAt wcSHA1 keyCmp ctx.toOnState)).filter (fun c => c.pCb.sub = q) =
      if q ∈ paths then callsAt wcSHA1 keyCmp ctx.toOnState q else [] := by
  have hown : ∀ p, ∀ c ∈ callsAt wcSHA1 keyCmp ctx.toOnState p, c.pCb.sub = p := fun p c hc =>
    (hwf.own p _ (mem_registrations.mpr ⟨c.type, mem_cbs_of_mem_callsAt hc⟩)).1
  induction paths with
  | nil => rfl
  | cons p paths ih =>
      rw [List.nodup_cons] at hnodup
      rw [List.flatMap_cons, List.filter_append, ih hnodup.2]
      by_cases hq : q = p
      · subst hq
        have hall : (callsAt wcSHA1 keyCmp ctx.toOnState q).filter (fun c => c.pCb.sub = q) =
            callsAt wcSHA1 keyCmp ctx.toOnState q :=
          List.filter_eq_self.mpr fun c hc => decide_eq_true (hown q c hc)
        rw [hall, if_neg hnodup.1, if_pos List.mem_cons_self, List.append_nil]
      · have hnone : (callsAt wcSHA1 keyCmp ctx.toOnState p).filter (fun c => c.pCb.sub = q) =
            [] := by
          refine List.filter_eq_nil_iff.mpr fun c hc => ?_
          rw [hown p c hc]
          simpa using fun h => hq h.symm
        rw [hnone, List.nil_append]
        simp [hq]

/-- A dispatch whose callbacks return 1, after the cache has changed. -/
theorem dispatch_pushed (h : ctx.Agrees keyCmp) (hkeep : ∀ n, answers n = .ret true)
    {path : Path} {fuel : ℕ} {cache : Treenode} (hok : cache.Forall (NodeOk wcSHA1 keyCmp))
    (hcache : ∀ q, ¬ Related path q →
      dataCacheGetR keyCmp q cache = dataCacheGetR keyCmp q ctx.cache)
    (hdispatch : onRegistryDispatchOnEvent wcSHA1 keyCmp answers path fuel { ctx with cache } =
      some ctx') : Pushed wcSHA1 keyCmp path ctx ctx' := by
  set ctx₁ : OnCtx := { ctx with cache } with hctx₁
  have hwf : ctx₁.WellFormed keyCmp := h.counted.wellFormed.congr rfl (Nat.le_refl _)
  have hreg := hwf.ordered
  have hret : OnlyReturn answers := fun n => ⟨true, hkeep n⟩
  have hnodup : (dispatchPaths keyCmp path ctx₁.onReg).Nodup := nodup_dispatchPaths hreg
  obtain ⟨reg, rfl, -, hfind⟩ := dispatch_spec hret hreg hdispatch
  set calls := (dispatchPaths keyCmp path ctx₁.onReg).flatMap
    (callsAt wcSHA1 keyCmp ctx₁.toOnState) with hcalls
  have hqueue : (invokeAll answers calls ctx₁).deletedCbList = [] := by
    rw [deletedCbList_invokeAll, cancelled_eq_nil hkeep]
    exact h.queue
  -- nothing is queued for removal
  have hgc : deletedCbGc keyCmp ((invokeAll answers calls ctx₁).withOnReg reg) =
      { (invokeAll answers calls ctx₁).withOnReg reg with deletedCbList := [] } := by
    have hqueue' : ((invokeAll answers calls ctx₁).withOnReg reg).deletedCbList = [] := hqueue
    rw [deletedCbGc, hqueue']
    rfl
  have hcached : ∀ q, (deletedCbGc keyCmp
      ((invokeAll answers calls ctx₁).withOnReg reg)).cached keyCmp q = ctx₁.cached keyCmp q := by
    intro q
    rw [hgc]
    exact cached_invokeAll calls ctx₁ q
  have hmem : ∀ q sub, ctx.sub keyCmp q = some sub →
      (q ∈ dispatchPaths keyCmp path ctx₁.onReg ↔ Related path q) := fun q sub hsub =>
    mem_dispatchPaths hreg hsub
  refine ⟨?_, ?_, fun q hq => ?_, fun q => ?_, calls, ?_, fun c hc => ?_, fun q sub hsub => ?_⟩
  · rw [hgc]
    exact alloc_invokeAll calls ctx₁
  · rw [hgc]
    show (invokeAll answers calls ctx₁).cache.Forall _
    rw [cache_invokeAll]
    exact hok
  · rw [hcached]
    exact hcache q hq
  · rw [hcached, hgc]
    show avlFind (wcDatasyncPathCmp keyCmp) q reg = _
    rw [hfind]
    cases hsub : ctx.sub keyCmp q with
    | none =>
        have hsub₁ : ctx₁.sub keyCmp q = none := hsub
        rw [hsub₁]
        rfl
    | some sub =>
        have hsub₁ : ctx₁.sub keyCmp q = some sub := hsub
        rw [hsub₁, Option.map_some, Option.map_some]
        simp only [hmem q sub hsub]
  · rw [hgc]
    exact log_invokeAll calls ctx₁
  · obtain ⟨q, -, hcq⟩ := List.mem_flatMap.mp hc
    exact (hwf.own q _ (mem_registrations.mpr ⟨c.type, mem_cbs_of_mem_callsAt hcq⟩)).2
  · have hsub₁ : ctx₁.sub keyCmp q = some sub := hsub
    rw [hcached, hcalls, filter_flatMap_callsAt hwf hnodup, callsAt, hsub₁]
    simp only [hmem q sub hsub]

theorem step_pushed (h : ctx.Agrees keyCmp) (hok : ctx.cache.Forall (NodeOk wcSHA1 keyCmp))
    {op : OnOp} (hpush : op.IsPush) (hkeep : op.Keeps)
    (hstep : ctx.step wcSHA1 keyCmp op = some ctx') :
    ∃ path, Pushed wcSHA1 keyCmp path ctx ctx' := by
  have hnot : ¬ ctx.fault = true := by simp [h.fault]
  unfold OnCtx.step at hstep
  rw [if_neg hnot] at hstep
  cases op with
  | updatePut path data answers fuel =>
      refine ⟨_, dispatch_pushed h (hkeep answers rfl) ?_ (fun q hq => ?_) hstep⟩
      · exact dataCacheSetEx_ok _ data hok
      · exact get_dataCacheSet data hok hq
  | updateMerge path data answers fuel =>
      refine ⟨_, dispatch_pushed h (hkeep answers rfl) ?_ (fun q hq => ?_) hstep⟩
      · exact dataCacheMerge_ok _ data hok
      · exact get_dataCacheMerge data hok hq
  | _ => cases hpush

/-- **What one step does.** -/
theorem step_cases (h : ctx.Agrees keyCmp) (hok : ctx.cache.Forall (NodeOk wcSHA1 keyCmp))
    {op : OnOp} (hkeep : op.Keeps) (hstep : ctx.step wcSHA1 keyCmp op = some ctx') :
    (∃ type path answers, op = .on type path answers ∧
      ctx' = registerSilently wcSHA1 keyCmp type path ctx) ∨
    Trimmed keyCmp ctx ctx' ∨ ∃ path, Pushed wcSHA1 keyCmp path ctx ctx' := by
  have hreg := h.counted.wellFormed.ordered
  have hnet : ∀ op : ListenOp,
      ((ctx.listen.step keyCmp op).map fun listen => { ctx with listen }) = some ctx' →
        Trimmed keyCmp ctx ctx' := by
    intro op hop
    obtain ⟨listen, -, rfl⟩ := Option.map_eq_some_iff.mp hop
    exact trimmed_of_onReg_eq rfl rfl rfl rfl
  have hnot : ¬ ctx.fault = true := by simp [h.fault]
  have hrun := hstep
  unfold OnCtx.step at hstep
  rw [if_neg hnot] at hstep
  cases op with
  | on type path answers =>
      have hret := hkeep.onlyReturns answers rfl
      refine .inl ⟨type, path, answers, rfl, ?_⟩
      simpa [run_emit hret, registerSilently] using hstep.symm
  | off c =>
      simp only at hstep
      split at hstep
      · obtain rfl := Option.some.inj hstep
        exact .inr (.inl (wcDatasyncOffW_trimmed hreg _ _ _))
      · cases hstep
  | offPath path =>
      obtain rfl := Option.some.inj hstep
      exact .inr (.inl (wcDatasyncOffW_trimmed hreg _ _ _))
  | offPathType path type =>
      obtain rfl := Option.some.inj hstep
      exact .inr (.inl (wcDatasyncOffW_trimmed hreg _ _ _))
  | updatePut path data answers fuel =>
      have hpush : (OnOp.updatePut path data answers fuel).IsPush := trivial
      exact .inr (.inr (step_pushed h hok hpush hkeep hrun))
  | updateMerge path data answers fuel =>
      have hpush : (OnOp.updateMerge path data answers fuel).IsPush := trivial
      exact .inr (.inr (step_pushed h hok hpush hkeep hrun))
  | cnxLost => exact .inr (.inl (hnet _ hstep))
  | handshake => exact .inr (.inl (hnet _ hstep))
  | response id ok => exact .inr (.inl (hnet _ hstep))
  | connect => exact .inr (.inl (hnet _ hstep))
  | closeCnx => exact .inr (.inl (hnet _ hstep))

theorem step_agrees_of_keeps (h : ctx.Agrees keyCmp) {op : OnOp} (hkeep : op.Keeps)
    (hstep : ctx.step wcSHA1 keyCmp op = some ctx') : ctx'.Agrees keyCmp :=
  step_agrees h hkeep.onlyReturns hkeep.cancelsOnce hstep

end Steps

end WebcomSdk.On
