import WebcomSdk.Datasync.ListenRefs
import WebcomSdk.Lib.Run
import WebcomSdk.On.Registrations

/-!
The two registries agree: the listen item of a path counts the callbacks that
are registered there. Each of them is changed by calls of its own; what can set
them apart is a callback that returns 0 more than once during a dispatch, since
each time queues its registration for removal.
-/

namespace WebcomSdk.On

open WebcomSdk.Lib WebcomSdk.Collection WebcomSdk.Datasync WebcomSdk.Cache Std

/-- A callback of the registration `pCb` was the `n`-th invocation, and returned
0. -/
def ReturnsZero (answers : ℕ → CbRun) (log : List Event) (pCb : OnCb) (n : ℕ) : Prop :=
  (∃ c, log[n]? = some (.call c) ∧ c.pCb = pCb) ∧ answers n = .ret false

section

variable (wcSHA1 : SHA1) (keyCmp : Key → Key → Ordering)

/-- During a dispatch no registration returns 0 twice. -/
def CancelsOnce (ctx : OnCtx) (op : OnOp) : Prop :=
  match op with
  | .updatePut _ _ answers _ | .updateMerge _ _ answers _ =>
      ∀ ctx' ∈ ctx.step wcSHA1 keyCmp op, ∀ pCb m n, ctx.log.length ≤ m → m < n →
        ReturnsZero answers ctx'.log pCb m → ¬ ReturnsZero answers ctx'.log pCb n
  | _ => True

/-- No callback registers another one. -/
def OnOp.OnlyReturns (op : OnOp) : Prop := ∀ answers ∈ op.answers, OnlyReturn answers

/-- The listen item of each path counts its callbacks, and is there exactly when
there are any. -/
def OnState.RefsMatch (ctx : OnState) : Prop :=
  ∀ path, (ctx.listen.item keyCmp path).map ListenItem.ref =
    if ctx.registrations keyCmp path = [] then none
    else some (ctx.registrations keyCmp path).length

end

variable {wcSHA1 : SHA1} {keyCmp : Key → Key → Ordering} {answers : ℕ → CbRun}

/-! ### The queue of cancellations -/

/-- The registrations that a list of invocations queues, the first one being the
`n`-th of the run. -/
def cancelled (answers : ℕ → CbRun) : ℕ → List Call → List OnCb
  | _, [] => []
  | n, c :: calls =>
      if (answers n).keeps then cancelled answers (n + 1) calls
      else c.pCb :: cancelled answers (n + 1) calls

theorem deletedCbList_invokeAll (calls : List Call) (ctx : OnCtx) :
    (invokeAll answers calls ctx).deletedCbList =
      (cancelled answers ctx.log.length calls).reverse ++ ctx.deletedCbList := by
  induction calls generalizing ctx with
  | nil => rfl
  | cons c calls ih =>
      have hlog : (invoke answers ctx c).log.length = ctx.log.length + 1 := by simp [invoke]
      show (invokeAll answers calls (invoke answers ctx c)).deletedCbList = _
      rw [ih, hlog, cancelled]
      by_cases hkeep : (answers ctx.log.length).keeps = true
      · simp [invoke, hkeep]
      · simp [invoke, hkeep]

theorem mem_cancelled {n : ℕ} {calls : List Call} {pCb : OnCb}
    (h : pCb ∈ cancelled answers n calls) :
    ∃ i c, calls[i]? = some c ∧ c.pCb = pCb ∧ (answers (n + i)).keeps = false := by
  induction calls generalizing n with
  | nil => cases h
  | cons c calls ih =>
      rw [cancelled] at h
      split at h
      next =>
        obtain ⟨i, c', hc', hpCb, hkeep⟩ := ih h
        exact ⟨i + 1, c', hc', hpCb, by rwa [Nat.add_assoc, Nat.add_comm 1] at hkeep⟩
      next hkeep =>
        rcases List.mem_cons.mp h with rfl | h
        · exact ⟨0, c, rfl, rfl, by simpa using hkeep⟩
        · obtain ⟨i, c', hc', hpCb, hkeep'⟩ := ih h
          exact ⟨i + 1, c', hc', hpCb, by rwa [Nat.add_assoc, Nat.add_comm 1] at hkeep'⟩

theorem nodup_cancelled {n : ℕ} {calls : List Call}
    (h : ∀ i j c d, i < j → calls[i]? = some c → calls[j]? = some d → c.pCb = d.pCb →
      (answers (n + i)).keeps = false → (answers (n + j)).keeps = true) :
    (cancelled answers n calls).Nodup := by
  induction calls generalizing n with
  | nil => exact List.nodup_nil
  | cons c calls ih =>
      have hrest : (cancelled answers (n + 1) calls).Nodup := by
        refine ih fun i j c' d hij hc' hd heq hi => ?_
        rw [Nat.add_assoc, Nat.add_comm 1] at hi ⊢
        exact h (i + 1) (j + 1) c' d (by omega) hc' hd heq hi
      rw [cancelled]
      split
      next => exact hrest
      next hkeep =>
        refine List.nodup_cons.mpr ⟨fun hmem => ?_, hrest⟩
        -- a later entry would be a second 0 of the same registration
        obtain ⟨j, d, hd, hpCb, hj⟩ := mem_cancelled hmem
        have htrue := h 0 (j + 1) c d (by omega) rfl hd hpCb.symm (by simpa using hkeep)
        rw [Nat.add_assoc, Nat.add_comm 1] at hj
        rw [hj] at htrue
        cases htrue

/-! ### The invariant -/

/-- Both registries are well formed and agree. -/
structure OnCtx.Counted (keyCmp : Key → Key → Ordering) (ctx : OnCtx) : Prop where
  wellFormed : ctx.WellFormed keyCmp
  listen : ctx.listen.WellFormed keyCmp
  counted : ∀ path, ctx.listen.ref keyCmp path =
    if (ctx.registrations keyCmp path).length = 0 then none
    else some (ctx.registrations keyCmp path).length

theorem OnCtx.Counted.refsMatch {ctx : OnCtx} (h : ctx.Counted keyCmp) :
    ctx.RefsMatch keyCmp := by
  intro path
  rw [← ref_eq, h.counted]
  simp only [List.length_eq_zero_iff]

/-- Writes that leave the callbacks and the counts alone. -/
theorem OnCtx.Counted.congr {ctx ctx' : OnCtx} (h : ctx.Counted keyCmp)
    (hcbs : ctx'.onReg.map OnSub.cbList = ctx.onReg.map OnSub.cbList)
    (halloc : ctx.alloc ≤ ctx'.alloc) (hrefs : ctx'.listen.refs = ctx.listen.refs) :
    ctx'.Counted keyCmp where
  wellFormed := h.wellFormed.congr hcbs halloc
  listen := (wellFormed_congr hrefs).mpr h.listen
  counted := by
    intro path
    rw [ref_congr hrefs, registrations_congr hcbs]
    exact h.counted path

section Steps

variable [TransCmp keyCmp] [LawfulEqCmp keyCmp] {ctx : OnCtx}

theorem registerSilently_counted (h : ctx.Counted keyCmp) (type : OnEventType) (path : Bytes) :
    (registerSilently wcSHA1 keyCmp type path ctx).Counted keyCmp := by
  have hlisten : (registerSilently wcSHA1 keyCmp type path ctx).listen =
      wcDatasyncWatch keyCmp path (ctx.alloc + 1) ctx.listen := by
    simp only [registerSilently, wcDatasyncOn, onRegistryAdd_emit]
    rfl
  have halloc : (registerSilently wcSHA1 keyCmp type path ctx).alloc = ctx.alloc + 2 := by
    simp only [registerSilently, wcDatasyncOn, onRegistryAdd_emit]
    rfl
  have hcbs : (registerSilently wcSHA1 keyCmp type path ctx).onReg.map OnSub.cbList =
      (linkCb keyCmp type (wcDatasyncPathParse path) ctx).onReg.map OnSub.cbList :=
    map_cbList_registerSilently type path ctx
  obtain ⟨hwatch, href⟩ := wcDatasyncWatch_ref h.listen path (ctx.alloc + 1)
  refine ⟨(wellFormed_linkCb h.wellFormed type path).congr hcbs ?_, hlisten ▸ hwatch, fun q => ?_⟩
  · rw [halloc]
    exact Nat.le_succ _
  · have hperm :=
      (registrations_linkCb h.wellFormed.ordered type (wcDatasyncPathParse path) q).length_eq
    rw [hlisten, href, registrations_congr hcbs, hperm, h.counted]
    by_cases hq : q = wcDatasyncPathParse path
    · subst hq
      rw [if_pos rfl, if_pos rfl, List.length_cons, if_neg (Nat.succ_ne_zero _)]
      split
      next hzero => simp [hzero]
      next => simp
    · rw [if_neg hq, if_neg hq]

theorem unwatch_succeeds (h : ctx.Counted keyCmp) {path : Path} {n : ℕ}
    (hn : n ≤ (ctx.registrations keyCmp path).length) :
    ∃ listen, wcDatasyncUnwatchEx keyCmp path n ctx.listen = some listen ∧
      listen.WellFormed keyCmp ∧ ∀ q, listen.ref keyCmp q =
        if q = path then (ctx.listen.ref keyCmp q).bind fun r =>
          if r - n = 0 then none else some (r - n)
        else ctx.listen.ref keyCmp q := by
  refine wcDatasyncUnwatchEx_ref h.listen fun r hr => ?_
  rw [h.counted] at hr
  split at hr
  · cases hr
  · exact Option.some.inj hr ▸ hn

/-- Removing callbacks of a path and giving back as many references, in either
order. -/
theorem remove_unwatch_counted (h : ctx.Counted keyCmp) {path : Path} {n : ℕ} {ctx' : OnCtx}
    (hwf : ctx'.WellFormed keyCmp)
    (hunwatch : wcDatasyncUnwatchEx keyCmp path n ctx.listen = some ctx'.listen)
    (hcount : n + (ctx'.registrations keyCmp path).length =
      (ctx.registrations keyCmp path).length)
    (hout : ∀ q, q ≠ path → ctx'.registrations keyCmp q = ctx.registrations keyCmp q) :
    ctx'.Counted keyCmp := by
  have hn : n ≤ (ctx.registrations keyCmp path).length := by omega
  obtain ⟨listen, hlisten, hlwf, href⟩ := unwatch_succeeds h hn
  obtain rfl : listen = ctx'.listen := Option.some.inj (hlisten.symm.trans hunwatch)
  refine ⟨hwf, hlwf, fun q => ?_⟩
  rw [href, h.counted]
  by_cases hq : q = path
  · subst hq
    rw [if_pos rfl]
    by_cases hzero : (ctx.registrations keyCmp q).length = 0
    · rw [if_pos hzero, if_pos (by omega)]
      rfl
    · have hdiff : (ctx.registrations keyCmp q).length - n =
          (ctx'.registrations keyCmp q).length := by omega
      rw [if_neg hzero, Option.bind_some, hdiff]
  · rw [if_neg hq, hout q hq]

theorem registrations_onRegistryRemove_of_ne
    (hreg : ctx.onReg.Ordered (wcDatasyncPathCmp keyCmp)) {path q : Path}
    (typeMask : OnEventType → Bool) (h : Option OnCb) (hq : q ≠ path) :
    (onRegistryRemove keyCmp path typeMask h ctx).1.registrations keyCmp q =
      ctx.registrations keyCmp q := by
  rw [OnState.registrations, cbs_onRegistryRemove hreg, if_neg hq, OnState.registrations]

theorem wcDatasyncOffW_counted (h : ctx.Counted keyCmp) (path : Bytes)
    (eventMask : OnEventType → Bool) (cb : Option OnCb) :
    (wcDatasyncOffW keyCmp path eventMask cb ctx).Counted keyCmp ∧
      (wcDatasyncOffW keyCmp path eventMask cb ctx).fault = ctx.fault ∧
      (wcDatasyncOffW keyCmp path eventMask cb ctx).deletedCbList = ctx.deletedCbList := by
  have hreg := h.wellFormed.ordered
  have hcount := length_registrations_onRegistryRemove hreg (wcDatasyncPathParse path) eventMask cb
  have hwf := wellFormed_onRegistryRemove h.wellFormed (wcDatasyncPathParse path) eventMask cb
  have hout : ∀ q, q ≠ wcDatasyncPathParse path → _ = _ := fun q hq =>
    registrations_onRegistryRemove_of_ne hreg eventMask cb hq
  obtain ⟨reg, heq, -⟩ := onRegistryRemove_spec hreg (wcDatasyncPathParse path) eventMask cb
  have hn : (onRegistryRemove keyCmp (wcDatasyncPathParse path) eventMask cb ctx).2 ≤
      (ctx.registrations keyCmp (wcDatasyncPathParse path)).length := by omega
  obtain ⟨listen, hlisten, -⟩ := unwatch_succeeds h hn
  rw [wcDatasyncOffW]
  simp only [unwatch]
  rw [heq] at hlisten hcount hwf hout ⊢
  have hlisten' : (ctx.withOnReg reg).listen = ctx.listen := rfl
  simp only [hlisten', hlisten]
  exact ⟨remove_unwatch_counted h ⟨hwf.ordered, hwf.parsed, hwf.own, hwf.nodup⟩ hlisten hcount hout,
    rfl, rfl⟩

omit [TransCmp keyCmp] [LawfulEqCmp keyCmp] in
theorem log_gcLoop (queue : List OnCb) : (gcLoop keyCmp queue ctx).log = ctx.log := by
  have hremove : ∀ (c : OnCtx) path typeMask h,
      (onRegistryRemove keyCmp path typeMask h c).1.log = c.log := by
    intro c path typeMask h
    rw [onRegistryRemove]
    split
    · rfl
    · simp only
      split <;> rfl
  induction queue generalizing ctx with
  | nil => rfl
  | cons pCb queue ih =>
      rw [gcLoop]
      split
      · simp only
        rw [ih, hremove, unwatch]
        split <;> rfl
      · rfl

/-- Each registration in the queue is processed once. -/
theorem gcLoop_counted {queue : List OnCb} (h : ctx.Counted keyCmp) (hnodup : queue.Nodup)
    (hlive : ∀ pCb ∈ queue, pCb ∈ ctx.registrations keyCmp pCb.sub) :
    (gcLoop keyCmp queue ctx).Counted keyCmp ∧ (gcLoop keyCmp queue ctx).fault = ctx.fault ∧
      (gcLoop keyCmp queue ctx).deletedCbList = ctx.deletedCbList := by
  induction queue generalizing ctx with
  | nil => exact ⟨h, rfl, rfl⟩
  | cons pCb queue ih =>
      rw [List.nodup_cons] at hnodup
      rw [List.forall_mem_cons] at hlive
      have hone : 1 ≤ (ctx.registrations keyCmp pCb.sub).length :=
        List.length_pos_of_mem hlive.1
      obtain ⟨listen, hlisten, -⟩ := unwatch_succeeds h hone
      set ctx₁ : OnCtx := { ctx with listen } with hctx₁
      have hwf₁ : ctx₁.WellFormed keyCmp :=
        ⟨h.wellFormed.ordered, h.wellFormed.parsed, h.wellFormed.own, h.wellFormed.nodup⟩
      have hunwatch : unwatch keyCmp pCb.sub 1 ctx = ctx₁ := by
        rw [unwatch, hlisten]
      obtain ⟨reg, heq, hwf₂, herase⟩ := remove_handle_spec hwf₁ pCb
      have hregs : ctx₁.registrations keyCmp = ctx.registrations keyCmp := rfl
      rw [hregs] at herase
      have hcounted : (ctx₁.withOnReg reg).Counted keyCmp := by
        refine remove_unwatch_counted h hwf₂ hlisten ?_ fun q hq => ?_
        · rw [herase, List.length_erase_of_mem hlive.1]
          omega
        · rw [herase, List.erase_of_not_mem fun hmem => hq (h.wellFormed.own q pCb hmem).1.symm]
      have hlive' : ∀ c ∈ queue, c ∈ (ctx₁.withOnReg reg).registrations keyCmp c.sub := by
        intro c hc
        have hne : c ≠ pCb := by
          rintro rfl
          exact hnodup.1 hc
        rw [herase]
        exact (List.mem_erase_of_ne hne).mpr (hlive.2 c hc)
      rw [gcLoop, if_pos (registered_iff.mpr hlive.1)]
      simp only [hunwatch, heq]
      exact ih hcounted hnodup.2 hlive'

/-- A dispatch whose callbacks register nothing and cancel at most once each. -/
theorem dispatch_counted (h : ctx.Counted keyCmp) (hfault : ctx.fault = false)
    (hqueue : ctx.deletedCbList = []) (hret : OnlyReturn answers) (path : Path) {fuel : ℕ}
    {ctx' : OnCtx}
    (hdispatch : onRegistryDispatchOnEvent wcSHA1 keyCmp answers path fuel ctx = some ctx')
    (honce : ∀ pCb m n, ctx.log.length ≤ m → m < n →
      ReturnsZero answers ctx'.log pCb m → ¬ ReturnsZero answers ctx'.log pCb n) :
    ctx'.Counted keyCmp ∧ ctx'.fault = false ∧ ctx'.deletedCbList = [] := by
  have hreg := h.wellFormed.ordered
  obtain ⟨reg, rfl, hcbs, -⟩ := dispatch_spec hret hreg hdispatch
  set calls := (dispatchPaths keyCmp path ctx.onReg).flatMap
    (callsAt wcSHA1 keyCmp ctx.toOnState) with hcalls
  set ctx₁ := (invokeAll answers calls ctx).withOnReg reg with hctx₁
  have hqueue₁ : ctx₁.deletedCbList = (cancelled answers ctx.log.length calls).reverse := by
    show (invokeAll answers calls ctx).deletedCbList = _
    rw [deletedCbList_invokeAll, hqueue, List.append_nil]
  have hlog : ∀ i c, calls[i]? = some c →
      (deletedCbGc keyCmp ctx₁).log[ctx.log.length + i]? = some (.call c) := by
    intro i c hc
    rw [deletedCbGc, log_gcLoop]
    show (invokeAll answers calls ctx).log[ctx.log.length + i]? = _
    rw [log_invokeAll, List.getElem?_append_right (Nat.le_add_right _ _), Nat.add_sub_cancel_left,
      List.getElem?_map, hc]
    rfl
  have hzero : ∀ n, (answers n).keeps = false → answers n = .ret false := by
    intro n hn
    obtain ⟨keep, hkeep⟩ := hret n
    rw [hkeep] at hn ⊢
    exact congrArg CbRun.ret hn
  have hnodup : ctx₁.deletedCbList.Nodup := by
    rw [hqueue₁, List.nodup_reverse]
    refine nodup_cancelled fun i j c d hij hc hd hpCb hi => ?_
    cases hj : (answers (ctx.log.length + j)).keeps with
    | true => rfl
    | false =>
        exact absurd ⟨⟨d, hlog j d hd, hpCb.symm⟩, hzero _ hj⟩ (honce c.pCb _ _
          (Nat.le_add_right _ i) (Nat.add_lt_add_left hij _) ⟨⟨c, hlog i c hc, rfl⟩, hzero _ hi⟩)
  have hcounted : OnCtx.Counted keyCmp { ctx₁ with deletedCbList := [] } := by
    refine h.congr hcbs ?_ ?_
    · show ctx.alloc ≤ (invokeAll answers calls ctx).alloc
      rw [alloc_invokeAll]
    · show (invokeAll answers calls ctx).listen.refs = _
      rw [listen_invokeAll]
  have hregs : OnState.registrations keyCmp { ctx₁.toOnState with deletedCbList := [] } =
      ctx.registrations keyCmp := registrations_congr hcbs
  have hlive : ∀ pCb ∈ ctx₁.deletedCbList,
      pCb ∈ OnState.registrations keyCmp { ctx₁.toOnState with deletedCbList := [] } pCb.sub := by
    intro pCb hpCb
    rw [hqueue₁, List.mem_reverse] at hpCb
    obtain ⟨i, c, hc, rfl, -⟩ := mem_cancelled hpCb
    obtain ⟨q, -, hcq⟩ := List.mem_flatMap.mp (List.mem_of_getElem? hc)
    have hmem : c.pCb ∈ ctx.registrations keyCmp q :=
      mem_registrations.mpr ⟨c.type, mem_cbs_of_mem_callsAt hcq⟩
    rw [hregs, (h.wellFormed.own q _ hmem).1]
    exact hmem
  obtain ⟨hc, hf, hd⟩ := gcLoop_counted hcounted hnodup hlive
  refine ⟨hc, hf.trans ?_, hd⟩
  show (invokeAll answers calls ctx).fault = false
  rw [fault_invokeAll, hfault]

/-! ### Runs -/

/-- The registries agree, between operations. -/
structure OnCtx.Agrees (keyCmp : Key → Key → Ordering) (ctx : OnCtx) : Prop where
  counted : ctx.Counted keyCmp
  fault : ctx.fault = false
  queue : ctx.deletedCbList = []

omit [TransCmp keyCmp] [LawfulEqCmp keyCmp] in
theorem net_agrees (h : ctx.Agrees keyCmp) {op : ListenOp}
    (hwatch : ∀ path addr, op ≠ .watch path addr) (hunwatch : ∀ p n, op ≠ .unwatchEx p n)
    {ctx' : OnCtx}
    (hstep : ((ctx.listen.step keyCmp op).map fun listen => { ctx with listen }) = some ctx') :
    ctx'.Agrees keyCmp := by
  obtain ⟨listen, hlisten, rfl⟩ := Option.map_eq_some_iff.mp hstep
  exact ⟨h.counted.congr rfl (Nat.le_refl _) (refs_step hwatch hunwatch hlisten), h.fault, h.queue⟩

theorem step_agrees (h : ctx.Agrees keyCmp) {op : OnOp} (hret : op.OnlyReturns)
    (honce : CancelsOnce wcSHA1 keyCmp ctx op) {ctx' : OnCtx}
    (hstep : ctx.step wcSHA1 keyCmp op = some ctx') : ctx'.Agrees keyCmp := by
  have hpush : ∀ {answers path fuel} (cache : Treenode), OnlyReturn answers →
      (∀ pCb m n, ctx.log.length ≤ m → m < n → ReturnsZero answers ctx'.log pCb m →
        ¬ ReturnsZero answers ctx'.log pCb n) →
      onRegistryDispatchOnEvent wcSHA1 keyCmp answers path fuel { ctx with cache } = some ctx' →
        ctx'.Agrees keyCmp := by
    intro answers path fuel cache hret honce hdispatch
    have hcounted : OnCtx.Counted keyCmp { ctx with cache } :=
      h.counted.congr rfl (Nat.le_refl _) rfl
    obtain ⟨hc, hf, hd⟩ :=
      dispatch_counted hcounted h.fault h.queue hret path hdispatch honce
    exact ⟨hc, hf, hd⟩
  have hoff : ∀ path mask cb, wcDatasyncOffW keyCmp path mask cb ctx = ctx' →
      ctx'.Agrees keyCmp := by
    rintro path mask cb rfl
    obtain ⟨hc, hf, hd⟩ := wcDatasyncOffW_counted h.counted path mask cb
    exact ⟨hc, hf.trans h.fault, hd.trans h.queue⟩
  have hrun := hstep
  have hnot : ¬ ctx.fault = true := by simp [h.fault]
  unfold OnCtx.step at hstep
  rw [if_neg hnot] at hstep
  cases op with
  | on type path answers =>
      have hsilent : registerSilently wcSHA1 keyCmp type path ctx = ctx' := by
        simpa [run_emit (hret answers rfl), registerSilently] using hstep
      have hcounted : (registerSilently wcSHA1 keyCmp type path ctx).Counted keyCmp :=
        registerSilently_counted h.counted type path
      have hsame : (registerSilently wcSHA1 keyCmp type path ctx).fault = ctx.fault ∧
          (registerSilently wcSHA1 keyCmp type path ctx).deletedCbList = ctx.deletedCbList := by
        simp only [registerSilently, wcDatasyncOn, onRegistryAdd_emit]
        exact ⟨rfl, rfl⟩
      rw [hsilent] at hcounted hsame
      exact ⟨hcounted, hsame.1.trans h.fault, hsame.2.trans h.queue⟩
  | off c =>
      simp only at hstep
      split at hstep
      · exact hoff _ _ _ (Option.some.inj hstep)
      · cases hstep
  | offPath path => exact hoff _ _ _ (Option.some.inj hstep)
  | offPathType path type => exact hoff _ _ _ (Option.some.inj hstep)
  | updatePut path data answers fuel =>
      exact hpush _ (hret answers rfl) (honce ctx' hrun) hstep
  | updateMerge path data answers fuel =>
      exact hpush _ (hret answers rfl) (honce ctx' hrun) hstep
  | cnxLost => exact net_agrees h (by simp) (by simp) hstep
  | handshake => exact net_agrees h (by simp) (by simp) hstep
  | response id ok => exact net_agrees h (by simp) (by simp) hstep
  | connect => exact net_agrees h (by simp) (by simp) hstep
  | closeCnx => exact net_agrees h (by simp) (by simp) hstep

omit [TransCmp keyCmp] [LawfulEqCmp keyCmp] in
theorem onCtxNew_agrees : onCtxNew.Agrees keyCmp := by
  have hnone : ∀ path, OnState.registrations keyCmp onCtxNew.toOnState path = [] := fun _ => rfl
  refine ⟨⟨⟨AvlTree.ordered_nil, by simp [onCtxNew], ?_, ?_⟩, AvlTree.ordered_nil, ?_⟩, rfl, rfl⟩
  · intro path pCb hpCb
    rw [hnone] at hpCb
    cases hpCb
  · intro path
    rw [hnone]
    exact List.nodup_nil
  · intro path
    rw [hnone]
    rfl

/-- **The registries agree and no removed registration is processed**, in every
state that a run reaches in which no registration cancels itself twice during
one dispatch. Every dispatch comes to its end. -/
theorem registries_agree (run : Reach (OnCtx.step wcSHA1 keyCmp)
    (fun ctx op => op.OnlyReturns ∧ CancelsOnce wcSHA1 keyCmp ctx op) onCtxNew ctx) :
    ctx.RefsMatch keyCmp ∧ ctx.fault = false ∧ ctx.DispatchesEnd wcSHA1 keyCmp := by
  have hagrees : ctx.Agrees keyCmp :=
    run.invariant onCtxNew_agrees fun _ _ _ h hok hstep => step_agrees h hok.1 hok.2 hstep
  exact ⟨hagrees.counted.refsMatch, hagrees.fault,
    dispatchesEnd hagrees.counted.wellFormed.ordered hagrees.fault⟩

end Steps

/-! ### Two answers in one dispatch -/

/-- The text hashed does not matter in what follows. -/
def zeroSHA1 : SHA1 := fun _ _ => 0

def keepAlways : ℕ → CbRun := fun _ => .ret true

def keepNever : ℕ → CbRun := fun _ => .ret false

def twoChildren : Json := .object [([120], .boolean true), ([121], .boolean true)]

theorem onlyReturns_on (type : OnEventType) (path : Bytes) (keep : Bool) :
    (OnOp.on type path fun _ => .ret keep).OnlyReturns := by
  rintro answers ⟨⟩ n
  exact ⟨keep, rfl⟩

theorem onlyReturns_updatePut (path : Bytes) (data : Json) (keep : Bool) (fuel : ℕ) :
    (OnOp.updatePut path data (fun _ => .ret keep) fuel).OnlyReturns := by
  rintro answers ⟨⟩ n
  exact ⟨keep, rfl⟩

/-- A callback that cancels itself on its first event is removed. -/
theorem registries_agree_cancel_value :
    ∃ ctx, Reach (OnCtx.step zeroSHA1 strcmp)
        (fun ctx op => op.OnlyReturns ∧ CancelsOnce zeroSHA1 strcmp ctx op) onCtxNew ctx ∧
      ctx.RefsMatch strcmp ∧ ctx.fault = false ∧ ctx.DispatchesEnd zeroSHA1 strcmp := by
  have h₁ : ∃ ctx, onCtxNew.step zeroSHA1 strcmp (.on .value pathA keepAlways) = some ctx ∧
      ∃ ctx', ctx.step zeroSHA1 strcmp (.updatePut pathA (.boolean true) keepNever 2) =
        some ctx' ∧ ctx.log.length = 1 ∧ ctx'.log.length = 2 := ⟨_, rfl, _, rfl, rfl, rfl⟩
  obtain ⟨ctx, hctx, ctx', hctx', hlen, hlen'⟩ := h₁
  have run : Reach (OnCtx.step zeroSHA1 strcmp)
      (fun ctx op => op.OnlyReturns ∧ CancelsOnce zeroSHA1 strcmp ctx op) onCtxNew ctx' := by
    refine .step (.step .start ⟨onlyReturns_on _ _ _, trivial⟩ hctx)
      ⟨onlyReturns_updatePut _ _ _ _, ?_⟩ hctx'
    rintro ctx'' hctx'' pCb m n hm hmn - ⟨⟨c, hc, -⟩, -⟩
    -- the dispatch makes one call only
    obtain rfl : ctx' = ctx'' := Option.some.inj (hctx'.symm.trans hctx'')
    have hlt := (List.getElem?_eq_some_iff.mp hc).1
    omega
  exact ⟨ctx', run, registries_agree run⟩

/-- A callback is told of two children and cancels itself both times: its
registration is processed again after it was freed. -/
theorem two_cancellations_free_twice :
    ¬ ∀ ctx, Reach (OnCtx.step zeroSHA1 strcmp) (fun _ op => op.OnlyReturns) onCtxNew ctx →
      ctx.RefsMatch strcmp ∧ ctx.fault = false ∧ ctx.DispatchesEnd zeroSHA1 strcmp := by
  intro hall
  have hrun : ∃ ctx, onCtxNew.step zeroSHA1 strcmp (.on .childAdded pathA keepAlways) = some ctx ∧
      ∃ ctx', ctx.step zeroSHA1 strcmp (.updatePut pathA twoChildren keepNever 2) =
        some ctx' ∧ ctx'.fault = true := ⟨_, rfl, _, rfl, rfl⟩
  obtain ⟨ctx, hctx, ctx', hctx', hfault⟩ := hrun
  have hreach : Reach (OnCtx.step zeroSHA1 strcmp) (fun _ op => op.OnlyReturns) onCtxNew ctx' :=
    .step (.step .start (onlyReturns_on _ _ _) hctx) (onlyReturns_updatePut _ _ _ _) hctx'
  have hnot := (hall ctx' hreach).2.1
  rw [hfault] at hnot
  cases hnot

end WebcomSdk.On
