import WebcomSdk.On.Cancellation
import WebcomSdk.On.TriggerEffects

/-!
Every dispatch ends whose callbacks only add others, and in every state that is
reached the registry and the cache are in order.
-/

namespace WebcomSdk.On

open WebcomSdk.Lib WebcomSdk.Collection WebcomSdk.Datasync WebcomSdk.Cache Std

/-- Where some trigger may have callbacks to call. -/
def OnState.restless (wcSHA1 : SHA1) (keyCmp : Key → Key → Ordering) (ctx : OnState) :
    Set (Path × OnEventType) :=
  {x | ¬ ctx.Calm wcSHA1 keyCmp x.1 x.2}

variable {wcSHA1 : SHA1} {keyCmp : Key → Key → Ordering} {answers : ℕ → CbRun}
  {ctx ctx' : OnCtx}

/-! ### Every dispatch ends -/

section Ends

/-- A path without `on_sub` is calm: what is registered there is told at once. -/
theorem calm_of_absent {q : Path} (h : ctx.sub keyCmp q = none) (type : OnEventType) :
    ctx.Calm wcSHA1 keyCmp q type := by
  have hat : ctx.subAt keyCmp q = OnSub.new := by
    rw [OnState.subAt, h]
    rfl
  have hcbs : ∀ t, ctx.cbs keyCmp q t = [] := by
    intro t
    rw [cbs_eq_subAt, hat]
    rfl
  cases type with
  | value =>
      cases hcached : ctx.cached keyCmp q with
      | none =>
          refine .inl ?_
          rw [OnState.SettledAt, hat, hcached]
          rfl
      | some node => exact .inr ⟨by rw [hcached]; rfl, hcbs .value⟩
  | _ =>
      rcases internal_or_not (ctx.cached keyCmp q) with hinternal | hnot
      · exact .inr ⟨hinternal, hcbs _⟩
      · refine .inl ?_
        rw [OnState.SettledAt, hat]
        exact (childHashes_of_not_internal hnot).symm

variable [TransCmp keyCmp] [LawfulEqCmp keyCmp]

theorem mem_keys_of_sub {q : Path} {sub : OnSub}
    (hreg : ctx.onReg.Ordered (wcDatasyncPathCmp keyCmp)) (h : ctx.sub keyCmp q = some sub) :
    q ∈ ctx.onReg.keys :=
  List.mem_map_of_mem ((avlFind_eq_some_iff hreg).mp h)

theorem finite_restless (h : ctx.Ready wcSHA1 keyCmp) : (ctx.restless wcSHA1 keyCmp).Finite := by
  refine (List.finite_toSet (ctx.onReg.keys.product onEventTypes)).subset fun x hx => ?_
  refine List.mem_product.mpr ⟨?_, mem_onEventTypes x.2⟩
  cases hsub : ctx.sub keyCmp x.1 with
  | none => exact absurd (calm_of_absent hsub x.2) hx
  | some sub => exact mem_keys_of_sub h.wellFormed.ordered hsub

variable (hadds : ∀ n, (answers n).OnlyAdds)
include hadds

/-- The walk ends: a trigger that calls someone leaves less to be called for, and
one that calls no one leaves the tree as it is. -/
theorem dispatchBelow_ends (path : Path) (h : ctx.Ready wcSHA1 keyCmp) (it : List Path) :
    ∃ fuel, (dispatchBelow wcSHA1 keyCmp answers path fuel it ctx).isSome := by
  suffices hmeasure : ∀ n m (ctx : OnCtx) it, ctx.Ready wcSHA1 keyCmp →
      (ctx.restless wcSHA1 keyCmp).ncard = n →
      (avlPending (wcDatasyncPathCmp keyCmp) ctx.onReg it).length = m →
      ∃ fuel, (dispatchBelow wcSHA1 keyCmp answers path fuel it ctx).isSome from
    hmeasure _ _ ctx it h rfl rfl
  intro n
  induction n using Nat.strong_induction_on with
  | _ n ihRestless =>
  intro m
  induction m using Nat.strong_induction_on with
  | _ m ihPending =>
  intro ctx it h hn hm
  cases it with
  | nil => exact ⟨1, rfl⟩
  | cons top stack =>
      cases hgo : wcDatasyncPathStartsWith top path with
      | false =>
          refine ⟨1, ?_⟩
          rw [dispatchBelow, avlItNext]
          simp [hgo]
      | true =>
          obtain ⟨events, htrig⟩ := trig_triggered hadds h true top
          set next := pushLeft (avlNode (wcDatasyncPathCmp keyCmp) top ctx.onReg).right stack
            with hnext
          set ctx₁ := trig wcSHA1 keyCmp answers true top ctx with hctx₁
          have hstep : ∀ fuel, dispatchBelow wcSHA1 keyCmp answers path (fuel + 1) (top :: stack)
              ctx = dispatchBelow wcSHA1 keyCmp answers path fuel next ctx₁ := by
            intro fuel
            rw [dispatchBelow, avlItNext]
            simp only [hgo, if_true, hnext, hctx₁]
          have hsub : ctx₁.restless wcSHA1 keyCmp ⊆ ctx.restless wcSHA1 keyCmp :=
            fun x hx hcalm => hx (htrig.calm hcalm)
          have hfinite := finite_restless h
          have hends :
              ∃ fuel, (dispatchBelow wcSHA1 keyCmp answers path fuel next ctx₁).isSome := by
            rcases htrig.progress with hsame | ⟨type, hnot, hcalm⟩
            · have hpending := avlPending_next h.wellFormed.ordered top stack
              rw [← hnext, ← avlPending_map OnSub.cbList _ next, ← htrig.same hsame,
                avlPending_map] at hpending
              rw [hpending, List.length_cons] at hm
              rcases (Set.ncard_le_ncard hsub hfinite).lt_or_eq with hlt | heq
              · exact ihRestless _ (hn ▸ hlt) _ ctx₁ next htrig.ready rfl rfl
              · exact ihPending _ (by omega) ctx₁ next htrig.ready (heq.trans hn) rfl
            · have hlt : (ctx₁.restless wcSHA1 keyCmp).ncard <
                  (ctx.restless wcSHA1 keyCmp).ncard := by
                refine Set.ncard_lt_ncard ⟨hsub, fun hsup => ?_⟩ hfinite
                have hmem : (top, type) ∈ ctx.restless wcSHA1 keyCmp := hnot
                exact hsup hmem hcalm
              exact ihRestless _ (hn ▸ hlt) _ ctx₁ next htrig.ready rfl rfl
          obtain ⟨fuel, hfuel⟩ := hends
          exact ⟨fuel + 1, by rw [hstep]; exact hfuel⟩

theorem dispatch_ends (path : Path) (h : ctx.Ready wcSHA1 keyCmp) :
    ∃ fuel, (onRegistryDispatchOnEvent wcSHA1 keyCmp answers path fuel ctx).isSome := by
  have habove : (dispatchAbove wcSHA1 keyCmp answers path ctx).Ready wcSHA1 keyCmp :=
    List.foldlRecOn (motive := OnCtx.Ready wcSHA1 keyCmp) (List.range path.length) _ h
      fun _ hc n _ => (trig_grown answers hc false (path.take n)).2
  obtain ⟨fuel, hfuel⟩ := dispatchBelow_ends hadds path habove (avlItStartAt
    (wcDatasyncPathCmp keyCmp) path (dispatchAbove wcSHA1 keyCmp answers path ctx).onReg [])
  refine ⟨fuel, ?_⟩
  rw [onRegistryDispatchOnEvent, Option.isSome_map]
  exact hfuel

end Ends

/-! ### Every state that is reached -/

section Runs

variable [TransCmp keyCmp] [LawfulEqCmp keyCmp]

theorem off_ready (h : ctx.Ready wcSHA1 keyCmp) (path : Bytes) (eventMask : OnEventType → Bool)
    (cb : Option OnCb) : (wcDatasyncOffW keyCmp path eventMask cb ctx).Ready wcSHA1 keyCmp ∧
      (wcDatasyncOffW keyCmp path eventMask cb ctx).deletedCbList = ctx.deletedCbList := by
  have hwf := wellFormed_onRegistryRemove h.wellFormed (wcDatasyncPathParse path) eventMask cb
  obtain ⟨reg, heq, -⟩ :=
    onRegistryRemove_spec h.wellFormed.ordered (wcDatasyncPathParse path) eventMask cb
  obtain ⟨listen, fault, hoff⟩ := wcDatasyncOffW_eq heq
  rw [heq] at hwf
  rw [hoff]
  exact ⟨⟨hwf.congr rfl (Nat.le_refl _), h.cacheOk, h.logged⟩, rfl⟩

theorem dispatch_ready (h : ctx.Ready wcSHA1 keyCmp) {path : Path} {fuel : ℕ}
    (hdispatch : onRegistryDispatchOnEvent wcSHA1 keyCmp answers path fuel ctx = some ctx')
    (hfault : ctx'.fault = false) : ctx'.Ready wcSHA1 keyCmp ∧ ctx'.deletedCbList = [] := by
  obtain ⟨ctx₁, hready, rfl⟩ := dispatch_induction (P := OnCtx.Ready wcSHA1 keyCmp)
    (fun walking q c hc => (trig_grown answers hc walking q).2) h hdispatch
  set ctx₂ : OnCtx := { ctx₁ with deletedCbList := [] } with hctx₂
  have hwf : ctx₂.WellFormed keyCmp := hready.wellFormed.congr rfl (Nat.le_refl _)
  obtain ⟨hwf', hcache, halloc, hqueue, -⟩ := gcLoop_unlinks hwf hfault
  have hlog : (deletedCbGc keyCmp ctx₁).log = ctx₁.log := log_gcLoop _
  refine ⟨⟨hwf', ?_, ?_⟩, hqueue⟩
  · rw [deletedCbGc, hcache]
    exact hready.cacheOk
  · intro c hc
    rw [hlog] at hc
    rw [deletedCbGc, halloc]
    exact hready.logged c hc

/-- One operation, whatever its callbacks do. -/
theorem step_ready (h : ctx.Ready wcSHA1 keyCmp) (hnil : ctx.deletedCbList = []) {op : OnOp}
    (hstep : ctx.step wcSHA1 keyCmp op = some ctx') (hfault : ctx'.fault = false) :
    ctx'.Ready wcSHA1 keyCmp ∧ ctx'.deletedCbList = [] := by
  have hpush : ∀ {cache answers path fuel}, cache.Forall (NodeOk wcSHA1 keyCmp) →
      onRegistryDispatchOnEvent wcSHA1 keyCmp answers path fuel { ctx with cache } = some ctx' →
      ctx'.Ready wcSHA1 keyCmp ∧ ctx'.deletedCbList = [] := by
    intro cache answers path fuel hok hdispatch
    have hready : OnCtx.Ready wcSHA1 keyCmp { ctx with cache } :=
      ⟨h.wellFormed.congr rfl (Nat.le_refl _), hok, h.logged⟩
    exact dispatch_ready hready hdispatch hfault
  have hnet : ∀ op : ListenOp,
      ((ctx.listen.step keyCmp op).map fun listen => { ctx with listen }) = some ctx' →
        ctx'.Ready wcSHA1 keyCmp ∧ ctx'.deletedCbList = [] := by
    intro op hop
    obtain ⟨listen, -, rfl⟩ := Option.map_eq_some_iff.mp hop
    exact ⟨h.congr rfl rfl rfl rfl, hnil⟩
  have hoff : ∀ path eventMask cb, wcDatasyncOffW keyCmp path eventMask cb ctx = ctx' →
      ctx'.Ready wcSHA1 keyCmp ∧ ctx'.deletedCbList = [] := by
    rintro path eventMask cb rfl
    obtain ⟨hready, hqueue⟩ := off_ready h path eventMask cb
    exact ⟨hready, hqueue.trans hnil⟩
  unfold OnCtx.step at hstep
  split at hstep
  case isTrue => cases hstep
  cases op with
  | on type path answers =>
      obtain rfl := Option.some.inj hstep
      obtain ⟨-, hready, hqueue, -⟩ := wcDatasyncOn_grown h type path
        (fun c ctx hready => run_nested hready none (answers ctx.log.length))
      exact ⟨hready, hqueue.trans hnil⟩
  | off c =>
      simp only at hstep
      split at hstep
      · exact hoff _ _ _ (Option.some.inj hstep)
      · cases hstep
  | offPath path => exact hoff _ _ _ (Option.some.inj hstep)
  | offPathType path type => exact hoff _ _ _ (Option.some.inj hstep)
  | updatePut path data answers fuel => exact hpush (dataCacheSetEx_ok _ data h.cacheOk) hstep
  | updateMerge path data answers fuel => exact hpush (dataCacheMerge_ok _ data h.cacheOk) hstep
  | cnxLost => exact hnet _ hstep
  | handshake => exact hnet _ hstep
  | response id ok => exact hnet _ hstep
  | connect => exact hnet _ hstep
  | closeCnx => exact hnet _ hstep

theorem reach_ready (run : Reach (OnCtx.step wcSHA1 keyCmp) (fun _ _ => True) onCtxNew ctx)
    (hfault : ctx.fault = false) : ctx.Ready wcSHA1 keyCmp ∧ ctx.deletedCbList = [] := by
  refine run.invariant (I := fun ctx => ctx.fault = false →
    ctx.Ready wcSHA1 keyCmp ∧ ctx.deletedCbList = []) (fun _ => ⟨?_, rfl⟩)
    (fun ctx op ctx' h _ hstep hfault' => ?_) hfault
  · exact ⟨onCtxNew_agrees.counted.wellFormed, nodeOk_leafNull, by simp [onCtxNew]⟩
  · have hfault : ctx.fault = false := by
      unfold OnCtx.step at hstep
      split at hstep
      · cases hstep
      next hfault => exact Bool.eq_false_iff.mpr hfault
    obtain ⟨hready, hnil⟩ := h hfault
    exact step_ready hready hnil hstep hfault'

end Runs

end WebcomSdk.On
