import WebcomSdk.On.Reentrancy

/-!
Callbacks that register `ON_VALUE` and `ON_CHILD_ADDED` callbacks while they are
invoked, and return 1. A new callback for which there is something is called at
once, and the `on_sub` of its path is up to date afterwards: whoever else waits
there to be told is not told any more.
-/

namespace WebcomSdk.On

open WebcomSdk.Lib WebcomSdk.Collection WebcomSdk.Datasync WebcomSdk.Cache Std

/-- The callback returns 1 and registers `ON_VALUE` and `ON_CHILD_ADDED`
callbacks only, and so do those in their initial calls. -/
def CbRun.OnlyAdds : CbRun → Prop
  | .ret keep => keep = true
  | .register type _ init rest =>
      (type = .value ∨ type = .childAdded) ∧ (∀ n, (init n).OnlyAdds) ∧ rest.OnlyAdds

/-- There is something for a new callback of this type. -/
def Present (cached : Option Treenode) : OnEventType → Prop
  | .value => cached.isSome
  | _ => ∃ children hash, cached = some (.internal children hash)

section

variable (wcSHA1 : SHA1) (keyCmp : Key → Key → Ordering)

/-- There is nothing to tell the callbacks of a type at this path. -/
def OnState.SettledAt (ctx : OnState) (q : Path) (type : OnEventType) : Prop :=
  Settled wcSHA1 (ctx.cached keyCmp q) (ctx.subAt keyCmp q) type

/-- Whatever is registered, no trigger has callbacks of this type to call. -/
def OnState.Calm (ctx : OnState) (q : Path) (type : OnEventType) : Prop :=
  ctx.SettledAt wcSHA1 keyCmp q type ∨
    Present (ctx.cached keyCmp q) type ∧ ctx.cbs keyCmp q type = []

/-- What callbacks that only add others do, in an invocation or in several. -/
structure Additions (events : List Event) (ctx ctx' : OnCtx) : Prop
    extends Grown wcSHA1 keyCmp ctx ctx' where
  ready : ctx'.Ready wcSHA1 keyCmp
  logged : ctx'.log = ctx.log ++ events
  queue : ctx'.deletedCbList = ctx.deletedCbList
  fault : ctx.fault = true → ctx'.fault = true
  same : ctx'.alloc = ctx.alloc → ctx'.onReg.map OnSub.cbList = ctx.onReg.map OnSub.cbList
  kept : ∀ q type, Present (ctx.cached keyCmp q) type →
    ctx'.SettledAt wcSHA1 keyCmp q type ∨ ctx'.cbs keyCmp q type = ctx.cbs keyCmp q type

/-- What one invocation does. It frees nothing where no children are cached. -/
structure Effects (events : List Event) (ctx ctx' : OnCtx) : Prop
    extends Additions wcSHA1 keyCmp events ctx ctx' where
  steady : ctx'.fault = ctx.fault
  rebuilt : ∀ q, (∀ children hash, ctx.cached keyCmp q ≠ some (.internal children hash)) →
    ctx'.rebuilt keyCmp q = ctx.rebuilt keyCmp q

end

variable {wcSHA1 : SHA1} {keyCmp : Key → Key → Ordering} {ctx ctx' ctx'' : OnCtx}

theorem CbRun.OnlyAdds.returns {r : CbRun} (h : r.OnlyAdds) (dispatch : Option Dispatch)
    (ctx : OnCtx) : (r.run wcSHA1 keyCmp dispatch ctx).2 = true := by
  induction r generalizing ctx with
  | ret keep => exact h
  | register type path init rest _ ih => exact ih h.2.2 _

/-! ### What is settled stays so -/

theorem Grown.settledAt (h : Grown wcSHA1 keyCmp ctx ctx') {q : Path} {type : OnEventType}
    (hsettled : ctx.SettledAt wcSHA1 keyCmp q type) : ctx'.SettledAt wcSHA1 keyCmp q type := by
  rw [OnState.SettledAt, h.cached_eq]
  exact hsettled.grown (h.sub q)

/-- Nothing calm is upset. -/
theorem Additions.calm {events : List Event} (h : Additions wcSHA1 keyCmp events ctx ctx')
    {q : Path} {type : OnEventType} (hcalm : ctx.Calm wcSHA1 keyCmp q type) :
    ctx'.Calm wcSHA1 keyCmp q type := by
  rcases hcalm with hsettled | ⟨hpresent, hnone⟩
  · exact .inl (h.settledAt hsettled)
  · refine (h.kept q type hpresent).imp_right fun hsame => ⟨?_, hsame.trans hnone⟩
    rw [h.cached_eq]
    exact hpresent

/-! ### Steps in turn -/

section Steps

variable {events events' : List Event}

/-- A write that adds no callback. -/
theorem Additions.of_same (hgrown : Grown wcSHA1 keyCmp ctx ctx')
    (hready : ctx'.Ready wcSHA1 keyCmp) (hlog : ctx'.log = ctx.log ++ events)
    (hqueue : ctx'.deletedCbList = ctx.deletedCbList)
    (hfault : ctx.fault = true → ctx'.fault = true)
    (hmap : ctx'.onReg.map OnSub.cbList = ctx.onReg.map OnSub.cbList) :
    Additions wcSHA1 keyCmp events ctx ctx' where
  toGrown := hgrown
  ready := hready
  logged := hlog
  queue := hqueue
  fault := hfault
  same := fun _ => hmap
  kept := fun q type _ => .inr (congrFun (congrFun (cbs_congr hmap) q) type)

theorem Additions.refl (h : ctx.Ready wcSHA1 keyCmp) : Additions wcSHA1 keyCmp [] ctx ctx :=
  .of_same (.refl ctx) h (List.append_nil _).symm rfl id rfl

theorem Additions.trans (h : Additions wcSHA1 keyCmp events ctx ctx')
    (h' : Additions wcSHA1 keyCmp events' ctx' ctx'') :
    Additions wcSHA1 keyCmp (events ++ events') ctx ctx'' where
  toGrown := h.toGrown.trans h'.toGrown
  ready := h'.ready
  logged := by rw [h'.logged, h.logged, List.append_assoc]
  queue := h'.queue.trans h.queue
  fault := fun hfault => h'.fault (h.fault hfault)
  same := by
    intro halloc
    have hsame : ctx'.alloc = ctx.alloc := Nat.le_antisymm (h'.alloc.trans halloc.le) h.alloc
    exact (h'.same (halloc.trans hsame.symm)).trans (h.same hsame)
  kept := by
    intro q type hpresent
    rcases h'.kept q type (h.cached_eq q ▸ hpresent) with hsettled | hsame
    · exact .inl hsettled
    · exact (h.kept q type hpresent).imp h'.settledAt hsame.trans

theorem Effects.refl (h : ctx.Ready wcSHA1 keyCmp) : Effects wcSHA1 keyCmp [] ctx ctx where
  toAdditions := .refl h
  steady := rfl
  rebuilt := fun _ _ => rfl

theorem Effects.trans (h : Effects wcSHA1 keyCmp events ctx ctx')
    (h' : Effects wcSHA1 keyCmp events' ctx' ctx'') :
    Effects wcSHA1 keyCmp (events ++ events') ctx ctx'' where
  toAdditions := h.toAdditions.trans h'.toAdditions
  steady := h'.steady.trans h.steady
  rebuilt := by
    intro q hnot
    have hnot' := hnot
    rw [← h.cached_eq] at hnot'
    exact (h'.rebuilt q hnot').trans (h.rebuilt q hnot)

/-- A call is entered in the log. -/
theorem effects_call (h : ctx.Ready wcSHA1 keyCmp) {c : Call} (hlt : c.pCb.addr < ctx.alloc) :
    Effects wcSHA1 keyCmp [.call c] ctx (ctx.emit (.call c)) where
  toAdditions := by
    refine .of_same (grown_emit _ ctx) (h.emit fun c' hc' => ?_) rfl rfl id rfl
    cases hc'
    exact hlt
  steady := rfl
  rebuilt := fun _ _ => rfl

variable (wcSHA1 keyCmp) in
/-- From a state in order, the invocation has such effects. -/
def HasEffects (ctx ctx' : OnCtx) : Prop :=
  ctx.Ready wcSHA1 keyCmp → ∃ events, Effects wcSHA1 keyCmp events ctx ctx'

theorem effects_of_invoked {calls : List Call}
    (hinvoked : Invoked (HasEffects wcSHA1 keyCmp) calls ctx ctx') (h : ctx.Ready wcSHA1 keyCmp)
    (hlt : ∀ c ∈ calls, c.pCb.addr < ctx.alloc) :
    ∃ events, Effects wcSHA1 keyCmp events ctx ctx' := by
  induction hinvoked with
  | nil ctx => exact ⟨[], .refl h⟩
  | @cons c calls ctx ctx' ctx'' hcall rest ih =>
      rw [List.forall_mem_cons] at hlt
      have hemit : Effects wcSHA1 keyCmp [.call c] ctx (ctx.emit (.call c)) :=
        effects_call h hlt.1
      obtain ⟨events, heffects⟩ := hcall hemit.ready
      have hone := hemit.trans heffects
      obtain ⟨events', heffects'⟩ := ih hone.ready fun c hc => (hlt.2 c hc).trans_le hone.alloc
      exact ⟨_, hone.trans heffects'⟩

end Steps

/-! ### Registrations -/

section Register

theorem hash_initSub {before : OnState} {path : Path}
    (hcalls : before.callsAtOnce keyCmp path = true) (sub : OnSub) :
    (initSub wcSHA1 keyCmp .value path before sub).hash =
      storedHash wcSHA1 (before.cached keyCmp path) := by
  rw [initSub, if_pos hcalls]
  rfl

theorem callsAtOnce_of_cached {before : OnState} {path : Path}
    (h : (before.cached keyCmp path).isSome) : before.callsAtOnce keyCmp path = true := by
  rw [OnState.callsAtOnce, h]
  rfl

/-- The table is filled anew when there are children. -/
theorem initSub_of_internal {before : OnState} {path : Path} {children : Children}
    {hash : Option TreenodeHash}
    (hcached : before.cached keyCmp path = some (.internal children hash)) (sub : OnSub) :
    initSub wcSHA1 keyCmp .childAdded path before sub =
      refreshOnChildSubHashes wcSHA1 keyCmp children sub := by
  have hcalls : before.callsAtOnce keyCmp path = true :=
    callsAtOnce_of_cached (by rw [hcached]; rfl)
  rw [initSub, if_pos hcalls, hcached]

theorem rebuilt_initSub {before : OnState} {path : Path}
    (h : ∀ children hash, before.cached keyCmp path ≠ some (.internal children hash))
    (type : OnEventType) (sub : OnSub) :
    (initSub wcSHA1 keyCmp type path before sub).rebuilt = sub.rebuilt := by
  unfold initSub
  split
  case isFalse => rfl
  cases type with
  | childAdded =>
      split
      next heq => exact absurd heq (h _ _)
      next => rfl
  | _ => rfl

theorem rebuilt_eq_subAt (ctx : OnState) (q : Path) :
    ctx.rebuilt keyCmp q = (ctx.subAt keyCmp q).rebuilt := by
  rw [OnState.rebuilt, OnState.subAt]
  cases ctx.sub keyCmp q <;> rfl

variable [TransCmp keyCmp] [LawfulEqCmp keyCmp]

theorem rebuilt_linkCb (h : ctx.Ready wcSHA1 keyCmp) (type : OnEventType) (path q : Path) :
    (linkCb keyCmp type path ctx).rebuilt keyCmp q = ctx.rebuilt keyCmp q := by
  rw [rebuilt_eq_subAt, rebuilt_eq_subAt, subAt_linkCb h.wellFormed.ordered]
  split <;> rfl

/-- The write after the initial calls: the `on_sub` is there. -/
theorem subAt_finishOn (h : ctx.Ready wcSHA1 keyCmp) (type : OnEventType) {path : Bytes}
    (hsome : (ctx.sub keyCmp (wcDatasyncPathParse path)).isSome) (before : OnState) (q : Path) :
    (finishOn wcSHA1 keyCmp type path before ctx).subAt keyCmp q =
      if q = wcDatasyncPathParse path then
        initSub wcSHA1 keyCmp type (wcDatasyncPathParse path) before (ctx.subAt keyCmp q)
      else ctx.subAt keyCmp q := by
  have hmod := subAt_modifySub h.wellFormed.ordered (wcDatasyncPathParse path) q
    (initSub wcSHA1 keyCmp type (wcDatasyncPathParse path) before)
  by_cases hq : q = wcDatasyncPathParse path
  · rw [if_pos hq]
    rw [if_pos ⟨hq, hq ▸ hsome⟩] at hmod
    exact hmod
  · rw [if_neg hq]
    rw [if_neg fun hboth => hq hboth.1] at hmod
    exact hmod

section Finish

variable {before : OnState} {path : Bytes}

omit [TransCmp keyCmp] [LawfulEqCmp keyCmp] in
theorem cached_finishOn (type : OnEventType) (q : Path) :
    (finishOn wcSHA1 keyCmp type path before ctx).cached keyCmp q = ctx.cached keyCmp q := rfl

/-- The value is settled when the new callback was called with it. -/
theorem settledAt_finishOn (h : ctx.Ready wcSHA1 keyCmp)
    (hsome : (ctx.sub keyCmp (wcDatasyncPathParse path)).isSome)
    (hcache : before.cache = ctx.cache)
    (hcalls : before.callsAtOnce keyCmp (wcDatasyncPathParse path) = true) :
    (finishOn wcSHA1 keyCmp .value path before ctx).SettledAt wcSHA1 keyCmp
      (wcDatasyncPathParse path) .value := by
  have hcached : before.cached keyCmp (wcDatasyncPathParse path) =
      ctx.cached keyCmp (wcDatasyncPathParse path) := by
    rw [OnState.cached, hcache, OnState.cached]
  rw [OnState.SettledAt, cached_finishOn, subAt_finishOn h _ hsome, if_pos rfl, ← hcached]
  exact hash_initSub hcalls _

/-- The table is settled when it was filled. -/
theorem settledAt_finishOn_child (h : ctx.Ready wcSHA1 keyCmp)
    (hsome : (ctx.sub keyCmp (wcDatasyncPathParse path)).isSome)
    (hcache : before.cache = ctx.cache) {children : Children} {hash : Option TreenodeHash}
    (hcached : ctx.cached keyCmp (wcDatasyncPathParse path) = some (.internal children hash)) :
    (finishOn wcSHA1 keyCmp .childAdded path before ctx).SettledAt wcSHA1 keyCmp
      (wcDatasyncPathParse path) .childAdded := by
  have hbefore : before.cached keyCmp (wcDatasyncPathParse path) =
      some (.internal children hash) := by
    rw [OnState.cached, hcache]
    exact hcached
  have hordered : children.Ordered keyCmp := (h.cachedOk _ _ hcached).childrenOk.ordered
  rw [OnState.SettledAt, cached_finishOn, subAt_finishOn h _ hsome, if_pos rfl,
    initSub_of_internal hbefore, hcached]
  exact toList_refreshOnChildSubHashes hash hordered _

/-- Nothing is freed where there are no children. -/
theorem rebuilt_finishOn (type : OnEventType) (h : ctx.Ready wcSHA1 keyCmp)
    (hsome : (ctx.sub keyCmp (wcDatasyncPathParse path)).isSome) {q : Path}
    (hnot : ∀ children hash, before.cached keyCmp q ≠ some (.internal children hash)) :
    (finishOn wcSHA1 keyCmp type path before ctx).rebuilt keyCmp q = ctx.rebuilt keyCmp q := by
  rw [rebuilt_eq_subAt, rebuilt_eq_subAt, subAt_finishOn h type hsome]
  split
  next hq => exact rebuilt_initSub (hq ▸ hnot) type _
  next => rfl

end Finish

/-- A registration made in an invocation. -/
theorem register_effects {dispatch : Option Dispatch} {type : OnEventType}
    (htype : type = .value ∨ type = .childAdded) {path : Bytes}
    (hinvoked : Invoked (HasEffects wcSHA1 keyCmp)
      (initCalls keyCmp type (wcDatasyncPathParse path) ctx.toOnState)
      (linkCb keyCmp type (wcDatasyncPathParse path)
        (ctx.emit (.register dispatch type (wcDatasyncPathParse path) ctx.toOnState))) ctx')
    (h : ctx.Ready wcSHA1 keyCmp) : ∃ events, Effects wcSHA1 keyCmp events ctx
      (finishOn wcSHA1 keyCmp type path ctx.toOnState ctx') := by
  set p := wcDatasyncPathParse path with hp
  set event : Event := .register dispatch type p ctx.toOnState with hevent
  set linked := linkCb keyCmp type p (ctx.emit event) with hlinked
  have hemit : (ctx.emit event).Ready wcSHA1 keyCmp := h.emit (by simp [hevent])
  have hlink : linked.Ready wcSHA1 keyCmp := hemit.linkCb type path
  have hnew : (⟨ctx.alloc, p⟩ : OnCb) ∈ linked.cbs keyCmp p type := by
    rw [hlinked, cbs_linkCb hemit.wellFormed.ordered, if_pos rfl, Function.update_self]
    exact List.mem_cons_self
  have hgrown : Grown wcSHA1 keyCmp ctx linked :=
    (grown_emit event ctx).trans (grown_linkCb hemit.wellFormed.ordered type p)
  obtain ⟨events, heffects⟩ := effects_of_invoked hinvoked hlink fun c hc =>
    (mem_initCalls type hc).2 ▸ Nat.lt_succ_self ctx.alloc
  have hgrown' := hgrown.trans heffects.toGrown
  have hcache : ctx.cache = ctx'.cache := hgrown'.cache.symm
  have hsome := isSome_of_mem_cbs (heffects.mem_cbs hnew)
  obtain ⟨hfinish, hready⟩ := finishOn_grown heffects.ready hcache type path
  set done := finishOn wcSHA1 keyCmp type path ctx.toOnState ctx' with hdone
  have hmap : done.onReg.map OnSub.cbList = ctx'.onReg.map OnSub.cbList :=
    map_cbList_modifySub ctx' p (cbList_initSub type p ctx.toOnState)
  refine ⟨event :: events, ⟨⟨hgrown'.trans hfinish, hready, ?_, ?_, ?_, ?_, ?_⟩, ?_, ?_⟩⟩
  · have hlog : ctx'.log = ctx.log ++ [event] ++ events := heffects.logged
    show ctx'.log = _
    rw [hlog, List.append_assoc, List.singleton_append]
  · exact heffects.queue
  · exact heffects.fault
  · intro halloc
    have hsucc : ctx'.alloc + 1 = ctx.alloc := halloc
    exact absurd (hsucc.le.trans hgrown'.alloc) (Nat.not_succ_le_self _)
  · intro q t hpresent
    by_cases hown : q = p ∧ t = type
    · -- the new callback is one of them, and was told at once
      obtain ⟨rfl, rfl⟩ := hown
      rcases htype with rfl | rfl
      · exact .inl (settledAt_finishOn heffects.ready hsome hcache (callsAtOnce_of_cached hpresent))
      · obtain ⟨children, hash, hcached⟩ := hpresent
        rw [← hgrown'.cached_eq] at hcached
        exact .inl (settledAt_finishOn_child heffects.ready hsome hcache hcached)
    · have hlinkedCbs : linked.cbs keyCmp q t = ctx.cbs keyCmp q t := by
        rw [hlinked, cbs_linkCb hemit.wellFormed.ordered]
        split
        next hq =>
          rw [Function.update_of_ne fun ht => hown ⟨hq, ht⟩, ← hq]
          rfl
        next => rfl
      refine (heffects.kept q t hpresent).imp hfinish.settledAt fun hsame => ?_
      rw [cbs_congr hmap, hsame, hlinkedCbs]
  · exact heffects.steady
  · intro q hnot
    rw [rebuilt_finishOn type heffects.ready hsome hnot,
      heffects.rebuilt q hnot]
    exact rebuilt_linkCb hemit type p q

/-- **What an invocation does** that only adds callbacks. -/
theorem run_effects (dispatch : Option Dispatch) {r : CbRun} (hr : r.OnlyAdds)
    (h : ctx.Ready wcSHA1 keyCmp) :
    ∃ events, Effects wcSHA1 keyCmp events ctx (r.run wcSHA1 keyCmp dispatch ctx).1 := by
  refine CbRun.run_induction_of (R := HasEffects wcSHA1 keyCmp) (K := CbRun.OnlyAdds)
    (fun type path init rest h => h) (fun ctx h => ⟨[], .refl h⟩) ?_ ?_ hr ctx h
  · intro a b c hab hbc ha
    obtain ⟨events, heffects⟩ := hab ha
    obtain ⟨events', heffects'⟩ := hbc heffects.ready
    exact ⟨_, heffects.trans heffects'⟩
  · intro type path a b htype hinvoked ha
    exact register_effects htype hinvoked ha

end Register

end WebcomSdk.On
