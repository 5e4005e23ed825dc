import WebcomSdk.On.Dispatch

/-!
The registrations of the on registry: which `on_cb_list` are linked at a path,
and what each function of the registry does to them.
-/

namespace WebcomSdk.On

open WebcomSdk.Collection WebcomSdk.Datasync WebcomSdk.Cache Std

section

variable (keyCmp : Key → Key → Ordering)

/-- The callbacks of a path, type by type. -/
def OnState.cbs (ctx : OnState) (path : Path) : OnEventType → List OnCb :=
  ((ctx.sub keyCmp path).map OnSub.cbList).getD fun _ => []

/-- The callbacks of a path. -/
def OnState.registrations (ctx : OnState) (path : Path) : List OnCb :=
  onEventTypes.flatMap (ctx.cbs keyCmp path)

/-- The registry is a search tree on parsed paths, and every registration is in
one place. -/
structure OnState.WellFormed (ctx : OnState) : Prop where
  ordered : ctx.onReg.Ordered (wcDatasyncPathCmp keyCmp)
  parsed : ∀ e ∈ ctx.onReg.toList, ∃ s, e.1 = wcDatasyncPathParse s
  own : ∀ path, ∀ pCb ∈ ctx.registrations keyCmp path, pCb.sub = path ∧ pCb.addr < ctx.alloc
  nodup : ∀ path, (ctx.registrations keyCmp path).Nodup

end

variable {wcSHA1 : SHA1} {keyCmp : Key → Key → Ordering}

theorem mem_onEventTypes (type : OnEventType) : type ∈ onEventTypes := by
  cases type <;> decide

theorem mem_registrations {ctx : OnState} {path : Path} {pCb : OnCb} :
    pCb ∈ ctx.registrations keyCmp path ↔ ∃ type, pCb ∈ ctx.cbs keyCmp path type := by
  simp [OnState.registrations, mem_onEventTypes]

theorem cbs_of_sub {ctx : OnState} {path : Path} {sub : OnSub}
    (hsub : ctx.sub keyCmp path = some sub) : ctx.cbs keyCmp path = sub.cbList := by
  simp [OnState.cbs, hsub]

theorem cbs_invokeAll {answers : ℕ → CbRun} {calls : List Call} {ctx : OnCtx} (path : Path) :
    (invokeAll answers calls ctx).cbs keyCmp path = ctx.cbs keyCmp path := by
  rw [OnState.cbs, sub_invokeAll, OnState.cbs]

theorem cbs_congr {ctx ctx' : OnState}
    (h : ctx'.onReg.map OnSub.cbList = ctx.onReg.map OnSub.cbList) :
    ctx'.cbs keyCmp = ctx.cbs keyCmp := by
  funext path
  rw [OnState.cbs, OnState.cbs, OnState.sub, OnState.sub, ← avlFind_map, h, avlFind_map]

theorem registrations_congr {ctx ctx' : OnState}
    (h : ctx'.onReg.map OnSub.cbList = ctx.onReg.map OnSub.cbList) :
    ctx'.registrations keyCmp = ctx.registrations keyCmp := by
  funext path
  rw [OnState.registrations, cbs_congr h, OnState.registrations]

/-- Writes that leave the callbacks alone. -/
theorem OnState.WellFormed.congr {ctx ctx' : OnState} (hwf : ctx.WellFormed keyCmp)
    (h : ctx'.onReg.map OnSub.cbList = ctx.onReg.map OnSub.cbList)
    (halloc : ctx.alloc ≤ ctx'.alloc) : ctx'.WellFormed keyCmp where
  ordered := by
    rw [← ordered_map (g := OnSub.cbList), h, ordered_map]
    exact hwf.ordered
  parsed := by
    have hkeys : ctx'.onReg.toList.map Prod.fst = ctx.onReg.toList.map Prod.fst := by
      have := congrArg (fun t => t.toList.map Prod.fst) h
      simpa [toList_map, Function.comp_def] using this
    intro e he
    have hmem : e.1 ∈ ctx.onReg.toList.map Prod.fst := hkeys ▸ List.mem_map_of_mem he
    obtain ⟨e', he', heq⟩ := List.mem_map.mp hmem
    exact heq ▸ hwf.parsed e' he'
  own := by
    intro path pCb hpCb
    rw [registrations_congr h] at hpCb
    obtain ⟨hsub, hlt⟩ := hwf.own path pCb hpCb
    exact ⟨hsub, hlt.trans_le halloc⟩
  nodup := by
    rw [registrations_congr h]
    exact hwf.nodup

theorem registered_iff {ctx : OnState} {pCb : OnCb} :
    ctx.registered keyCmp pCb = true ↔ pCb ∈ ctx.registrations keyCmp pCb.sub := by
  rw [OnState.registered, OnState.registrations, OnState.cbs]
  cases ctx.sub keyCmp pCb.sub <;> simp

/-- What a dispatch invokes is registered. -/
theorem mem_cbs_of_mem_callsAt {ctx : OnState} {path : Path} {c : Call}
    (hc : c ∈ callsAt wcSHA1 keyCmp ctx path) : c.pCb ∈ ctx.cbs keyCmp path c.type := by
  rw [callsAt] at hc
  cases hsub : ctx.sub keyCmp path with
  | none => simp [hsub] at hc
  | some sub =>
      simp only [hsub, trigCalls, List.mem_append] at hc
      rw [cbs_of_sub hsub]
      rcases hc with hc | hc
      · split at hc
        · simp only [childCalls, List.mem_flatMap, List.mem_map] at hc
          obtain ⟨t, -, pCb, hpCb, rfl⟩ := hc
          exact hpCb
        · cases hc
      · rw [valCalls] at hc
        split at hc
        · obtain ⟨pCb, hpCb, rfl⟩ := List.mem_map.mp hc
          exact hpCb
        · cases hc

/-! ### Adding a callback -/

section Link

variable [TransCmp keyCmp] [LawfulEqCmp keyCmp] {ctx : OnCtx}

theorem sub_linkCb (hreg : ctx.onReg.Ordered (wcDatasyncPathCmp keyCmp)) (type : OnEventType)
    (path q : Path) : (linkCb keyCmp type path ctx).sub keyCmp q =
      if q = path then
        some (((ctx.sub keyCmp path).getD OnSub.new).addCb type ⟨ctx.alloc, path⟩)
      else ctx.sub keyCmp q := by
  rw [linkCb, OnState.sub, OnState.sub, OnState.sub]
  cases hfind : avlFind (wcDatasyncPathCmp keyCmp) path ctx.onReg with
  | none =>
      simp only [avlFind_avlInsertRec hreg _ hfind, pathCmp_eq_iff]
      rfl
  | some sub =>
      simp only [avlFind_avlModify hreg, pathCmp_eq_iff]
      by_cases hq : q = path
      · simp [hq, hfind]
      · simp [hq]

omit [LawfulEqCmp keyCmp] in
theorem ordered_linkCb (hreg : ctx.onReg.Ordered (wcDatasyncPathCmp keyCmp)) (type : OnEventType)
    (path : Path) :
    (linkCb keyCmp type path ctx).onReg.Ordered (wcDatasyncPathCmp keyCmp) := by
  rw [linkCb]
  cases hfind : avlFind (wcDatasyncPathCmp keyCmp) path ctx.onReg with
  | none => exact ordered_avlInsertRec hreg _ (avlFind_eq_none_iff.mp hfind)
  | some sub => exact ordered_avlModify hreg path _

theorem cbs_linkCb (hreg : ctx.onReg.Ordered (wcDatasyncPathCmp keyCmp)) (type : OnEventType)
    (path q : Path) : (linkCb keyCmp type path ctx).cbs keyCmp q =
      if q = path then
        Function.update (ctx.cbs keyCmp path) type
          (⟨ctx.alloc, path⟩ :: ctx.cbs keyCmp path type)
      else ctx.cbs keyCmp q := by
  rw [OnState.cbs, sub_linkCb hreg, OnState.cbs]
  by_cases hq : q = path
  · cases ctx.sub keyCmp path <;> simp [hq, OnSub.addCb, OnSub.new]
  · simp [hq, OnState.cbs]

/-- One more callback in the list of its type. -/
theorem flatMap_update_perm (f : OnEventType → List OnCb) (type : OnEventType) (pCb : OnCb) :
    (onEventTypes.flatMap (Function.update f type (pCb :: f type))).Perm
      (pCb :: onEventTypes.flatMap f) := by
  cases type with
  | childAdded => simp [onEventTypes]
  | childRemoved =>
      simp only [onEventTypes, List.flatMap_cons, List.flatMap_nil, ne_eq, reduceCtorEq,
        not_false_eq_true, Function.update_of_ne, Function.update_self]
      exact List.perm_middle
  | childChanged =>
      simp only [onEventTypes, List.flatMap_cons, List.flatMap_nil, ne_eq, reduceCtorEq,
        not_false_eq_true, Function.update_of_ne, Function.update_self]
      rw [← List.append_assoc, ← List.append_assoc (f .childAdded)]
      exact List.perm_middle
  | value =>
      simp only [onEventTypes, List.flatMap_cons, List.flatMap_nil, ne_eq, reduceCtorEq,
        not_false_eq_true, Function.update_of_ne, Function.update_self]
      rw [← List.append_assoc, ← List.append_assoc, ← List.append_assoc (f .childAdded),
        ← List.append_assoc (f .childAdded ++ f .childRemoved)]
      exact List.perm_middle

theorem registrations_linkCb (hreg : ctx.onReg.Ordered (wcDatasyncPathCmp keyCmp))
    (type : OnEventType) (path q : Path) :
    ((linkCb keyCmp type path ctx).registrations keyCmp q).Perm
      (if q = path then ⟨ctx.alloc, path⟩ :: ctx.registrations keyCmp path
       else ctx.registrations keyCmp q) := by
  rw [OnState.registrations, cbs_linkCb hreg]
  by_cases hq : q = path
  · rw [if_pos hq, if_pos hq]
    exact flatMap_update_perm _ type _
  · rw [if_neg hq, if_neg hq]
    exact List.Perm.refl _

theorem wellFormed_linkCb (hwf : ctx.WellFormed keyCmp) (type : OnEventType) (path : Bytes) :
    (linkCb keyCmp type (wcDatasyncPathParse path) ctx).WellFormed keyCmp where
  ordered := ordered_linkCb hwf.ordered type _
  parsed := by
    rw [linkCb]
    cases hfind : avlFind (wcDatasyncPathCmp keyCmp) (wcDatasyncPathParse path) ctx.onReg with
    | none =>
        intro e he
        rcases (mem_avlInsertRec _ _ _).mp he with rfl | he
        · exact ⟨path, rfl⟩
        · exact hwf.parsed e he
    | some sub =>
        intro e he
        have hmem : e.1 ∈ ctx.onReg.toList.map Prod.fst :=
          keys_avlModify (wcDatasyncPathParse path) _ ctx.onReg ▸ List.mem_map_of_mem he
        obtain ⟨e', he', heq⟩ := List.mem_map.mp hmem
        exact heq ▸ hwf.parsed e' he'
  own := by
    intro q pCb hpCb
    have hmem := (registrations_linkCb hwf.ordered type _ q).mem_iff.mp hpCb
    have halloc : (linkCb keyCmp type (wcDatasyncPathParse path) ctx).alloc = ctx.alloc + 1 := rfl
    rw [halloc]
    split at hmem
    next hq =>
      rcases List.mem_cons.mp hmem with rfl | hmem
      · exact ⟨hq.symm, Nat.lt_succ_self _⟩
      · obtain ⟨hsub, hlt⟩ := hwf.own _ pCb hmem
        exact ⟨hsub.trans hq.symm, hlt.trans (Nat.lt_succ_self _)⟩
    next =>
      obtain ⟨hsub, hlt⟩ := hwf.own q pCb hmem
      exact ⟨hsub, hlt.trans (Nat.lt_succ_self _)⟩
  nodup := by
    intro q
    rw [(registrations_linkCb hwf.ordered type _ q).nodup_iff]
    split
    · refine List.nodup_cons.mpr ⟨fun hmem => ?_, hwf.nodup _⟩
      exact Nat.lt_irrefl _ (hwf.own _ _ hmem).2
    · exact hwf.nodup q

end Link

/-! ### Registering a callback that only returns -/

section Add

variable (wcSHA1 keyCmp) in
/-- What `on_registry_add` writes to the `on_sub` after the initial calls. -/
def initSub (type : OnEventType) (path : Path) (ctx : OnState) : OnSub → OnSub :=
  if ctx.callsAtOnce keyCmp path then
    match type with
    | .value => fun sub =>
        { sub with hash := treenodeHashCopy (valueHash wcSHA1 (ctx.cached keyCmp path)) }
    | .childAdded =>
        match ctx.cached keyCmp path with
        | some (.internal children _) => refreshOnChildSubHashes wcSHA1 keyCmp children
        | _ => id
    | _ => id
  else id

def addedCalls (pCb : OnCb) : List (Key × Treenode) → Option Key → List Call
  | [], _ => []
  | (key, node) :: rest, prev =>
      ⟨pCb, .childAdded, some node, some key, prev⟩ :: addedCalls pCb rest (some key)

variable (keyCmp) in
/-- The initial calls. -/
def initCalls (type : OnEventType) (path : Path) (ctx : OnState) : List Call :=
  if ctx.callsAtOnce keyCmp path then
    match type with
    | .value => [⟨⟨ctx.alloc, path⟩, .value, ctx.cached keyCmp path, none, none⟩]
    | .childAdded =>
        match ctx.cached keyCmp path with
        | some (.internal children _) => addedCalls ⟨ctx.alloc, path⟩ children.toList none
        | _ => []
    | _ => []
  else []

def OnCtx.emitAll (calls : List Call) (ctx : OnCtx) : OnCtx :=
  { ctx with log := ctx.log ++ calls.map .call }

theorem callChildren_eq (call : Call → OnCtx → OnCtx) (pCb : OnCb)
    (children : List (Key × Treenode)) (prev : Option Key) (ctx : OnCtx) :
    callChildren call pCb children prev ctx =
      (addedCalls pCb children prev).foldl (fun ctx c => call c ctx) ctx := by
  induction children generalizing prev ctx with
  | nil => rfl
  | cons child children ih =>
      rw [callChildren, ih]
      rfl

/-- `on_registry_add` links the callback, makes the initial calls, then writes to
the `on_sub`. -/
theorem onRegistryAdd_eq (call : Call → OnCtx → OnCtx) (type : OnEventType) (path : Path)
    (ctx : OnCtx) : onRegistryAdd wcSHA1 keyCmp call type path ctx =
      ((initCalls keyCmp type path ctx.toOnState).foldl (fun ctx c => call c ctx)
        (linkCb keyCmp type path ctx)).modifySub
          keyCmp path (initSub wcSHA1 keyCmp type path ctx.toOnState) := by
  have hid : ∀ c : OnCtx, c.modifySub keyCmp path id = c := by
    intro c
    simp [OnCtx.modifySub, avlModify_id]
  have hcalls : (linkCb keyCmp type path ctx).callsAtOnce keyCmp path =
      ctx.callsAtOnce keyCmp path := rfl
  have hcached : (linkCb keyCmp type path ctx).cached keyCmp path = ctx.cached keyCmp path := rfl
  unfold onRegistryAdd initCalls initSub
  simp only [hcalls, hcached]
  cases ctx.callsAtOnce keyCmp path with
  | false => exact (hid _).symm
  | true =>
      cases type with
      | value => rfl
      | childAdded =>
          rcases internal_or_not (ctx.cached keyCmp path) with ⟨children, hash, hchildren⟩ | hnone
          · simp only [hchildren, callChildren_eq]
            rfl
          · simp only [if_true]
            exact (hid _).symm
      | childRemoved => exact (hid _).symm
      | childChanged => exact (hid _).symm

theorem foldl_emit (calls : List Call) (ctx : OnCtx) :
    calls.foldl (fun ctx c => ctx.emit (.call c)) ctx = ctx.emitAll calls := by
  induction calls generalizing ctx with
  | nil => simp [OnCtx.emitAll]
  | cons c calls ih =>
      rw [List.foldl_cons, ih]
      simp [OnCtx.emitAll, OnCtx.emit]

theorem onRegistryAdd_emit (type : OnEventType) (path : Path) (ctx : OnCtx) :
    onRegistryAdd wcSHA1 keyCmp (fun c ctx => ctx.emit (.call c)) type path ctx =
      ((linkCb keyCmp type path ctx).emitAll (initCalls keyCmp type path ctx.toOnState)).modifySub
        keyCmp path (initSub wcSHA1 keyCmp type path ctx.toOnState) := by
  rw [onRegistryAdd_eq, foldl_emit]

theorem run_emit {answers : ℕ → CbRun} (hret : OnlyReturn answers) :
    (fun c (ctx : OnCtx) =>
      ((answers ctx.log.length).run wcSHA1 keyCmp none (ctx.emit (.call c))).1) =
        fun c ctx => ctx.emit (.call c) := by
  funext c ctx
  obtain ⟨keep, hkeep⟩ := hret ctx.log.length
  rw [hkeep]
  rfl

@[simp] theorem cbList_initSub (type : OnEventType) (path : Path) (ctx : OnState) (sub : OnSub) :
    (initSub wcSHA1 keyCmp type path ctx sub).cbList = sub.cbList := by
  unfold initSub
  cases ctx.callsAtOnce keyCmp path with
  | false => rfl
  | true =>
      cases type with
      | childAdded =>
          rcases internal_or_not (ctx.cached keyCmp path) with ⟨children, hash, hchildren⟩ | hnone
          · simp only [hchildren]
            rfl
          · simp
      | value => rfl
      | childRemoved => rfl
      | childChanged => rfl

variable (wcSHA1 keyCmp) in
/-- One of the functions `wc_datasync_on_*`, with a callback that only
returns. -/
def registerSilently (type : OnEventType) (path : Bytes) (ctx : OnCtx) : OnCtx :=
  wcDatasyncOn wcSHA1 keyCmp type (fun c ctx => ctx.emit (.call c)) path ctx

section Silently

variable (type : OnEventType) (path : Bytes) (ctx : OnCtx)

@[simp] theorem cache_registerSilently :
    (registerSilently wcSHA1 keyCmp type path ctx).cache = ctx.cache := by
  rw [registerSilently, wcDatasyncOn, onRegistryAdd_emit]
  rfl

@[simp] theorem alloc_registerSilently :
    (registerSilently wcSHA1 keyCmp type path ctx).alloc = ctx.alloc + 2 := by
  rw [registerSilently, wcDatasyncOn, onRegistryAdd_emit]
  rfl

@[simp] theorem log_registerSilently : (registerSilently wcSHA1 keyCmp type path ctx).log =
    ctx.log ++ (initCalls keyCmp type (wcDatasyncPathParse path) ctx.toOnState).map .call := by
  rw [registerSilently, wcDatasyncOn, onRegistryAdd_emit]
  rfl

theorem sub_registerSilently [TransCmp keyCmp] [LawfulEqCmp keyCmp] {ctx : OnCtx}
    (hreg : ctx.onReg.Ordered (wcDatasyncPathCmp keyCmp)) (q : Path) :
    (registerSilently wcSHA1 keyCmp type path ctx).sub keyCmp q =
      if q = wcDatasyncPathParse path then
        some (initSub wcSHA1 keyCmp type q ctx.toOnState
          (((ctx.sub keyCmp q).getD OnSub.new).addCb type ⟨ctx.alloc, q⟩))
      else ctx.sub keyCmp q := by
  rw [registerSilently, wcDatasyncOn, onRegistryAdd_emit]
  set linked := (linkCb keyCmp type (wcDatasyncPathParse path) ctx).emitAll
    (initCalls keyCmp type (wcDatasyncPathParse path) ctx.toOnState) with hlinked
  have hreg' : linked.onReg.Ordered (wcDatasyncPathCmp keyCmp) := ordered_linkCb hreg type _
  have hsub : linked.sub keyCmp q = _ := sub_linkCb hreg type (wcDatasyncPathParse path) q
  show (linked.modifySub keyCmp _ _).sub keyCmp q = _
  rw [sub_modifySub hreg', hsub]
  split
  next hq =>
    subst hq
    rfl
  next => rfl

/-- The initial calls are those of the new registration. -/
theorem mem_initCalls {ctx : OnState} {path : Path} {c : Call}
    (hc : c ∈ initCalls keyCmp type path ctx) : c.type = type ∧ c.pCb = ⟨ctx.alloc, path⟩ := by
  have hadded : ∀ pCb children prev, ∀ c ∈ addedCalls pCb children prev,
      c.type = .childAdded ∧ c.pCb = pCb := by
    intro pCb children
    induction children with
    | nil => simp [addedCalls]
    | cons child children ih =>
        intro prev
        exact List.forall_mem_cons.mpr ⟨⟨rfl, rfl⟩, ih (some child.1)⟩
  unfold initCalls at hc
  split at hc
  case isFalse => cases hc
  cases type with
  | value =>
      obtain rfl := List.mem_singleton.mp hc
      exact ⟨rfl, rfl⟩
  | childAdded =>
      rcases internal_or_not (ctx.cached keyCmp path) with ⟨children, hash, hchildren⟩ | hnone
      · simp only [hchildren] at hc
        exact hadded _ _ _ c hc
      · simp at hc
  | childRemoved => cases hc
  | childChanged => cases hc

end Silently

theorem map_cbList_registerSilently (type : OnEventType) (path : Bytes) (ctx : OnCtx) :
    (registerSilently wcSHA1 keyCmp type path ctx).onReg.map OnSub.cbList =
      (linkCb keyCmp type (wcDatasyncPathParse path) ctx).onReg.map OnSub.cbList := by
  simp only [registerSilently, wcDatasyncOn, onRegistryAdd_emit]
  exact map_cbList_modifySub _ _ (cbList_initSub _ _ _)

end Add

/-! ### Removing callbacks -/

variable (keyCmp) in
theorem unwatch_eq (path : Path) (n : ℕ) (ctx : OnCtx) :
    ∃ listen fault, unwatch keyCmp path n ctx = { ctx with listen, fault } := by
  rw [unwatch]
  split
  · exact ⟨_, _, rfl⟩
  · exact ⟨_, _, rfl⟩

section Remove

variable [TransCmp keyCmp] [LawfulEqCmp keyCmp] {ctx : OnCtx}

theorem onRegistryRemove_spec (hreg : ctx.onReg.Ordered (wcDatasyncPathCmp keyCmp)) (path : Path)
    (typeMask : OnEventType → Bool) (h : Option OnCb) :
    ∃ reg, onRegistryRemove keyCmp path typeMask h ctx =
        (ctx.withOnReg reg, (onEventTypes.map fun type =>
          (ctx.cbs keyCmp path type).countP (selects typeMask h type)).sum) ∧
      reg.Ordered (wcDatasyncPathCmp keyCmp) ∧
      (∀ e ∈ reg.toList, e.1 ∈ ctx.onReg.toList.map Prod.fst) ∧
      ∀ q, avlFind (wcDatasyncPathCmp keyCmp) q reg =
        if q = path then (ctx.sub keyCmp path).bind fun sub =>
          if (sub.without (selects typeMask h)).isUnused then none
          else some (sub.without (selects typeMask h))
        else ctx.sub keyCmp q := by
  rw [onRegistryRemove]
  cases hsub : ctx.sub keyCmp path with
  | none =>
      refine ⟨ctx.onReg, ?_, hreg, fun e he => List.mem_map_of_mem he, fun q => ?_⟩
      · simp [OnState.cbs, hsub, onEventTypes, OnCtx.withOnReg]
      · by_cases hq : q = path
        · subst hq
          rw [if_pos rfl]
          exact hsub
        · rw [if_neg hq]
          rfl
  | some sub =>
      have hreg' : (avlModify (wcDatasyncPathCmp keyCmp) path (OnSub.without (selects typeMask h))
          ctx.onReg).Ordered (wcDatasyncPathCmp keyCmp) := ordered_avlModify hreg path _
      have hkeys : ∀ e ∈ (avlModify (wcDatasyncPathCmp keyCmp) path
          (OnSub.without (selects typeMask h)) ctx.onReg).toList,
          e.1 ∈ ctx.onReg.toList.map Prod.fst := fun e he =>
        keys_avlModify path _ ctx.onReg ▸ List.mem_map_of_mem he
      by_cases hunused : (sub.without (selects typeMask h)).isUnused = true
      · refine ⟨avlRemove (wcDatasyncPathCmp keyCmp) path (avlModify (wcDatasyncPathCmp keyCmp) path
          (OnSub.without (selects typeMask h)) ctx.onReg), ?_, ordered_avlRemove hreg' path, ?_, ?_⟩
        · simp [hunused, cbs_of_sub hsub, OnCtx.withOnReg, OnCtx.modifySub]
        · intro e he
          rw [toList_avlRemove hreg'] at he
          exact hkeys e (List.mem_of_mem_filter he)
        · intro q
          rw [avlFind_avlRemove hreg', avlFind_avlModify hreg]
          simp only [pathCmp_eq_iff]
          by_cases hq : q = path
          · simp [hq, hunused]
          · simp [hq, OnState.sub]
      · refine ⟨avlModify (wcDatasyncPathCmp keyCmp) path (OnSub.without (selects typeMask h))
          ctx.onReg, ?_, hreg', hkeys, ?_⟩
        · simp [hunused, cbs_of_sub hsub, OnCtx.withOnReg, OnCtx.modifySub]
        · intro q
          rw [avlFind_avlModify hreg]
          simp only [pathCmp_eq_iff]
          by_cases hq : q = path
          · subst hq
            rw [if_pos rfl, if_pos rfl]
            show (ctx.sub keyCmp q).map _ = _
            simp [hsub, hunused]
          · simp [hq, OnState.sub]

theorem cbs_onRegistryRemove (hreg : ctx.onReg.Ordered (wcDatasyncPathCmp keyCmp)) (path : Path)
    (typeMask : OnEventType → Bool) (h : Option OnCb) (q : Path) :
    (onRegistryRemove keyCmp path typeMask h ctx).1.cbs keyCmp q =
      if q = path then fun type =>
        (ctx.cbs keyCmp path type).filter fun pCb => !selects typeMask h type pCb
      else ctx.cbs keyCmp q := by
  obtain ⟨reg, heq, -, -, hfind⟩ := onRegistryRemove_spec hreg path typeMask h
  rw [heq, OnState.cbs, OnState.sub]
  show ((avlFind _ q reg).map OnSub.cbList).getD _ = _
  rw [hfind]
  by_cases hq : q = path
  · rw [if_pos hq, if_pos hq]
    cases hsub : ctx.sub keyCmp path with
    | none => simp [OnState.cbs, hsub]
    | some sub =>
        rw [Option.bind_some, cbs_of_sub hsub]
        split
        next hunused =>
          -- an unused `on_sub` has no callback left
          funext type
          have hall := List.all_eq_true.mp hunused type (mem_onEventTypes type)
          exact (List.isEmpty_iff.mp hall).symm
        next => rfl
  · rw [if_neg hq, if_neg hq]
    rfl

theorem length_registrations_onRegistryRemove
    (hreg : ctx.onReg.Ordered (wcDatasyncPathCmp keyCmp)) (path : Path)
    (typeMask : OnEventType → Bool) (h : Option OnCb) :
    (onRegistryRemove keyCmp path typeMask h ctx).2 +
        ((onRegistryRemove keyCmp path typeMask h ctx).1.registrations keyCmp path).length =
      (ctx.registrations keyCmp path).length := by
  obtain ⟨reg, heq, -⟩ := onRegistryRemove_spec hreg path typeMask h
  have hcbs := cbs_onRegistryRemove hreg path typeMask h path
  rw [if_pos rfl] at hcbs
  have hsplit : ∀ type, (ctx.cbs keyCmp path type).countP (selects typeMask h type) +
      ((ctx.cbs keyCmp path type).filter fun pCb => !selects typeMask h type pCb).length =
        (ctx.cbs keyCmp path type).length := by
    intro type
    rw [← List.countP_eq_length_filter, List.length_eq_countP_add_countP (selects typeMask h type)]
    simp
  rw [OnState.registrations, hcbs, heq, OnState.registrations]
  simp only [onEventTypes, List.map_cons, List.map_nil, List.sum_cons, List.sum_nil,
    List.flatMap_cons, List.flatMap_nil, List.length_append, List.length_nil]
  have h₁ := hsplit .childAdded
  have h₂ := hsplit .childRemoved
  have h₃ := hsplit .childChanged
  have h₄ := hsplit .value
  omega

theorem registrations_sublist_onRegistryRemove
    (hreg : ctx.onReg.Ordered (wcDatasyncPathCmp keyCmp)) (path : Path)
    (typeMask : OnEventType → Bool) (h : Option OnCb) (q : Path) :
    ((onRegistryRemove keyCmp path typeMask h ctx).1.registrations keyCmp q).Sublist
      (ctx.registrations keyCmp q) := by
  rw [OnState.registrations, cbs_onRegistryRemove hreg, OnState.registrations]
  split
  next hq =>
    subst hq
    simp only [onEventTypes, List.flatMap_cons, List.flatMap_nil]
    exact List.filter_sublist.append (List.filter_sublist.append (List.filter_sublist.append
      (List.filter_sublist.append (List.Sublist.refl []))))
  next => exact List.Sublist.refl _

theorem wellFormed_onRegistryRemove (hwf : ctx.WellFormed keyCmp) (path : Path)
    (typeMask : OnEventType → Bool) (h : Option OnCb) :
    (onRegistryRemove keyCmp path typeMask h ctx).1.WellFormed keyCmp := by
  have hsublist := registrations_sublist_onRegistryRemove hwf.ordered path typeMask h
  obtain ⟨reg, heq, hordered, hkeys, -⟩ := onRegistryRemove_spec hwf.ordered path typeMask h
  rw [heq] at hsublist ⊢
  refine ⟨hordered, fun e he => ?_, fun q pCb hpCb => ?_, fun q => ?_⟩
  · obtain ⟨e', he', hkey⟩ := List.mem_map.mp (hkeys e he)
    exact hkey ▸ hwf.parsed e' he'
  · exact hwf.own q pCb ((hsublist q).subset hpCb)
  · exact (hwf.nodup q).sublist (hsublist q)

/-- Unlinking one callback. -/
theorem registrations_remove_handle (hwf : ctx.WellFormed keyCmp) (pCb : OnCb) (q : Path) :
    (onRegistryRemove keyCmp pCb.sub (fun _ => true) (some pCb) ctx).1.registrations keyCmp q =
      (ctx.registrations keyCmp q).erase pCb := by
  rw [(hwf.nodup q).erase_eq_filter, OnState.registrations, cbs_onRegistryRemove hwf.ordered]
  split
  next hq =>
    subst hq
    rw [OnState.registrations, List.filter_flatMap]
    refine List.flatMap_congr fun type _ => List.filter_congr fun c _ => ?_
    simp [selects, bne, eq_comm]
  next hq =>
    rw [← OnState.registrations]
    refine (List.filter_eq_self.mpr fun c hc => ?_).symm
    rw [bne_iff_ne]
    rintro rfl
    exact hq (hwf.own q c hc).1.symm

omit [TransCmp keyCmp] [LawfulEqCmp keyCmp] in
/-- What `wc_datasync_off*` does besides unlinking. -/
theorem wcDatasyncOffW_eq {path : Bytes} {eventMask : OnEventType → Bool} {cb : Option OnCb}
    {reg : AvlTree Path OnSub} {removed : ℕ}
    (heq : onRegistryRemove keyCmp (wcDatasyncPathParse path) eventMask cb ctx =
      (ctx.withOnReg reg, removed)) :
    ∃ listen fault, wcDatasyncOffW keyCmp path eventMask cb ctx =
      { ctx.withOnReg reg with listen, fault } := by
  rw [wcDatasyncOffW, heq]
  exact unwatch_eq keyCmp (wcDatasyncPathParse path) removed (ctx.withOnReg reg)

/-- A registry from which one callback has been unlinked. -/
theorem remove_handle_spec (hwf : ctx.WellFormed keyCmp) (pCb : OnCb) :
    ∃ reg, (onRegistryRemove keyCmp pCb.sub (fun _ => true) (some pCb) ctx).1 =
        ctx.withOnReg reg ∧
      (ctx.withOnReg reg).WellFormed keyCmp ∧
      ∀ q, (ctx.withOnReg reg).registrations keyCmp q = (ctx.registrations keyCmp q).erase pCb := by
  obtain ⟨reg, heq, -⟩ := onRegistryRemove_spec hwf.ordered pCb.sub (fun _ => true) (some pCb)
  refine ⟨reg, congrArg Prod.fst heq, ?_, fun q => ?_⟩
  · have hwf' := wellFormed_onRegistryRemove hwf pCb.sub (fun _ => true) (some pCb)
    rwa [heq] at hwf'
  · have herase := registrations_remove_handle hwf pCb q
    rwa [heq] at herase

end Remove

end WebcomSdk.On
