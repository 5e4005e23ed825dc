import WebcomSdk.On.OnValue

/-!
Callbacks that register others while they are invoked. Whatever they register,
an invocation only puts callbacks in front of the lists of the registry, calls
no callback but the ones it registers, and leaves each hash as it is or brings
it up to date with the cache.
-/

namespace WebcomSdk.On

open WebcomSdk.Lib WebcomSdk.Collection WebcomSdk.Datasync WebcomSdk.Cache Std

/-! ### The structure of an invocation -/

/-- The calls are made in turn. Each of them, together with what the callback
does then, is a step of `R`. -/
inductive Invoked (R : OnCtx → OnCtx → Prop) : List Call → OnCtx → OnCtx → Prop
  | nil (ctx : OnCtx) : Invoked R [] ctx ctx
  | cons {c : Call} {calls : List Call} {ctx ctx' ctx'' : OnCtx}
      (hcall : R (ctx.emit (.call c)) ctx') (rest : Invoked R calls ctx' ctx'') :
      Invoked R (c :: calls) ctx ctx''

section

variable (wcSHA1 : SHA1) (keyCmp : Key → Key → Ordering)

/-- What a function `wc_datasync_on_*` does after the initial calls. `before` is
the state when it was called. -/
def finishOn (type : OnEventType) (path : Bytes) (before : OnState) (ctx : OnCtx) : OnCtx :=
  { ctx.modifySub keyCmp (wcDatasyncPathParse path)
      (initSub wcSHA1 keyCmp type (wcDatasyncPathParse path) before) with
    listen := wcDatasyncWatch keyCmp path ctx.alloc ctx.listen
    alloc := ctx.alloc + 1 }

/-- The `on_sub` at a path, or the one that a registration would create. -/
def OnState.subAt (ctx : OnState) (q : Path) : OnSub := (ctx.sub keyCmp q).getD OnSub.new

/-- Callbacks with addresses from `base` on were put in front, and each hash is
kept or is that of the cached value. -/
structure SubGrown (base : Addr) (cached : Option Treenode) (sub sub' : OnSub) : Prop where
  cbs : ∀ type, ∃ new, sub'.cbList type = new ++ sub.cbList type ∧ ∀ pCb ∈ new, base ≤ pCb.addr
  hash : sub'.hash = sub.hash ∨ sub'.hash = storedHash wcSHA1 cached
  table : sub'.childrenHashes.toList = sub.childrenHashes.toList ∨
    sub'.childrenHashes.toList = childHashes wcSHA1 cached

/-- What registrations and triggers do to the context, whatever the callbacks
are. -/
structure Grown (ctx ctx' : OnCtx) : Prop where
  cache : ctx'.cache = ctx.cache
  alloc : ctx.alloc ≤ ctx'.alloc
  log : ctx.log <+: ctx'.log
  sub : ∀ q, SubGrown wcSHA1 ctx.alloc (ctx.cached keyCmp q) (ctx.subAt keyCmp q)
    (ctx'.subAt keyCmp q)

/-- The registry and the cache are in order, and no address that is yet to come
was called. -/
structure OnCtx.Ready (ctx : OnCtx) : Prop where
  wellFormed : ctx.WellFormed keyCmp
  cacheOk : ctx.cache.Forall (NodeOk wcSHA1 keyCmp)
  logged : ∀ c, Event.call c ∈ ctx.log → c.pCb.addr < ctx.alloc

end

def Event.isCallTo (pCb : OnCb) : Event → Bool
  | .call c => c.pCb = pCb
  | .register .. => false

/-- The `n`-th event is among the initial calls of a registration that another
callback makes: fewer calls than these precede it since the registration. -/
def IsInitial (keyCmp : Key → Key → Ordering) (log : List Event) (n : ℕ) (pCb : OnCb) : Prop :=
  ∃ r dispatch type path before, r < n ∧
    log[r]? = some (.register dispatch type path before) ∧ pCb = ⟨before.alloc, path⟩ ∧
    ((log.take n).drop (r + 1)).countP (Event.isCallTo pCb) <
      (initCalls keyCmp type path before).length

variable {wcSHA1 : SHA1} {keyCmp : Key → Key → Ordering} {R : OnCtx → OnCtx → Prop}

theorem invoked_foldl {call : Call → OnCtx → OnCtx}
    (hcall : ∀ c ctx, R (ctx.emit (.call c)) (call c ctx)) (calls : List Call) (ctx : OnCtx) :
    Invoked R calls ctx (calls.foldl (fun ctx c => call c ctx) ctx) := by
  induction calls generalizing ctx with
  | nil => exact .nil ctx
  | cons c calls ih => exact .cons (hcall c ctx) (ih _)

theorem wcDatasyncOn_invoked {call : Call → OnCtx → OnCtx}
    (hcall : ∀ c ctx, R (ctx.emit (.call c)) (call c ctx)) (type : OnEventType) (path : Bytes)
    (ctx : OnCtx) : ∃ ctx', Invoked R (initCalls keyCmp type (wcDatasyncPathParse path)
        ctx.toOnState) (linkCb keyCmp type (wcDatasyncPathParse path) ctx) ctx' ∧
      wcDatasyncOn wcSHA1 keyCmp type call path ctx =
        finishOn wcSHA1 keyCmp type path ctx.toOnState ctx' := by
  refine ⟨_, invoked_foldl hcall _ _, ?_⟩
  rw [wcDatasyncOn, onRegistryAdd_eq]
  rfl

/-- **The induction rule for invocations.** A relation that every registration
keeps, given that it holds of what its initial calls do, holds of what a whole
invocation does. `K` says what the callbacks are like, `T` for which types they
register others. -/
theorem CbRun.run_induction_of {dispatch : Option Dispatch} {K : CbRun → Prop}
    {T : OnEventType → Prop} (inits : ∀ type path init rest, K (.register type path init rest) →
      T type ∧ (∀ n, K (init n)) ∧ K rest) (refl : ∀ ctx, R ctx ctx)
    (trans : ∀ ctx ctx' ctx'', R ctx ctx' → R ctx' ctx'' → R ctx ctx'')
    (register : ∀ type path ctx ctx', T type →
      Invoked R (initCalls keyCmp type (wcDatasyncPathParse path) ctx.toOnState)
        (linkCb keyCmp type (wcDatasyncPathParse path)
          (ctx.emit (.register dispatch type (wcDatasyncPathParse path) ctx.toOnState))) ctx' →
      R ctx (finishOn wcSHA1 keyCmp type path ctx.toOnState ctx'))
    {r : CbRun} (hr : K r) (ctx : OnCtx) : R ctx (r.run wcSHA1 keyCmp dispatch ctx).1 := by
  induction r generalizing ctx with
  | ret keep => exact refl ctx
  | register type path init rest ihInit ihRest =>
      obtain ⟨htype, hinit, hrest⟩ := inits type path init rest hr
      rw [CbRun.run]
      set call : Call → OnCtx → OnCtx := fun c ctx =>
        ((init ctx.log.length).run wcSHA1 keyCmp dispatch (ctx.emit (.call c))).1
      have hcall : ∀ c ctx, R (ctx.emit (.call c)) (call c ctx) := fun c ctx =>
        ihInit _ (hinit _) _
      obtain ⟨ctx', hinvoked, heq⟩ := wcDatasyncOn_invoked hcall type path
        (ctx.emit (.register dispatch type (wcDatasyncPathParse path) ctx.toOnState))
      rw [heq]
      exact trans _ _ _ (register type path ctx ctx' htype hinvoked) (ihRest hrest _)

/-- The induction rule for callbacks of any kind. -/
theorem CbRun.run_induction {dispatch : Option Dispatch} (refl : ∀ ctx, R ctx ctx)
    (trans : ∀ ctx ctx' ctx'', R ctx ctx' → R ctx' ctx'' → R ctx ctx'')
    (register : ∀ type path ctx ctx', Invoked R (initCalls keyCmp type (wcDatasyncPathParse path)
        ctx.toOnState) (linkCb keyCmp type (wcDatasyncPathParse path)
          (ctx.emit (.register dispatch type (wcDatasyncPathParse path) ctx.toOnState))) ctx' →
      R ctx (finishOn wcSHA1 keyCmp type path ctx.toOnState ctx'))
    (r : CbRun) (ctx : OnCtx) : R ctx (r.run wcSHA1 keyCmp dispatch ctx).1 :=
  run_induction_of (K := fun _ => True) (T := fun _ => True)
    (fun _ _ _ _ _ => ⟨trivial, fun _ => trivial, trivial⟩) refl trans
    (fun type path ctx ctx' _ h => register type path ctx ctx' h) trivial ctx

/-! ### Growing -/

section Grown

variable {base base' : Addr} {cached : Option Treenode} {sub sub' sub'' : OnSub}
  {ctx ctx' ctx'' : OnCtx}

theorem SubGrown.refl (base : Addr) (cached : Option Treenode) (sub : OnSub) :
    SubGrown wcSHA1 base cached sub sub :=
  ⟨fun _ => ⟨[], rfl, by simp⟩, .inl rfl, .inl rfl⟩

theorem SubGrown.trans (h : SubGrown wcSHA1 base cached sub sub')
    (h' : SubGrown wcSHA1 base' cached sub' sub'') (hbase : base ≤ base') :
    SubGrown wcSHA1 base cached sub sub'' where
  cbs := by
    intro type
    obtain ⟨new, hnew, hlt⟩ := h.cbs type
    obtain ⟨new', hnew', hlt'⟩ := h'.cbs type
    refine ⟨new' ++ new, by rw [hnew', hnew, List.append_assoc], fun pCb hpCb => ?_⟩
    rcases List.mem_append.mp hpCb with hpCb | hpCb
    · exact hbase.trans (hlt' pCb hpCb)
    · exact hlt pCb hpCb
  hash := by
    rcases h'.hash with heq | heq
    · rw [heq]
      exact h.hash
    · exact .inr heq
  table := by
    rcases h'.table with heq | heq
    · rw [heq]
      exact h.table
    · exact .inr heq

variable (wcSHA1) in
/-- There is nothing to tell the callbacks of a type. -/
def Settled (cached : Option Treenode) (sub : OnSub) : OnEventType → Prop
  | .value => sub.hash = storedHash wcSHA1 cached
  | _ => sub.childrenHashes.toList = childHashes wcSHA1 cached

theorem settled_iff {type : OnEventType} (h : type ≠ .value) : Settled wcSHA1 cached sub type ↔
    sub.childrenHashes.toList = childHashes wcSHA1 cached := by
  cases type with
  | value => exact absurd rfl h
  | _ => exact Iff.rfl

theorem Settled.grown {type : OnEventType} (h : Settled wcSHA1 cached sub type)
    (hgrown : SubGrown wcSHA1 base cached sub sub') : Settled wcSHA1 cached sub' type := by
  by_cases htype : type = .value
  · subst htype
    exact hgrown.hash.elim (fun heq => heq.trans h) id
  · rw [settled_iff htype] at h ⊢
    exact hgrown.table.elim (fun heq => heq.trans h) id

theorem valueStale_of_settled (h : Settled wcSHA1 cached sub .value) :
    sub.valueStale wcSHA1 cached = false := by
  have heq : treenodeHashEq (valueHash wcSHA1 cached) (some sub.hash) = true :=
    treenodeHashEq_iff.mpr h.symm
  rw [OnSub.valueStale, heq, Bool.or_true, Bool.not_true]

theorem cbs_eq_subAt (ctx : OnState) (q : Path) :
    ctx.cbs keyCmp q = (ctx.subAt keyCmp q).cbList := by
  rw [OnState.cbs, OnState.subAt]
  cases ctx.sub keyCmp q <;> rfl

theorem Grown.refl (ctx : OnCtx) : Grown wcSHA1 keyCmp ctx ctx :=
  ⟨rfl, Nat.le_refl _, List.prefix_rfl, fun _ => .refl _ _ _⟩

theorem Grown.cached_eq (h : Grown wcSHA1 keyCmp ctx ctx') (q : Path) :
    ctx'.cached keyCmp q = ctx.cached keyCmp q := by
  rw [OnState.cached, h.cache, OnState.cached]

theorem Grown.trans (h : Grown wcSHA1 keyCmp ctx ctx') (h' : Grown wcSHA1 keyCmp ctx' ctx'') :
    Grown wcSHA1 keyCmp ctx ctx'' where
  cache := h'.cache.trans h.cache
  alloc := h.alloc.trans h'.alloc
  log := h.log.trans h'.log
  sub := fun q => (h.sub q).trans (h.cached_eq q ▸ h'.sub q) h.alloc

theorem Grown.mem_cbs (h : Grown wcSHA1 keyCmp ctx ctx') {q : Path} {type : OnEventType}
    {pCb : OnCb} (hpCb : pCb ∈ ctx.cbs keyCmp q type) : pCb ∈ ctx'.cbs keyCmp q type := by
  obtain ⟨new, hnew, -⟩ := (h.sub q).cbs type
  rw [cbs_eq_subAt] at hpCb ⊢
  rw [hnew]
  exact List.mem_append_right new hpCb

theorem Grown.mem_cbs_or (h : Grown wcSHA1 keyCmp ctx ctx') {q : Path} {type : OnEventType}
    {pCb : OnCb} (hpCb : pCb ∈ ctx'.cbs keyCmp q type) :
    ctx.alloc ≤ pCb.addr ∨ pCb ∈ ctx.cbs keyCmp q type := by
  obtain ⟨new, hnew, hbase⟩ := (h.sub q).cbs type
  rw [cbs_eq_subAt, hnew] at hpCb
  rw [cbs_eq_subAt]
  exact (List.mem_append.mp hpCb).imp_left (hbase pCb)

theorem grown_emit (event : Event) (ctx : OnCtx) : Grown wcSHA1 keyCmp ctx (ctx.emit event) :=
  ⟨rfl, Nat.le_refl _, List.prefix_append _ _, fun _ => .refl _ _ _⟩

theorem OnCtx.Ready.emit (h : ctx.Ready wcSHA1 keyCmp) {event : Event}
    (hevent : ∀ c, event = .call c → c.pCb.addr < ctx.alloc) :
    (ctx.emit event).Ready wcSHA1 keyCmp where
  wellFormed := h.wellFormed.congr rfl (Nat.le_refl _)
  cacheOk := h.cacheOk
  logged := by
    intro c hc
    rcases List.mem_append.mp hc with hc | hc
    · exact h.logged c hc
    · exact hevent c (List.mem_singleton.mp hc).symm

section Primitives

variable [TransCmp keyCmp] [LawfulEqCmp keyCmp]

theorem subAt_linkCb (hreg : ctx.onReg.Ordered (wcDatasyncPathCmp keyCmp)) (type : OnEventType)
    (path q : Path) : (linkCb keyCmp type path ctx).subAt keyCmp q =
      if q = path then (ctx.subAt keyCmp q).addCb type ⟨ctx.alloc, path⟩
      else ctx.subAt keyCmp q := by
  rw [OnState.subAt, sub_linkCb hreg, OnState.subAt]
  split
  next hq =>
    subst hq
    rfl
  next => rfl

theorem grown_linkCb (hreg : ctx.onReg.Ordered (wcDatasyncPathCmp keyCmp)) (type : OnEventType)
    (path : Path) : Grown wcSHA1 keyCmp ctx (linkCb keyCmp type path ctx) where
  cache := rfl
  alloc := Nat.le_succ _
  log := List.prefix_rfl
  sub := by
    intro q
    rw [subAt_linkCb hreg]
    split
    next hq =>
      refine ⟨fun t => ?_, .inl rfl, .inl rfl⟩
      rw [OnSub.addCb]
      by_cases ht : t = type
      · subst ht
        exact ⟨[⟨ctx.alloc, path⟩], by simp, by simp⟩
      · exact ⟨[], by simp [ht], by simp⟩
    next => exact .refl _ _ _

theorem subAt_modifySub (hreg : ctx.onReg.Ordered (wcDatasyncPathCmp keyCmp)) (path q : Path)
    (f : OnSub → OnSub) : (ctx.modifySub keyCmp path f).subAt keyCmp q =
      if q = path ∧ (ctx.sub keyCmp q).isSome then f (ctx.subAt keyCmp q)
      else ctx.subAt keyCmp q := by
  rw [OnState.subAt, sub_modifySub hreg, OnState.subAt]
  by_cases hq : q = path
  · cases ctx.sub keyCmp q <;> simp [hq]
  · simp [hq]

theorem grown_modifySub (hreg : ctx.onReg.Ordered (wcDatasyncPathCmp keyCmp)) {path : Path}
    {f : OnSub → OnSub}
    (hf : ∀ sub, SubGrown wcSHA1 ctx.alloc (ctx.cached keyCmp path) sub (f sub)) :
    Grown wcSHA1 keyCmp ctx (ctx.modifySub keyCmp path f) where
  cache := rfl
  alloc := Nat.le_refl _
  log := List.prefix_rfl
  sub := by
    intro q
    rw [subAt_modifySub hreg]
    split
    next hq => exact hq.1 ▸ hf _
    next => exact .refl _ _ _

omit [TransCmp keyCmp] [LawfulEqCmp keyCmp] in
theorem OnCtx.Ready.modifySub (h : ctx.Ready wcSHA1 keyCmp) (path : Path) {f : OnSub → OnSub}
    (hf : ∀ sub, (f sub).cbList = sub.cbList) :
    (ctx.modifySub keyCmp path f).Ready wcSHA1 keyCmp where
  wellFormed := h.wellFormed.congr (map_cbList_modifySub ctx path hf) (Nat.le_refl _)
  cacheOk := h.cacheOk
  logged := h.logged

theorem OnCtx.Ready.linkCb (h : ctx.Ready wcSHA1 keyCmp) (type : OnEventType) (path : Bytes) :
    (linkCb keyCmp type (wcDatasyncPathParse path) ctx).Ready wcSHA1 keyCmp where
  wellFormed := wellFormed_linkCb h.wellFormed type path
  cacheOk := h.cacheOk
  logged := fun c hc => (h.logged c hc).trans (Nat.lt_succ_self _)

end Primitives

theorem subGrown_initSub [TransCmp keyCmp] [LawfulEqCmp keyCmp] {before : OnState} {path : Path}
    (hok : before.cache.Forall (NodeOk wcSHA1 keyCmp)) (base : Addr) (type : OnEventType)
    (sub : OnSub) : SubGrown wcSHA1 base (before.cached keyCmp path) sub
      (initSub wcSHA1 keyCmp type path before sub) := by
  refine ⟨fun t => ⟨[], by simp, by simp⟩, ?_, ?_⟩
  · cases type with
    | value =>
        unfold initSub
        split
        · exact .inr rfl
        · exact .inl rfl
    | childAdded => exact .inl (hash_initSub_of_ne (by simp) path before sub)
    | childRemoved => exact .inl (hash_initSub_of_ne (by simp) path before sub)
    | childChanged => exact .inl (hash_initSub_of_ne (by simp) path before sub)
  · unfold initSub
    split
    case isFalse => exact .inl rfl
    cases type with
    | childAdded =>
        rcases internal_or_not (before.cached keyCmp path) with ⟨children, hash, heq⟩ | hnone
        · have hordered : children.Ordered keyCmp := (forall_get hok heq).childrenOk.ordered
          rw [heq]
          exact .inr (toList_refreshOnChildSubHashes hash hordered sub)
        · refine .inl ?_
          cases hcached : before.cached keyCmp path with
          | none => rfl
          | some node =>
              cases node with
              | internal children hash => exact absurd hcached (hnone _ _)
              | _ => rfl
    | value => exact .inl rfl
    | childRemoved => exact .inl rfl
    | childChanged => exact .inl rfl

theorem finishOn_grown [TransCmp keyCmp] [LawfulEqCmp keyCmp] (h : ctx.Ready wcSHA1 keyCmp)
    {before : OnState} (hcache : before.cache = ctx.cache) (type : OnEventType) (path : Bytes) :
    Grown wcSHA1 keyCmp ctx (finishOn wcSHA1 keyCmp type path before ctx) ∧
      (finishOn wcSHA1 keyCmp type path before ctx).Ready wcSHA1 keyCmp := by
  have hinit : ∀ sub, SubGrown wcSHA1 ctx.alloc (ctx.cached keyCmp (wcDatasyncPathParse path)) sub
      (initSub wcSHA1 keyCmp type (wcDatasyncPathParse path) before sub) := by
    intro sub
    rw [OnState.cached, ← hcache]
    exact subGrown_initSub (hcache ▸ h.cacheOk) _ type sub
  have hgrown := grown_modifySub h.wellFormed.ordered hinit
  have hcbs : ∀ sub, (initSub wcSHA1 keyCmp type (wcDatasyncPathParse path) before sub).cbList =
      sub.cbList := cbList_initSub type _ before
  have hready := h.modifySub (wcDatasyncPathParse path) hcbs
  refine ⟨⟨rfl, Nat.le_succ _, List.prefix_rfl, hgrown.sub⟩, ?_, h.cacheOk, fun c hc => ?_⟩
  · exact hready.wellFormed.congr rfl (Nat.le_succ _)
  · exact (h.logged c hc).trans (Nat.lt_succ_self _)

end Grown

/-! ### The calls of an invocation -/

section Nested

variable {ctx ctx' ctx'' : OnCtx}

theorem IsInitial.mono {log log' : List Event} {n : ℕ} {pCb : OnCb}
    (h : IsInitial keyCmp log n pCb) (hn : n ≤ log.length) (hlog : log <+: log') :
    IsInitial keyCmp log' n pCb := by
  obtain ⟨r, dispatch, type, path, before, hr, hevent, hpCb, hcount⟩ := h
  obtain ⟨events, rfl⟩ := hlog
  refine ⟨r, dispatch, type, path, before, hr, ?_, hpCb, ?_⟩
  · rw [List.getElem?_append_left (hr.trans_le hn)]
    exact hevent
  · rw [List.take_append_of_le_length hn]
    exact hcount

variable (wcSHA1 keyCmp) in
/-- What an invocation of a callback does: the callbacks that it leads to are
new ones, in their initial calls. -/
structure Nested (ctx ctx' : OnCtx) : Prop extends Grown wcSHA1 keyCmp ctx ctx' where
  ready : ctx'.Ready wcSHA1 keyCmp
  queue : ctx'.deletedCbList = ctx.deletedCbList
  fault : ctx'.fault = ctx.fault
  calls : ∀ n c, ctx.log.length ≤ n → ctx'.log[n]? = some (.call c) →
    ctx.alloc ≤ c.pCb.addr ∧ IsInitial keyCmp ctx'.log n c.pCb

variable (wcSHA1 keyCmp) in
/-- What `k` calls of one callback do. -/
structure CalledBy (pCb : OnCb) (k : ℕ) (ctx ctx' : OnCtx) : Prop
    extends Grown wcSHA1 keyCmp ctx ctx' where
  ready : ctx'.Ready wcSHA1 keyCmp
  queue : ctx'.deletedCbList = ctx.deletedCbList
  fault : ctx'.fault = ctx.fault
  calls : ∀ n c, ctx.log.length ≤ n → ctx'.log[n]? = some (.call c) →
    c.pCb = pCb ∧ ((ctx'.log.take n).drop ctx.log.length).countP (Event.isCallTo pCb) < k ∨
      ctx.alloc ≤ c.pCb.addr ∧ IsInitial keyCmp ctx'.log n c.pCb

theorem Nested.refl (h : ctx.Ready wcSHA1 keyCmp) : Nested wcSHA1 keyCmp ctx ctx where
  toGrown := .refl ctx
  ready := h
  queue := rfl
  fault := rfl
  calls := by
    intro n c hn hc
    exact absurd (List.getElem?_eq_some_iff.mp hc).1 (Nat.not_lt_of_le hn)

/-- An event of a longer log, in the part that was there before or after it. -/
theorem getElem?_of_prefix {log log' : List Event} (h : log <+: log') {n : ℕ} {e : Event}
    (he : log'[n]? = some e) : log[n]? = some e ∨ log.length ≤ n := by
  obtain ⟨events, rfl⟩ := h
  by_cases hn : n < log.length
  · rw [List.getElem?_append_left hn] at he
    exact .inl he
  · exact .inr (Nat.le_of_not_lt hn)

theorem Nested.trans (h : Nested wcSHA1 keyCmp ctx ctx') (h' : Nested wcSHA1 keyCmp ctx' ctx'') :
    Nested wcSHA1 keyCmp ctx ctx'' where
  toGrown := h.toGrown.trans h'.toGrown
  ready := h'.ready
  queue := h'.queue.trans h.queue
  fault := h'.fault.trans h.fault
  calls := by
    intro n c hn hc
    rcases getElem?_of_prefix h'.log hc with hc' | hn'
    · obtain ⟨hbase, hinit⟩ := h.calls n c hn hc'
      exact ⟨hbase, hinit.mono (List.getElem?_eq_some_iff.mp hc').1.le h'.log⟩
    · obtain ⟨hbase, hinit⟩ := h'.calls n c hn' hc
      exact ⟨h.alloc.trans hbase, hinit⟩

/-- Old callbacks are not called again by what an invocation leads to. -/
theorem Nested.countP_drop {c : Call} {pCb : OnCb} (hlt : pCb.addr < ctx.alloc)
    (h : Nested wcSHA1 keyCmp (ctx.emit (.call c)) ctx') :
    (ctx'.log.drop ctx.log.length).countP (Event.isCallTo pCb) = if c.pCb = pCb then 1 else 0 := by
  obtain ⟨events, hlog⟩ := h.log
  have hnone : events.countP (Event.isCallTo pCb) = 0 := by
    refine List.countP_eq_zero.mpr fun e he => ?_
    cases e with
    | register _ _ _ _ => simp [Event.isCallTo]
    | call d =>
        obtain ⟨i, hi⟩ := List.mem_iff_getElem?.mp he
        have hd : ctx'.log[(ctx.emit (.call c)).log.length + i]? = some (.call d) := by
          rw [← hlog, List.getElem?_append_right (Nat.le_add_right _ _), Nat.add_sub_cancel_left]
          exact hi
        have hbase : ctx.alloc ≤ d.pCb.addr := (h.calls _ d (Nat.le_add_right _ _) hd).1
        simp only [Event.isCallTo, decide_eq_true_eq]
        rintro rfl
        exact Nat.not_lt_of_le hbase hlt
  have hdrop : ctx'.log.drop ctx.log.length = .call c :: events := by
    rw [← hlog, OnCtx.emit, List.append_assoc, List.drop_left]
    rfl
  rw [hdrop, List.countP_cons, hnone, Nat.zero_add, Event.isCallTo]
  simp only [decide_eq_true_eq]

theorem calledBy_of_invoked {calls : List Call} {pCb : OnCb}
    (hinvoked : Invoked (fun ctx ctx' => ctx.Ready wcSHA1 keyCmp → Nested wcSHA1 keyCmp ctx ctx')
      calls ctx ctx') (h : ctx.Ready wcSHA1 keyCmp) (hcalls : ∀ c ∈ calls, c.pCb = pCb)
    (hlt : pCb.addr < ctx.alloc) : CalledBy wcSHA1 keyCmp pCb calls.length ctx ctx' := by
  induction hinvoked with
  | nil ctx =>
      have hnil : Nested wcSHA1 keyCmp ctx ctx := .refl h
      exact ⟨hnil.toGrown, h, rfl, rfl, fun n c hn hc => .inr (hnil.calls n c hn hc)⟩
  | @cons c calls ctx ctx' ctx'' hcall rest ih =>
      rw [List.forall_mem_cons] at hcalls
      have hone : Nested wcSHA1 keyCmp (ctx.emit (.call c)) ctx' := by
        refine hcall (h.emit fun d hd => ?_)
        cases hd
        exact hcalls.1 ▸ hlt
      have hrest := ih hone.ready hcalls.2 (hlt.trans_le hone.alloc)
      refine ⟨((grown_emit _ ctx).trans hone.toGrown).trans hrest.toGrown, hrest.ready,
        hrest.queue.trans hone.queue, hrest.fault.trans hone.fault, fun n d hn hd => ?_⟩
      rcases getElem?_of_prefix hrest.log hd with hd' | hn'
      · rcases getElem?_of_prefix hone.log hd' with hd'' | hn''
        · -- the call itself
          have hlen := (List.getElem?_eq_some_iff.mp hd'').1
          rw [OnCtx.emit, List.length_append, List.length_singleton] at hlen
          obtain rfl : n = ctx.log.length := by omega
          rw [OnCtx.emit, List.getElem?_concat_length] at hd''
          cases hd''
          refine .inl ⟨hcalls.1, ?_⟩
          rw [List.drop_take, Nat.sub_self, List.take_zero]
          exact Nat.succ_pos _
        · obtain ⟨hbase, hinit⟩ := hone.calls n d hn'' hd'
          exact .inr ⟨hbase, hinit.mono (List.getElem?_eq_some_iff.mp hd').1.le hrest.log⟩
      · rcases hrest.calls n d hn' hd with ⟨hpCb, hcount⟩ | ⟨hbase, hinit⟩
        · refine .inl ⟨hpCb, ?_⟩
          obtain ⟨events, hlog⟩ := hrest.log
          have hlen : ctx.log.length ≤ ctx'.log.length :=
            ((List.prefix_append _ _).trans hone.log).length_le
          rw [← hlog, List.take_append, List.take_of_length_le hn'] at hcount ⊢
          rw [List.drop_left] at hcount
          rw [List.drop_append_of_le_length hlen, List.countP_append, List.length_cons]
          have hone' := hone.countP_drop hlt
          rw [if_pos hcalls.1] at hone'
          omega
        · have hbase' : ctx.alloc ≤ ctx'.alloc := hone.alloc
          exact .inr ⟨hbase'.trans hbase, hinit⟩

variable [TransCmp keyCmp] [LawfulEqCmp keyCmp]

/-- A registration from inside a callback. -/
theorem register_nested {dispatch : Option Dispatch} {type : OnEventType} {path : Bytes}
    (hinvoked : Invoked (fun ctx ctx' => ctx.Ready wcSHA1 keyCmp → Nested wcSHA1 keyCmp ctx ctx')
      (initCalls keyCmp type (wcDatasyncPathParse path) ctx.toOnState)
      (linkCb keyCmp type (wcDatasyncPathParse path)
        (ctx.emit (.register dispatch type (wcDatasyncPathParse path) ctx.toOnState))) ctx')
    (h : ctx.Ready wcSHA1 keyCmp) :
    Nested wcSHA1 keyCmp ctx (finishOn wcSHA1 keyCmp type path ctx.toOnState ctx') := by
  set event : Event := .register dispatch type (wcDatasyncPathParse path) ctx.toOnState with hevent
  have hemit : (ctx.emit event).Ready wcSHA1 keyCmp := h.emit (by simp [hevent])
  have hlink := hemit.linkCb type path
  have hcalled := calledBy_of_invoked hinvoked hlink (fun c hc => (mem_initCalls type hc).2)
    (Nat.lt_succ_self ctx.alloc)
  have hgrown : Grown wcSHA1 keyCmp ctx ctx' := ((grown_emit event ctx).trans
    (grown_linkCb hemit.wellFormed.ordered type _)).trans hcalled.toGrown
  obtain ⟨hfinish, hready⟩ := finishOn_grown hcalled.ready hgrown.cache.symm type path
  refine ⟨hgrown.trans hfinish, hready, hcalled.queue, hcalled.fault, fun n c hn hc => ?_⟩
  have hlen : (linkCb keyCmp type (wcDatasyncPathParse path) (ctx.emit event)).log.length =
      ctx.log.length + 1 := List.length_append
  have hregister : ctx'.log[ctx.log.length]? = some event := by
    obtain ⟨events, hlog⟩ := hcalled.log
    rw [← hlog, List.getElem?_append_left (by omega)]
    exact List.getElem?_concat_length
  have hc' : ctx'.log[n]? = some (.call c) := hc
  have hn' : ctx.log.length < n := by
    refine Nat.lt_of_le_of_ne hn ?_
    rintro rfl
    rw [hregister, hevent] at hc'
    cases hc'
  rcases hcalled.calls n c (hlen ▸ hn') hc' with ⟨hpCb, hcount⟩ | ⟨hbase, hinit⟩
  · rw [hlen] at hcount
    exact ⟨hpCb ▸ Nat.le_refl _, ctx.log.length, dispatch, type, _, ctx.toOnState, hn', hregister,
      hpCb, hpCb ▸ hcount⟩
  · have hbase' : ctx.alloc + 1 ≤ c.pCb.addr := hbase
    exact ⟨(Nat.le_succ _).trans hbase', hinit⟩

/-- **What an invocation of a callback does**, whatever it registers. -/
theorem run_nested (h : ctx.Ready wcSHA1 keyCmp) (dispatch : Option Dispatch) (r : CbRun) :
    Nested wcSHA1 keyCmp ctx (r.run wcSHA1 keyCmp dispatch ctx).1 := by
  refine CbRun.run_induction (R := fun ctx ctx' =>
    ctx.Ready wcSHA1 keyCmp → Nested wcSHA1 keyCmp ctx ctx') (fun ctx h => .refl h)
      (fun a b c hab hbc ha => (hab ha).trans (hbc (hab ha).ready)) ?_ r ctx h
  intro type path ctx ctx' hinvoked h
  exact register_nested hinvoked h

/-- A registration made outside callbacks: those that it calls are new. -/
theorem wcDatasyncOn_grown (h : ctx.Ready wcSHA1 keyCmp) (type : OnEventType) (path : Bytes)
    {call : Call → OnCtx → OnCtx} (hcall : ∀ c (ctx : OnCtx), (ctx.emit (.call c)).Ready wcSHA1
      keyCmp → Nested wcSHA1 keyCmp (ctx.emit (.call c)) (call c ctx)) :
    Grown wcSHA1 keyCmp ctx (wcDatasyncOn wcSHA1 keyCmp type call path ctx) ∧
      (wcDatasyncOn wcSHA1 keyCmp type call path ctx).Ready wcSHA1 keyCmp ∧
      (wcDatasyncOn wcSHA1 keyCmp type call path ctx).deletedCbList = ctx.deletedCbList ∧
      ∀ n c, ctx.log.length ≤ n →
        (wcDatasyncOn wcSHA1 keyCmp type call path ctx).log[n]? = some (.call c) →
          ctx.alloc ≤ c.pCb.addr := by
  obtain ⟨ctx₁, hinvoked, heq⟩ := wcDatasyncOn_invoked
    (R := fun ctx ctx' => ctx.Ready wcSHA1 keyCmp → Nested wcSHA1 keyCmp ctx ctx') hcall type path
    ctx
  have hcalled := calledBy_of_invoked hinvoked (h.linkCb type path)
    (fun c hc => (mem_initCalls type hc).2) (Nat.lt_succ_self ctx.alloc)
  have hgrown : Grown wcSHA1 keyCmp ctx ctx₁ :=
    (grown_linkCb h.wellFormed.ordered type _).trans hcalled.toGrown
  obtain ⟨hfinish, hready⟩ := finishOn_grown hcalled.ready hgrown.cache.symm type path
  rw [heq]
  refine ⟨hgrown.trans hfinish, hready, hcalled.queue, fun n c hn hc => ?_⟩
  rcases hcalled.calls n c hn hc with ⟨hpCb, -⟩ | ⟨hbase, -⟩
  · rw [hpCb]
  · exact (Nat.le_succ _).trans hbase

end Nested

/-! ### Triggers -/

section Triggers

variable (wcSHA1 keyCmp) in
/-- A trigger calls the callbacks in turn. The state is marked as faulty or not in
between. -/
inductive CalledInTurn (answers : ℕ → CbRun) : List Call → OnCtx → OnCtx → Prop
  | nil (ctx : OnCtx) : CalledInTurn answers [] ctx ctx
  | cons {c : Call} {calls : List Call} {ctx ctx' : OnCtx} (dispatch : Dispatch) (fault : Bool)
      (rest : CalledInTurn answers calls
        { callCb wcSHA1 keyCmp answers dispatch ctx c with fault } ctx') :
      CalledInTurn answers (c :: calls) ctx ctx'

variable {answers : ℕ → CbRun} {ctx ctx' ctx'' : OnCtx}

variable (wcSHA1 keyCmp answers) in
theorem calledInTurn_foldl (dispatch : Dispatch) (calls : List Call) (ctx : OnCtx) :
    CalledInTurn wcSHA1 keyCmp answers calls ctx
      (calls.foldl (callCb wcSHA1 keyCmp answers dispatch) ctx) := by
  induction calls generalizing ctx with
  | nil => exact .nil ctx
  | cons c calls ih =>
      exact .cons dispatch (callCb wcSHA1 keyCmp answers dispatch ctx c).fault (ih _)

theorem calledInTurn_triggerLoop (walking : Bool) (path : Path) (t : ChildTrigger)
    (cbs : List OnCb) (ctx : OnCtx) : CalledInTurn wcSHA1 keyCmp answers (cbs.map t.call) ctx
      (triggerLoop wcSHA1 keyCmp answers walking path t cbs ctx) := by
  induction cbs generalizing ctx with
  | nil => exact .nil ctx
  | cons pCb cbs ih => exact .cons _ _ (ih _)

theorem OnCtx.Ready.congr (h : ctx.Ready wcSHA1 keyCmp) (hreg : ctx'.onReg = ctx.onReg)
    (hcache : ctx'.cache = ctx.cache) (halloc : ctx'.alloc = ctx.alloc)
    (hlog : ctx'.log = ctx.log) : ctx'.Ready wcSHA1 keyCmp where
  wellFormed := h.wellFormed.congr (by rw [hreg]) halloc.ge
  cacheOk := hcache ▸ h.cacheOk
  logged := by
    rw [hlog, halloc]
    exact h.logged

theorem Grown.congr (h : Grown wcSHA1 keyCmp ctx ctx') (hreg : ctx''.onReg = ctx'.onReg)
    (hcache : ctx''.cache = ctx'.cache) (halloc : ctx''.alloc = ctx'.alloc)
    (hlog : ctx''.log = ctx'.log) : Grown wcSHA1 keyCmp ctx ctx'' where
  cache := hcache.trans h.cache
  alloc := halloc ▸ h.alloc
  log := hlog ▸ h.log
  sub := by
    intro q
    have hsub : ctx''.subAt keyCmp q = ctx'.subAt keyCmp q := by
      rw [OnState.subAt, OnState.sub, hreg]
      rfl
    rw [hsub]
    exact h.sub q

theorem OnCtx.Ready.lt_alloc (h : ctx.Ready wcSHA1 keyCmp) {q : Path} {type : OnEventType}
    {pCb : OnCb} (hpCb : pCb ∈ ctx.cbs keyCmp q type) : pCb.addr < ctx.alloc :=
  (h.wellFormed.own q pCb (mem_registrations.mpr ⟨type, hpCb⟩)).2

theorem OnCtx.Ready.nodup_cbs (h : ctx.Ready wcSHA1 keyCmp) (q : Path) (type : OnEventType) :
    (ctx.cbs keyCmp q type).Nodup :=
  (List.nodup_flatMap.mp (h.wellFormed.nodup q)).1 type (mem_onEventTypes type)

theorem isSome_of_mem_cbs {ctx : OnState} {q : Path} {type : OnEventType} {pCb : OnCb}
    (h : pCb ∈ ctx.cbs keyCmp q type) : (ctx.sub keyCmp q).isSome := by
  rw [OnState.cbs] at h
  cases hsub : ctx.sub keyCmp q with
  | none => simp [hsub] at h
  | some sub => rfl

theorem subAt_of_sub {ctx : OnState} {q : Path} {sub : OnSub}
    (h : ctx.sub keyCmp q = some sub) : ctx.subAt keyCmp q = sub := by
  rw [OnState.subAt, h]
  rfl

variable [TransCmp keyCmp] [LawfulEqCmp keyCmp]

theorem OnCtx.Ready.cachedOk (h : ctx.Ready wcSHA1 keyCmp) (q : Path) :
    ∀ n ∈ ctx.cached keyCmp q, n.Forall (NodeOk wcSHA1 keyCmp) := fun _ hn =>
  forall_get h.cacheOk hn

variable (answers) in
/-- A callback is invoked by a trigger. -/
theorem callCb_nested (h : ctx.Ready wcSHA1 keyCmp) {c : Call} (hlt : c.pCb.addr < ctx.alloc)
    (dispatch : Dispatch) : ∃ ctx', Nested wcSHA1 keyCmp (ctx.emit (.call c)) ctx' ∧
      callCb wcSHA1 keyCmp answers dispatch ctx c =
        if ((answers ctx.log.length).run wcSHA1 keyCmp (some dispatch) (ctx.emit (.call c))).2
        then ctx' else markCbForDeletion c.pCb ctx' := by
  have hemit : (ctx.emit (.call c)).Ready wcSHA1 keyCmp := h.emit fun d hd => by
    cases hd
    exact hlt
  exact ⟨_, run_nested hemit (some dispatch) (answers ctx.log.length), rfl⟩

variable (answers) in
theorem callCb_grown (h : ctx.Ready wcSHA1 keyCmp) {c : Call} (hlt : c.pCb.addr < ctx.alloc)
    (dispatch : Dispatch) : Grown wcSHA1 keyCmp ctx (callCb wcSHA1 keyCmp answers dispatch ctx c) ∧
      (callCb wcSHA1 keyCmp answers dispatch ctx c).Ready wcSHA1 keyCmp := by
  obtain ⟨ctx', hnested, heq⟩ := callCb_nested answers h hlt dispatch
  have hgrown := (grown_emit (.call c) ctx).trans hnested.toGrown
  rw [heq]
  split
  · exact ⟨hgrown, hnested.ready⟩
  · exact ⟨hgrown.congr rfl rfl rfl rfl, hnested.ready.congr rfl rfl rfl rfl⟩

theorem CalledInTurn.grown {calls : List Call}
    (hcalled : CalledInTurn wcSHA1 keyCmp answers calls ctx ctx') (h : ctx.Ready wcSHA1 keyCmp)
    (hlt : ∀ c ∈ calls, c.pCb.addr < ctx.alloc) :
    Grown wcSHA1 keyCmp ctx ctx' ∧ ctx'.Ready wcSHA1 keyCmp := by
  induction hcalled with
  | nil ctx => exact ⟨.refl ctx, h⟩
  | @cons c calls ctx ctx' dispatch fault rest ih =>
      rw [List.forall_mem_cons] at hlt
      obtain ⟨hgrown, hready⟩ := callCb_grown answers h hlt.1 dispatch
      have hone : Grown wcSHA1 keyCmp ctx
          { callCb wcSHA1 keyCmp answers dispatch ctx c with fault } :=
        hgrown.congr rfl rfl rfl rfl
      obtain ⟨hgrown', hready'⟩ := ih (hready.congr rfl rfl rfl rfl)
        fun c hc => (hlt.2 c hc).trans_le hgrown.alloc
      exact ⟨hone.trans hgrown', hready'⟩

omit [TransCmp keyCmp] [LawfulEqCmp keyCmp] in
theorem triggerOnChildCbList_eq (walking : Bool) (path : Path) (ctx : OnCtx) (t : ChildTrigger) :
    triggerOnChildCbList wcSHA1 keyCmp answers walking path ctx t =
      triggerLoop wcSHA1 keyCmp answers walking path t (ctx.cbs keyCmp path t.type) ctx := by
  rw [triggerOnChildCbList, OnState.cbs]
  cases ctx.sub keyCmp path <;> rfl

variable (keyCmp) in
omit [TransCmp keyCmp] [LawfulEqCmp keyCmp] in
/-- The calls of one `trigger_on_child_cb_list`. -/
theorem calledInTurn_trigger (walking : Bool) (path : Path) (ctx : OnCtx) (t : ChildTrigger) :
    CalledInTurn wcSHA1 keyCmp answers ((ctx.cbs keyCmp path t.type).map t.call) ctx
      (triggerOnChildCbList wcSHA1 keyCmp answers walking path ctx t) := by
  rw [triggerOnChildCbList_eq]
  exact calledInTurn_triggerLoop walking path t _ ctx

variable (answers) in
theorem trigger_grown (h : ctx.Ready wcSHA1 keyCmp) (walking : Bool) (path : Path)
    (t : ChildTrigger) :
    Grown wcSHA1 keyCmp ctx (triggerOnChildCbList wcSHA1 keyCmp answers walking path ctx t) ∧
      (triggerOnChildCbList wcSHA1 keyCmp answers walking path ctx t).Ready wcSHA1 keyCmp := by
  refine (calledInTurn_trigger keyCmp walking path ctx t).grown h fun c hc => ?_
  obtain ⟨pCb, hpCb, rfl⟩ := List.mem_map.mp hc
  exact h.lt_alloc hpCb

variable (answers) in
theorem triggers_grown (h : ctx.Ready wcSHA1 keyCmp) (walking : Bool) (path : Path)
    (ts : List ChildTrigger) :
    Grown wcSHA1 keyCmp ctx
        (ts.foldl (triggerOnChildCbList wcSHA1 keyCmp answers walking path) ctx) ∧
      (ts.foldl (triggerOnChildCbList wcSHA1 keyCmp answers walking path) ctx).Ready wcSHA1
        keyCmp := by
  induction ts generalizing ctx with
  | nil => exact ⟨.refl ctx, h⟩
  | cons t ts ih =>
      obtain ⟨hgrown, hready⟩ := trigger_grown answers h walking path t
      obtain ⟨hgrown', hready'⟩ := ih hready
      exact ⟨hgrown.trans hgrown', hready'⟩

variable (answers) in
omit [LawfulEqCmp keyCmp] in
/-- `on_child_trig`: the calls for each event, then the table is brought up to
date. -/
theorem onChildTrig_spec {path : Path}
    (hcache : ∀ n ∈ ctx.cached keyCmp path, n.Forall (NodeOk wcSHA1 keyCmp)) (walking : Bool)
    {sub : OnSub} (hsub : ctx.sub keyCmp path = some sub) :
    (sub.childTriggers wcSHA1 keyCmp (ctx.cached keyCmp path) = [] ∧
        onChildTrig wcSHA1 keyCmp answers walking path ctx = ctx) ∨
      ∃ f : OnSub → OnSub, onChildTrig wcSHA1 keyCmp answers walking path ctx =
          ((sub.childTriggers wcSHA1 keyCmp (ctx.cached keyCmp path)).foldl
            (triggerOnChildCbList wcSHA1 keyCmp answers walking path) ctx).modifySub keyCmp path f ∧
        ∀ sub, (f sub).cbList = sub.cbList ∧ (f sub).hash = sub.hash ∧
          (f sub).childrenHashes.toList = childHashes wcSHA1 (ctx.cached keyCmp path) := by
  rw [onChildTrig, hsub]
  simp only
  rcases internal_or_not (ctx.cached keyCmp path) with ⟨children, hash, hcached⟩ | hcached
  · simp only [hcached, childTriggers_internal]
    split
    next hempty =>
      have hnil := List.isEmpty_iff.mp hempty
      exact .inl ⟨hnil, by rw [hnil, List.foldl_nil]⟩
    next =>
      have hordered : children.Ordered keyCmp := (hcache _ hcached).childrenOk.ordered
      exact .inr ⟨_, rfl, fun sub => ⟨rfl, rfl, toList_refreshOnChildSubHashes hash hordered sub⟩⟩
  · refine .inr ⟨OnSub.clearHashes, ?_, fun sub => ⟨rfl, rfl, ?_⟩⟩
    · rw [childTriggers_of_not_internal hcached]
      split
      next heq => exact absurd heq (hcached _ _)
      next => rfl
    · rw [childHashes_of_not_internal hcached]
      rfl

/-- The call of an `ON_VALUE` callback by `on_val_trig`. -/
def valueCall (cached : Option Treenode) (pCb : OnCb) : Call := ⟨pCb, .value, cached, none, none⟩

omit [TransCmp keyCmp] [LawfulEqCmp keyCmp] in
theorem onValTrig_spec (walking : Bool) {path : Path} {sub : OnSub}
    (hsub : ctx.sub keyCmp path = some sub) :
    onValTrig wcSHA1 keyCmp answers walking path ctx =
      if sub.valueStale wcSHA1 (ctx.cached keyCmp path) then
        (((sub.cbList .value).map (valueCall (ctx.cached keyCmp path))).foldl
          (callCb wcSHA1 keyCmp answers ⟨walking, .value path⟩) ctx).modifySub keyCmp path
            fun sub => { sub with hash := storedHash wcSHA1 (ctx.cached keyCmp path) }
      else ctx := by
  rw [onValTrig, hsub, List.foldl_map, OnSub.valueStale]
  simp only
  cases hquiet : (sub.cbList .value).isEmpty ||
      treenodeHashEq (valueHash wcSHA1 (ctx.cached keyCmp path)) (some sub.hash) with
  | true => rfl
  | false => rfl

variable (answers) in
theorem onChildTrig_grown (h : ctx.Ready wcSHA1 keyCmp) (walking : Bool) (path : Path) :
    Grown wcSHA1 keyCmp ctx (onChildTrig wcSHA1 keyCmp answers walking path ctx) ∧
      (onChildTrig wcSHA1 keyCmp answers walking path ctx).Ready wcSHA1 keyCmp := by
  cases hsub : ctx.sub keyCmp path with
  | none =>
      rw [onChildTrig, hsub]
      exact ⟨.refl ctx, h⟩
  | some sub =>
      rcases onChildTrig_spec answers (h.cachedOk path) walking hsub with ⟨-, heq⟩ | ⟨f, heq, hf⟩
      · rw [heq]
        exact ⟨.refl ctx, h⟩
      · obtain ⟨hgrown, hready⟩ := triggers_grown answers h walking path
          (sub.childTriggers wcSHA1 keyCmp (ctx.cached keyCmp path))
        rw [heq]
        refine ⟨hgrown.trans (grown_modifySub hready.wellFormed.ordered fun sub => ?_),
          hready.modifySub path fun sub => (hf sub).1⟩
        rw [hgrown.cached_eq]
        exact ⟨fun type => ⟨[], by rw [(hf sub).1]; rfl, by simp⟩, .inl (hf sub).2.1,
          .inr (hf sub).2.2⟩

variable (answers) in
theorem onValTrig_grown (h : ctx.Ready wcSHA1 keyCmp) (walking : Bool) (path : Path) :
    Grown wcSHA1 keyCmp ctx (onValTrig wcSHA1 keyCmp answers walking path ctx) ∧
      (onValTrig wcSHA1 keyCmp answers walking path ctx).Ready wcSHA1 keyCmp := by
  cases hsub : ctx.sub keyCmp path with
  | none =>
      rw [onValTrig, hsub]
      exact ⟨.refl ctx, h⟩
  | some sub =>
      rw [onValTrig_spec walking hsub]
      split
      · obtain ⟨hgrown, hready⟩ := (calledInTurn_foldl wcSHA1 keyCmp answers ⟨walking, .value path⟩
          ((sub.cbList .value).map (valueCall (ctx.cached keyCmp path))) ctx).grown h fun c hc => by
            obtain ⟨pCb, hpCb, rfl⟩ := List.mem_map.mp hc
            exact h.lt_alloc (cbs_of_sub hsub ▸ hpCb)
        refine ⟨hgrown.trans (grown_modifySub hready.wellFormed.ordered fun sub => ?_),
          hready.modifySub path fun sub => rfl⟩
        rw [hgrown.cached_eq]
        exact ⟨fun type => ⟨[], rfl, by simp⟩, .inr rfl, .inl rfl⟩
      · exact ⟨.refl ctx, h⟩

variable (answers) in
theorem trig_grown (h : ctx.Ready wcSHA1 keyCmp) (walking : Bool) (path : Path) :
    Grown wcSHA1 keyCmp ctx (trig wcSHA1 keyCmp answers walking path ctx) ∧
      (trig wcSHA1 keyCmp answers walking path ctx).Ready wcSHA1 keyCmp := by
  rw [trig]
  split
  next => exact ⟨.refl ctx, h⟩
  next =>
    simp only
    split
    · obtain ⟨hgrown, hready⟩ := onChildTrig_grown answers h walking path
      obtain ⟨hgrown', hready'⟩ := onValTrig_grown answers hready walking path
      exact ⟨hgrown.trans hgrown', hready'⟩
    · exact onValTrig_grown answers h walking path

omit [TransCmp keyCmp] [LawfulEqCmp keyCmp] in
/-- **The induction rule for dispatches.** What every trigger keeps holds when
the cancellations begin. -/
theorem dispatch_induction {P : OnCtx → Prop}
    (htrig : ∀ walking path ctx, P ctx → P (trig wcSHA1 keyCmp answers walking path ctx))
    {path : Path} {fuel : ℕ} (h : P ctx)
    (hdispatch : onRegistryDispatchOnEvent wcSHA1 keyCmp answers path fuel ctx = some ctx') :
    ∃ ctx₁, P ctx₁ ∧ ctx' = deletedCbGc keyCmp ctx₁ := by
  have habove : ∀ (ns : List ℕ) (ctx : OnCtx), P ctx → P (ns.foldl
      (fun ctx nparts => trig wcSHA1 keyCmp answers false (path.take nparts) ctx) ctx) := by
    intro ns
    induction ns with
    | nil => exact fun ctx h => h
    | cons n ns ih => exact fun ctx h => ih _ (htrig _ _ _ h)
  have hbelow : ∀ fuel it ctx ctx₁, P ctx →
      dispatchBelow wcSHA1 keyCmp answers path fuel it ctx = some ctx₁ → P ctx₁ := by
    intro fuel
    induction fuel with
    | zero => simp [dispatchBelow]
    | succ fuel ih =>
        intro it ctx ctx₁ h hctx₁
        rw [dispatchBelow] at hctx₁
        split at hctx₁
        next => exact Option.some.inj hctx₁ ▸ h
        next =>
          split at hctx₁
          · exact ih _ _ _ (htrig _ _ _ h) hctx₁
          · exact Option.some.inj hctx₁ ▸ h
  rw [onRegistryDispatchOnEvent] at hdispatch
  obtain ⟨ctx₁, hctx₁, rfl⟩ := Option.map_eq_some_iff.mp hdispatch
  exact ⟨ctx₁, hbelow _ _ _ _ (habove _ ctx h) hctx₁, rfl⟩

end Triggers

end WebcomSdk.On
