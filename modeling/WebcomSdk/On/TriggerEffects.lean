import WebcomSdk.On.Additions
import WebcomSdk.On.OnChild

/-!
What one trigger does whose callbacks add others: whom it calls, which `on_sub`
it brings up to date, and what becomes of those who wait to be told.
-/

namespace WebcomSdk.On

open WebcomSdk.Lib WebcomSdk.Collection WebcomSdk.Datasync WebcomSdk.Cache Std

section

variable (wcSHA1 : SHA1) (keyCmp : Key → Key → Ordering)

/-- Calls that a trigger has made in turn. -/
structure Worked (calls : List Call) (events : List Event) (ctx ctx' : OnCtx) : Prop
    extends Additions wcSHA1 keyCmp events ctx ctx' where
  calls : ∀ pCb : OnCb, pCb.addr < ctx.alloc →
    events.countP (Event.isCallTo pCb) = calls.countP fun c => c.pCb = pCb

/-- The `ON_VALUE` callbacks that are there are not called before their path is
settled, and not any more afterwards. -/
structure Follows (events : List Event) (ctx ctx' : OnCtx) : Prop where
  waiting : ∀ q, ∀ pCb ∈ ctx.cbs keyCmp q .value, ¬ ctx'.SettledAt wcSHA1 keyCmp q .value →
    events.countP (Event.isCallTo pCb) = 0
  settled : ∀ q, ∀ pCb ∈ ctx.cbs keyCmp q .value, ctx.SettledAt wcSHA1 keyCmp q .value →
    events.countP (Event.isCallTo pCb) = 0

/-- What triggers in turn do. -/
structure Triggered (events : List Event) (ctx ctx' : OnCtx) : Prop
    extends Additions wcSHA1 keyCmp events ctx ctx', Follows wcSHA1 keyCmp events ctx ctx'

/-- What one trigger does, of the subscription at `path`. -/
structure TriggeredAt (path : Path) (events : List Event) (ctx ctx' : OnCtx) : Prop
    extends Triggered wcSHA1 keyCmp events ctx ctx' where
  progress : ctx'.alloc = ctx.alloc ∨
    ∃ type, ¬ ctx.Calm wcSHA1 keyCmp path type ∧ ctx'.Calm wcSHA1 keyCmp path type

variable (answers : ℕ → CbRun)

/-- What `trig` does for the child callbacks. -/
def childPart (walking : Bool) (path : Path) (sub : OnSub) (ctx : OnCtx) : OnCtx :=
  if sub.hasChildCb then onChildTrig wcSHA1 keyCmp answers walking path ctx else ctx

end

variable {wcSHA1 : SHA1} {keyCmp : Key → Key → Ordering} {answers : ℕ → CbRun}
  {ctx ctx' ctx'' : OnCtx} {path : Path} {calls calls' : List Call} {events events' : List Event}

theorem trig_of_sub (walking : Bool) {sub : OnSub} (hsub : ctx.sub keyCmp path = some sub) :
    trig wcSHA1 keyCmp answers walking path ctx = onValTrig wcSHA1 keyCmp answers walking path
      (childPart wcSHA1 keyCmp answers walking path sub ctx) := by
  rw [trig, hsub]
  rfl

/-- A child callback is no `ON_VALUE` callback. -/
theorem ne_value_of_mem (h : ctx.Ready wcSHA1 keyCmp) {type : OnEventType} (htype : type ≠ .value)
    {pCb pCb' : OnCb} {q r : Path} (hpCb : pCb ∈ ctx.cbs keyCmp q type)
    (hpCb' : pCb' ∈ ctx.cbs keyCmp r .value) : pCb ≠ pCb' := by
  rintro rfl
  have hown := (h.wellFormed.own q _ (mem_registrations.mpr ⟨_, hpCb⟩)).1
  obtain rfl := hown.symm.trans (h.wellFormed.own r _ (mem_registrations.mpr ⟨_, hpCb'⟩)).1
  exact htype (type_unique (h.wellFormed.nodup q) hpCb hpCb')

/-- The write of `on_child_trig`. -/
theorem subGrown_of_table {base : Addr} {cached : Option Treenode} {sub sub' : OnSub}
    (hcbs : sub'.cbList = sub.cbList) (hhash : sub'.hash = sub.hash)
    (htable : sub'.childrenHashes.toList = childHashes wcSHA1 cached) :
    SubGrown wcSHA1 base cached sub sub' :=
  ⟨fun type => ⟨[], by rw [hcbs]; rfl, by simp⟩, .inl hhash, .inr htable⟩

/-! ### Calls in turn -/

theorem Worked.nil (h : ctx.Ready wcSHA1 keyCmp) : Worked wcSHA1 keyCmp [] [] ctx ctx where
  toAdditions := .refl h
  calls := fun _ _ => rfl

theorem Worked.trans (h : Worked wcSHA1 keyCmp calls events ctx ctx')
    (h' : Worked wcSHA1 keyCmp calls' events' ctx' ctx'') :
    Worked wcSHA1 keyCmp (calls ++ calls') (events ++ events') ctx ctx'' where
  toAdditions := h.toAdditions.trans h'.toAdditions
  calls := by
    intro pCb hlt
    rw [List.countP_append, List.countP_append, h.calls pCb hlt,
      h'.calls pCb (hlt.trans_le h.alloc)]

/-- A callback that is not among those called. -/
theorem Worked.silent (h : Worked wcSHA1 keyCmp calls events ctx ctx') {pCb : OnCb}
    (hlt : pCb.addr < ctx.alloc) (hcalls : ∀ c ∈ calls, c.pCb ≠ pCb) :
    events.countP (Event.isCallTo pCb) = 0 := by
  rw [h.calls pCb hlt]
  exact List.countP_eq_zero.mpr fun c hc => by simpa using hcalls c hc

/-- Child callbacks are called. -/
theorem Worked.follows_child (h : Worked wcSHA1 keyCmp calls events ctx ctx')
    (hready : ctx.Ready wcSHA1 keyCmp)
    (hcalls : ∀ q, ∀ pCb ∈ ctx.cbs keyCmp q .value, ∀ c ∈ calls, c.pCb ≠ pCb) :
    Triggered wcSHA1 keyCmp events ctx ctx' where
  toAdditions := h.toAdditions
  waiting := fun q pCb hpCb _ => h.silent (hready.lt_alloc hpCb) (hcalls q pCb hpCb)
  settled := fun q pCb hpCb _ => h.silent (hready.lt_alloc hpCb) (hcalls q pCb hpCb)

/-- The `ON_VALUE` callbacks of another path are not called. -/
theorem Worked.silent_value {cached : Option Treenode}
    (h : Worked wcSHA1 keyCmp ((ctx.cbs keyCmp path .value).map (valueCall cached)) events ctx ctx')
    (hready : ctx.Ready wcSHA1 keyCmp) {q : Path} {pCb : OnCb}
    (hpCb : pCb ∈ ctx.cbs keyCmp q .value) (hne : path ≠ q) :
    events.countP (Event.isCallTo pCb) = 0 := by
  refine h.silent (hready.lt_alloc hpCb) fun c hc => ?_
  obtain ⟨pCb', hpCb', rfl⟩ := List.mem_map.mp hc
  rintro rfl
  have hown := (hready.wellFormed.own path _ (mem_registrations.mpr ⟨_, hpCb'⟩)).1
  exact hne (hown.symm.trans (hready.wellFormed.own q _ (mem_registrations.mpr ⟨_, hpCb⟩)).1)

/-- `on_val_trig` tells each callback of its path once. -/
theorem Worked.count_value {cached : Option Treenode}
    (h : Worked wcSHA1 keyCmp ((ctx.cbs keyCmp path .value).map (valueCall cached)) events ctx ctx')
    (hready : ctx.Ready wcSHA1 keyCmp) {pCb : OnCb} (hpCb : pCb ∈ ctx.cbs keyCmp path .value) :
    events.countP (Event.isCallTo pCb) = 1 := by
  rw [h.calls pCb (hready.lt_alloc hpCb), List.countP_map]
  exact List.count_eq_one_of_mem (hready.nodup_cbs path .value) hpCb

theorem Worked.follows_value {cached : Option Treenode}
    (h : Worked wcSHA1 keyCmp ((ctx.cbs keyCmp path .value).map (valueCall cached)) events ctx ctx')
    (hready : ctx.Ready wcSHA1 keyCmp) (hnot : ¬ ctx.SettledAt wcSHA1 keyCmp path .value)
    (hsettled : ctx'.SettledAt wcSHA1 keyCmp path .value) :
    Triggered wcSHA1 keyCmp events ctx ctx' where
  toAdditions := h.toAdditions
  waiting := by
    intro q pCb hpCb hwaits
    refine h.silent_value hready hpCb ?_
    rintro rfl
    exact hwaits hsettled
  settled := by
    intro q pCb hpCb hset
    refine h.silent_value hready hpCb ?_
    rintro rfl
    exact hnot hset

theorem Triggered.refl (h : ctx.Ready wcSHA1 keyCmp) : Triggered wcSHA1 keyCmp [] ctx ctx :=
  (Worked.nil h).follows_child h (by simp)

theorem Triggered.trans (h : Triggered wcSHA1 keyCmp events ctx ctx')
    (h' : Triggered wcSHA1 keyCmp events' ctx' ctx'') :
    Triggered wcSHA1 keyCmp (events ++ events') ctx ctx'' where
  toAdditions := h.toAdditions.trans h'.toAdditions
  waiting := by
    intro q pCb hpCb hwaits
    rw [List.countP_append, h'.waiting q pCb (h.mem_cbs hpCb) hwaits,
      h.waiting q pCb hpCb fun hsettled => hwaits (h'.settledAt hsettled)]
  settled := by
    intro q pCb hpCb hsettled
    rw [List.countP_append, h.settled q pCb hpCb hsettled,
      h'.settled q pCb (h.mem_cbs hpCb) (h.settledAt hsettled)]

section Calls

variable [TransCmp keyCmp] [LawfulEqCmp keyCmp] (hadds : ∀ n, (answers n).OnlyAdds)
include hadds

omit [TransCmp keyCmp] [LawfulEqCmp keyCmp] in
theorem callCb_of_adds (d : Dispatch) (ctx : OnCtx) (c : Call) :
    callCb wcSHA1 keyCmp answers d ctx c =
      ((answers ctx.log.length).run wcSHA1 keyCmp (some d) (ctx.emit (.call c))).1 := by
  rw [callCb]
  simp only [(hadds ctx.log.length).returns, if_true]

/-- One call of a trigger. -/
theorem callCb_effects (h : ctx.Ready wcSHA1 keyCmp) {c : Call} (hlt : c.pCb.addr < ctx.alloc)
    (d : Dispatch) : ∃ events,
      Effects wcSHA1 keyCmp events ctx (callCb wcSHA1 keyCmp answers d ctx c) ∧
      Worked wcSHA1 keyCmp [c] events ctx (callCb wcSHA1 keyCmp answers d ctx c) := by
  have hcall : Effects wcSHA1 keyCmp [.call c] ctx (ctx.emit (.call c)) := effects_call h hlt
  obtain ⟨events, heffects⟩ := run_effects (some d) (hadds ctx.log.length) hcall.ready
  have hnested := run_nested hcall.ready (some d) (answers ctx.log.length)
  rw [callCb_of_adds hadds]
  have hall := hcall.trans heffects
  refine ⟨_, hall, hall.toAdditions, fun pCb hpCb => ?_⟩
  have hcount := hnested.countP_drop hpCb
  rw [hall.logged, List.drop_left] at hcount
  rw [hcount, List.countP_singleton]
  simp only [decide_eq_true_eq]

omit hadds [TransCmp keyCmp] [LawfulEqCmp keyCmp] in
/-- The state is marked as faulty. -/
theorem Worked.mark (h : Worked wcSHA1 keyCmp calls events ctx ctx') (freed : Bool) :
    Worked wcSHA1 keyCmp calls events ctx { ctx' with fault := ctx'.fault || freed } where
  toGrown := h.toGrown.congr rfl rfl rfl rfl
  ready := h.ready.congr rfl rfl rfl rfl
  logged := h.logged
  queue := h.queue
  fault := fun hfault => by
    show (ctx'.fault || freed) = true
    rw [h.fault hfault, Bool.true_or]
  same := h.same
  kept := h.kept
  calls := h.calls

theorem triggerLoop_worked (h : ctx.Ready wcSHA1 keyCmp) (walking : Bool) (path : Path)
    (t : ChildTrigger) {cbs : List OnCb} (hlt : ∀ pCb ∈ cbs, pCb.addr < ctx.alloc) :
    ∃ events, Worked wcSHA1 keyCmp (cbs.map t.call) events ctx
      (triggerLoop wcSHA1 keyCmp answers walking path t cbs ctx) := by
  induction cbs generalizing ctx with
  | nil => exact ⟨[], .nil h⟩
  | cons pCb rest ih =>
      rw [List.forall_mem_cons] at hlt
      have hcall : (t.call pCb).pCb.addr < ctx.alloc := hlt.1
      obtain ⟨events, -, hone⟩ := callCb_effects hadds h hcall
        ⟨walking, .child path (t.held || (t.keyHeld && !rest.isEmpty))⟩
      set ctx₁ := callCb wcSHA1 keyCmp answers
        ⟨walking, .child path (t.held || (t.keyHeld && !rest.isEmpty))⟩ ctx (t.call pCb) with hctx₁
      have hmark := hone.mark ((t.held || (t.keyHeld && !rest.isEmpty)) &&
        ctx₁.rebuilt keyCmp path != ctx.rebuilt keyCmp path)
      obtain ⟨events', hrest⟩ :=
        ih hmark.ready fun pCb hpCb => (hlt.2 pCb hpCb).trans_le hmark.alloc
      exact ⟨_, hmark.trans hrest⟩

theorem calls_value_worked (h : ctx.Ready wcSHA1 keyCmp) (walking : Bool) (path : Path)
    {calls : List Call} (hlt : ∀ c ∈ calls, c.pCb.addr < ctx.alloc) :
    ∃ events, Worked wcSHA1 keyCmp calls events ctx
        (calls.foldl (callCb wcSHA1 keyCmp answers ⟨walking, .value path⟩) ctx) ∧
      (calls.foldl (callCb wcSHA1 keyCmp answers ⟨walking, .value path⟩) ctx).fault =
        ctx.fault := by
  induction calls generalizing ctx with
  | nil => exact ⟨[], .nil h, rfl⟩
  | cons c calls ih =>
      rw [List.forall_mem_cons] at hlt
      obtain ⟨events, heffects, hone⟩ := callCb_effects hadds h hlt.1 ⟨walking, .value path⟩
      obtain ⟨events', hrest, hfault⟩ :=
        ih hone.ready fun c hc => (hlt.2 c hc).trans_le hone.alloc
      exact ⟨_, hone.trans hrest, hfault.trans heffects.steady⟩

end Calls

/-! ### Triggers -/

section Triggers

variable [TransCmp keyCmp] [LawfulEqCmp keyCmp]

omit [TransCmp keyCmp] [LawfulEqCmp keyCmp] in
theorem Grown.isSome (h : Grown wcSHA1 keyCmp ctx ctx') {q : Path} {type : OnEventType}
    (hne : ctx.cbs keyCmp q type ≠ []) : (ctx'.sub keyCmp q).isSome := by
  obtain ⟨pCb, hpCb⟩ := List.exists_mem_of_ne_nil _ hne
  exact isSome_of_mem_cbs (h.mem_cbs hpCb)

theorem settledAt_modifySub (hreg : ctx.onReg.Ordered (wcDatasyncPathCmp keyCmp))
    (hsome : (ctx.sub keyCmp path).isSome) {f : OnSub → OnSub} {type : OnEventType}
    (hf : ∀ sub, Settled wcSHA1 (ctx.cached keyCmp path) (f sub) type) :
    (ctx.modifySub keyCmp path f).SettledAt wcSHA1 keyCmp path type := by
  rw [OnState.SettledAt, cached_modifySub, subAt_modifySub hreg, if_pos ⟨rfl, hsome⟩]
  exact hf _

/-- The write at the end of a trigger. -/
theorem Worked.write (h : Worked wcSHA1 keyCmp calls events ctx ctx') (path : Path)
    {f : OnSub → OnSub} (hcbs : ∀ sub, (f sub).cbList = sub.cbList)
    (hf : ∀ sub, SubGrown wcSHA1 ctx'.alloc (ctx'.cached keyCmp path) sub (f sub)) :
    Worked wcSHA1 keyCmp calls events ctx (ctx'.modifySub keyCmp path f) where
  toAdditions := by
    have hmap : (ctx'.modifySub keyCmp path f).onReg.map OnSub.cbList =
        ctx'.onReg.map OnSub.cbList := map_cbList_modifySub ctx' path hcbs
    have hwrite : Additions wcSHA1 keyCmp [] ctx' (ctx'.modifySub keyCmp path f) :=
      .of_same (grown_modifySub h.ready.wellFormed.ordered hf) (h.ready.modifySub path hcbs)
        (List.append_nil _).symm rfl id hmap
    have hall := h.toAdditions.trans hwrite
    rwa [List.append_nil] at hall
  calls := h.calls

variable (hadds : ∀ n, (answers n).OnlyAdds)
include hadds

/-- One event that `on_child_trig` finds. -/
theorem trigger_worked (h : ctx.Ready wcSHA1 keyCmp) (walking : Bool) (path : Path)
    (t : ChildTrigger) : ∃ events,
      Worked wcSHA1 keyCmp ((ctx.cbs keyCmp path t.type).map t.call) events ctx
        (triggerOnChildCbList wcSHA1 keyCmp answers walking path ctx t) := by
  rw [triggerOnChildCbList_eq]
  exact triggerLoop_worked hadds h walking path t fun _ => h.lt_alloc

/-- The events that `on_child_trig` finds: `ON_VALUE` callbacks are not called. -/
theorem triggers_worked (h : ctx.Ready wcSHA1 keyCmp) (walking : Bool) (path : Path)
    {ts : List ChildTrigger} (htype : ∀ t ∈ ts, t.type ≠ .value) : ∃ calls events,
      Worked wcSHA1 keyCmp calls events ctx
        (ts.foldl (triggerOnChildCbList wcSHA1 keyCmp answers walking path) ctx) ∧
      ∀ q, ∀ pCb ∈ ctx.cbs keyCmp q .value, ∀ c ∈ calls, c.pCb ≠ pCb := by
  induction ts generalizing ctx with
  | nil => exact ⟨[], [], .nil h, by simp⟩
  | cons t ts ih =>
      rw [List.forall_mem_cons] at htype
      rw [List.foldl_cons]
      obtain ⟨events, hone⟩ := trigger_worked hadds h walking path t
      obtain ⟨calls, events', hrest, hcalls⟩ := ih hone.ready htype.2
      refine ⟨_, _, hone.trans hrest, fun q pCb hpCb c hc => ?_⟩
      rcases List.mem_append.mp hc with hc | hc
      · obtain ⟨pCb', hpCb', rfl⟩ := List.mem_map.mp hc
        exact ne_value_of_mem h htype.1 hpCb' hpCb
      · exact hcalls q pCb (hone.mem_cbs hpCb) c hc

/-- The child callbacks of a path: nothing happens, or the table is brought up to
date. -/
theorem childPart_worked (h : ctx.Ready wcSHA1 keyCmp) (walking : Bool) {path : Path}
    {sub : OnSub} (hsub : ctx.sub keyCmp path = some sub) : ∃ calls events,
    Worked wcSHA1 keyCmp calls events ctx (childPart wcSHA1 keyCmp answers walking path sub ctx) ∧
    (∀ q, ∀ pCb ∈ ctx.cbs keyCmp q .value, ∀ c ∈ calls, c.pCb ≠ pCb) ∧
    ((sub.hasChildCb = false ∨ sub.childTriggers wcSHA1 keyCmp (ctx.cached keyCmp path) = []) ∧
        (childPart wcSHA1 keyCmp answers walking path sub ctx).alloc = ctx.alloc ∨
      sub.hasChildCb = true ∧ ¬ ctx.SettledAt wcSHA1 keyCmp path .childAdded ∧
        (childPart wcSHA1 keyCmp answers walking path sub ctx).SettledAt wcSHA1 keyCmp path
          .childAdded) := by
  rw [childPart]
  split
  case isFalse hchild =>
    exact ⟨[], [], .nil h, by simp, .inl ⟨.inl (Bool.eq_false_iff.mpr hchild), rfl⟩⟩
  next hchild =>
  rcases onChildTrig_spec answers (h.cachedOk path) walking hsub with ⟨hnil, heq⟩ | ⟨f, heq, hf⟩
  · rw [heq]
    exact ⟨[], [], .nil h, by simp, .inl ⟨.inr hnil, rfl⟩⟩
  rw [heq]
  set ts := sub.childTriggers wcSHA1 keyCmp (ctx.cached keyCmp path) with hts
  have htype : ∀ t ∈ ts, t.type ≠ .value := fun t ht => type_ne_value ht
  obtain ⟨calls, events, hworked, hcalls⟩ := triggers_worked hadds h walking path htype
  set mid := ts.foldl (triggerOnChildCbList wcSHA1 keyCmp answers walking path) ctx with hmid
  refine ⟨calls, events, hworked.write path (fun sub => (hf sub).1) fun sub => ?_, hcalls, ?_⟩
  · rw [hworked.cached_eq]
    exact subGrown_of_table (hf sub).1 (hf sub).2.1 (hf sub).2.2
  by_cases hempty : ts = []
  · refine .inl ⟨.inr hempty, ?_⟩
    rw [hmid, hempty]
    rfl
  · refine .inr ⟨hchild, fun hsettled => hempty ?_, ?_⟩
    · rw [OnState.SettledAt, subAt_of_sub hsub] at hsettled
      exact childTriggers_eq_nil hsettled
    · obtain ⟨type, -, hne⟩ := hasChildCb_iff.mp hchild
      have hsome := hworked.isSome (cbs_of_sub hsub ▸ hne : ctx.cbs keyCmp path type ≠ [])
      refine settledAt_modifySub hworked.ready.wellFormed.ordered hsome fun sub => ?_
      rw [hworked.cached_eq]
      exact (hf sub).2.2

/-- The `ON_VALUE` callbacks of a path: there is nothing to tell, or each is told
once. -/
theorem onValTrig_worked (h : ctx.Ready wcSHA1 keyCmp) (walking : Bool) (path : Path) :
    ((ctx.cbs keyCmp path .value = [] ∨ ctx.SettledAt wcSHA1 keyCmp path .value) ∧
        onValTrig wcSHA1 keyCmp answers walking path ctx = ctx) ∨
      ctx.cbs keyCmp path .value ≠ [] ∧ ¬ ctx.SettledAt wcSHA1 keyCmp path .value ∧
        (∃ events, Worked wcSHA1 keyCmp
          ((ctx.cbs keyCmp path .value).map (valueCall (ctx.cached keyCmp path))) events ctx
          (onValTrig wcSHA1 keyCmp answers walking path ctx)) ∧
        (onValTrig wcSHA1 keyCmp answers walking path ctx).SettledAt wcSHA1 keyCmp path .value ∧
        (onValTrig wcSHA1 keyCmp answers walking path ctx).fault = ctx.fault := by
  cases hsub : ctx.sub keyCmp path with
  | none =>
      rw [OnState.cbs, onValTrig, hsub]
      exact .inl ⟨.inl rfl, rfl⟩
  | some sub =>
  rw [onValTrig_spec walking hsub, cbs_of_sub hsub, OnState.SettledAt, subAt_of_sub hsub]
  split
  next hstale =>
    have hne : sub.cbList .value ≠ [] := by
      rintro hnil
      simp [OnSub.valueStale, hnil] at hstale
    refine .inr ⟨hne, fun hsettled => ?_, ?_⟩
    · rw [valueStale_of_settled hsettled] at hstale
      cases hstale
    have hlt : ∀ c ∈ (sub.cbList .value).map (valueCall (ctx.cached keyCmp path)),
        c.pCb.addr < ctx.alloc := by
      intro c hc
      obtain ⟨pCb, hpCb, rfl⟩ := List.mem_map.mp hc
      exact h.lt_alloc (cbs_of_sub hsub ▸ hpCb)
    obtain ⟨events, hworked, hfault⟩ := calls_value_worked hadds h walking path hlt
    have hsome := hworked.isSome (cbs_of_sub hsub ▸ hne : ctx.cbs keyCmp path .value ≠ [])
    refine ⟨⟨events, hworked.write path (fun sub => rfl) fun sub => ?_⟩, ?_, hfault⟩
    · rw [hworked.cached_eq]
      exact ⟨fun type => ⟨[], rfl, by simp⟩, .inr rfl, .inl rfl⟩
    · refine settledAt_modifySub hworked.ready.wellFormed.ordered hsome fun sub => ?_
      rw [hworked.cached_eq]
      rfl
  next hquiet =>
    refine .inl ⟨?_, rfl⟩
    by_contra hnot
    obtain ⟨hne, hsettled⟩ := not_or.mp hnot
    have heq : treenodeHashEq (valueHash wcSHA1 (ctx.cached keyCmp path)) (some sub.hash) =
        true := by
      simpa [OnSub.valueStale, hne] using hquiet
    exact hsettled (treenodeHashEq_iff.mp heq).symm

theorem onValTrig_triggered (h : ctx.Ready wcSHA1 keyCmp) (walking : Bool) (path : Path) :
    ∃ events, Triggered wcSHA1 keyCmp events ctx
        (onValTrig wcSHA1 keyCmp answers walking path ctx) ∧
      (onValTrig wcSHA1 keyCmp answers walking path ctx).fault = ctx.fault := by
  rcases onValTrig_worked hadds h walking path with
    ⟨-, heq⟩ | ⟨-, hnot, ⟨events, hworked⟩, hsettled, hfault⟩
  · rw [heq]
    exact ⟨[], .refl h, rfl⟩
  · exact ⟨events, hworked.follows_value h hnot hsettled, hfault⟩

/-- **One trigger**, whose callbacks only add others. -/
theorem trig_triggered (h : ctx.Ready wcSHA1 keyCmp) (walking : Bool) (path : Path) : ∃ events,
    TriggeredAt wcSHA1 keyCmp path events ctx
      (trig wcSHA1 keyCmp answers walking path ctx) := by
  cases hsub : ctx.sub keyCmp path with
  | none =>
      rw [trig, hsub]
      exact ⟨[], .refl h, .inl rfl⟩
  | some sub =>
      rw [trig_of_sub walking hsub]
      obtain ⟨calls, events, hworked, hcalls, hprogress⟩ := childPart_worked hadds h walking hsub
      have hmid := hworked.follows_child h hcalls
      set mid := childPart wcSHA1 keyCmp answers walking path sub ctx with hmidDef
      rcases onValTrig_worked hadds hmid.ready walking path with
        ⟨-, heq⟩ | ⟨hne, hnot, ⟨events', hworked'⟩, hsettled, -⟩
      · rw [heq]
        refine ⟨events, hmid, hprogress.imp And.right fun hchild => ?_⟩
        obtain ⟨type, htype, hne⟩ := hasChildCb_iff.mp hchild.1
        refine ⟨type, ?_, .inl ((settled_iff htype).mpr hchild.2.2)⟩
        rintro (hcalm | ⟨-, hnone⟩)
        · exact hchild.2.1 ((settled_iff htype).mp hcalm)
        · exact hne (cbs_of_sub hsub ▸ hnone)
      · refine ⟨events ++ events', hmid.trans (hworked'.follows_value hmid.ready hnot hsettled),
          .inr ⟨.value, ?_, .inl hsettled⟩⟩
        intro hcalm
        rcases hmid.calm hcalm with hset | ⟨-, hnone⟩
        · exact hnot hset
        · exact hne hnone

end Triggers

end WebcomSdk.On
