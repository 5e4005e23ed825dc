import WebcomSdk.On.OnChild
import WebcomSdk.On.Reentrancy

/-!
Callbacks that return 0. A trigger queues the registration, and the dispatch
goes on as if nothing had happened: the registration is unlinked when the
dispatch is over. `on_registry_add` does not look at what the initial calls
return. So a registration is done with the first 0 only if that is the answer to
the last event there is for it.
-/

namespace WebcomSdk.On

open WebcomSdk.Lib WebcomSdk.Collection WebcomSdk.Datasync WebcomSdk.Cache Std

/-- The run is that of the `n`-th event. It returns what `ret` says, and so do
the invocations that it leads to. -/
def CbRun.Returns (ret : ℕ → Bool) : CbRun → ℕ → Prop
  | .ret keep, n => ret n = keep
  | .register _ _ init rest, n => (∀ m, (init m).Returns ret m) ∧ rest.Returns ret n

/-- What the `n`-th event of the run returns, if it is an invocation, is
`ret n`. -/
def OnOp.Returns (ret : ℕ → Bool) (op : OnOp) : Prop :=
  ∀ answers ∈ op.answers, ∀ n, (answers n).Returns ret n

/-- Once an invocation has returned 0, its registration is not called again. -/
def CancelsForGood (ret : ℕ → Bool) (log : List Event) : Prop :=
  ∀ m n c d, m < n → log[m]? = some (.call c) → log[n]? = some (.call d) → c.pCb = d.pCb →
    ret m = true

section

variable (wcSHA1 : SHA1) (keyCmp : Key → Key → Ordering)

/-- The events that `on_child_trig` would find at a path. -/
def OnState.triggersAt (ctx : OnState) (q : Path) : List ChildTrigger :=
  (ctx.subAt keyCmp q).childTriggers wcSHA1 keyCmp (ctx.cached keyCmp q)

/-- At the path of the callback there is no further event of its type. -/
def IsLastEvent (ctx : OnState) (c : Call) : Prop :=
  ∀ t ts, t :: ts <:+ ctx.triggersAt wcSHA1 keyCmp c.pCb.sub → t.type = c.type →
    c.curKey = some t.curKey → ∀ t' ∈ ts, t'.type ≠ c.type

/-- In a dispatch that starts in `ctx`, a callback returns 0 at the last event
for it only, and never in an initial call. -/
def InTime (ret : ℕ → Bool) (ctx : OnCtx) (log : List Event) : Prop :=
  ∀ n c, ctx.log.length ≤ n → log[n]? = some (.call c) → ret n = false →
    IsLastEvent wcSHA1 keyCmp ctx.toOnState c ∧ ¬ IsInitial keyCmp log n c.pCb

/-- A callback that returns 0 is not due any more. -/
def CancelsInTime (ret : ℕ → Bool) (ctx : OnCtx) (op : OnOp) : Prop :=
  ∀ ctx' ∈ ctx.step wcSHA1 keyCmp op,
    match op with
    | .on _ _ _ => ∀ n c, ctx.log.length ≤ n → ctx'.log[n]? = some (.call c) → ret n = true
    | .updatePut path data _ _ =>
        InTime wcSHA1 keyCmp ret { ctx with cache := dataCacheSet keyCmp path data ctx.cache }
          ctx'.log
    | .updateMerge path data _ _ =>
        InTime wcSHA1 keyCmp ret { ctx with cache := dataCacheMerge keyCmp path data ctx.cache }
          ctx'.log
    | _ => True

/-- The registration is unlinked, or is going to be. -/
def OnCtx.Cancelled (ctx : OnCtx) (pCb : OnCb) : Prop :=
  pCb ∈ ctx.deletedCbList ∨ ∀ q, pCb ∉ ctx.registrations keyCmp q

/-- Every registration that got a 0 is cancelled, and was not called since. -/
structure OnCtx.Obeys (ret : ℕ → Bool) (ctx : OnCtx) : Prop where
  ready : ctx.Ready wcSHA1 keyCmp
  queued : ∀ pCb ∈ ctx.deletedCbList, pCb.addr < ctx.alloc
  good : CancelsForGood ret ctx.log
  cancelled : ∀ n c, ctx.log[n]? = some (.call c) → ret n = false → ctx.Cancelled keyCmp c.pCb

end

variable {wcSHA1 : SHA1} {keyCmp : Key → Key → Ordering} {answers : ℕ → CbRun} {ret : ℕ → Bool}
  {ctx₀ ctx ctx' : OnCtx}

theorem CbRun.Returns.run_eq {r : CbRun} {n : ℕ} (h : r.Returns ret n)
    (dispatch : Option Dispatch) (ctx : OnCtx) :
    (r.run wcSHA1 keyCmp dispatch ctx).2 = ret n := by
  induction r generalizing ctx with
  | ret keep => exact h.symm
  | register type path init rest _ ih => exact ih h.2 _

theorem InTime.of_prefix {log log' : List Event} (h : InTime wcSHA1 keyCmp ret ctx₀ log')
    (hlog : log <+: log') : InTime wcSHA1 keyCmp ret ctx₀ log := by
  intro n c hn hc hret
  have hlt := (List.getElem?_eq_some_iff.mp hc).1
  have hc' : log'[n]? = some (.call c) := by
    obtain ⟨events, rfl⟩ := hlog
    rw [List.getElem?_append_left hlt]
    exact hc
  obtain ⟨hlast, hinit⟩ := h n c hn hc' hret
  exact ⟨hlast, fun h => hinit (h.mono hlt.le hlog)⟩

/-- What is cancelled stays so: an address is not given out twice. -/
theorem OnCtx.Cancelled.grown {pCb : OnCb} (h : ctx.Cancelled keyCmp pCb)
    (hlt : pCb.addr < ctx.alloc) (hgrown : Grown wcSHA1 keyCmp ctx ctx')
    (hqueue : ∀ pCb ∈ ctx.deletedCbList, pCb ∈ ctx'.deletedCbList) :
    ctx'.Cancelled keyCmp pCb := by
  refine h.imp (hqueue pCb) fun hnot q hmem => ?_
  obtain ⟨type, htype⟩ := mem_registrations.mp hmem
  rcases hgrown.mem_cbs_or htype with hbase | hold
  · exact Nat.not_lt_of_le hbase hlt
  · exact hnot q (mem_registrations.mpr ⟨type, hold⟩)

/-- One invocation and its answer: what it adds to the queue and to the log. The events
that it leads to are of registrations made meanwhile, and get a 1. -/
structure Answered (ret : ℕ → Bool) (ctx ctx' : OnCtx) (c : Call) : Prop where
  queue : ctx'.deletedCbList =
    if ret ctx.log.length then ctx.deletedCbList else c.pCb :: ctx.deletedCbList
  itself : ctx'.log[ctx.log.length]? = some (.call c)
  calls : ∀ n d, ctx'.log[n]? = some (.call d) → ctx.log[n]? = some (.call d) ∨
    (n = ctx.log.length ∧ d = c) ∨ (ctx.alloc ≤ d.pCb.addr ∧ ret n = true)

theorem Answered.queue_subset {c : Call} (h : Answered ret ctx ctx' c) :
    ctx.deletedCbList ⊆ ctx'.deletedCbList := by
  rw [h.queue]
  split
  · exact List.Subset.refl _
  · exact List.subset_cons_self _ _

theorem Answered.mem_queue {c : Call} (h : Answered ret ctx ctx' c) {pCb : OnCb}
    (hpCb : pCb ∈ ctx'.deletedCbList) :
    pCb ∈ ctx.deletedCbList ∨ pCb = c.pCb ∧ ret ctx.log.length = false := by
  rw [h.queue] at hpCb
  split at hpCb
  next => exact .inl hpCb
  next hzero =>
    rcases List.mem_cons.mp hpCb with rfl | hpCb
    · exact .inr ⟨rfl, Bool.eq_false_iff.mpr hzero⟩
    · exact .inl hpCb

/-- No callback gets a 0 and is called again, if the one invoked has not got any. -/
theorem Answered.good {c : Call} (h : Answered ret ctx ctx' c) (hgood : CancelsForGood ret ctx.log)
    (hlogged : ∀ d, .call d ∈ ctx.log → d.pCb.addr < ctx.alloc) (hlt : c.pCb.addr < ctx.alloc)
    (hfresh : ∀ n d, ctx.log[n]? = some (.call d) → ret n = false → d.pCb ≠ c.pCb) :
    CancelsForGood ret ctx'.log := by
  intro m n a b hmn ha hb hpCb
  by_contra hzero
  rw [Bool.not_eq_true] at hzero
  rcases h.calls m a ha with ha' | ⟨rfl, rfl⟩ | ⟨-, hone⟩
  · have halt := hlogged a (List.mem_of_getElem? ha')
    rcases h.calls n b hb with hb' | ⟨rfl, rfl⟩ | ⟨hbase, -⟩
    · rw [hgood m n a b hmn ha' hb' hpCb] at hzero
      cases hzero
    · exact hfresh m a ha' hzero hpCb
    · exact Nat.not_lt_of_le hbase (hpCb ▸ halt)
  · -- after the invocation itself there are only newer registrations
    rcases h.calls n b hb with hb | ⟨rfl, -⟩ | ⟨hbase, -⟩
    · exact Nat.lt_asymm hmn (List.getElem?_eq_some_iff.mp hb).1
    · exact Nat.lt_irrefl _ hmn
    · exact Nat.not_lt_of_le hbase (hpCb ▸ hlt)
  · rw [hone] at hzero
    cases hzero

section Calls

variable [TransCmp keyCmp] [LawfulEqCmp keyCmp] (hret : ∀ n, (answers n).Returns ret n)
include hret

theorem callCb_answered (h : ctx.Ready wcSHA1 keyCmp) {c : Call} (hlt : c.pCb.addr < ctx.alloc)
    (dispatch : Dispatch) (hlen : ctx₀.log.length ≤ ctx.log.length)
    (hin : InTime wcSHA1 keyCmp ret ctx₀ (callCb wcSHA1 keyCmp answers dispatch ctx c).log) :
    Answered ret ctx (callCb wcSHA1 keyCmp answers dispatch ctx c) c := by
  obtain ⟨ctx₁, hnested, heq⟩ := callCb_nested answers h hlt dispatch
  rw [(hret _).run_eq] at heq
  set ctx' := callCb wcSHA1 keyCmp answers dispatch ctx c with hctx'
  have hlog : ctx'.log = ctx₁.log := by
    rw [heq]
    split <;> rfl
  have hitself : ctx'.log[ctx.log.length]? = some (.call c) := by
    obtain ⟨events, hevents⟩ := hnested.log
    rw [hlog, ← hevents, List.getElem?_append_left (by simp [OnCtx.emit])]
    exact List.getElem?_concat_length
  refine ⟨?_, hitself, fun n d hd => ?_⟩
  · have hsame : ctx₁.deletedCbList = ctx.deletedCbList := hnested.queue
    rw [heq, ← hsame]
    split <;> rfl
  · have hd₁ := hlog ▸ hd
    rcases getElem?_of_prefix hnested.log hd₁ with hd' | hn
    · rw [OnCtx.emit] at hd'
      rcases getElem?_of_prefix (List.prefix_append _ _) hd' with hd'' | hn
      · exact .inl hd''
      · have hlen := (List.getElem?_eq_some_iff.mp hd').1
        rw [List.length_append, List.length_singleton] at hlen
        obtain rfl : n = ctx.log.length := by omega
        rw [hitself] at hd
        cases hd
        exact .inr (.inl ⟨rfl, rfl⟩)
    · obtain ⟨hbase, hinit⟩ := hnested.calls n d hn hd₁
      refine .inr (.inr ⟨hbase, ?_⟩)
      by_contra hzero
      have hn' : ctx₀.log.length ≤ n := by
        rw [OnCtx.emit, List.length_append] at hn
        omega
      exact (hin n d hn' hd (Bool.eq_false_iff.mpr hzero)).2 (hlog ▸ hinit)

/-- A callback that is not cancelled is invoked by a trigger. -/
theorem callCb_obeys (h : ctx.Obeys wcSHA1 keyCmp ret) {c : Call} {q : Path} {type : OnEventType}
    (hmem : c.pCb ∈ ctx.cbs keyCmp q type) (hlive : c.pCb ∉ ctx.deletedCbList)
    (dispatch : Dispatch) (hlen : ctx₀.log.length ≤ ctx.log.length)
    (hin : InTime wcSHA1 keyCmp ret ctx₀ (callCb wcSHA1 keyCmp answers dispatch ctx c).log) :
    (callCb wcSHA1 keyCmp answers dispatch ctx c).Obeys wcSHA1 keyCmp ret ∧
      ∀ pCb ∈ (callCb wcSHA1 keyCmp answers dispatch ctx c).deletedCbList,
        pCb ∈ ctx.deletedCbList ∨ pCb = c.pCb ∧ IsLastEvent wcSHA1 keyCmp ctx₀.toOnState c := by
  have hlt := h.ready.lt_alloc hmem
  obtain ⟨hgrown, hready⟩ := callCb_grown answers h.ready hlt dispatch
  have hanswered := callCb_answered hret h.ready hlt dispatch hlen hin
  set ctx' := callCb wcSHA1 keyCmp answers dispatch ctx c with hctx'
  have hfresh : ∀ n d, ctx.log[n]? = some (.call d) → ret n = false → d.pCb ≠ c.pCb := by
    rintro n d hd hzero heq
    rcases heq ▸ h.cancelled n d hd hzero with hqueued | hnot
    · exact hlive hqueued
    · exact hnot q (mem_registrations.mpr ⟨type, hmem⟩)
  refine ⟨⟨hready, fun pCb hpCb => ?_, hanswered.good h.good h.ready.logged hlt hfresh,
    fun n d hd hzero => ?_⟩, fun pCb hpCb => ?_⟩
  · rcases hanswered.mem_queue hpCb with hqueued | ⟨rfl, -⟩
    · exact (h.queued pCb hqueued).trans_le hgrown.alloc
    · exact hlt.trans_le hgrown.alloc
  · rcases hanswered.calls n d hd with hd | ⟨rfl, rfl⟩ | ⟨-, hone⟩
    · have hlogged := h.ready.logged d (List.mem_of_getElem? hd)
      exact (h.cancelled n d hd hzero).grown hlogged hgrown hanswered.queue_subset
    · refine .inl ?_
      rw [hanswered.queue, if_neg (by simp [hzero])]
      exact List.mem_cons_self
    · rw [hone] at hzero
      cases hzero
  · rcases hanswered.mem_queue hpCb with hqueued | ⟨rfl, hzero⟩
    · exact .inl hqueued
    · exact .inr ⟨rfl, (hin _ c hlen hanswered.itself hzero).1⟩

theorem CalledInTurn.obeys {calls : List Call} {q : Path} {type : OnEventType}
    (hcalled : CalledInTurn wcSHA1 keyCmp answers calls ctx ctx')
    (h : ctx.Obeys wcSHA1 keyCmp ret) (hmem : ∀ c ∈ calls, c.pCb ∈ ctx.cbs keyCmp q type)
    (hlive : ∀ c ∈ calls, c.pCb ∉ ctx.deletedCbList) (hnodup : (calls.map Call.pCb).Nodup)
    (hlen : ctx₀.log.length ≤ ctx.log.length) (hin : InTime wcSHA1 keyCmp ret ctx₀ ctx'.log) :
    ctx'.Obeys wcSHA1 keyCmp ret ∧ ∀ pCb ∈ ctx'.deletedCbList, pCb ∈ ctx.deletedCbList ∨
      ∃ c ∈ calls, pCb = c.pCb ∧ IsLastEvent wcSHA1 keyCmp ctx₀.toOnState c := by
  induction hcalled with
  | nil ctx => exact ⟨h, fun pCb hpCb => .inl hpCb⟩
  | @cons c calls ctx ctx' dispatch fault rest ih =>
      rw [List.forall_mem_cons] at hmem hlive
      rw [List.map_cons, List.nodup_cons] at hnodup
      have hlt := h.ready.lt_alloc hmem.1
      obtain ⟨hgrown, hready⟩ := callCb_grown answers h.ready hlt dispatch
      have hready' : OnCtx.Ready wcSHA1 keyCmp
          { callCb wcSHA1 keyCmp answers dispatch ctx c with fault } :=
        hready.congr rfl rfl rfl rfl
      have hrest := (rest.grown hready' fun d hd =>
        (h.ready.lt_alloc (hmem.2 d hd)).trans_le hgrown.alloc).1
      obtain ⟨hone, hqueue⟩ :=
        callCb_obeys hret h hmem.1 hlive.1 dispatch hlen (hin.of_prefix hrest.log)
      have hone' : OnCtx.Obeys wcSHA1 keyCmp ret
          { callCb wcSHA1 keyCmp answers dispatch ctx c with fault } :=
        ⟨hready', hone.queued, hone.good, hone.cancelled⟩
      have hlive' : ∀ d ∈ calls, d.pCb ∉ (callCb wcSHA1 keyCmp answers dispatch ctx c).deletedCbList
          := by
        intro d hd hdeleted
        rcases hqueue _ hdeleted with hold | ⟨heq, -⟩
        · exact hlive.2 d hd hold
        · exact hnodup.1 (heq ▸ List.mem_map_of_mem hd)
      obtain ⟨hall, hqueue'⟩ := ih hone' (fun d hd => hgrown.mem_cbs (hmem.2 d hd)) hlive' hnodup.2
        (hlen.trans hgrown.log.length_le) hin
      refine ⟨hall, fun pCb hpCb => ?_⟩
      rcases hqueue' pCb hpCb with hold | ⟨d, hd, heq, hlast⟩
      · rcases hqueue pCb hold with hold | ⟨heq, hlast⟩
        · exact .inl hold
        · exact .inr ⟨c, List.mem_cons_self, heq, hlast⟩
      · exact .inr ⟨d, List.mem_cons_of_mem _ hd, heq, hlast⟩

/-- The events that are left at a path, when no callback for them is cancelled. -/
theorem triggers_obeys (walking : Bool) (path : Path) {ts : List ChildTrigger}
    (hts : ts <:+ ctx₀.triggersAt wcSHA1 keyCmp path) (h : ctx.Obeys wcSHA1 keyCmp ret)
    (hlive : ∀ t ∈ ts, ∀ pCb ∈ ctx.cbs keyCmp path t.type, pCb ∉ ctx.deletedCbList)
    (hlen : ctx₀.log.length ≤ ctx.log.length) (hin : InTime wcSHA1 keyCmp ret ctx₀
      (ts.foldl (triggerOnChildCbList wcSHA1 keyCmp answers walking path) ctx).log) :
    (ts.foldl (triggerOnChildCbList wcSHA1 keyCmp answers walking path) ctx).Obeys wcSHA1 keyCmp
        ret ∧
      ∀ pCb ∈ (ts.foldl (triggerOnChildCbList wcSHA1 keyCmp answers walking path)
          ctx).deletedCbList,
        pCb ∈ ctx.deletedCbList ∨ ∃ t ∈ ts, pCb ∈ (ts.foldl
          (triggerOnChildCbList wcSHA1 keyCmp answers walking path) ctx).cbs keyCmp path
            t.type := by
  induction ts generalizing ctx with
  | nil => exact ⟨h, fun pCb hpCb => .inl hpCb⟩
  | cons t ts ih =>
      rw [List.foldl_cons] at hin ⊢
      set ctx₁ := triggerOnChildCbList wcSHA1 keyCmp answers walking path ctx t with hctx₁
      obtain ⟨hgrown, hready⟩ := trigger_grown answers h.ready walking path t
      obtain ⟨hrest, -⟩ := triggers_grown answers hready walking path ts
      have hcalls : ∀ c ∈ (ctx.cbs keyCmp path t.type).map t.call,
          c.pCb ∈ ctx.cbs keyCmp path t.type := by
        intro c hc
        obtain ⟨pCb, hpCb, rfl⟩ := List.mem_map.mp hc
        exact hpCb
      have hnodup : (((ctx.cbs keyCmp path t.type).map t.call).map Call.pCb).Nodup := by
        have hid : Call.pCb ∘ t.call = id := rfl
        rw [List.map_map, hid, List.map_id]
        exact h.ready.nodup_cbs path t.type
      obtain ⟨hone, hqueue⟩ := (calledInTurn_trigger keyCmp walking path ctx t).obeys hret h hcalls
        (fun c hc => hlive t List.mem_cons_self _ (hcalls c hc)) hnodup hlen
        (hin.of_prefix hrest.log)
      -- what the event has cancelled is not due at the events that are left
      have hlive' : ∀ t' ∈ ts, ∀ pCb ∈ ctx₁.cbs keyCmp path t'.type, pCb ∉ ctx₁.deletedCbList := by
        intro t' ht' pCb hpCb hdeleted
        rcases hqueue pCb hdeleted with hold | ⟨c, hc, heq, hlast⟩
        · rcases hgrown.mem_cbs_or hpCb with hbase | hpCb
          · exact Nat.not_lt_of_le hbase (h.queued pCb hold)
          · exact hlive t' (List.mem_cons_of_mem _ ht') pCb hpCb hold
        · obtain ⟨pCb', hpCb', rfl⟩ := List.mem_map.mp hc
          obtain rfl : pCb = pCb' := heq
          have hown : pCb.sub = path :=
            (h.ready.wellFormed.own path pCb (mem_registrations.mpr ⟨_, hpCb'⟩)).1
          have hne : t'.type ≠ t.type := hlast t ts (hown ▸ hts) rfl rfl t' ht'
          exact hne (type_unique (hready.wellFormed.nodup path) hpCb (hgrown.mem_cbs hpCb'))
      obtain ⟨hall, hqueue'⟩ := ih ((List.suffix_cons t ts).trans hts) hone hlive'
        (hlen.trans hgrown.log.length_le) hin
      refine ⟨hall, fun pCb hpCb => ?_⟩
      rcases hqueue' pCb hpCb with hold | ⟨t', ht', hmem⟩
      · rcases hqueue pCb hold with hold | ⟨c, hc, rfl, -⟩
        · exact .inl hold
        · exact .inr ⟨t, List.mem_cons_self, hrest.mem_cbs (hgrown.mem_cbs (hcalls c hc))⟩
      · exact .inr ⟨t', List.mem_cons_of_mem _ ht', hmem⟩

end Calls

/-! ### Triggers -/

variable (wcSHA1 keyCmp) in
/-- A dispatch from `ctx₀` has come to `ctx`. A cancelled callback has nothing to
be told any more. -/
structure Walked (ret : ℕ → Bool) (ctx₀ ctx : OnCtx) : Prop where
  grown : Grown wcSHA1 keyCmp ctx₀ ctx
  obeys : ctx.Obeys wcSHA1 keyCmp ret
  settled : ∀ pCb ∈ ctx.deletedCbList, ∀ q type, pCb ∈ ctx.cbs keyCmp q type →
    Settled wcSHA1 (ctx.cached keyCmp q) (ctx.subAt keyCmp q) type

theorem OnCtx.Obeys.modifySub (h : ctx.Obeys wcSHA1 keyCmp ret) (path : Path) {f : OnSub → OnSub}
    (hf : ∀ sub, (f sub).cbList = sub.cbList) :
    (ctx.modifySub keyCmp path f).Obeys wcSHA1 keyCmp ret where
  ready := h.ready.modifySub path hf
  queued := h.queued
  good := h.good
  cancelled := by
    intro n c hc hzero
    have hregs : (ctx.modifySub keyCmp path f).registrations keyCmp = ctx.registrations keyCmp :=
      registrations_congr (map_cbList_modifySub ctx path hf)
    rw [OnCtx.Cancelled, hregs]
    exact h.cancelled n c hc hzero

section Triggers

variable [TransCmp keyCmp] [LawfulEqCmp keyCmp]

omit [TransCmp keyCmp] [LawfulEqCmp keyCmp] in
/-- What is settled stays so. -/
theorem Walked.settled_grown (h : Walked wcSHA1 keyCmp ret ctx₀ ctx)
    (hgrown : Grown wcSHA1 keyCmp ctx ctx') {pCb : OnCb} (hpCb : pCb ∈ ctx.deletedCbList) {q : Path}
    {type : OnEventType} (hmem : pCb ∈ ctx'.cbs keyCmp q type) :
    Settled wcSHA1 (ctx'.cached keyCmp q) (ctx'.subAt keyCmp q) type := by
  rw [hgrown.cached_eq]
  rcases hgrown.mem_cbs_or hmem with hbase | hold
  · exact absurd (h.obeys.queued pCb hpCb) (Nat.not_lt_of_le hbase)
  · exact (h.settled pCb hpCb q type hold).grown (hgrown.sub q)

/-- A callback that is cancelled at its path, which has been brought up to date
for its type. -/
theorem settled_modifySub (h : ctx.Ready wcSHA1 keyCmp) {path q : Path} {f : OnSub → OnSub}
    (hf : ∀ sub, (f sub).cbList = sub.cbList) {type type' : OnEventType} {pCb : OnCb}
    (hpCb : pCb ∈ ctx.cbs keyCmp path type)
    (hmem : pCb ∈ (ctx.modifySub keyCmp path f).cbs keyCmp q type')
    (hsettled : ∀ sub, Settled wcSHA1 (ctx.cached keyCmp path) (f sub) type) :
    Settled wcSHA1 (ctx.cached keyCmp q) ((ctx.modifySub keyCmp path f).subAt keyCmp q) type' := by
  rw [cbs_congr (map_cbList_modifySub ctx path hf)] at hmem
  obtain rfl : pCb.sub = path := (h.wellFormed.own path pCb (mem_registrations.mpr ⟨_, hpCb⟩)).1
  obtain rfl : pCb.sub = q := (h.wellFormed.own q pCb (mem_registrations.mpr ⟨_, hmem⟩)).1
  obtain rfl : type = type' := type_unique (h.wellFormed.nodup _) hpCb hmem
  rw [subAt_modifySub h.wellFormed.ordered, if_pos ⟨rfl, isSome_of_mem_cbs hpCb⟩]
  exact hsettled _

variable (hret : ∀ n, (answers n).Returns ret n)
include hret

theorem onChildTrig_walked (h : Walked wcSHA1 keyCmp ret ctx₀ ctx) (walking : Bool) (path : Path)
    (hin : InTime wcSHA1 keyCmp ret ctx₀
      (onChildTrig wcSHA1 keyCmp answers walking path ctx).log) :
    Walked wcSHA1 keyCmp ret ctx₀ (onChildTrig wcSHA1 keyCmp answers walking path ctx) := by
  obtain ⟨hgrown, -⟩ := onChildTrig_grown answers h.obeys.ready walking path
  cases hsub : ctx.sub keyCmp path with
  | none =>
      rw [onChildTrig, hsub]
      exact h
  | some sub =>
      rcases onChildTrig_spec answers (h.obeys.ready.cachedOk path) walking hsub with
        ⟨-, heq⟩ | ⟨f, heq, hf⟩
      · rw [heq]
        exact h
      set cached := ctx.cached keyCmp path with hcached
      set ts := sub.childTriggers wcSHA1 keyCmp cached with hts
      have hsubAt : ctx.subAt keyCmp path = sub := subAt_of_sub hsub
      have hcached₀ : ctx₀.cached keyCmp path = cached := (h.grown.cached_eq path).symm
      -- the events are those there were at first, or there are none
      have hsuffix : ts <:+ ctx₀.triggersAt wcSHA1 keyCmp path := by
        rcases (h.grown.sub path).table with htable | htable
        · rw [hsubAt] at htable
          rw [OnState.triggersAt, hcached₀, hts, childTriggers_congr cached htable]
        · rw [hsubAt, hcached₀] at htable
          rw [hts, childTriggers_eq_nil htable]
          exact List.nil_suffix
      have hlive : ∀ t ∈ ts, ∀ pCb ∈ ctx.cbs keyCmp path t.type, pCb ∉ ctx.deletedCbList := by
        intro t ht pCb hpCb hdeleted
        have hsettled := h.settled pCb hdeleted path t.type hpCb
        rw [settled_iff (type_ne_value ht), hsubAt] at hsettled
        rw [hts, childTriggers_eq_nil hsettled] at ht
        cases ht
      rw [heq] at hin hgrown ⊢
      obtain ⟨hobeys, hqueue⟩ := triggers_obeys hret walking path hsuffix h.obeys hlive
        h.grown.log.length_le hin
      set mid := ts.foldl (triggerOnChildCbList wcSHA1 keyCmp answers walking path) ctx with hmid
      obtain ⟨hmidGrown, -⟩ := triggers_grown answers h.obeys.ready walking path ts
      refine ⟨h.grown.trans hgrown, hobeys.modifySub path fun sub => (hf sub).1,
        fun pCb hpCb q type hmem => ?_⟩
      rcases hqueue pCb hpCb with hold | ⟨t, ht, hpCb'⟩
      · exact h.settled_grown hgrown hold hmem
      · refine settled_modifySub hobeys.ready (fun sub => (hf sub).1) hpCb' hmem fun sub => ?_
        rw [settled_iff (type_ne_value ht), hmidGrown.cached_eq]
        exact (hf sub).2.2

theorem onValTrig_walked (h : Walked wcSHA1 keyCmp ret ctx₀ ctx) (walking : Bool) (path : Path)
    (hin : InTime wcSHA1 keyCmp ret ctx₀
      (onValTrig wcSHA1 keyCmp answers walking path ctx).log) :
    Walked wcSHA1 keyCmp ret ctx₀ (onValTrig wcSHA1 keyCmp answers walking path ctx) := by
  obtain ⟨hgrown, -⟩ := onValTrig_grown answers h.obeys.ready walking path
  cases hsub : ctx.sub keyCmp path with
  | none =>
      rw [onValTrig, hsub]
      exact h
  | some sub =>
      rw [onValTrig_spec walking hsub] at hin hgrown ⊢
      split at hin
      case isFalse hquiet => rwa [if_neg hquiet]
      case isTrue hstale =>
        rw [if_pos hstale] at hgrown ⊢
        set cached := ctx.cached keyCmp path with hcached
        set calls := (sub.cbList .value).map (valueCall cached) with hcalls
        have hmemCalls : ∀ c ∈ calls, c.pCb ∈ ctx.cbs keyCmp path .value := by
          intro c hc
          obtain ⟨pCb, hpCb, rfl⟩ := List.mem_map.mp hc
          exact cbs_of_sub hsub ▸ hpCb
        have hlive : ∀ c ∈ calls, c.pCb ∉ ctx.deletedCbList := by
          intro c hc hdeleted
          have hsettled := h.settled _ hdeleted path .value (hmemCalls c hc)
          rw [subAt_of_sub hsub] at hsettled
          rw [valueStale_of_settled hsettled] at hstale
          cases hstale
        have hnodup : (calls.map Call.pCb).Nodup := by
          have hid : Call.pCb ∘ valueCall cached = id := rfl
          rw [hcalls, List.map_map, hid, List.map_id, ← cbs_of_sub hsub]
          exact h.obeys.ready.nodup_cbs path .value
        have hcalled := calledInTurn_foldl wcSHA1 keyCmp answers ⟨walking, .value path⟩ calls ctx
        obtain ⟨hobeys, hqueue⟩ := hcalled.obeys hret h.obeys hmemCalls hlive hnodup
          h.grown.log.length_le hin
        set mid := calls.foldl (callCb wcSHA1 keyCmp answers ⟨walking, .value path⟩) ctx with hmid
        have hmidGrown := (hcalled.grown h.obeys.ready fun c hc =>
          h.obeys.ready.lt_alloc (hmemCalls c hc)).1
        have hf : ∀ sub : OnSub,
            { sub with hash := storedHash wcSHA1 cached }.cbList = sub.cbList := fun _ => rfl
        refine ⟨h.grown.trans hgrown, hobeys.modifySub path hf, fun pCb hpCb q type hmem => ?_⟩
        rcases hqueue pCb hpCb with hold | ⟨c, hc, rfl, -⟩
        · exact h.settled_grown hgrown hold hmem
        · refine settled_modifySub hobeys.ready hf (hmidGrown.mem_cbs (hmemCalls c hc)) hmem
            fun sub => ?_
          rw [hmidGrown.cached_eq]
          rfl

/-- One trigger. -/
theorem trig_walked (h : Walked wcSHA1 keyCmp ret ctx₀ ctx) (walking : Bool) (path : Path)
    (hin : InTime wcSHA1 keyCmp ret ctx₀ (trig wcSHA1 keyCmp answers walking path ctx).log) :
    Walked wcSHA1 keyCmp ret ctx₀ (trig wcSHA1 keyCmp answers walking path ctx) := by
  rw [trig] at hin ⊢
  cases hsub : ctx.sub keyCmp path with
  | none => exact h
  | some sub =>
      simp only [hsub] at hin ⊢
      split at hin
      next hchild =>
        rw [if_pos hchild]
        obtain ⟨-, hready⟩ := onChildTrig_grown answers h.obeys.ready walking path
        obtain ⟨hval, -⟩ := onValTrig_grown answers hready walking path
        exact onValTrig_walked hret
          (onChildTrig_walked hret h walking path (hin.of_prefix hval.log)) walking path hin
      next hchild =>
        rw [if_neg hchild]
        exact onValTrig_walked hret h walking path hin

end Triggers

/-! ### Steps -/

/-- Callbacks are unlinked, those in the queue among them. -/
theorem OnCtx.Obeys.shrunk (h : ctx.Obeys wcSHA1 keyCmp ret) (hwf : ctx'.WellFormed keyCmp)
    (hcache : ctx'.cache = ctx.cache) (hlog : ctx'.log = ctx.log) (halloc : ctx'.alloc = ctx.alloc)
    (hnil : ctx'.deletedCbList = [])
    (hregs : ∀ q, ∀ pCb ∈ ctx'.registrations keyCmp q, pCb ∈ ctx.registrations keyCmp q)
    (hgone : ∀ pCb ∈ ctx.deletedCbList, ∀ q, pCb ∉ ctx'.registrations keyCmp q) :
    ctx'.Obeys wcSHA1 keyCmp ret where
  ready := ⟨hwf, hcache ▸ h.ready.cacheOk, by rw [hlog, halloc]; exact h.ready.logged⟩
  queued := by simp [hnil]
  good := hlog ▸ h.good
  cancelled := by
    intro n c hc hzero
    rw [hlog] at hc
    refine .inr fun q hmem => ?_
    rcases h.cancelled n c hc hzero with hqueued | hnot
    · exact hgone _ hqueued q hmem
    · exact hnot q (hregs q _ hmem)

section Steps

variable [TransCmp keyCmp] [LawfulEqCmp keyCmp]

/-- When all goes well every callback in the queue is unlinked. -/
theorem gcLoop_unlinks {queue : List OnCb} (hwf : ctx.WellFormed keyCmp)
    (hfault : (gcLoop keyCmp queue ctx).fault = false) :
    (gcLoop keyCmp queue ctx).WellFormed keyCmp ∧ (gcLoop keyCmp queue ctx).cache = ctx.cache ∧
      (gcLoop keyCmp queue ctx).alloc = ctx.alloc ∧
      (gcLoop keyCmp queue ctx).deletedCbList = ctx.deletedCbList ∧
      (∀ q, ∀ pCb ∈ (gcLoop keyCmp queue ctx).registrations keyCmp q,
        pCb ∈ ctx.registrations keyCmp q ∧ pCb ∉ queue) := by
  induction queue generalizing ctx with
  | nil => exact ⟨hwf, rfl, rfl, rfl, fun q pCb hpCb => ⟨hpCb, by simp⟩⟩
  | cons pCb queue ih =>
      rw [gcLoop] at hfault ⊢
      split at hfault
      case isFalse => cases hfault
      case isTrue hlive =>
        rw [if_pos hlive]
        obtain ⟨listen, fault, hunwatch⟩ := unwatch_eq keyCmp pCb.sub 1 ctx
        set ctx₁ : OnCtx := { ctx with listen, fault } with hctx₁
        simp only [hunwatch] at hfault ⊢
        have hwf₁ : ctx₁.WellFormed keyCmp := hwf.congr rfl (Nat.le_refl _)
        obtain ⟨reg, heq, hwf₂, herase⟩ := remove_handle_spec hwf₁ pCb
        rw [heq] at hfault ⊢
        obtain ⟨hwf', hcache, halloc, hqueue, hregs⟩ := ih hwf₂ hfault
        refine ⟨hwf', hcache, halloc, hqueue, fun q c hc => ?_⟩
        obtain ⟨hmem, hnot⟩ := hregs q c hc
        rw [herase, (hwf₁.nodup q).mem_erase_iff] at hmem
        exact ⟨hmem.2, List.not_mem_cons_of_ne_of_not_mem hmem.1 hnot⟩

theorem dispatch_obeys (h : ctx.Obeys wcSHA1 keyCmp ret) (hret : ∀ n, (answers n).Returns ret n)
    (hnil : ctx.deletedCbList = []) {path : Path} {fuel : ℕ}
    (hdispatch : onRegistryDispatchOnEvent wcSHA1 keyCmp answers path fuel ctx = some ctx')
    (hin : InTime wcSHA1 keyCmp ret ctx ctx'.log) : CancelsForGood ret ctx'.log ∧
      (ctx'.fault = false → ctx'.Obeys wcSHA1 keyCmp ret ∧ ctx'.deletedCbList = []) := by
  obtain ⟨ctx₁, ⟨-, -, hwalked⟩, rfl⟩ := dispatch_induction (P := fun c =>
      Grown wcSHA1 keyCmp ctx c ∧ c.Ready wcSHA1 keyCmp ∧
        (InTime wcSHA1 keyCmp ret ctx c.log → Walked wcSHA1 keyCmp ret ctx c))
    (fun walking q c hc => by
      obtain ⟨hgrown, hready, hwalked⟩ := hc
      obtain ⟨hgrown', hready'⟩ := trig_grown answers hready walking q
      exact ⟨hgrown.trans hgrown', hready', fun hin =>
        trig_walked hret (hwalked (hin.of_prefix hgrown'.log)) walking q hin⟩)
    ⟨.refl ctx, h.ready, fun _ => ⟨.refl ctx, h, by simp [hnil]⟩⟩ hdispatch
  have hlog : (deletedCbGc keyCmp ctx₁).log = ctx₁.log := log_gcLoop _
  rw [hlog] at hin ⊢
  have hobeys := (hwalked hin).obeys
  refine ⟨hobeys.good, fun hfault => ?_⟩
  set ctx₂ : OnCtx := { ctx₁ with deletedCbList := [] } with hctx₂
  have hwf₂ : ctx₂.WellFormed keyCmp := hobeys.ready.wellFormed.congr rfl (Nat.le_refl _)
  obtain ⟨hwf, hcache, halloc, hqueue, hregs⟩ := gcLoop_unlinks hwf₂ hfault
  exact ⟨hobeys.shrunk hwf hcache hlog halloc hqueue (fun q pCb hpCb => (hregs q pCb hpCb).1)
    fun pCb hpCb q hmem => (hregs q pCb hmem).2 hpCb, hqueue⟩

/-- A callback is registered, and the initial calls return 1. -/
theorem on_obeys (h : ctx.Obeys wcSHA1 keyCmp ret) (hnil : ctx.deletedCbList = [])
    (type : OnEventType) (path : Bytes) {call : Call → OnCtx → OnCtx}
    (hcall : ∀ c (ctx : OnCtx), (ctx.emit (.call c)).Ready wcSHA1 keyCmp →
      Nested wcSHA1 keyCmp (ctx.emit (.call c)) (call c ctx))
    (hkeeps : ∀ n c, ctx.log.length ≤ n →
      (wcDatasyncOn wcSHA1 keyCmp type call path ctx).log[n]? = some (.call c) → ret n = true) :
    (wcDatasyncOn wcSHA1 keyCmp type call path ctx).Obeys wcSHA1 keyCmp ret ∧
      (wcDatasyncOn wcSHA1 keyCmp type call path ctx).deletedCbList = [] := by
  -- the calls that are made are to registrations that are made
  obtain ⟨hgrown, hready, hkept, hnew⟩ := wcDatasyncOn_grown h.ready type path hcall
  set ctx' := wcDatasyncOn wcSHA1 keyCmp type call path ctx with hctx'
  have hqueue : ctx'.deletedCbList = [] := hkept.trans hnil
  have hold : ∀ n c, ctx'.log[n]? = some (.call c) → ret n = false →
      ctx.log[n]? = some (.call c) := by
    intro n c hc hzero
    rcases getElem?_of_prefix hgrown.log hc with hc' | hn
    · exact hc'
    · rw [hkeeps n c hn hc] at hzero
      cases hzero
  refine ⟨⟨hready, by simp [hqueue], fun m n c d hmn hc hd hpCb => ?_, fun n c hc hzero => ?_⟩,
    hqueue⟩
  · by_contra hzero
    have hc' := hold m c hc (Bool.eq_false_iff.mpr hzero)
    have hlt := h.ready.logged c (List.mem_of_getElem? hc')
    rcases getElem?_of_prefix hgrown.log hd with hd' | hn
    · exact hzero (h.good m n c d hmn hc' hd' hpCb)
    · exact Nat.not_lt_of_le (hnew n d hn hd) (hpCb ▸ hlt)
  · have hc' := hold n c hc hzero
    exact (h.cancelled n c hc' hzero).grown (h.ready.logged c (List.mem_of_getElem? hc')) hgrown
      (by simp [hnil])

/-- Callbacks are unlinked by one of the functions `wc_datasync_off*`. -/
theorem off_obeys (h : ctx.Obeys wcSHA1 keyCmp ret) (hnil : ctx.deletedCbList = [])
    (path : Bytes) (eventMask : OnEventType → Bool) (cb : Option OnCb) :
    (wcDatasyncOffW keyCmp path eventMask cb ctx).Obeys wcSHA1 keyCmp ret ∧
      (wcDatasyncOffW keyCmp path eventMask cb ctx).deletedCbList = [] := by
  have hwf := h.ready.wellFormed
  have hsublist :=
    registrations_sublist_onRegistryRemove hwf.ordered (wcDatasyncPathParse path) eventMask cb
  have hwf' := wellFormed_onRegistryRemove hwf (wcDatasyncPathParse path) eventMask cb
  obtain ⟨reg, heq, -⟩ :=
    onRegistryRemove_spec hwf.ordered (wcDatasyncPathParse path) eventMask cb
  obtain ⟨listen, fault, hoff⟩ := wcDatasyncOffW_eq heq
  rw [heq] at hsublist hwf'
  rw [hoff]
  refine ⟨h.shrunk (hwf'.congr rfl (Nat.le_refl _)) rfl rfl rfl hnil (fun q pCb hpCb => ?_)
    (by simp [hnil]), hnil⟩
  exact (hsublist q).subset hpCb

theorem step_obeys (h : ctx.Obeys wcSHA1 keyCmp ret) (hnil : ctx.deletedCbList = []) {op : OnOp}
    (hret : op.Returns ret) (hin : CancelsInTime wcSHA1 keyCmp ret ctx op)
    (hstep : ctx.step wcSHA1 keyCmp op = some ctx') : CancelsForGood ret ctx'.log ∧
      (ctx'.fault = false → ctx'.Obeys wcSHA1 keyCmp ret ∧ ctx'.deletedCbList = []) := by
  have hkept : ∀ {ctx' : OnCtx}, ctx'.Obeys wcSHA1 keyCmp ret ∧ ctx'.deletedCbList = [] →
      CancelsForGood ret ctx'.log ∧
        (ctx'.fault = false → ctx'.Obeys wcSHA1 keyCmp ret ∧ ctx'.deletedCbList = []) :=
    fun h => ⟨h.1.good, fun _ => h⟩
  have hpush : ∀ {cache answers path fuel}, cache.Forall (NodeOk wcSHA1 keyCmp) →
      (∀ n, (answers n).Returns ret n) →
      InTime wcSHA1 keyCmp ret { ctx with cache } ctx'.log →
      onRegistryDispatchOnEvent wcSHA1 keyCmp answers path fuel { ctx with cache } = some ctx' →
      CancelsForGood ret ctx'.log ∧
        (ctx'.fault = false → ctx'.Obeys wcSHA1 keyCmp ret ∧ ctx'.deletedCbList = []) := by
    intro cache answers path fuel hok hret hin hdispatch
    have hobeys : OnCtx.Obeys wcSHA1 keyCmp ret { ctx with cache } :=
      ⟨⟨h.ready.wellFormed.congr rfl (Nat.le_refl _), hok, h.ready.logged⟩, h.queued, h.good,
        h.cancelled⟩
    exact dispatch_obeys hobeys hret hnil hdispatch hin
  have hnet : ∀ op : ListenOp,
      ((ctx.listen.step keyCmp op).map fun listen => { ctx with listen }) = some ctx' →
        ctx'.Obeys wcSHA1 keyCmp ret ∧ ctx'.deletedCbList = [] := by
    intro op hop
    obtain ⟨listen, -, rfl⟩ := Option.map_eq_some_iff.mp hop
    exact ⟨⟨h.ready.congr rfl rfl rfl rfl, h.queued, h.good, h.cancelled⟩, hnil⟩
  have hzeros := hin ctx' hstep
  unfold OnCtx.step at hstep
  split at hstep
  case isTrue => cases hstep
  cases op with
  | on type path answers =>
      obtain rfl := Option.some.inj hstep
      exact hkept (on_obeys h hnil type path (fun c ctx hready => run_nested hready none _) hzeros)
  | off c =>
      simp only at hstep
      split at hstep
      · exact hkept (Option.some.inj hstep ▸ off_obeys h hnil _ _ _)
      · cases hstep
  | offPath path => exact hkept (Option.some.inj hstep ▸ off_obeys h hnil _ _ _)
  | offPathType path type => exact hkept (Option.some.inj hstep ▸ off_obeys h hnil _ _ _)
  | updatePut path data answers fuel =>
      exact hpush (dataCacheSetEx_ok _ data h.ready.cacheOk) (hret answers rfl) hzeros hstep
  | updateMerge path data answers fuel =>
      exact hpush (dataCacheMerge_ok _ data h.ready.cacheOk) (hret answers rfl) hzeros hstep
  | cnxLost => exact hkept (hnet _ hstep)
  | handshake => exact hkept (hnet _ hstep)
  | response id ok => exact hkept (hnet _ hstep)
  | connect => exact hkept (hnet _ hstep)
  | closeCnx => exact hkept (hnet _ hstep)

/-! ### Runs -/

omit [TransCmp keyCmp] [LawfulEqCmp keyCmp] in
theorem onCtxNew_obeys : onCtxNew.Obeys wcSHA1 keyCmp ret where
  ready := ⟨onCtxNew_agrees.counted.wellFormed, nodeOk_leafNull, by simp [onCtxNew]⟩
  queued := by simp [onCtxNew]
  good := by simp [CancelsForGood, onCtxNew]
  cancelled := by simp [onCtxNew]

/-- **A callback that has returned 0 is not called again**, in every run whose
callbacks return 0 at the last event there is for them only. The callbacks may
register others. -/
theorem cancelled_for_good (run : Reach (OnCtx.step wcSHA1 keyCmp)
    (fun ctx op => op.Returns ret ∧ CancelsInTime wcSHA1 keyCmp ret ctx op) onCtxNew ctx) :
    CancelsForGood ret ctx.log := by
  have hinv : CancelsForGood ret ctx.log ∧
      (ctx.fault = false → ctx.Obeys wcSHA1 keyCmp ret ∧ ctx.deletedCbList = []) := by
    have hstart : onCtxNew.Obeys wcSHA1 keyCmp ret := onCtxNew_obeys
    refine run.invariant (I := fun ctx => CancelsForGood ret ctx.log ∧ (ctx.fault = false →
      ctx.Obeys wcSHA1 keyCmp ret ∧ ctx.deletedCbList = [])) ⟨hstart.good, fun _ => ⟨hstart, rfl⟩⟩
      fun ctx op ctx' h hok hstep => ?_
    have hfault : ctx.fault = false := by
      unfold OnCtx.step at hstep
      split at hstep
      · cases hstep
      next hfault => exact Bool.eq_false_iff.mpr hfault
    obtain ⟨hobeys, hnil⟩ := h.2 hfault
    exact step_obeys hobeys hnil hok.1 hok.2 hstep
  exact hinv.1

end Steps

/-! ### Answers that are not looked at -/

def returning (ret : ℕ → Bool) : ℕ → CbRun := fun n => .ret (ret n)

theorem returns_on (type : OnEventType) (path : Bytes) (ret : ℕ → Bool) :
    (OnOp.on type path (returning ret)).Returns ret := by
  rintro answers ⟨⟩ n
  rfl

theorem returns_updatePut (path : Bytes) (data : Json) (ret : ℕ → Bool) (fuel : ℕ) :
    (OnOp.updatePut path data (returning ret) fuel).Returns ret := by
  rintro answers ⟨⟩ n
  rfl

/-- There is one event for an `ON_VALUE` callback. -/
theorem isLastEvent_of_value {c : Call} (h : c.type = .value) (ctx : OnState) :
    IsLastEvent wcSHA1 keyCmp ctx c := by
  intro t ts hts htype
  exact absurd (htype.trans h) (type_ne_value (hts.subset List.mem_cons_self))

theorem not_isInitial_of_calls {calls : List Call} (n : ℕ) (pCb : OnCb) :
    ¬ IsInitial keyCmp (calls.map .call) n pCb := by
  rintro ⟨r, dispatch, type, path, before, -, hevent, -⟩
  rw [List.getElem?_map] at hevent
  obtain ⟨c, -, hc⟩ := Option.map_eq_some_iff.mp hevent
  cases hc

/-- A callback that returns 0 when the value changes is not told of the next
change. -/
theorem cancelled_for_good_value : ∃ ctx, Reach (OnCtx.step zeroSHA1 strcmp)
      (fun ctx op => op.Returns (fun n => n ≠ 1) ∧
        CancelsInTime zeroSHA1 strcmp (fun n => n ≠ 1) ctx op) onCtxNew ctx ∧
    CancelsForGood (fun n => n ≠ 1) ctx.log := by
  set ret : ℕ → Bool := fun n => n ≠ 1 with hret
  have hrun : ∃ ctx, onCtxNew.step zeroSHA1 strcmp (.on .value pathA (returning ret)) = some ctx ∧
      ∃ ctx', ctx.step zeroSHA1 strcmp (.updatePut pathA (.boolean true) (returning ret) 2) =
          some ctx' ∧
        (∃ c d, d.type = .value ∧ ctx.log = [c].map .call ∧ ctx'.log = [c, d].map .call) ∧
        ∃ ctx'', ctx'.step zeroSHA1 strcmp (.updatePut pathA (.boolean false) (returning ret) 2) =
            some ctx'' ∧ ctx''.log.length = 2 :=
    ⟨_, rfl, _, rfl, ⟨_, _, rfl, rfl, rfl⟩, Option.map_eq_some_iff.mp (by decide +kernel)⟩
  obtain ⟨ctx, hctx, ctx', hctx', ⟨c, d, hd, hlog, hlog'⟩, ctx'', hctx'', hlen⟩ := hrun
  have hfirst : CancelsInTime zeroSHA1 strcmp ret onCtxNew (.on .value pathA (returning ret)) := by
    intro ctx₁ hctx₁ n e _ he
    obtain rfl : ctx = ctx₁ := Option.some.inj (hctx.symm.trans hctx₁)
    rw [hlog] at he
    obtain rfl : n = 0 := by simpa using (List.getElem?_eq_some_iff.mp he).1
    rfl
  have hsecond : CancelsInTime zeroSHA1 strcmp ret ctx
      (.updatePut pathA (.boolean true) (returning ret) 2) := by
    intro ctx₁ hctx₁ n e hn he _
    obtain rfl : ctx' = ctx₁ := Option.some.inj (hctx'.symm.trans hctx₁)
    have hn' : 1 ≤ n := by simpa [hlog] using hn
    rw [hlog'] at he ⊢
    have hlt : n < 2 := by simpa using (List.getElem?_eq_some_iff.mp he).1
    obtain rfl : n = 1 := by omega
    cases he
    exact ⟨isLastEvent_of_value hd _, not_isInitial_of_calls 1 d.pCb⟩
  have hthird : CancelsInTime zeroSHA1 strcmp ret ctx'
      (.updatePut pathA (.boolean false) (returning ret) 2) := by
    intro ctx₁ hctx₁ n e hn he _
    obtain rfl : ctx'' = ctx₁ := Option.some.inj (hctx''.symm.trans hctx₁)
    have hn' : 2 ≤ n := by simpa [hlog'] using hn
    have hlt : n < 2 := hlen ▸ (List.getElem?_eq_some_iff.mp he).1
    omega
  have run : Reach (OnCtx.step zeroSHA1 strcmp)
      (fun ctx op => op.Returns ret ∧ CancelsInTime zeroSHA1 strcmp ret ctx op) onCtxNew ctx'' :=
    .step (.step (.step .start ⟨returns_on _ _ _, hfirst⟩ hctx)
      ⟨returns_updatePut _ _ _ _, hsecond⟩ hctx') ⟨returns_updatePut _ _ _ _, hthird⟩ hctx''
  exact ⟨ctx'', run, cancelled_for_good run⟩

/-- A callback returns 0 in its initial call and is called again at the first
change of the value. -/
theorem initial_answer_ignored : ¬ ∀ ret ctx, Reach (OnCtx.step zeroSHA1 strcmp)
    (fun _ op => op.Returns ret) onCtxNew ctx → CancelsForGood ret ctx.log := by
  intro hall
  set ret : ℕ → Bool := fun _ => false with hret
  have hrun : ∃ ctx, onCtxNew.step zeroSHA1 strcmp (.on .value pathA (returning ret)) = some ctx ∧
      ∃ ctx', ctx.step zeroSHA1 strcmp (.updatePut pathA (.boolean true) (returning ret) 2) =
          some ctx' ∧
        ∃ c d, ctx'.log = [.call c, .call d] ∧ c.pCb = d.pCb :=
    ⟨_, rfl, _, rfl, _, _, rfl, rfl⟩
  obtain ⟨ctx, hctx, ctx', hctx', c, d, hlog, hpCb⟩ := hrun
  have hreach : Reach (OnCtx.step zeroSHA1 strcmp) (fun _ op => op.Returns ret) onCtxNew ctx' :=
    .step (.step .start (returns_on _ _ _) hctx) (returns_updatePut _ _ _ _) hctx'
  have hgood := hall ret ctx' hreach
  rw [hlog] at hgood
  have hone : ret 0 = true := hgood 0 1 c d Nat.zero_lt_one rfl rfl hpCb
  cases hone

end WebcomSdk.On
