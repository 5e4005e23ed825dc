import WebcomSdk.On.Schedule
import WebcomSdk.On.ListenSteps

/-!
The first invocation of a dispatch that registers something. Up to it the
schedule is followed, and whether it leaves a callback untold, or frees what
`on_child_trig` holds, depends on what the schedule has after it.
-/

namespace WebcomSdk.On

open WebcomSdk.Lib WebcomSdk.Collection WebcomSdk.Datasync WebcomSdk.Cache Std

/-- A callback that registers `ON_VALUE` for the root and then for a path. -/
def registersValue (q : Path) : CbRun :=
  .register .value [slash] (fun _ => .ret true)
    (.register .value (wcDatasyncPathToStr q) (fun _ => .ret true) (.ret true))

/-- A callback that registers `ON_CHILD_ADDED` for a path. -/
def registersChildAdded (q : Path) : CbRun :=
  .register .childAdded (wcDatasyncPathToStr q) (fun _ => .ret true) (.ret true)

section

variable (wcSHA1 : SHA1) (keyCmp : Key → Key → Ordering)

/-- A trigger, taken apart at one of its invocations: what it does before, the
invocation itself, and what it does afterwards. -/
structure SplitTrigger (answers : ℕ → CbRun) (d : Dispatch) (calls : List Call) (call : Call)
    (events : List Event) (ctx ctx₁ ctx₂ ctx' : OnCtx) : Prop where
  start : Additions wcSHA1 keyCmp (calls.map .call) ctx ctx₁
  listen : ctx₁.listen = ctx.listen
  invoked : ∃ freed, ctx₂ = { callCb wcSHA1 keyCmp answers d ctx₁ call with
        fault := (callCb wcSHA1 keyCmp answers d ctx₁ call).fault || freed } ∧
    ∀ q, d.trigger = .child q true →
      (callCb wcSHA1 keyCmp answers d ctx₁ call).rebuilt keyCmp q ≠ ctx₁.rebuilt keyCmp q →
        freed = true
  rest : Additions wcSHA1 keyCmp events ctx₂ ctx'
  silent : ∀ q, ∀ pCb ∈ ctx₂.cbs keyCmp q .value, d.trigger ≠ .value q →
    ctx₂.SettledAt wcSHA1 keyCmp q .value → events.countP (Event.isCallTo pCb) = 0

end

section

variable {wcSHA1 : SHA1} {keyCmp : Key → Key → Ordering} {answers : ℕ → CbRun}
  {ctx ctx' : OnCtx} {q : Path} {sub : OnSub} {calls : List Call} {m : ℕ}

/-! ### Invocations that register nothing -/

/-- The invocations that are left after some. -/
theorem ReturnFor.after (h : ReturnFor answers m ctx) (hle : calls.length ≤ m) :
    ReturnFor answers (m - calls.length) (On.invokeAll answers calls ctx) := by
  refine ReturnFor.invokeAll ?_
  rwa [Nat.add_sub_cancel' hle]

section Quiet

variable (hadds : ∀ n, (answers n).OnlyAdds)
include hadds

theorem invoke_eq_emit (hret : ReturnFor answers 1 ctx) (c : Call) :
    invoke answers ctx c = ctx.emit (.call c) := by
  obtain ⟨keep, hkeep⟩ := hret 0 Nat.one_pos
  rw [Nat.add_zero] at hkeep
  have htrue : keep = true := by
    have hadd := hadds ctx.log.length
    rwa [hkeep] at hadd
  rw [invoke, hkeep, htrue]
  rfl

theorem invokeAll_worked (h : ctx.Ready wcSHA1 keyCmp) (hlt : ∀ c ∈ calls, c.pCb.addr < ctx.alloc)
    (hret : ReturnFor answers calls.length ctx) :
    Worked wcSHA1 keyCmp calls (calls.map .call) ctx (invokeAll answers calls ctx) := by
  induction calls generalizing ctx with
  | nil => exact .nil h
  | cons c calls ih =>
      rw [List.forall_mem_cons] at hlt
      rw [List.length_cons] at hret
      have hcall : Effects wcSHA1 keyCmp [.call c] ctx (ctx.emit (.call c)) := effects_call h hlt.1
      have hone : Worked wcSHA1 keyCmp [c] [.call c] ctx (ctx.emit (.call c)) :=
        ⟨hcall.toAdditions, fun pCb _ => by simp [List.countP_singleton, Event.isCallTo]⟩
      have heq := invoke_eq_emit hadds hret.one c
      have hrest : ReturnFor answers calls.length (ctx.emit (.call c)) := heq ▸ hret.invoke c
      have hall := hone.trans (ih hone.ready hlt.2 hrest)
      rw [← heq] at hall
      exact hall

end Quiet

/-- The child callbacks of a path, when they register nothing. -/
theorem childPart_eq (walking : Bool) (hsub : ctx.sub keyCmp q = some sub)
    (hret : ReturnFor answers
      (childSchedule wcSHA1 keyCmp q (ctx.cached keyCmp q) sub).length ctx) :
    ∃ f : OnSub → OnSub, childPart wcSHA1 keyCmp answers walking q sub ctx =
        (invokeAll answers ((childSchedule wcSHA1 keyCmp q (ctx.cached keyCmp q) sub).map Prod.snd)
          ctx).modifySub keyCmp q f ∧
      ∀ sub, (f sub).cbList = sub.cbList ∧ (f sub).hash = sub.hash := by
  rw [← List.length_map (f := Prod.snd), map_snd_childSchedule] at hret
  rw [map_snd_childSchedule, childPart]
  split
  next hchild =>
    rw [if_pos hchild] at hret
    exact ⟨_, onChildTrig_eq walking q hsub hret, fun sub => ⟨by simp, by simp⟩⟩
  next => exact ⟨id, (modifySub_eq_self hsub rfl).symm, fun sub => ⟨rfl, rfl⟩⟩

/-- What the child callbacks leave to the `ON_VALUE` callbacks of the path, when they
register nothing. -/
theorem childPart_quiet (walking : Bool) (hsub : ctx.sub keyCmp q = some sub)
    (hret : ReturnFor answers
      (childSchedule wcSHA1 keyCmp q (ctx.cached keyCmp q) sub).length ctx) :
    (∃ sub', (childPart wcSHA1 keyCmp answers walking q sub ctx).sub keyCmp q = some sub' ∧
      sub'.cbList = sub.cbList ∧ sub'.hash = sub.hash) ∧
    (childPart wcSHA1 keyCmp answers walking q sub ctx).log = ctx.log ++
      ((childSchedule wcSHA1 keyCmp q (ctx.cached keyCmp q) sub).map Prod.snd).map .call ∧
    (childPart wcSHA1 keyCmp answers walking q sub ctx).listen = ctx.listen := by
  obtain ⟨f, heq, hf⟩ := childPart_eq walking hsub hret
  rw [heq]
  refine ⟨⟨f sub, ?_, hf sub⟩, log_invokeAll _ _, listen_invokeAll _ _⟩
  rw [sub_modifySub_self, sub_invokeAll, hsub, Option.map_some]

/-! ### What is held -/

/-- The last callback of the list is called with what `on_child_trig` holds. -/
theorem exists_mem_drop_heldCalls (t : ChildTrigger) {cbs : List OnCb} (hm : m < cbs.length) :
    ∃ x ∈ (heldCalls q t cbs).drop m, x.1 = .child q t.held := by
  induction cbs generalizing m with
  | nil => cases hm
  | cons pCb rest ih =>
      rw [heldCalls]
      cases rest with
      | nil =>
          obtain rfl : m = 0 := by simpa using hm
          exact ⟨_, List.mem_cons_self, by simp⟩
      | cons pCb' rest =>
          cases m with
          | zero =>
              obtain ⟨x, hx, hheld⟩ := ih (Nat.succ_pos _)
              exact ⟨x, List.mem_cons_of_mem _ hx, hheld⟩
          | succ m => exact ih (Nat.lt_of_succ_lt_succ hm)

theorem ChildTrigger.Free.not_held {t : ChildTrigger} (h : t.Free) {cbs : List OnCb}
    {x : Trigger × Call} (hx : x ∈ heldCalls q t cbs) : x.1 ≠ .child q true := by
  induction cbs with
  | nil => cases hx
  | cons pCb rest ih =>
      rcases List.mem_cons.mp hx with rfl | hx
      · simp [h.1, h.2]
      · exact ih hx

section Fault

variable [TransCmp keyCmp] [LawfulEqCmp keyCmp] (hadds : ∀ n, (answers n).OnlyAdds)
include hadds

theorem triggerLoop_fault (h : ctx.Ready wcSHA1 keyCmp) (walking : Bool) (t : ChildTrigger)
    {cbs : List OnCb} (hlt : ∀ pCb ∈ cbs, pCb.addr < ctx.alloc) (hret : ReturnFor answers m ctx)
    (hheld : ∀ x ∈ (heldCalls q t cbs).drop m, x.1 = .child q true →
      ∀ children hash, ctx.cached keyCmp q ≠ some (.internal children hash)) :
    (triggerLoop wcSHA1 keyCmp answers walking q t cbs ctx).fault = ctx.fault := by
  induction cbs generalizing ctx m with
  | nil => rfl
  | cons pCb rest ih =>
      rw [List.forall_mem_cons] at hlt
      rw [triggerLoop]
      set held := t.held || (t.keyHeld && !rest.isEmpty) with hheldDef
      have hcall : (t.call pCb).pCb.addr < ctx.alloc := hlt.1
      obtain ⟨events, heffects, -⟩ :=
        callCb_effects hadds h hcall ⟨walking, .child q held⟩
      set ctx₁ := callCb wcSHA1 keyCmp answers ⟨walking, .child q held⟩ ctx (t.call pCb) with hctx₁
      have hfreed : (held && ctx₁.rebuilt keyCmp q != ctx.rebuilt keyCmp q) = false := by
        have hcase : held = true → ctx₁.rebuilt keyCmp q = ctx.rebuilt keyCmp q := by
          intro htrue
          cases m with
          | zero =>
              refine heffects.rebuilt q (hheld _ List.mem_cons_self ?_)
              show Trigger.child q held = .child q true
              rw [htrue]
          | succ m => rw [hctx₁, callCb_eq hret.one]; rfl
        by_cases htrue : held = true
        · simp [hcase htrue]
        · simp [htrue]
      simp only [hfreed, Bool.or_false]
      have hcached := heffects.cached_eq q
      have hrest : ReturnFor answers (m - 1) ctx₁ := by
        cases m with
        | zero => exact .zero answers ctx₁
        | succ m =>
            rw [hctx₁, callCb_eq hret.one]
            exact hret.invoke _
      refine (ih heffects.ready (fun pCb hpCb => (hlt.2 pCb hpCb).trans_le heffects.alloc) hrest
        fun x hx => ?_).trans heffects.steady
      rw [hcached]
      refine hheld x ?_
      cases m with
      | zero => exact List.mem_cons_of_mem _ hx
      | succ m => exact hx

theorem triggers_fault (h : ctx.Ready wcSHA1 keyCmp) (walking : Bool) {ts : List ChildTrigger}
    (hfirst : HeldFirst ts) (hret : ReturnFor answers m ctx)
    (hheld : (∀ x ∈ (ts.flatMap fun t => heldCalls q t (ctx.cbs keyCmp q t.type)).drop m,
        x.1 = .child q true → ∀ children hash,
          ctx.cached keyCmp q ≠ some (.internal children hash)) ∨ ∀ t ∈ ts, t.Free) :
    (ts.foldl (triggerOnChildCbList wcSHA1 keyCmp answers walking q) ctx).fault = ctx.fault := by
  induction ts generalizing ctx m with
  | nil => rfl
  | cons t ts ih =>
      obtain ⟨hlater, hfirst'⟩ := List.pairwise_cons.mp hfirst
      rw [List.foldl_cons]
      obtain ⟨events, hone⟩ := trigger_worked hadds h walking q t
      have hfault : (triggerOnChildCbList wcSHA1 keyCmp answers walking q ctx t).fault =
          ctx.fault := by
        rw [triggerOnChildCbList_eq]
        refine triggerLoop_fault hadds h walking t (fun _ => h.lt_alloc) hret fun x hx htrue => ?_
        rcases hheld with hheld | hfree
        · refine hheld x ?_ htrue
          rw [List.flatMap_cons, List.drop_append]
          exact List.mem_append_left _ hx
        · exact absurd htrue ((hfree t List.mem_cons_self).not_held (List.mem_of_mem_drop hx))
      refine Eq.trans ?_ hfault
      rcases hheld with hheld | hfree
      · rw [List.flatMap_cons, List.drop_append, length_heldCalls] at hheld
        by_cases hlen : (ctx.cbs keyCmp q t.type).length ≤ m
        · -- nothing has been registered yet
          have heq : triggerOnChildCbList wcSHA1 keyCmp answers walking q ctx t =
              invokeAll answers ((ctx.cbs keyCmp q t.type).map t.call) ctx := by
            rw [triggerOnChildCbList_eq, triggerLoop_eq walking q t (hret.mono hlen)]
          have hrest : ReturnFor answers _
              (invokeAll answers ((ctx.cbs keyCmp q t.type).map t.call) ctx) :=
            hret.after (by rwa [List.length_map])
          rw [List.length_map] at hrest
          rw [heq] at hone ⊢
          refine ih hone.ready hfirst' hrest (.inl fun x hx => ?_)
          rw [cached_invokeAll]
          rw [cbs_invokeAll] at hx
          exact hheld x (List.mem_append_right _ hx)
        · obtain ⟨x, hx, hlast⟩ := exists_mem_drop_heldCalls (q := q) t (Nat.lt_of_not_le hlen)
          refine ih hone.ready hfirst' (.zero answers _) ?_
          cases hno : t.held with
          | false => exact .inr fun t' ht' => hlater t' ht' hno
          | true =>
              rw [hno] at hlast
              refine .inl fun _ _ _ => ?_
              rw [hone.cached_eq]
              exact hheld x (List.mem_append_left _ hx) hlast
      · exact ih hone.ready hfirst' (.zero answers _)
          (.inr fun t' ht' => hfree t' (List.mem_cons_of_mem _ ht'))

/-- **What is held is not freed** by a trigger, when nothing is registered while it
is, or there are no children. -/
theorem trig_fault (h : ctx.Ready wcSHA1 keyCmp) (walking : Bool) (hret : ReturnFor answers m ctx)
    (hheld : ∀ x ∈ (ctx.scheduleAt wcSHA1 keyCmp q).drop m, x.1 = .child q true →
      ∀ children hash, ctx.cached keyCmp q ≠ some (.internal children hash)) :
    (trig wcSHA1 keyCmp answers walking q ctx).fault = ctx.fault := by
  cases hsub : ctx.sub keyCmp q with
  | none => rw [trig, hsub]
  | some sub =>
  obtain ⟨calls, events, hworked, -⟩ := childPart_worked hadds h walking hsub
  obtain ⟨events', -, hvalue⟩ := onValTrig_triggered hadds hworked.ready walking q
  rw [trig_of_sub walking hsub, hvalue, childPart]
  split
  case isFalse => rfl
  next hchild =>
  rcases onChildTrig_spec answers (h.cachedOk q) walking hsub with ⟨-, heq⟩ | ⟨f, heq, -⟩
  · rw [heq]
  · rw [heq]
    refine triggers_fault hadds h walking (heldFirst_childTriggers sub) hret (.inl fun x hx => ?_)
    refine hheld x ?_
    rw [scheduleAt_of_sub hsub, List.drop_append, childSchedule, if_pos hchild]
    rw [cbs_of_sub hsub] at hx
    exact List.mem_append_left _ hx

end Fault

/-! ### Whom a trigger tells -/

section Tells

variable [TransCmp keyCmp] [LawfulEqCmp keyCmp] (hadds : ∀ n, (answers n).OnlyAdds)
include hadds

/-- After its trigger the table of a path is up to date, if there was anything to
tell. -/
theorem trig_settles_child (h : ctx.Ready wcSHA1 keyCmp) (walking : Bool) (q : Path) :
    (∀ x ∈ ctx.scheduleAt wcSHA1 keyCmp q, ∀ held, x.1 ≠ .child q held) ∨
      (trig wcSHA1 keyCmp answers walking q ctx).SettledAt wcSHA1 keyCmp q .childAdded := by
  cases hsub : ctx.sub keyCmp q with
  | none =>
      rw [OnState.scheduleAt, hsub]
      exact .inl fun x hx => absurd hx List.not_mem_nil
  | some sub =>
      rw [scheduleAt_of_sub hsub, trig_of_sub walking hsub]
      obtain ⟨calls, events, hworked, -, hprogress⟩ := childPart_worked hadds h walking hsub
      rcases hprogress with ⟨hnone, -⟩ | ⟨-, -, hsettled⟩
      · refine .inl fun x hx held heq => ?_
        rcases List.mem_append.mp hx with hx | hx
        · rw [childSchedule] at hx
          rcases hnone with hnone | hnone
          · rw [if_neg (by simp [hnone])] at hx
            cases hx
          · simp [hnone] at hx
        · rw [trigger_of_mem_valueSchedule hx] at heq
          cases heq
      · obtain ⟨events', htriggered, -⟩ := onValTrig_triggered hadds hworked.ready walking q
        exact .inr (htriggered.settledAt hsettled)

/-- The `ON_VALUE` callbacks of a path are told when its child callbacks register
nothing. -/
theorem trig_tells (h : ctx.Ready wcSHA1 keyCmp) (walking : Bool)
    (hsub : ctx.sub keyCmp q = some sub) (hne : ctx.cbs keyCmp q .value ≠ [])
    (hnot : ¬ ctx.SettledAt wcSHA1 keyCmp q .value)
    (hret : ReturnFor answers
      (childSchedule wcSHA1 keyCmp q (ctx.cached keyCmp q) sub).length ctx) :
    ∃ events, Triggered wcSHA1 keyCmp events ctx (trig wcSHA1 keyCmp answers walking q ctx) ∧
      (trig wcSHA1 keyCmp answers walking q ctx).SettledAt wcSHA1 keyCmp q .value ∧
      ∀ pCb ∈ ctx.cbs keyCmp q .value, events.countP (Event.isCallTo pCb) = 1 := by
  obtain ⟨calls, events, hworked, hcalls, -⟩ := childPart_worked hadds h walking hsub
  obtain ⟨⟨sub', hsub', hkept, hhash⟩, -⟩ := childPart_quiet walking hsub hret
  have hmid := hworked.follows_child h hcalls
  rw [trig_of_sub walking hsub]
  set mid := childPart wcSHA1 keyCmp answers walking q sub ctx with hmidDef
  have hcbs : mid.cbs keyCmp q = ctx.cbs keyCmp q := by
    rw [cbs_of_sub hsub', hkept, cbs_of_sub hsub]
  have hnot' : ¬ mid.SettledAt wcSHA1 keyCmp q .value := by
    rw [OnState.SettledAt, subAt_of_sub hsub] at hnot
    rw [OnState.SettledAt, subAt_of_sub hsub', hmid.cached_eq]
    exact fun hsettled => hnot (hhash.symm.trans hsettled)
  rcases onValTrig_worked hadds hmid.ready walking q with
    ⟨hnone, -⟩ | ⟨-, -, ⟨events', hworked'⟩, hsettled, -⟩
  · exact absurd hnone (not_or.mpr ⟨hcbs ▸ hne, hnot'⟩)
  · refine ⟨events ++ events', hmid.trans (hworked'.follows_value hmid.ready hnot' hsettled),
      hsettled, fun pCb hpCb => ?_⟩
    have hone := hworked'.count_value hmid.ready (hcbs ▸ hpCb : pCb ∈ mid.cbs keyCmp q .value)
    rw [List.countP_append, hone, hmid.waiting q pCb hpCb hnot']

end Tells

/-! ### An invocation in the middle of a trigger -/

section Middle

variable [TransCmp keyCmp] [LawfulEqCmp keyCmp] {before after : List (Trigger × Call)}
  {trigger : Trigger} {call : Call}

omit [TransCmp keyCmp] [LawfulEqCmp keyCmp] in
/-- The loop of `trigger_on_child_cb_list` from one of its invocations on. -/
theorem triggerLoop_split (walking : Bool) (t : ChildTrigger) {cbs : List OnCb}
    (hsplit : heldCalls q t cbs = before ++ (trigger, call) :: after)
    (hret : ReturnFor answers before.length ctx) : ∃ held rest,
      trigger = .child q held ∧ (∀ pCb ∈ rest, pCb ∈ cbs) ∧
      triggerLoop wcSHA1 keyCmp answers walking q t cbs ctx =
        let ctx₁ := invokeAll answers (before.map Prod.snd) ctx
        let ctx₂ := callCb wcSHA1 keyCmp answers ⟨walking, trigger⟩ ctx₁ call
        triggerLoop wcSHA1 keyCmp answers walking q t rest
          { ctx₂ with
            fault := ctx₂.fault || (held && ctx₂.rebuilt keyCmp q != ctx₁.rebuilt keyCmp q) } := by
  induction cbs generalizing before ctx with
  | nil => cases before <;> cases hsplit
  | cons pCb rest ih =>
      rw [heldCalls] at hsplit
      cases before with
      | nil =>
          obtain ⟨hhead, -⟩ := List.cons.inj hsplit
          obtain ⟨rfl, rfl⟩ := Prod.mk.inj hhead
          exact ⟨_, rest, rfl, fun _ => List.mem_cons_of_mem _, rfl⟩
      | cons x before =>
          obtain ⟨rfl, htail⟩ := List.cons.inj hsplit
          rw [List.length_cons] at hret
          have hone : callCb wcSHA1 keyCmp answers
              ⟨walking, .child q (t.held || (t.keyHeld && !rest.isEmpty))⟩ ctx (t.call pCb) =
                invoke answers ctx (t.call pCb) :=
            callCb_eq hret.one _ _
          have hrebuilt : (invoke answers ctx (t.call pCb)).rebuilt keyCmp q =
              ctx.rebuilt keyCmp q := rfl
          have hrest : ReturnFor answers before.length (invoke answers ctx (t.call pCb)) :=
            hret.invoke _
          obtain ⟨held, rest', htrigger, hmem, heq⟩ := ih htail hrest
          refine ⟨held, rest', htrigger, fun pCb hpCb => List.mem_cons_of_mem _ (hmem pCb hpCb), ?_⟩
          rw [triggerLoop]
          simp only [hone, hrebuilt, bne_self_eq_false, Bool.and_false, Bool.or_false]
          exact heq

variable (hadds : ∀ n, (answers n).OnlyAdds)
include hadds

/-- One invocation, and whatever is said of its fault. -/
theorem callCb_marked (h : ctx.Ready wcSHA1 keyCmp) (hlt : call.pCb.addr < ctx.alloc)
    (d : Dispatch) (freed : Bool) : ∃ events, Worked wcSHA1 keyCmp [call] events ctx
      { callCb wcSHA1 keyCmp answers d ctx call with
        fault := (callCb wcSHA1 keyCmp answers d ctx call).fault || freed } := by
  obtain ⟨events, -, hworked⟩ := callCb_effects hadds h hlt d
  exact ⟨events, hworked.mark freed⟩

theorem triggers_split (h : ctx.Ready wcSHA1 keyCmp) (walking : Bool) {ts : List ChildTrigger}
    (htype : ∀ t ∈ ts, t.type ≠ .value)
    (hsplit : (ts.flatMap fun t => heldCalls q t (ctx.cbs keyCmp q t.type)) =
      before ++ (trigger, call) :: after)
    (hret : ReturnFor answers before.length ctx) : ∃ held, trigger = .child q held ∧
      let ctx₁ := invokeAll answers (before.map Prod.snd) ctx
      let ctx₂ := callCb wcSHA1 keyCmp answers ⟨walking, trigger⟩ ctx₁ call
      let ctx₃ := { ctx₂ with
        fault := ctx₂.fault || (held && ctx₂.rebuilt keyCmp q != ctx₁.rebuilt keyCmp q) }
      ∃ calls events, Worked wcSHA1 keyCmp calls events ctx₃
          (ts.foldl (triggerOnChildCbList wcSHA1 keyCmp answers walking q) ctx) ∧
        ∀ r, ∀ pCb ∈ ctx₃.cbs keyCmp r .value, ∀ c ∈ calls, c.pCb ≠ pCb := by
  induction ts generalizing before ctx with
  | nil => cases before <;> cases hsplit
  | cons t ts ih =>
      rw [List.forall_mem_cons] at htype
      rw [List.flatMap_cons] at hsplit
      have hlt : ∀ pCb ∈ ctx.cbs keyCmp q t.type, pCb.addr < ctx.alloc := fun _ => h.lt_alloc
      rw [List.foldl_cons, triggerOnChildCbList_eq]
      rcases append_eq_split hsplit with ⟨before', rfl, hrest⟩ | ⟨after', hhead, -⟩
      · -- the invocation belongs to one of the triggers after this one
        have hquiet : ReturnFor answers (ctx.cbs keyCmp q t.type).length ctx :=
          hret.mono (by rw [List.length_append, length_heldCalls]; exact Nat.le_add_right _ _)
        have hlater : ReturnFor answers _
            (invokeAll answers ((ctx.cbs keyCmp q t.type).map t.call) ctx) :=
          hret.after (by
            rw [List.length_map, List.length_append, length_heldCalls]
            exact Nat.le_add_right _ _)
        rw [List.length_map, List.length_append, length_heldCalls, Nat.add_sub_cancel_left]
          at hlater
        rw [triggerLoop_eq walking q t hquiet]
        have hworked := invokeAll_worked hadds h
          (List.forall_mem_map.mpr fun pCb hpCb => hlt pCb hpCb : ∀ c ∈
            (ctx.cbs keyCmp q t.type).map t.call, c.pCb.addr < ctx.alloc) (by rwa [List.length_map])
        rw [List.map_append, map_snd_heldCalls, invokeAll_append]
        refine ih hworked.ready htype.2 ?_ hlater
        rw [cbs_invokeAll]
        exact hrest
      · obtain ⟨held, rest, htrigger, hmem, heq⟩ := triggerLoop_split walking t hhead hret
        refine ⟨held, htrigger, ?_⟩
        rw [heq]
        have hcalls := congrArg (List.map Prod.snd) hhead
        rw [map_snd_heldCalls, List.map_append, List.map_cons] at hcalls
        have hown : ∀ c ∈ before.map Prod.snd ++ call :: after'.map Prod.snd,
            c.pCb.addr < ctx.alloc := by
          rw [← hcalls]
          exact List.forall_mem_map.mpr hlt
        rw [List.forall_mem_append, List.forall_mem_cons] at hown
        have hquiet := invokeAll_worked hadds h hown.1 (by rwa [List.length_map])
        set ctx₁ := invokeAll answers (before.map Prod.snd) ctx with hctx₁
        obtain ⟨events, hone⟩ := callCb_marked hadds hquiet.ready
          (hown.2.1.trans_le hquiet.alloc) ⟨walking, trigger⟩
          (held && (callCb wcSHA1 keyCmp answers ⟨walking, trigger⟩ ctx₁ call).rebuilt keyCmp q !=
            ctx₁.rebuilt keyCmp q)
        have hgrown := hquiet.toGrown.trans hone.toGrown
        obtain ⟨events₁, hloop⟩ := triggerLoop_worked hadds hone.ready walking q t
          fun pCb hpCb => (hlt pCb (hmem pCb hpCb)).trans_le hgrown.alloc
        obtain ⟨calls, events₂, hrest, hvalue⟩ := triggers_worked hadds hloop.ready walking q
          htype.2
        refine ⟨_, _, hloop.trans hrest, fun r pCb hpCb c hc => ?_⟩
        rcases List.mem_append.mp hc with hc | hc
        · obtain ⟨pCb', hpCb', rfl⟩ := List.mem_map.mp hc
          exact ne_value_of_mem hone.ready htype.1 (hgrown.mem_cbs (hmem pCb' hpCb')) hpCb
        · exact hvalue r pCb (hloop.mem_cbs hpCb) c hc

omit hadds [TransCmp keyCmp] [LawfulEqCmp keyCmp] in
theorem addr_of_mem_scheduleAt (h : ctx.Ready wcSHA1 keyCmp) {x : Trigger × Call}
    (hx : x ∈ ctx.scheduleAt wcSHA1 keyCmp q) : x.2.pCb.addr < ctx.alloc :=
  h.lt_alloc (pCb_of_mem_scheduleAt hx).1

/-- A trigger, taken apart at an invocation of a child callback. -/
theorem trig_split_child (h : ctx.Ready wcSHA1 keyCmp) (walking : Bool)
    (hsub : ctx.sub keyCmp q = some sub)
    (hsplit : childSchedule wcSHA1 keyCmp q (ctx.cached keyCmp q) sub =
      before ++ (trigger, call) :: after)
    (hret : ReturnFor answers before.length ctx) : ∃ events ctx₁ ctx₂,
      SplitTrigger wcSHA1 keyCmp answers ⟨walking, trigger⟩ (before.map Prod.snd) call events ctx
        ctx₁ ctx₂ (trig wcSHA1 keyCmp answers walking q ctx) := by
  have hlt : ∀ x ∈ before ++ (trigger, call) :: after, x.2.pCb.addr < ctx.alloc := by
    intro x hx
    refine addr_of_mem_scheduleAt h (?_ : x ∈ ctx.scheduleAt wcSHA1 keyCmp q)
    rw [scheduleAt_of_sub hsub, hsplit]
    exact List.mem_append_left _ hx
  rw [List.forall_mem_append, List.forall_mem_cons] at hlt
  have hmem : (trigger, call) ∈ childSchedule wcSHA1 keyCmp q (ctx.cached keyCmp q) sub := by
    rw [hsplit]
    exact List.mem_append_right _ List.mem_cons_self
  rw [childSchedule] at hsplit hmem
  split at hmem
  case isFalse => cases hmem
  next hchild =>
  rw [if_pos hchild, ← cbs_of_sub hsub] at hsplit
  rcases onChildTrig_spec answers (h.cachedOk q) walking hsub with ⟨hnil, -⟩ | ⟨f, heq, hf⟩
  · simp [hnil] at hmem
  have htype : ∀ t ∈ sub.childTriggers wcSHA1 keyCmp (ctx.cached keyCmp q), t.type ≠ .value :=
    fun t ht => type_ne_value ht
  obtain ⟨held, htrigger, calls, events, hworked, hvalue⟩ :=
    triggers_split hadds h walking htype hsplit hret
  obtain ⟨_, _, hall, -⟩ := triggers_worked hadds h walking q htype
  have hwrite := hworked.write q (fun sub => (hf sub).1) fun sub =>
    subGrown_of_table (hf sub).1 (hf sub).2.1 (by rw [hall.cached_eq]; exact (hf sub).2.2)
  have hquiet := invokeAll_worked hadds h (List.forall_mem_map.mpr hlt.1) (by rwa [List.length_map])
  set ctx₁ := invokeAll answers (before.map Prod.snd) ctx with hctx₁
  obtain ⟨_, hone⟩ := callCb_marked hadds hquiet.ready (hlt.2.1.trans_le hquiet.alloc)
    ⟨walking, trigger⟩
    (held && (callCb wcSHA1 keyCmp answers ⟨walking, trigger⟩ ctx₁ call).rebuilt keyCmp q !=
      ctx₁.rebuilt keyCmp q)
  have hchildPart := hwrite.follows_child hone.ready hvalue
  obtain ⟨events', hvalPart, -⟩ := onValTrig_triggered hadds hchildPart.ready walking q
  have htriggered := hchildPart.trans hvalPart
  have htrig : trig wcSHA1 keyCmp answers walking q ctx = onValTrig wcSHA1 keyCmp answers walking q
      (((sub.childTriggers wcSHA1 keyCmp (ctx.cached keyCmp q)).foldl
        (triggerOnChildCbList wcSHA1 keyCmp answers walking q) ctx).modifySub keyCmp q f) := by
    rw [trig_of_sub walking hsub, childPart, if_pos hchild, heq]
  rw [htrig]
  exact ⟨_, ctx₁, _, {
    start := hquiet.toAdditions
    listen := listen_invokeAll _ _
    invoked := ⟨_, rfl, fun p hp hfreed => by
      obtain ⟨rfl, rfl⟩ := Trigger.child.inj (htrigger.symm.trans hp)
      simp [hfreed]⟩
    rest := htriggered.toAdditions
    silent := fun r pCb hpCb _ hsettled => htriggered.settled r pCb hpCb hsettled }⟩

/-- A trigger, taken apart at an invocation of an `ON_VALUE` callback. -/
theorem trig_split_value (h : ctx.Ready wcSHA1 keyCmp) (walking : Bool)
    (hsub : ctx.sub keyCmp q = some sub)
    (hsplit : valueSchedule wcSHA1 q (ctx.cached keyCmp q) sub =
      before ++ (trigger, call) :: after)
    (hret : ReturnFor answers
      ((childSchedule wcSHA1 keyCmp q (ctx.cached keyCmp q) sub).length + before.length) ctx) :
    ∃ events ctx₁ ctx₂, SplitTrigger wcSHA1 keyCmp answers ⟨walking, trigger⟩
      ((childSchedule wcSHA1 keyCmp q (ctx.cached keyCmp q) sub ++ before).map Prod.snd) call
        events ctx ctx₁ ctx₂ (trig wcSHA1 keyCmp answers walking q ctx) := by
  set first := childSchedule wcSHA1 keyCmp q (ctx.cached keyCmp q) sub with hfirst
  have hmem : (trigger, call) ∈ valueSchedule wcSHA1 q (ctx.cached keyCmp q) sub := by
    rw [hsplit]
    exact List.mem_append_right _ List.mem_cons_self
  have htrigger : trigger = .value q := trigger_of_mem_valueSchedule hmem
  have hstale : sub.valueStale wcSHA1 (ctx.cached keyCmp q) = true := by
    by_contra hnot
    rw [valueSchedule, valCalls, if_neg hnot] at hmem
    cases hmem
  have hcalls := congrArg (List.map Prod.snd) hsplit
  rw [map_snd_valueSchedule, valCalls, if_pos hstale, List.map_append, List.map_cons] at hcalls
  have hown : ∀ c ∈ before.map Prod.snd ++ call :: after.map Prod.snd,
      c.pCb ∈ ctx.cbs keyCmp q .value := by
    rw [← hcalls, cbs_of_sub hsub]
    exact List.forall_mem_map.mpr fun _ => id
  rw [List.forall_mem_append, List.forall_mem_cons] at hown
  -- the child callbacks of the path are called
  obtain ⟨_, events, hchild, -⟩ := childPart_worked hadds h walking hsub
  obtain ⟨⟨sub', hsub', hkept, hhash⟩, hlog, hlisten⟩ :=
    childPart_quiet walking hsub (hret.mono (Nat.le_add_right _ _))
  set mid := childPart wcSHA1 keyCmp answers walking q sub ctx with hmid
  obtain rfl : events = (first.map Prod.snd).map .call :=
    List.append_cancel_left (hchild.logged.symm.trans hlog)
  have hret' : ReturnFor answers before.length mid := by
    intro n hn
    rw [hlog, List.length_append, List.length_map, List.length_map, Nat.add_assoc]
    exact hret _ (Nat.add_lt_add_left hn _)
  have hvalue : onValTrig wcSHA1 keyCmp answers walking q mid =
      ((before.map Prod.snd ++ call :: after.map Prod.snd).foldl
        (callCb wcSHA1 keyCmp answers ⟨walking, .value q⟩) mid).modifySub keyCmp q
          fun sub => { sub with hash := storedHash wcSHA1 (ctx.cached keyCmp q) } := by
    have hstale' : sub'.valueStale wcSHA1 (mid.cached keyCmp q) = true := by
      rw [hchild.cached_eq, OnSub.valueStale, hkept, hhash]
      exact hstale
    rw [onValTrig_spec walking hsub', if_pos hstale', hkept, hchild.cached_eq, ← hcalls]
    rfl
  -- the `ON_VALUE` callbacks up to the invocation
  have hlt : ∀ c ∈ before.map Prod.snd, c.pCb.addr < mid.alloc := fun c hc =>
    (h.lt_alloc (hown.1 c hc)).trans_le hchild.alloc
  have hquiet := invokeAll_worked hadds hchild.ready hlt (by rwa [List.length_map])
  have hstart := hchild.toAdditions.trans hquiet.toAdditions
  rw [← List.map_append, ← List.map_append] at hstart
  have hfold : (before.map Prod.snd).foldl (callCb wcSHA1 keyCmp answers ⟨walking, .value q⟩) mid =
      invokeAll answers (before.map Prod.snd) mid := foldl_callCb (by rwa [List.length_map]) _
  rw [trig_of_sub walking hsub, hvalue, List.foldl_append, List.foldl_cons, hfold, htrigger]
  set ctx₁ := invokeAll answers (before.map Prod.snd) mid with hctx₁
  obtain ⟨events₁, hone, -⟩ := callCb_effects hadds hstart.ready
    ((h.lt_alloc hown.2.1).trans_le hstart.alloc) ⟨walking, .value q⟩
  set ctx₂ := callCb wcSHA1 keyCmp answers ⟨walking, .value q⟩ ctx₁ call with hctx₂
  have hgrown := hstart.toGrown.trans hone.toGrown
  obtain ⟨events₂, hworked, -⟩ := calls_value_worked hadds hone.ready walking q
    (List.forall_mem_map.mpr fun x hx =>
      (h.lt_alloc (hown.2.2 _ (List.mem_map_of_mem hx))).trans_le hgrown.alloc :
        ∀ c ∈ after.map Prod.snd, c.pCb.addr < ctx₂.alloc)
  have hwrite := hworked.write q (f := fun sub =>
    { sub with hash := storedHash wcSHA1 (ctx.cached keyCmp q) }) (fun sub => rfl) fun sub => by
      rw [hworked.cached_eq, hgrown.cached_eq]
      exact ⟨fun type => ⟨[], rfl, by simp⟩, .inr rfl, .inl rfl⟩
  refine ⟨_, ctx₁, ctx₂, {
    start := hstart
    listen := (listen_invokeAll _ _).trans hlisten
    invoked := ⟨false, by rw [Bool.or_false], fun p hp => by cases hp⟩
    rest := hwrite.toAdditions
    silent := fun r pCb hpCb hne _ => ?_ }⟩
  refine hworked.silent (hone.ready.lt_alloc hpCb) fun c hc => ?_
  have hpCb' := hgrown.mem_cbs (hown.2.2 c hc)
  rintro rfl
  have hsame := (hone.ready.wellFormed.own q _ (mem_registrations.mpr ⟨_, hpCb'⟩)).1
  have hother := (hone.ready.wellFormed.own r _ (mem_registrations.mpr ⟨_, hpCb⟩)).1
  exact hne (congrArg Trigger.value (hsame.symm.trans hother))

/-- **A trigger, taken apart** at one of the invocations of its schedule, before
which nothing is registered. -/
theorem trig_split (h : ctx.Ready wcSHA1 keyCmp) (walking : Bool)
    (hsplit : ctx.scheduleAt wcSHA1 keyCmp q = before ++ (trigger, call) :: after)
    (hret : ReturnFor answers before.length ctx) : ∃ events ctx₁ ctx₂,
      SplitTrigger wcSHA1 keyCmp answers ⟨walking, trigger⟩ (before.map Prod.snd) call events ctx
        ctx₁ ctx₂ (trig wcSHA1 keyCmp answers walking q ctx) := by
  cases hsub : ctx.sub keyCmp q with
  | none =>
      rw [OnState.scheduleAt, hsub] at hsplit
      cases before <;> cases hsplit
  | some sub =>
      rw [scheduleAt_of_sub hsub] at hsplit
      rcases append_eq_split hsplit with ⟨before', rfl, hvalue⟩ | ⟨after', hchild, -⟩
      · rw [List.length_append] at hret
        exact trig_split_value hadds h walking hsub hvalue hret
      · exact trig_split_child hadds h walking hsub hchild hret

end Middle

/-! ### What the first of them registers -/

theorem onlyAdds_registersValue (q : Path) : (registersValue q).OnlyAdds :=
  ⟨.inl rfl, fun _ => rfl, .inl rfl, fun _ => rfl, rfl⟩

theorem onlyAdds_registersChildAdded (q : Path) : (registersChildAdded q).OnlyAdds :=
  ⟨.inr rfl, fun _ => rfl, rfl⟩

theorem listen_registerSilently (type : OnEventType) (path : Bytes) (ctx : OnCtx) :
    (registerSilently wcSHA1 keyCmp type path ctx).listen =
      wcDatasyncWatch keyCmp path (ctx.alloc + 1) ctx.listen := by
  rw [registerSilently, wcDatasyncOn, onRegistryAdd_emit]
  rfl

theorem run_register (type : OnEventType) (path : Bytes) (rest : CbRun)
    (dispatch : Option Dispatch) (ctx : OnCtx) :
    (CbRun.register type path (fun _ => .ret true) rest).run wcSHA1 keyCmp dispatch ctx =
      rest.run wcSHA1 keyCmp dispatch (registerSilently wcSHA1 keyCmp type path
        (ctx.emit (.register dispatch type (wcDatasyncPathParse path) ctx.toOnState))) := rfl

/-- With the root listening each path has something for a new `ON_VALUE`
callback. -/
theorem callsAtOnce_of_root (h : ctx.listen.Listens keyCmp []) (q : Path) :
    ctx.callsAtOnce keyCmp q = true := by
  by_cases hq : q = []
  · subst hq
    exact callsAtOnce_of_cached rfl
  · rw [OnState.callsAtOnce, wcIsListening_of_root h hq, Bool.or_true, Bool.true_or]

section Registered

variable [TransCmp keyCmp] [LawfulEqCmp keyCmp]

variable (wcSHA1) in
theorem subAt_registerSilently (ctx : OnCtx) (hreg : ctx.onReg.Ordered (wcDatasyncPathCmp keyCmp))
    (type : OnEventType) (s : Bytes) : ∃ sub,
      (registerSilently wcSHA1 keyCmp type (wcDatasyncPathToStr (wcDatasyncPathParse s)) ctx).subAt
          keyCmp (wcDatasyncPathParse s) =
        initSub wcSHA1 keyCmp type (wcDatasyncPathParse s) ctx.toOnState sub ∧
      sub.rebuilt = ctx.rebuilt keyCmp (wcDatasyncPathParse s) := by
  refine ⟨(ctx.subAt keyCmp (wcDatasyncPathParse s)).addCb type
    ⟨ctx.alloc, wcDatasyncPathParse s⟩, ?_, ?_⟩
  · rw [OnState.subAt, sub_registerSilently _ _ hreg, if_pos (parse_pathToStr s).symm]
    rfl
  · rw [rebuilt_eq_subAt]
    rfl

/-- Whoever waits at the path is not told any more. -/
theorem registersValue_settles (h : ctx.WellFormed keyCmp) (hheard : ctx.listen.RootHeard keyCmp)
    (hq : ∃ s, q = wcDatasyncPathParse s) (dispatch : Option Dispatch) :
    ((registersValue q).run wcSHA1 keyCmp dispatch ctx).1.SettledAt wcSHA1 keyCmp q .value := by
  obtain ⟨s, rfl⟩ := hq
  rw [registersValue, run_register, run_register]
  set event : Event := .register dispatch .value (wcDatasyncPathParse [slash]) ctx.toOnState
  set root := registerSilently wcSHA1 keyCmp .value [slash] (ctx.emit event) with hroot
  have hlistens : root.listen.Listens keyCmp [] := by
    rw [hroot, listen_registerSilently]
    exact (wcDatasyncWatch_rootHeard hheard [slash] _).2 rfl
  have hlinked := wellFormed_linkCb (h.congr rfl (Nat.le_refl _) : (ctx.emit event).WellFormed
    keyCmp) .value [slash]
  have hwf : root.WellFormed keyCmp :=
    hlinked.congr (map_cbList_registerSilently _ _ _) (by
      rw [hroot, alloc_registerSilently]
      exact Nat.le_succ _)
  set event' : Event := .register dispatch .value
    (wcDatasyncPathParse (wcDatasyncPathToStr (wcDatasyncPathParse s))) root.toOnState
  obtain ⟨sub, hsub, -⟩ := subAt_registerSilently wcSHA1 (root.emit event') hwf.ordered .value s
  have hcached (p : Path) : (registerSilently wcSHA1 keyCmp .value
      (wcDatasyncPathToStr (wcDatasyncPathParse s)) (root.emit event')).cached keyCmp p =
        root.cached keyCmp p := by
    rw [OnState.cached, cache_registerSilently]
    rfl
  show OnState.SettledAt wcSHA1 keyCmp (registerSilently wcSHA1 keyCmp .value
    (wcDatasyncPathToStr (wcDatasyncPathParse s)) (root.emit event')).toOnState _ _
  rw [OnState.SettledAt, hcached, hsub]
  exact hash_initSub (callsAtOnce_of_root hlistens _) _

/-- The nodes of the table are freed. -/
theorem registersChildAdded_frees (h : ctx.WellFormed keyCmp)
    (hq : ∃ s, q = wcDatasyncPathParse s) {children : Children} {hash : Option TreenodeHash}
    (hcached : ctx.cached keyCmp q = some (.internal children hash)) (dispatch : Option Dispatch) :
    ((registersChildAdded q).run wcSHA1 keyCmp dispatch ctx).1.rebuilt keyCmp q =
      ctx.rebuilt keyCmp q + 1 := by
  obtain ⟨s, rfl⟩ := hq
  rw [registersChildAdded, run_register]
  set event : Event := .register dispatch .childAdded
    (wcDatasyncPathParse (wcDatasyncPathToStr (wcDatasyncPathParse s))) ctx.toOnState
  obtain ⟨sub, hsub, hrebuilt⟩ := subAt_registerSilently wcSHA1 (ctx.emit event) h.ordered
    .childAdded s
  have hemitted : (ctx.emit event).cached keyCmp (wcDatasyncPathParse s) =
      some (.internal children hash) := hcached
  show OnState.rebuilt keyCmp (registerSilently wcSHA1 keyCmp .childAdded
    (wcDatasyncPathToStr (wcDatasyncPathParse s)) (ctx.emit event)).toOnState _ = _
  rw [rebuilt_eq_subAt, hsub, initSub_of_internal hemitted]
  exact congrArg (· + 1) hrebuilt

end Registered

end

end WebcomSdk.On
