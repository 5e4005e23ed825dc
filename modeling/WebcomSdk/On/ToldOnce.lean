import WebcomSdk.On.DispatchEnds
import WebcomSdk.On.FirstAddition

/-!
A dispatch whose callbacks add others. Each `ON_VALUE` callback that has something
to be told is told once, whatever is added from some invocation of the schedule
on, exactly when nobody else waits after that invocation and nothing is held at a
path with children.
-/

namespace WebcomSdk.On

open WebcomSdk.Lib WebcomSdk.Collection WebcomSdk.Datasync WebcomSdk.Cache Std

section

variable (wcSHA1 : SHA1) (keyCmp : Key → Key → Ordering)

/-- A push has been stored, and the dispatch for its path is to begin. -/
def OnCtx.AtPush (ctx : OnCtx) (path : Path) : Prop :=
  ∃ (before : OnCtx) (bytes : Bytes) (data : Json),
    Reach (OnCtx.step wcSHA1 keyCmp) (fun _ _ => True) onCtxNew before ∧ before.fault = false ∧
      path = wcDatasyncPathParse bytes ∧
      (ctx = { before with cache := dataCacheSet keyCmp bytes data before.cache } ∨
        ctx = { before with cache := dataCacheMerge keyCmp bytes data before.cache })

/-- The dispatch for `path` concerns the `ON_VALUE` callbacks at `q`, and the
hash of their `on_sub` is not that of the cached value. -/
def OnState.Due (ctx : OnState) (path q : Path) : Prop :=
  Related path q ∧ ctx.cbs keyCmp q .value ≠ [] ∧
    treenodeHashEq (valueHash wcSHA1 (ctx.cached keyCmp q)) (some (ctx.subAt keyCmp q).hash) = false

/-- The dispatch for `path` from `ctx` has called each callback that was due
exactly once. -/
def OnCtx.ToldOnce (ctx : OnCtx) (path : Path) (ctx' : OnCtx) : Prop :=
  ctx'.fault = false ∧ ∀ q, ctx.Due wcSHA1 keyCmp path q → ∀ pCb ∈ ctx.cbs keyCmp q .value,
    (ctx'.log.drop ctx.log.length).countP (Event.isCallTo pCb) = 1

/-- From the `k`-th invocation of the schedule on, whoever is still to be told a
value is told by the trigger that is running, and what `on_child_trig` holds is at
a path without children. -/
def OnState.SettlesBy (ctx : OnState) (path : Path) (k : ℕ) : Prop :=
  ∀ trigger call after, (trigger, call) :: after <:+ (ctx.schedule wcSHA1 keyCmp path).drop k →
    (∀ q c, (Trigger.value q, c) ∈ after → trigger = .value q) ∧
      ∀ q, trigger = .child q true →
        ∀ children hash, ctx.cached keyCmp q ≠ some (.internal children hash)

/-- The triggers in turn have told the callbacks of these paths, and freed nothing
that was held. -/
structure AllTold (P : Path → Prop) (events : List Event) (ctx c : OnCtx) : Prop
    extends Triggered wcSHA1 keyCmp events ctx c where
  safe : c.fault = false
  told : ∀ q, P q → ∀ pCb ∈ ctx.cbs keyCmp q .value, ¬ ctx.SettledAt wcSHA1 keyCmp q .value →
    c.SettledAt wcSHA1 keyCmp q .value ∧ events.countP (Event.isCallTo pCb) = 1
  table : ∀ q, P q → ∀ children hash, ctx.cached keyCmp q = some (.internal children hash) →
    c.SettledAt wcSHA1 keyCmp q .childAdded ∨
      ∀ x ∈ ctx.scheduleAt wcSHA1 keyCmp q, x.1 ≠ .child q true

end

variable {wcSHA1 : SHA1} {keyCmp : Key → Key → Ordering} {answers : ℕ → CbRun}
  {ctx ctx' c : OnCtx} {path q : Path} {events : List Event} {k : ℕ}

/-! ### Who waits -/

theorem due_iff {ctx : OnState} : ctx.Due wcSHA1 keyCmp path q ↔
    Related path q ∧ ctx.cbs keyCmp q .value ≠ [] ∧ ¬ ctx.SettledAt wcSHA1 keyCmp q .value := by
  have hhash : treenodeHashEq (valueHash wcSHA1 (ctx.cached keyCmp q))
      (some (ctx.subAt keyCmp q).hash) = false ↔ ¬ ctx.SettledAt wcSHA1 keyCmp q .value := by
    rw [← Bool.not_eq_true, treenodeHashEq_iff]
    exact not_congr eq_comm
  rw [OnState.Due, hhash]

/-- Whoever waits is in the schedule of the path. -/
theorem mem_scheduleAt_of_waiting {ctx : OnState} {pCb : OnCb}
    (hpCb : pCb ∈ ctx.cbs keyCmp q .value) (hnot : ¬ ctx.SettledAt wcSHA1 keyCmp q .value) :
    ∃ sub, ctx.sub keyCmp q = some sub ∧ (Trigger.value q, valueCall (ctx.cached keyCmp q) pCb) ∈
      valueSchedule wcSHA1 q (ctx.cached keyCmp q) sub := by
  obtain ⟨sub, hsub⟩ := Option.isSome_iff_exists.mp (isSome_of_mem_cbs hpCb)
  rw [cbs_of_sub hsub] at hpCb
  rw [OnState.SettledAt, subAt_of_sub hsub] at hnot
  have hstale : sub.valueStale wcSHA1 (ctx.cached keyCmp q) = true := by
    by_contra hquiet
    have heq : treenodeHashEq (valueHash wcSHA1 (ctx.cached keyCmp q)) (some sub.hash) = true := by
      simpa [OnSub.valueStale, List.ne_nil_of_mem hpCb] using hquiet
    exact hnot (treenodeHashEq_iff.mp heq).symm
  refine ⟨sub, hsub, List.mem_map_of_mem ?_⟩
  rw [valCalls, if_pos hstale]
  exact List.mem_map_of_mem hpCb

theorem waiting_of_mem_scheduleAt {ctx : OnState} {call : Call}
    (hx : (Trigger.value q, call) ∈ ctx.scheduleAt wcSHA1 keyCmp q) :
    call.pCb ∈ ctx.cbs keyCmp q .value ∧ ¬ ctx.SettledAt wcSHA1 keyCmp q .value := by
  rw [OnState.scheduleAt] at hx
  cases hsub : ctx.sub keyCmp q with
  | none => simp [hsub] at hx
  | some sub =>
      simp only [hsub] at hx
      have hvalue : (Trigger.value q, call) ∈ valueSchedule wcSHA1 q (ctx.cached keyCmp q) sub := by
        refine (List.mem_append.mp hx).resolve_left fun hchild => ?_
        obtain ⟨held, h⟩ := trigger_of_mem_childSchedule hchild
        cases h
      obtain ⟨c, hc, heq⟩ := List.mem_map.mp hvalue
      obtain rfl : c = call := congrArg Prod.snd heq
      rw [valCalls] at hc
      split at hc
      case isFalse => cases hc
      next hstale =>
        obtain ⟨pCb, hpCb, rfl⟩ := List.mem_map.mp hc
        rw [cbs_of_sub hsub, OnState.SettledAt, subAt_of_sub hsub]
        refine ⟨hpCb, fun hsettled => ?_⟩
        rw [valueStale_of_settled hsettled] at hstale
        cases hstale

/-! ### Triggers that tell -/

/-- Where all are told nothing is held at a path with children any more. -/
theorem AllTold.not_held [ReflCmp keyCmp] {P : Path → Prop}
    (h : AllTold wcSHA1 keyCmp P events ctx c) (hq : P q) {children : Children}
    {hash : Option TreenodeHash} (hinternal : ctx.cached keyCmp q = some (.internal children hash))
    {x : Trigger × Call} (hx : x ∈ c.scheduleAt wcSHA1 keyCmp q) : x.1 ≠ .child q true := by
  intro hheld
  rw [OnState.scheduleAt] at hx
  cases hsub : c.sub keyCmp q with
  | none => simp [hsub] at hx
  | some sub =>
  simp only [hsub] at hx
  have hchild : x ∈ childSchedule wcSHA1 keyCmp q (c.cached keyCmp q) sub := by
    refine (List.mem_append.mp hx).resolve_right fun hvalue => ?_
    rw [trigger_of_mem_valueSchedule hvalue] at hheld
    cases hheld
  have hsettled : ¬ c.SettledAt wcSHA1 keyCmp q .childAdded := by
    intro hsettled
    rw [OnState.SettledAt, subAt_of_sub hsub] at hsettled
    rw [childSchedule] at hchild
    split at hchild
    · simp [childTriggers_eq_nil hsettled] at hchild
    · cases hchild
  -- neither the table nor the child callbacks of the path have changed
  have htable : sub.childrenHashes.toList = (ctx.subAt keyCmp q).childrenHashes.toList := by
    have hgrown := (h.sub q).table
    rw [subAt_of_sub hsub] at hgrown
    refine hgrown.resolve_right fun hset => hsettled ?_
    rw [OnState.SettledAt, subAt_of_sub hsub, h.cached_eq]
    exact hset
  have hcbs : ∀ type, type ≠ .value → sub.cbList type = (ctx.subAt keyCmp q).cbList type := by
    intro type htype
    have hpresent : Present (ctx.cached keyCmp q) type := by
      cases type with
      | value => exact absurd rfl htype
      | _ => exact ⟨children, hash, hinternal⟩
    rw [← cbs_of_sub hsub, ← cbs_eq_subAt]
    refine (h.kept q type hpresent).resolve_left fun hset => hsettled ?_
    exact (settled_iff (by decide)).mpr ((settled_iff htype).mp hset)
  rw [childSchedule_congr htable hcbs, h.cached_eq] at hchild
  refine (h.table q hq children hash hinternal).resolve_left hsettled x ?_ hheld
  cases hsub' : ctx.sub keyCmp q with
  | none =>
      rw [OnState.subAt, hsub'] at hchild
      cases hchild
  | some sub' =>
      rw [subAt_of_sub hsub'] at hchild
      rw [scheduleAt_of_sub hsub']
      exact List.mem_append_left _ hchild

section Triggers

variable [TransCmp keyCmp] [LawfulEqCmp keyCmp] (hadds : ∀ n, (answers n).OnlyAdds)
include hadds

/-- **The trigger of the next path** tells whoever waits there, when nothing is
registered before it comes to them. -/
theorem AllTold.step {done : List Path} (h : AllTold wcSHA1 keyCmp (· ∈ done) events ctx c)
    (hsub : c.sub keyCmp q = ctx.sub keyCmp q) {m : ℕ} (hret : ReturnFor answers m c)
    (hheld : ∀ x ∈ (ctx.scheduleAt wcSHA1 keyCmp q).drop m, x.1 = .child q true →
      ∀ children hash, ctx.cached keyCmp q ≠ some (.internal children hash))
    (hvalue : ∀ sub, ctx.sub keyCmp q = some sub → ctx.cbs keyCmp q .value ≠ [] →
      ¬ ctx.SettledAt wcSHA1 keyCmp q .value →
        (childSchedule wcSHA1 keyCmp q (ctx.cached keyCmp q) sub).length ≤ m) (walking : Bool) :
    ∃ events', AllTold wcSHA1 keyCmp (· ∈ done ++ [q]) events' ctx
      (trig wcSHA1 keyCmp answers walking q c) := by
  have hcached : c.cached keyCmp q = ctx.cached keyCmp q := h.cached_eq q
  have hsched : c.scheduleAt wcSHA1 keyCmp q = ctx.scheduleAt wcSHA1 keyCmp q :=
    scheduleAt_congr hsub hcached
  have hcbs : c.cbs keyCmp q = ctx.cbs keyCmp q := by rw [OnState.cbs, hsub, OnState.cbs]
  have hsettled : c.SettledAt wcSHA1 keyCmp q .value ↔ ctx.SettledAt wcSHA1 keyCmp q .value := by
    rw [OnState.SettledAt, OnState.SettledAt, hcached, OnState.subAt, hsub, OnState.subAt]
  obtain ⟨events', htrig, hown⟩ : ∃ events', Triggered wcSHA1 keyCmp events' c
      (trig wcSHA1 keyCmp answers walking q c) ∧
        ∀ pCb ∈ ctx.cbs keyCmp q .value, ¬ ctx.SettledAt wcSHA1 keyCmp q .value →
          (trig wcSHA1 keyCmp answers walking q c).SettledAt wcSHA1 keyCmp q .value ∧
            events'.countP (Event.isCallTo pCb) = 1 := by
    by_cases hwaits : ctx.cbs keyCmp q .value ≠ [] ∧ ¬ ctx.SettledAt wcSHA1 keyCmp q .value
    · obtain ⟨pCb, hpCb⟩ := List.exists_mem_of_ne_nil _ hwaits.1
      obtain ⟨sub, hsub', -⟩ := mem_scheduleAt_of_waiting hpCb hwaits.2
      have hlen := hvalue sub hsub' hwaits.1 hwaits.2
      rw [← hcached] at hlen
      obtain ⟨events', htrig, hset, hcount⟩ := trig_tells hadds h.ready walking
        (hsub.trans hsub') (hcbs ▸ hwaits.1) (hsettled.not.mpr hwaits.2) (hret.mono hlen)
      exact ⟨events', htrig, fun pCb hpCb _ => ⟨hset, hcount pCb (hcbs ▸ hpCb)⟩⟩
    · obtain ⟨events', htrig⟩ := trig_triggered hadds h.ready walking q
      exact ⟨events', htrig.toTriggered, fun pCb hpCb hnot =>
        absurd ⟨List.ne_nil_of_mem hpCb, hnot⟩ hwaits⟩
  refine ⟨events ++ events', h.toTriggered.trans htrig, ?_, fun p hp pCb hpCb hnot => ?_,
    fun p hp children hash hinternal => ?_⟩
  · rw [trig_fault hadds h.ready walking hret (by rwa [hsched, hcached]), h.safe]
  · rw [List.countP_append]
    rcases List.mem_append.mp hp with hp | hp
    · obtain ⟨hset, hcount⟩ := h.told p hp pCb hpCb hnot
      exact ⟨htrig.settledAt hset, by
        rw [hcount, htrig.settled p pCb (h.mem_cbs hpCb) hset]⟩
    · obtain rfl := List.mem_singleton.mp hp
      obtain ⟨hset, hcount⟩ := hown pCb hpCb hnot
      exact ⟨hset, by rw [hcount, h.waiting p pCb hpCb (hsettled.not.mpr hnot)]⟩
  · rcases List.mem_append.mp hp with hp | hp
    · exact (h.table p hp children hash hinternal).imp_left htrig.settledAt
    · obtain rfl := List.mem_singleton.mp hp
      rw [← hsched]
      exact (trig_settles_child hadds h.ready walking p).symm.imp_right fun hnone x hx =>
        hnone x hx true

/-- **Any trigger**, once all are told. -/
theorem AllTold.keep (h : AllTold wcSHA1 keyCmp (Related path) events ctx c)
    (hrelated : Related path q) (walking : Bool) : ∃ events',
      AllTold wcSHA1 keyCmp (Related path) events' ctx
        (trig wcSHA1 keyCmp answers walking q c) := by
  obtain ⟨events', htrig⟩ := trig_triggered hadds h.ready walking q
  refine ⟨events ++ events', h.toTriggered.trans htrig.toTriggered, ?_,
    fun p hp pCb hpCb hnot => ?_, fun p hp children hash hinternal => ?_⟩
  · rw [trig_fault hadds h.ready walking (.zero answers c) ?_, h.safe]
    intro x hx hheld children hash hinternal
    rw [h.cached_eq] at hinternal
    exact h.not_held hrelated hinternal hx hheld
  · obtain ⟨hset, hcount⟩ := h.told p hp pCb hpCb hnot
    refine ⟨htrig.settledAt hset, ?_⟩
    rw [List.countP_append, hcount, htrig.settled p pCb (h.mem_cbs hpCb) hset]
  · exact (h.table p hp children hash hinternal).imp_left htrig.settledAt

omit [TransCmp keyCmp] [LawfulEqCmp keyCmp] hadds in
/-- The paths after those done have nobody who waits and hold nothing. -/
theorem AllTold.widen {P Q : Path → Prop} (h : AllTold wcSHA1 keyCmp P events ctx c)
    (hrest : ∀ p, Q p → ¬ P p →
      (∀ call, (Trigger.value p, call) ∉ ctx.scheduleAt wcSHA1 keyCmp p) ∧
      ∀ children hash, ctx.cached keyCmp p = some (.internal children hash) →
        ∀ x ∈ ctx.scheduleAt wcSHA1 keyCmp p, x.1 ≠ .child p true) :
    AllTold wcSHA1 keyCmp Q events ctx c := by
  refine ⟨h.toTriggered, h.safe, fun p hp pCb hpCb hnot => ?_,
    fun p hp children hash hinternal => ?_⟩
  · by_cases hdone : P p
    · exact h.told p hdone pCb hpCb hnot
    · obtain ⟨sub, hsub, hmem⟩ := mem_scheduleAt_of_waiting hpCb hnot
      refine absurd ?_ ((hrest p hp hdone).1 (valueCall (ctx.cached keyCmp p) pCb))
      rw [scheduleAt_of_sub hsub]
      exact List.mem_append_right _ hmem
  · by_cases hdone : P p
    · exact h.table p hdone children hash hinternal
    · exact .inr ((hrest p hp hdone).2 children hash hinternal)

end Triggers

/-! ### What is settled in time -/

section Settled

variable {done rest : List Path}

theorem OnState.SettlesBy.not_held {ctx : OnState} (h : ctx.SettlesBy wcSHA1 keyCmp path k)
    {x : Trigger × Call} (hx : x ∈ (ctx.schedule wcSHA1 keyCmp path).drop k)
    (hheld : x.1 = .child q true) (children : Children) (hash : Option TreenodeHash) :
    ctx.cached keyCmp q ≠ some (.internal children hash) := by
  obtain ⟨before, after, hsplit⟩ := List.append_of_mem hx
  exact (h x.1 x.2 after ⟨before, hsplit.symm⟩).2 q hheld children hash

theorem OnState.SettlesBy.waits {ctx : OnState} (h : ctx.SettlesBy wcSHA1 keyCmp path k)
    {x : Trigger × Call} {after : List (Trigger × Call)}
    (hdrop : (ctx.schedule wcSHA1 keyCmp path).drop k = x :: after) {call : Call}
    (hwaits : (Trigger.value q, call) ∈ after) : x.1 = .value q := by
  refine (h x.1 x.2 after ?_).1 q call hwaits
  rw [hdrop]

/-- What is left of the schedule before the trigger of a path. -/
theorem drop_schedule (hpaths : dispatchPaths keyCmp path ctx.onReg = done ++ q :: rest)
    (hle : (done.flatMap (ctx.scheduleAt wcSHA1 keyCmp)).length ≤ k) :
    (ctx.schedule wcSHA1 keyCmp path).drop k = (ctx.scheduleAt wcSHA1 keyCmp q ++
      rest.flatMap (ctx.scheduleAt wcSHA1 keyCmp)).drop
        (k - (done.flatMap (ctx.scheduleAt wcSHA1 keyCmp)).length) := by
  rw [OnState.schedule, hpaths, List.flatMap_append, List.flatMap_cons, List.drop_append,
    List.drop_eq_nil_of_le hle, List.nil_append]

variable [TransCmp keyCmp] [LawfulEqCmp keyCmp]

/-- The trigger of the next path, in a schedule that is settled in time. -/
theorem AllTold.next (h : AllTold wcSHA1 keyCmp (· ∈ done) events ctx c)
    (hadds : ∀ n, (answers n).OnlyAdds) (hready : ctx.Ready wcSHA1 keyCmp)
    (hret : ReturnFor answers k ctx) (hsettles : ctx.SettlesBy wcSHA1 keyCmp path k)
    (hpaths : dispatchPaths keyCmp path ctx.onReg = done ++ q :: rest)
    (hfollowed : Followed wcSHA1 keyCmp answers k ctx done c) (walking : Bool) :
    ∃ events', AllTold wcSHA1 keyCmp (· ∈ done ++ [q]) events' ctx
      (trig wcSHA1 keyCmp answers walking q c) := by
  obtain ⟨-, -, hsub, -, hleft⟩ := hfollowed.next hready.wellFormed.ordered hpaths
  have hdrop := drop_schedule hpaths hfollowed.short
  set m := k - (done.flatMap (ctx.scheduleAt wcSHA1 keyCmp)).length with hm
  refine h.step hadds hsub (hleft k hret) (fun x hx hheld => hsettles.not_held ?_ hheld)
    (fun sub hsub' hne hnot => ?_) walking
  · rw [hdrop, List.drop_append]
    exact List.mem_append_left _ hx
  · by_contra hlt
    -- a child callback of the path is called while others wait there
    obtain ⟨pCb, hpCb⟩ := List.exists_mem_of_ne_nil _ hne
    obtain ⟨sub', hsub'', hwaits⟩ := mem_scheduleAt_of_waiting hpCb hnot
    obtain rfl : sub' = sub := Option.some.inj (hsub''.symm.trans hsub')
    obtain ⟨x, hx, tail, hcons⟩ := exists_cons_drop (Nat.lt_of_not_le hlt)
    rw [scheduleAt_of_sub hsub', List.append_assoc,
      List.drop_append_of_le_length (Nat.le_of_not_le hlt), hcons, List.cons_append] at hdrop
    have htrigger := hsettles.waits hdrop
      (List.mem_append_right _ (List.mem_append_left _ hwaits))
    obtain ⟨held, hchild⟩ := trigger_of_mem_childSchedule hx
    rw [hchild] at htrigger
    cases htrigger

/-- **Settled in time, all are told.** -/
theorem told_of_settlesBy (hadds : ∀ n, (answers n).OnlyAdds) (h : ctx.Ready wcSHA1 keyCmp)
    (hfault : ctx.fault = false) (hret : ReturnFor answers k ctx)
    (hsettles : ctx.SettlesBy wcSHA1 keyCmp path k) {fuel : ℕ}
    (hdispatch : onRegistryDispatchOnEvent wcSHA1 keyCmp answers path fuel ctx = some ctx') :
    ∃ ctx₁ events, ctx' = deletedCbGc keyCmp ctx₁ ∧
      AllTold wcSHA1 keyCmp (Related path) events ctx ctx₁ := by
  have hreg := h.wellFormed.ordered
  have hpaths : ∀ p, Related path p → p ∉ dispatchPaths keyCmp path ctx.onReg →
      ctx.scheduleAt wcSHA1 keyCmp p = [] := by
    intro p hp hnot
    rw [OnState.scheduleAt]
    cases hsub : ctx.sub keyCmp p with
    | none => rfl
    | some sub => exact absurd ((mem_dispatchPaths hreg hsub).mpr hp) hnot
  have hrest : ∀ p, ctx.scheduleAt wcSHA1 keyCmp p = [] →
      (∀ call, (Trigger.value p, call) ∉ ctx.scheduleAt wcSHA1 keyCmp p) ∧
        ∀ children hash, ctx.cached keyCmp p = some (.internal children hash) →
          ∀ x ∈ ctx.scheduleAt wcSHA1 keyCmp p, x.1 ≠ .child p true := by
    intro p hp
    rw [hp]
    exact ⟨fun _ => List.not_mem_nil, fun _ _ _ _ hx => absurd hx List.not_mem_nil⟩
  have hstart : AllTold wcSHA1 keyCmp (· ∈ ([] : List Path)) [] ctx ctx :=
    ⟨.refl h, hfault, fun p hp => absurd hp List.not_mem_nil,
      fun p hp => absurd hp List.not_mem_nil⟩
  have hloud : ∀ walking done q rest c, dispatchPaths keyCmp path ctx.onReg = done ++ q :: rest →
      Followed wcSHA1 keyCmp answers k ctx done c →
      (∃ events, AllTold wcSHA1 keyCmp (· ∈ done) events ctx c) →
      k < ((done ++ [q]).flatMap (ctx.scheduleAt wcSHA1 keyCmp)).length →
        ∃ events, AllTold wcSHA1 keyCmp (Related path) events ctx
          (trig wcSHA1 keyCmp answers walking q c) := by
    rintro walking done q rest c hq hfollowed ⟨events, htold⟩ hlt
    obtain ⟨events', htold'⟩ := htold.next hadds h hret hsettles hq hfollowed walking
    refine ⟨events', htold'.widen fun p hp hnot => ?_⟩
    by_cases hlater : p ∈ rest
    case neg =>
      refine hrest p (hpaths p hp fun hmem => ?_)
      rw [hq, List.append_cons] at hmem
      exact (List.mem_append.mp hmem).elim hnot hlater
    -- the first of the invocations that may register something is in the trigger of `q`
    have hshort := hfollowed.short
    have hdrop := drop_schedule hq hshort
    rw [List.flatMap_append, List.flatMap_singleton, List.length_append] at hlt
    set m := k - (done.flatMap (ctx.scheduleAt wcSHA1 keyCmp)).length with hm
    have hlt' : m < (ctx.scheduleAt wcSHA1 keyCmp q).length := by omega
    obtain ⟨x, hx, tail, hcons⟩ := exists_cons_drop hlt'
    rw [List.drop_append_of_le_length hlt'.le, hcons, List.cons_append] at hdrop
    have hmem : ∀ y ∈ ctx.scheduleAt wcSHA1 keyCmp p, y ∈ tail ++
        rest.flatMap (ctx.scheduleAt wcSHA1 keyCmp) := fun y hy =>
      List.mem_append_right _ (List.mem_flatMap.mpr ⟨p, hlater, hy⟩)
    refine ⟨fun call hwaits => ?_, fun children hash hinternal y hy hheld => ?_⟩
    · have htrigger := hsettles.waits hdrop (hmem _ hwaits)
      have hx' : (Trigger.value p, x.2) ∈ ctx.scheduleAt wcSHA1 keyCmp q := by
        rw [← htrigger]
        exact hx
      obtain rfl := eq_of_mem_scheduleAt hx'
      exact hnot (List.mem_append_right _ List.mem_cons_self)
    · refine hsettles.not_held ?_ hheld children hash hinternal
      rw [hdrop]
      exact List.mem_cons_of_mem _ (hmem y hy)
  obtain ⟨ctx₁, rfl, ⟨-, events, htold⟩ | ⟨events, htold⟩⟩ := dispatch_followed
    (J := fun done c => ∃ events, AllTold wcSHA1 keyCmp (· ∈ done) events ctx c)
    (F := fun c => ∃ events, AllTold wcSHA1 keyCmp (Related path) events ctx c) hreg hret
    (fun walking done q rest c hq hfollowed hquiet _ => by
      obtain ⟨events, htold⟩ := hquiet
      exact htold.next hadds h hret hsettles hq hfollowed walking) hloud
    (fun walking q c hrelated hall => by
      obtain ⟨events, htold⟩ := hall
      exact htold.keep hadds hrelated walking) ⟨[], hstart⟩ hdispatch
  · exact ⟨ctx₁, events, rfl, htold.widen fun p hp hnot => hrest p (hpaths p hp hnot)⟩
  · exact ⟨ctx₁, events, rfl, htold⟩

end Settled

/-! ### What is not settled in time -/

section Unsettled

/-- No callback is cancelled, so nothing follows the triggers. -/
theorem Additions.collected (h : Additions wcSHA1 keyCmp events ctx c)
    (hnil : ctx.deletedCbList = []) : deletedCbGc keyCmp c = { c with deletedCbList := [] } := by
  rw [deletedCbGc, h.queue.trans hnil]
  rfl

variable [TransCmp keyCmp] [LawfulEqCmp keyCmp]

theorem OnCtx.AtPush.ready (h : ctx.AtPush wcSHA1 keyCmp path) :
    ctx.Ready wcSHA1 keyCmp ∧ ctx.deletedCbList = [] ∧ ctx.fault = false := by
  obtain ⟨before, bytes, data, run, hfault, -, hpush⟩ := h
  obtain ⟨hready, hnil⟩ := reach_ready run hfault
  rcases hpush with rfl | rfl
  · exact ⟨⟨hready.wellFormed.congr rfl (Nat.le_refl _), dataCacheSetEx_ok _ data hready.cacheOk,
      hready.logged⟩, hnil, hfault⟩
  · exact ⟨⟨hready.wellFormed.congr rfl (Nat.le_refl _), dataCacheMerge_ok _ data hready.cacheOk,
      hready.logged⟩, hnil, hfault⟩

/-- **A dispatch, taken apart** at one of the invocations of its schedule. -/
theorem dispatch_split (hadds : ∀ n, (answers n).OnlyAdds) (h : ctx.Ready wcSHA1 keyCmp)
    {before after : List (Trigger × Call)} {trigger : Trigger} {call : Call}
    (hsplit : ctx.schedule wcSHA1 keyCmp path = before ++ (trigger, call) :: after)
    (hret : ReturnFor answers before.length ctx) {F : OnCtx → Prop}
    (hhit : ∀ walking events ctx₁ ctx₂ c, SplitTrigger wcSHA1 keyCmp answers ⟨walking, trigger⟩
      (before.map Prod.snd) call events ctx ctx₁ ctx₂ c → F c)
    (hkeep : ∀ walking q c, Related path q → F c → F (trig wcSHA1 keyCmp answers walking q c))
    {fuel : ℕ}
    (hdispatch : onRegistryDispatchOnEvent wcSHA1 keyCmp answers path fuel ctx = some ctx') :
    ∃ ctx₁, ctx' = deletedCbGc keyCmp ctx₁ ∧ F ctx₁ := by
  have hreg := h.wellFormed.ordered
  have hnodup : (dispatchPaths keyCmp path ctx.onReg).Nodup := nodup_dispatchPaths hreg
  have hquiet : ∀ walking done q rest c, dispatchPaths keyCmp path ctx.onReg = done ++ q :: rest →
      Followed wcSHA1 keyCmp answers before.length ctx done c →
      Additions wcSHA1 keyCmp
        (((done.flatMap (ctx.scheduleAt wcSHA1 keyCmp)).map Prod.snd).map .call) ctx c →
      Followed wcSHA1 keyCmp answers before.length ctx (done ++ [q])
        (trig wcSHA1 keyCmp answers walking q c) →
        Additions wcSHA1 keyCmp
          ((((done ++ [q]).flatMap (ctx.scheduleAt wcSHA1 keyCmp)).map Prod.snd).map .call) ctx
            (trig wcSHA1 keyCmp answers walking q c) := by
    intro walking done q rest c hq _ hJ hnext
    obtain ⟨events, htrig⟩ := trig_triggered hadds hJ.ready walking q
    have hall := hJ.trans htrig.toAdditions
    have hdone : (done ++ [q]).Nodup := by
      rw [hq, List.append_cons] at hnodup
      exact hnodup.of_append_left
    obtain ⟨reg, heq, -⟩ := hnext.state hreg hdone
    have hlog : (trig wcSHA1 keyCmp answers walking q c).log = _ :=
      (congrArg OnCtx.log heq).trans (log_invokeAll _ _)
    rw [hall.logged] at hlog
    rw [List.append_cancel_left hlog] at hall
    exact hall
  have hloud : ∀ walking done q rest c, dispatchPaths keyCmp path ctx.onReg = done ++ q :: rest →
      Followed wcSHA1 keyCmp answers before.length ctx done c →
      Additions wcSHA1 keyCmp
        (((done.flatMap (ctx.scheduleAt wcSHA1 keyCmp)).map Prod.snd).map .call) ctx c →
      before.length < ((done ++ [q]).flatMap (ctx.scheduleAt wcSHA1 keyCmp)).length →
        F (trig wcSHA1 keyCmp answers walking q c) := by
    intro walking done q rest c hq hfollowed hJ hlt
    have hshort := hfollowed.short
    rw [OnState.schedule, hq, List.flatMap_append, List.flatMap_cons] at hsplit
    rw [List.flatMap_append, List.flatMap_singleton, List.length_append] at hlt
    obtain ⟨-, hlisten, -, hsched, hleft⟩ := hfollowed.next hreg hq
    -- the invocation is one of those for `q`
    rcases append_eq_split hsplit with ⟨before₁, rfl, hrest⟩ | ⟨after₁, hdone, -⟩
    case inr =>
      rw [hdone, List.length_append, List.length_cons] at hshort
      omega
    rcases append_eq_split hrest with ⟨before₂, rfl, -⟩ | ⟨after₁, hown, -⟩
    case inl =>
      rw [List.length_append, List.length_append] at hlt
      omega
    have hret' := hleft _ hret
    rw [List.length_append, Nat.add_sub_cancel_left] at hret'
    obtain ⟨events, ctx₁, ctx₂, hone⟩ :=
      trig_split hadds hJ.ready walking (hsched.trans hown) hret'
    refine hhit walking events ctx₁ ctx₂ _ ⟨?_, hone.listen.trans hlisten, hone.invoked, hone.rest,
      hone.silent⟩
    rw [List.map_append, List.map_append]
    exact hJ.trans hone.start
  obtain ⟨ctx₁, rfl, ⟨hfollowed, -⟩ | hF⟩ := dispatch_followed hreg hret hquiet hloud hkeep
    (.refl h) hdispatch
  · have hshort := hfollowed.short
    rw [← OnState.schedule, hsplit, List.length_append, List.length_cons] at hshort
    omega
  · exact ⟨ctx₁, rfl, hF⟩

theorem OnCtx.AtPush.rootHeard (h : ctx.AtPush wcSHA1 keyCmp path) :
    ctx.listen.RootHeard keyCmp := by
  obtain ⟨before, bytes, data, run, -, -, hpush⟩ := h
  have hheard := reach_rootHeard run
  rcases hpush with rfl | rfl <;> exact hheard

theorem OnState.WellFormed.parsed_of_sub {ctx : OnState} (h : ctx.WellFormed keyCmp)
    (hsome : (ctx.sub keyCmp q).isSome) : ∃ s, q = wcDatasyncPathParse s := by
  obtain ⟨sub, hsub⟩ := Option.isSome_iff_exists.mp hsome
  exact h.parsed _ ((avlFind_eq_some_iff h.ordered).mp hsub)

/-- All callbacks return at once, but for the one invoked as the `n`-th event. -/
def onlyAt (n : ℕ) (r : CbRun) : ℕ → CbRun := fun m => if m = n then r else .ret true

omit [TransCmp keyCmp] [LawfulEqCmp keyCmp] in
theorem onlyAdds_onlyAt {r : CbRun} (hr : r.OnlyAdds) (n m : ℕ) : (onlyAt n r m).OnlyAdds := by
  rw [onlyAt]
  split
  · exact hr
  · rfl

omit [TransCmp keyCmp] [LawfulEqCmp keyCmp] in
theorem onlyAt_lt (r : CbRun) {n m : ℕ} (h : m < n) : onlyAt n r m = .ret true :=
  if_neg h.ne

omit [TransCmp keyCmp] [LawfulEqCmp keyCmp] in
/-- The invocation that makes the difference. -/
theorem SplitTrigger.callCb_eq {n : ℕ} {r : CbRun} {d : Dispatch} {calls : List Call}
    {call : Call} {ctx₁ ctx₂ : OnCtx} (h : SplitTrigger wcSHA1 keyCmp
      (onlyAt (ctx.log.length + n) r) d calls call events ctx ctx₁ ctx₂ c)
    (hn : calls.length = n) (hr : r.OnlyAdds) :
    callCb wcSHA1 keyCmp (onlyAt (ctx.log.length + n) r) d ctx₁ call =
      (r.run wcSHA1 keyCmp (some d) (ctx₁.emit (.call call))).1 := by
  have hat : onlyAt (ctx.log.length + n) r ctx₁.log.length = r := by
    rw [h.start.logged, List.length_append, List.length_map, hn]
    exact if_pos rfl
  rw [callCb_of_adds (onlyAdds_onlyAt hr _), hat]

section Invocation

variable {before after : List (Trigger × Call)} {trigger : Trigger} {call : Call}

omit [TransCmp keyCmp] [LawfulEqCmp keyCmp] in
/-- An entry of the schedule that invokes an `ON_VALUE` callback. -/
theorem trigger_of_pCb (h : ctx.Ready wcSHA1 keyCmp) {x : Trigger × Call}
    (hx : x ∈ ctx.schedule wcSHA1 keyCmp path) (hpCb : x.2.pCb ∈ ctx.cbs keyCmp q .value) :
    x.1 = .value q := by
  obtain ⟨p, -, hx⟩ := List.mem_flatMap.mp hx
  obtain ⟨hown, hvalue⟩ := pCb_of_mem_scheduleAt hx
  have hp := (h.wellFormed.own p _ (mem_registrations.mpr ⟨_, hown⟩)).1
  obtain rfl := hp.symm.trans (h.wellFormed.own q _ (mem_registrations.mpr ⟨_, hpCb⟩)).1
  exact hvalue (type_unique (h.wellFormed.nodup p) hown hpCb)

/-- The callback that registers `ON_VALUE` for a path silences whoever waits there. -/
theorem SplitTrigger.unheard {walking : Bool} {ctx₁ ctx₂ : OnCtx} {pCb : OnCb}
    (hs : SplitTrigger wcSHA1 keyCmp
      (onlyAt (ctx.log.length + before.length) (registersValue q)) ⟨walking, trigger⟩
        (before.map Prod.snd) call events ctx ctx₁ ctx₂ c)
    (h : ctx.Ready wcSHA1 keyCmp) (hheard : ctx.listen.RootHeard keyCmp)
    (hlt : call.pCb.addr < ctx.alloc) (hpCb : pCb ∈ ctx.cbs keyCmp q .value)
    (hne : trigger ≠ .value q) (hcall : call.pCb ≠ pCb) (hbefore : ∀ x ∈ before, x.2.pCb ≠ pCb) :
    ∃ events, Additions wcSHA1 keyCmp events ctx c ∧
      events.countP (Event.isCallTo pCb) = 0 ∧ c.SettledAt wcSHA1 keyCmp q .value := by
  have hadds := onlyAdds_onlyAt (onlyAdds_registersValue q) (ctx.log.length + before.length)
  obtain ⟨freed, hinvoked, -⟩ := hs.invoked
  obtain ⟨events₁, hone⟩ := callCb_marked hadds hs.start.ready (hlt.trans_le hs.start.alloc)
    ⟨walking, trigger⟩ freed
  have hemit : (ctx₁.emit (.call call)).WellFormed keyCmp :=
    hs.start.ready.wellFormed.congr rfl (Nat.le_refl _)
  have hsettled : OnState.SettledAt wcSHA1 keyCmp (callCb wcSHA1 keyCmp
      (onlyAt (ctx.log.length + before.length) (registersValue q)) ⟨walking, trigger⟩ ctx₁
        call).toOnState q .value := by
    rw [hs.callCb_eq (List.length_map _) (onlyAdds_registersValue q)]
    exact registersValue_settles hemit (hs.listen ▸ hheard)
      (h.wellFormed.parsed_of_sub (isSome_of_mem_cbs hpCb)) _
  have hpCb₁ := hs.start.mem_cbs hpCb
  have hpCb₂ := hone.mem_cbs hpCb₁
  rw [← hinvoked] at hone hpCb₂
  have hsettled₂ : ctx₂.SettledAt wcSHA1 keyCmp q .value := hinvoked ▸ hsettled
  refine ⟨_, (hs.start.trans hone.toAdditions).trans hs.rest, ?_, hs.rest.settledAt hsettled₂⟩
  rw [List.countP_append, List.countP_append, hs.silent q _ hpCb₂ hne hsettled₂,
    hone.silent (hs.start.ready.lt_alloc hpCb₁) (by simpa using hcall), List.countP_map,
    List.countP_map]
  exact List.countP_eq_zero.mpr fun x hx => by simpa [Event.isCallTo] using hbefore x hx

/-- The callback that registers `ON_CHILD_ADDED` for a path frees what is held there. -/
theorem SplitTrigger.faulty {walking : Bool} {ctx₁ ctx₂ : OnCtx}
    (hs : SplitTrigger wcSHA1 keyCmp
      (onlyAt (ctx.log.length + before.length) (registersChildAdded q)) ⟨walking, .child q true⟩
        (before.map Prod.snd) call events ctx ctx₁ ctx₂ c)
    (h : ctx.Ready wcSHA1 keyCmp) (hlt : call.pCb.addr < ctx.alloc)
    (hsome : (ctx.sub keyCmp q).isSome) {children : Children} {hash : Option TreenodeHash}
    (hinternal : ctx.cached keyCmp q = some (.internal children hash)) :
    c.fault = true ∧ ∃ events, Additions wcSHA1 keyCmp events ctx c := by
  have hadds := onlyAdds_onlyAt (onlyAdds_registersChildAdded q) (ctx.log.length + before.length)
  obtain ⟨freed, hinvoked, hfreed⟩ := hs.invoked
  obtain ⟨events₁, hone⟩ := callCb_marked hadds hs.start.ready (hlt.trans_le hs.start.alloc)
    ⟨walking, .child q true⟩ freed
  rw [← hinvoked] at hone
  have hemit : (ctx₁.emit (.call call)).WellFormed keyCmp :=
    hs.start.ready.wellFormed.congr rfl (Nat.le_refl _)
  have hcached : (ctx₁.emit (.call call)).cached keyCmp q = some (.internal children hash) :=
    (hs.start.cached_eq q).trans hinternal
  have hfault : ctx₂.fault = true := by
    rw [hinvoked, hfreed q rfl, Bool.or_true]
    rw [hs.callCb_eq (List.length_map _) (onlyAdds_registersChildAdded q),
      registersChildAdded_frees hemit (h.wellFormed.parsed_of_sub hsome) hcached]
    exact Nat.succ_ne_self _
  exact ⟨hs.rest.fault hfault, _, (hs.start.trans hone.toAdditions).trans hs.rest⟩

/-- **Someone is not told** when an invocation before registers `ON_VALUE` for the
path. -/
theorem not_told_of_waiting (h : ctx.AtPush wcSHA1 keyCmp path)
    (hsplit : ctx.schedule wcSHA1 keyCmp path = before ++ (trigger, call) :: after)
    {waiter : Call} (hwaits : (Trigger.value q, waiter) ∈ after) (hne : trigger ≠ .value q)
    {fuel : ℕ} (hdispatch : onRegistryDispatchOnEvent wcSHA1 keyCmp
      (onlyAt (ctx.log.length + before.length) (registersValue q)) path fuel ctx = some ctx') :
    ¬ ctx.ToldOnce wcSHA1 keyCmp path ctx' := by
  obtain ⟨hready, hnil, -⟩ := h.ready
  have hreg := hready.wellFormed.ordered
  have hmem : ∀ x ∈ before ++ (trigger, call) :: after, x ∈ ctx.schedule wcSHA1 keyCmp path :=
    fun x hx => hsplit ▸ hx
  rw [List.forall_mem_append, List.forall_mem_cons] at hmem
  obtain ⟨p, hp, hentry⟩ := List.mem_flatMap.mp (hmem.2.2 _ hwaits)
  obtain rfl := eq_of_mem_scheduleAt hentry
  obtain ⟨hpCb, hnot⟩ := waiting_of_mem_scheduleAt hentry
  have hsome := isSome_of_mem_cbs hpCb
  obtain ⟨sub, hsub⟩ := Option.isSome_iff_exists.mp hsome
  have hdue : ctx.Due wcSHA1 keyCmp path p :=
    due_iff.mpr ⟨(mem_dispatchPaths hreg hsub).mp hp, List.ne_nil_of_mem hpCb, hnot⟩
  have hcall : call.pCb ≠ waiter.pCb := fun heq =>
    hne (trigger_of_pCb hready hmem.2.1 (heq ▸ hpCb : call.pCb ∈ ctx.cbs keyCmp p .value))
  have hbefore : ∀ x ∈ before, x.2.pCb ≠ waiter.pCb := by
    intro x hx heq
    have hx' := trigger_of_pCb hready (hmem.1 x hx) (heq ▸ hpCb)
    exact hne (schedule_contiguous (nodup_dispatchPaths hreg) hsplit hx hx' hwaits rfl)
  have hadds := onlyAdds_onlyAt (onlyAdds_registersValue p) (ctx.log.length + before.length)
  have hret : ReturnFor (onlyAt (ctx.log.length + before.length) (registersValue p))
      before.length ctx := fun n hn => ⟨true, onlyAt_lt _ (Nat.add_lt_add_left hn _)⟩
  obtain ⟨r, -, hx⟩ := List.mem_flatMap.mp hmem.2.1
  have hlt := addr_of_mem_scheduleAt hready hx
  obtain ⟨ctx₁, rfl, events, hall, hcount, -⟩ := dispatch_split hadds hready hsplit hret
    (fun walking events ctx₁ ctx₂ c hs =>
      hs.unheard hready h.rootHeard hlt hpCb hne hcall hbefore)
    (fun walking q c _ hstill => by
      obtain ⟨events, hall, hcount, hsettled⟩ := hstill
      obtain ⟨events', htrig⟩ := trig_triggered hadds hall.ready walking q
      refine ⟨_, hall.trans htrig.toAdditions, ?_, htrig.settledAt hsettled⟩
      rw [List.countP_append, hcount, htrig.settled p _ (hall.mem_cbs hpCb) hsettled]) hdispatch
  rintro ⟨-, htold⟩
  have hone := htold p hdue _ hpCb
  rw [hall.collected hnil] at hone
  have hdrop : ctx₁.log.drop ctx.log.length = events := by rw [hall.logged, List.drop_left]
  rw [← hdrop] at hcount
  exact absurd (hcount.symm.trans hone) (by decide)

/-- **Freed memory is read** when an invocation that holds nodes of the table
registers `ON_CHILD_ADDED` for the path. -/
theorem not_told_of_held (h : ctx.AtPush wcSHA1 keyCmp path)
    (hsplit : ctx.schedule wcSHA1 keyCmp path = before ++ (.child q true, call) :: after)
    {children : Children} {hash : Option TreenodeHash}
    (hinternal : ctx.cached keyCmp q = some (.internal children hash)) {fuel : ℕ}
    (hdispatch : onRegistryDispatchOnEvent wcSHA1 keyCmp
      (onlyAt (ctx.log.length + before.length) (registersChildAdded q)) path fuel ctx =
        some ctx') : ¬ ctx.ToldOnce wcSHA1 keyCmp path ctx' := by
  obtain ⟨hready, hnil, -⟩ := h.ready
  have hmem : (Trigger.child q true, call) ∈ ctx.schedule wcSHA1 keyCmp path := by
    rw [hsplit]
    exact List.mem_append_right _ List.mem_cons_self
  obtain ⟨p, -, hentry⟩ := List.mem_flatMap.mp hmem
  obtain rfl : p = q := by
    rcases trigger_of_mem_scheduleAt hentry with ⟨held, heq⟩ | heq <;> cases heq
    rfl
  have hsome := isSome_of_mem_cbs (pCb_of_mem_scheduleAt hentry).1
  have hadds := onlyAdds_onlyAt (onlyAdds_registersChildAdded p) (ctx.log.length + before.length)
  have hret : ReturnFor (onlyAt (ctx.log.length + before.length) (registersChildAdded p))
      before.length ctx := fun n hn => ⟨true, onlyAt_lt _ (Nat.add_lt_add_left hn _)⟩
  obtain ⟨ctx₁, rfl, hfault, events, hall⟩ := dispatch_split hadds hready hsplit hret
    (fun walking events ctx₁ ctx₂ c hs =>
      hs.faulty hready (addr_of_mem_scheduleAt hready hentry) hsome hinternal)
    (fun walking q c _ hstill => by
      obtain ⟨hfault, events, hall⟩ := hstill
      obtain ⟨events', htrig⟩ := trig_triggered hadds hall.ready walking q
      exact ⟨htrig.fault hfault, _, hall.trans htrig.toAdditions⟩) hdispatch
  rintro ⟨hsafe, -⟩
  rw [hall.collected hnil] at hsafe
  exact absurd (hsafe.symm.trans hfault) (by decide)

end Invocation

end Unsettled

/-! ### Exactly when all are told -/

/-- All are told when the schedule is settled in time. -/
theorem AllTold.toldOnce (h : AllTold wcSHA1 keyCmp (Related path) events ctx c)
    (hnil : ctx.deletedCbList = []) : ctx.ToldOnce wcSHA1 keyCmp path (deletedCbGc keyCmp c) := by
  rw [h.collected hnil]
  refine ⟨h.safe, fun q hdue pCb hpCb => ?_⟩
  obtain ⟨hrelated, -, hnot⟩ := due_iff.mp hdue
  have hdrop : c.log.drop ctx.log.length = events := by rw [h.logged, List.drop_left]
  show (c.log.drop ctx.log.length).countP (Event.isCallTo pCb) = 1
  rw [hdrop]
  exact (h.told q hrelated pCb hpCb hnot).2

/-- A callback that registers another one for `/a`. -/
def addsA : CbRun := .register .value pathA keepAlways (.ret true)

end WebcomSdk.On
