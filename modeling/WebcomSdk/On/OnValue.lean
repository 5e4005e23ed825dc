import WebcomSdk.On.ChildTriggers
import WebcomSdk.On.QuietSteps

/-!
What an `ON_VALUE` callback was last told, against what the cache holds. The
hash in the `on_sub` stands for what all its `ON_VALUE` callbacks were told; it
is not written while there are none, and a callback that is not called when it
is registered takes it over as it is.
-/

namespace WebcomSdk.On

open WebcomSdk.Lib WebcomSdk.Collection WebcomSdk.Datasync WebcomSdk.Cache Std

/-- What an event tells the `ON_VALUE` callback of a registration. -/
def Event.tells (pCb : OnCb) : Event → Option (Option Treenode)
  | .call c => if c.pCb = pCb ∧ c.type = .value then some c.data else none
  | .register .. => none

/-- The last value handed to a callback, `none` when it was never called. -/
def lastValue (log : List Event) (pCb : OnCb) : Option Treenode :=
  (log.filterMap (Event.tells pCb)).getLast?.join

section

variable (wcSHA1 : SHA1) (keyCmp : Key → Key → Ordering)

/-- The hash that `on_sub` stores for a value. -/
def storedHash (value : Option Treenode) : TreenodeHash := treenodeHashCopy (valueHash wcSHA1 value)

/-- Every `ON_VALUE` callback was last told what the cache holds, up to its
hash. -/
def OnCtx.ValuesTold (ctx : OnCtx) : Prop :=
  ∀ q, ∀ pCb ∈ ctx.cbs keyCmp q .value,
    treenodeHashEq (valueHash wcSHA1 (lastValue ctx.log pCb))
      (valueHash wcSHA1 (ctx.cached keyCmp q)) = true

/-- An `ON_VALUE` callback that is the first of its path and is not called at
once finds the hash of the value in the `on_sub`, if there is one already. -/
def HashFits (ctx : OnCtx) (op : OnOp) : Prop :=
  match op with
  | .on .value path _ => ∀ sub, ctx.sub keyCmp (wcDatasyncPathParse path) = some sub →
      sub.cbList .value = [] → ctx.callsAtOnce keyCmp (wcDatasyncPathParse path) = false →
        sub.hash = storedHash wcSHA1 (ctx.cached keyCmp (wcDatasyncPathParse path))
  | _ => True

/-- The hash of an `on_sub` is that of the value in the cache, and of the last
value that each of its `ON_VALUE` callbacks was told. -/
structure Told (ctx : OnCtx) (q : Path) (sub : OnSub) : Prop where
  hash : sub.hash = storedHash wcSHA1 (ctx.cached keyCmp q)
  last : ∀ pCb ∈ sub.cbList .value, storedHash wcSHA1 (lastValue ctx.log pCb) = sub.hash

/-- All is told, and no registration has an address that is yet to come. -/
structure OnCtx.UpToDate (ctx : OnCtx) : Prop where
  agrees : ctx.Agrees keyCmp
  cacheOk : ctx.cache.Forall (NodeOk wcSHA1 keyCmp)
  logged : ∀ c, Event.call c ∈ ctx.log → c.pCb.addr < ctx.alloc
  told : ∀ q sub, ctx.sub keyCmp q = some sub → sub.cbList .value ≠ [] →
    Told wcSHA1 keyCmp ctx q sub

end

variable {wcSHA1 : SHA1} {keyCmp : Key → Key → Ordering} {ctx ctx' : OnCtx}

theorem hash_valSub {cached : Option Treenode} {sub : OnSub} (h : sub.cbList .value ≠ []) :
    (valSub wcSHA1 cached sub).hash = storedHash wcSHA1 cached := by
  rw [valSub]
  split
  next => rfl
  next hstale =>
    -- the hash that is kept is the one that would be written
    have heq : treenodeHashEq (valueHash wcSHA1 cached) (some sub.hash) = true := by
      simpa [OnSub.valueStale, h] using hstale
    exact (treenodeHashEq_iff.mp heq).symm

/-! ### The last value -/

theorem lastValue_append_of_silent {log : List Event} {pCb : OnCb} {calls : List Call}
    (h : ∀ c ∈ calls, c.pCb = pCb → c.type ≠ .value) :
    lastValue (log ++ calls.map .call) pCb = lastValue log pCb := by
  have hnone : (calls.map Event.call).filterMap (Event.tells pCb) = [] := by
    rw [List.filterMap_eq_nil_iff]
    intro e he
    obtain ⟨c, hc, rfl⟩ := List.mem_map.mp he
    exact if_neg fun hboth => h c hc hboth.1 hboth.2
  rw [lastValue, List.filterMap_append, hnone, List.append_nil, lastValue]

theorem lastValue_append_of_told {log : List Event} {pCb : OnCb} {calls : List Call}
    (value : Option Treenode) (h : ∀ c ∈ calls, c.pCb = pCb → c.type = .value → c.data = value)
    (hsome : ∃ c ∈ calls, c.pCb = pCb ∧ c.type = .value) :
    lastValue (log ++ calls.map .call) pCb = value := by
  obtain ⟨c, hc, hboth⟩ := hsome
  have hmem : c.data ∈ (calls.map Event.call).filterMap (Event.tells pCb) :=
    List.mem_filterMap.mpr ⟨.call c, List.mem_map_of_mem hc, if_pos hboth⟩
  have hall : ∀ x ∈ (calls.map Event.call).filterMap (Event.tells pCb), x = value := by
    intro x hx
    obtain ⟨e, he, hx⟩ := List.mem_filterMap.mp hx
    obtain ⟨d, hd, rfl⟩ := List.mem_map.mp he
    rw [Event.tells] at hx
    split at hx
    next hboth => exact Option.some.inj hx ▸ h d hd hboth.1 hboth.2
    next => cases hx
  have hne : (calls.map Event.call).filterMap (Event.tells pCb) ≠ [] := List.ne_nil_of_mem hmem
  rw [lastValue, List.filterMap_append, List.getLast?_append_of_ne_nil _ hne,
    List.getLast?_eq_some_getLast hne, hall _ (List.getLast_mem hne)]
  rfl

theorem lastValue_eq_none {log : List Event} {pCb : OnCb}
    (h : ∀ c, Event.call c ∈ log → c.pCb ≠ pCb) : lastValue log pCb = none := by
  have hnone : log.filterMap (Event.tells pCb) = [] := by
    rw [List.filterMap_eq_nil_iff]
    intro e he
    cases e with
    | call c => exact if_neg fun hboth => h c he hboth.1
    | register _ _ _ _ => rfl
  rw [lastValue, hnone]
  rfl

/-! ### Steps -/

section Steps

variable [TransCmp keyCmp] [LawfulEqCmp keyCmp]

omit [TransCmp keyCmp] [LawfulEqCmp keyCmp] in
theorem told_trimmed (h : ctx.UpToDate wcSHA1 keyCmp) (htrim : Trimmed keyCmp ctx ctx') (q : Path)
    (sub' : OnSub) (hsub' : ctx'.sub keyCmp q = some sub') (hne : sub'.cbList .value ≠ []) :
    Told wcSHA1 keyCmp ctx' q sub' := by
  obtain ⟨hit, sub, hsub, rfl⟩ := htrim.sub q sub' hsub'
  have hkept : (sub.without hit).cbList .value ⊆ sub.cbList .value :=
    List.filter_subset_self _
  obtain ⟨pCb, hpCb⟩ := List.exists_mem_of_ne_nil _ hne
  obtain ⟨hhash, hlast⟩ := h.told q sub hsub (List.ne_nil_of_mem (hkept hpCb))
  refine ⟨?_, fun c hc => ?_⟩
  · rw [OnState.cached, htrim.cache]
    exact hhash
  · rw [htrim.log]
    exact hlast c (hkept hc)

omit [TransCmp keyCmp] [LawfulEqCmp keyCmp] in
theorem told_pushed (h : ctx.UpToDate wcSHA1 keyCmp) {path : Path}
    (hpush : Pushed wcSHA1 keyCmp path ctx ctx') (q : Path)
    (sub' : OnSub) (hsub' : ctx'.sub keyCmp q = some sub') (hne : sub'.cbList .value ≠ []) :
    Told wcSHA1 keyCmp ctx' q sub' := by
  rw [hpush.sub] at hsub'
  obtain ⟨sub, hsub, rfl⟩ := Option.map_eq_some_iff.mp hsub'
  obtain ⟨calls, hlog, -, hcalls⟩ := hpush.log
  have hown : ∀ pCb ∈ sub.cbList .value, pCb.sub = q := by
    intro pCb hpCb
    refine (h.agrees.counted.wellFormed.own q pCb (mem_registrations.mpr ⟨.value, ?_⟩)).1
    rwa [cbs_of_sub hsub]
  -- the calls that matter are those of this path
  have hmem : ∀ pCb ∈ sub.cbList .value, ∀ c ∈ calls, c.pCb = pCb →
      c ∈ calls.filter (fun c => c.pCb.sub = q) := by
    intro pCb hpCb c hc heq
    exact List.mem_filter.mpr ⟨hc, decide_eq_true (heq ▸ hown pCb hpCb)⟩
  specialize hcalls q sub hsub
  by_cases hrel : Related path q
  · rw [if_pos hrel] at hcalls hne ⊢
    rw [cbList_trigSub] at hne
    obtain ⟨hhash, hlast⟩ := h.told q sub hsub hne
    set cached := ctx'.cached keyCmp q with hcached
    -- `on_child_trig` calls no `ON_VALUE` callback
    have hvalue : ∀ pCb ∈ sub.cbList .value, ∀ c ∈ calls, c.pCb = pCb → c.type = .value →
        c ∈ valCalls wcSHA1 cached sub := by
      intro pCb hpCb c hc heq htype
      have hc' := hmem pCb hpCb c hc heq
      rw [hcalls, trigCalls, List.mem_append] at hc'
      rcases hc' with hc' | hc'
      · split at hc'
        · exact absurd htype (type_of_mem_childCalls hc')
        · cases hc'
      · exact hc'
    have hhash' : (trigSub wcSHA1 keyCmp cached sub).hash = storedHash wcSHA1 cached := by
      rw [trigSub]
      exact hash_valSub (by split <;> simp [hne])
    refine ⟨hhash', fun pCb hpCb => ?_⟩
    rw [cbList_trigSub] at hpCb
    rw [hhash', hlog]
    cases hstale : sub.valueStale wcSHA1 cached with
    | true =>
        have hval : valCalls wcSHA1 cached sub =
            (sub.cbList .value).map fun pCb => ⟨pCb, .value, cached, none, none⟩ := by
          rw [valCalls, if_pos hstale]
        rw [lastValue_append_of_told cached]
        · intro c hc heq htype
          have hc' := hvalue pCb hpCb c hc heq htype
          rw [hval] at hc'
          obtain ⟨pCb, -, rfl⟩ := List.mem_map.mp hc'
          rfl
        · have hin : (⟨pCb, .value, cached, none, none⟩ : Call) ∈
              calls.filter (fun c => c.pCb.sub = q) := by
            rw [hcalls, trigCalls, hval]
            exact List.mem_append_right _ (List.mem_map_of_mem hpCb)
          exact ⟨_, (List.mem_filter.mp hin).1, rfl, rfl⟩
    | false =>
        have hval : valCalls wcSHA1 cached sub = [] := by
          rw [valCalls, hstale]
          rfl
        rw [lastValue_append_of_silent, hlast pCb hpCb]
        · have hquiet : storedHash wcSHA1 cached = sub.hash := by
            have hkept : (valSub wcSHA1 cached sub).hash = storedHash wcSHA1 cached :=
              hash_valSub hne
            rwa [valSub, hstale, if_neg (by simp), eq_comm] at hkept
          exact hquiet.symm
        · intro c hc heq htype
          have hc' := hvalue pCb hpCb c hc heq htype
          rw [hval] at hc'
          cases hc'
  · rw [if_neg hrel] at hcalls hne ⊢
    obtain ⟨hhash, hlast⟩ := h.told q sub hsub hne
    refine ⟨?_, fun pCb hpCb => ?_⟩
    · rw [hpush.cached q hrel]
      exact hhash
    · rw [hlog, lastValue_append_of_silent, hlast pCb hpCb]
      intro c hc heq htype
      have hc' := hmem pCb hpCb c hc heq
      rw [hcalls] at hc'
      cases hc'

omit [TransCmp keyCmp] [LawfulEqCmp keyCmp] in
theorem hash_initSub_of_ne {type : OnEventType} (h : type ≠ .value) (path : Path) (ctx : OnState)
    (sub : OnSub) : (initSub wcSHA1 keyCmp type path ctx sub).hash = sub.hash := by
  unfold initSub
  split
  case isFalse => rfl
  cases type with
  | value => exact absurd rfl h
  | childAdded =>
      rcases internal_or_not (ctx.cached keyCmp path) with ⟨children, hash, hchildren⟩ | hnone
      · simp only [hchildren]
        rfl
      · simp
  | childRemoved => rfl
  | childChanged => rfl

omit [TransCmp keyCmp] [LawfulEqCmp keyCmp] in
theorem cached_of_quiet {q : Path} (hquiet : ctx.callsAtOnce keyCmp q = false) :
    ctx.cached keyCmp q = none := by
  simp only [OnState.callsAtOnce, Bool.or_eq_false_iff] at hquiet
  simpa using hquiet.1.1

omit [TransCmp keyCmp] [LawfulEqCmp keyCmp] in
/-- The `on_sub` that a new `ON_VALUE` callback finds. -/
theorem hash_of_first_value (h : ctx.UpToDate wcSHA1 keyCmp) {path : Bytes} {answers : ℕ → CbRun}
    (hfits : HashFits wcSHA1 keyCmp ctx (.on .value path answers))
    (hquiet : ctx.callsAtOnce keyCmp (wcDatasyncPathParse path) = false) :
    ((ctx.sub keyCmp (wcDatasyncPathParse path)).getD OnSub.new).hash =
      storedHash wcSHA1 (ctx.cached keyCmp (wcDatasyncPathParse path)) := by
  cases hsub : ctx.sub keyCmp (wcDatasyncPathParse path) with
  | none =>
      rw [cached_of_quiet hquiet]
      rfl
  | some sub =>
      rw [Option.getD_some]
      by_cases hempty : sub.cbList .value = []
      · exact hfits sub hsub hempty hquiet
      · exact (h.told _ sub hsub hempty).hash

omit [TransCmp keyCmp] [LawfulEqCmp keyCmp] in
/-- The hash that a new `ON_VALUE` callback leaves. -/
theorem hash_registered (h : ctx.UpToDate wcSHA1 keyCmp) {path : Bytes} {answers : ℕ → CbRun}
    (hfits : HashFits wcSHA1 keyCmp ctx (.on .value path answers)) (pCb : OnCb) :
    (initSub wcSHA1 keyCmp .value (wcDatasyncPathParse path) ctx.toOnState
      (((ctx.sub keyCmp (wcDatasyncPathParse path)).getD OnSub.new).addCb .value pCb)).hash =
        storedHash wcSHA1 (ctx.cached keyCmp (wcDatasyncPathParse path)) := by
  cases hcalls : ctx.callsAtOnce keyCmp (wcDatasyncPathParse path) with
  | true =>
      rw [initSub, if_pos hcalls]
      rfl
  | false =>
      rw [initSub, hcalls]
      exact hash_of_first_value h hfits hcalls

omit [TransCmp keyCmp] [LawfulEqCmp keyCmp] in
/-- What a new `ON_VALUE` callback is told: what is cached, unless this is nothing. -/
theorem lastValue_registered (h : ctx.UpToDate wcSHA1 keyCmp) (path : Bytes) :
    storedHash wcSHA1 (lastValue (registerSilently wcSHA1 keyCmp .value path ctx).log
      ⟨ctx.alloc, wcDatasyncPathParse path⟩) =
        storedHash wcSHA1 (ctx.cached keyCmp (wcDatasyncPathParse path)) := by
  rw [log_registerSilently, initCalls]
  cases hcalls : ctx.callsAtOnce keyCmp (wcDatasyncPathParse path) with
  | true =>
      rw [if_pos rfl, lastValue_append_of_told (ctx.cached keyCmp (wcDatasyncPathParse path))]
      · intro c hc _ _
        rw [List.mem_singleton.mp hc]
      · exact ⟨_, List.mem_singleton_self _, rfl, rfl⟩
  | false =>
      rw [if_neg (by simp), cached_of_quiet hcalls, List.map_nil, List.append_nil,
        lastValue_eq_none]
      -- its address has not been given out before
      intro c hc heq
      have hlt := h.logged c hc
      rw [heq] at hlt
      exact Nat.lt_irrefl _ hlt

theorem told_registered (h : ctx.UpToDate wcSHA1 keyCmp) {type : OnEventType} {path : Bytes}
    {answers : ℕ → CbRun} (hfits : HashFits wcSHA1 keyCmp ctx (.on type path answers)) (q : Path)
    (sub' : OnSub)
    (hsub' : (registerSilently wcSHA1 keyCmp type path ctx).sub keyCmp q = some sub')
    (hne : sub'.cbList .value ≠ []) :
    Told wcSHA1 keyCmp (registerSilently wcSHA1 keyCmp type path ctx) q sub' := by
  set ctx' := registerSilently wcSHA1 keyCmp type path ctx with hctx'
  have hwf := h.agrees.counted.wellFormed
  have hcached : ctx'.cached keyCmp q = ctx.cached keyCmp q := by
    rw [OnState.cached, hctx', cache_registerSilently]
    rfl
  -- the callbacks that were there are told nothing
  have hold : ∀ pCb, pCb.addr < ctx.alloc → lastValue ctx'.log pCb = lastValue ctx.log pCb := by
    intro pCb hlt
    rw [hctx', log_registerSilently]
    refine lastValue_append_of_silent fun c hc heq => ?_
    rw [(mem_initCalls _ hc).2] at heq
    rw [← heq] at hlt
    exact absurd hlt (Nat.lt_irrefl _)
  have hkept : ∀ sub, ctx.sub keyCmp q = some sub → sub.cbList .value ≠ [] →
      sub.hash = storedHash wcSHA1 (ctx'.cached keyCmp q) ∧
        ∀ pCb ∈ sub.cbList .value, storedHash wcSHA1 (lastValue ctx'.log pCb) = sub.hash := by
    intro sub hsub hne
    obtain ⟨hhash, hlast⟩ := h.told q sub hsub hne
    refine ⟨by rw [hcached, hhash], fun pCb hpCb => ?_⟩
    have hmem : pCb ∈ ctx.registrations keyCmp q :=
      mem_registrations.mpr ⟨.value, by rwa [cbs_of_sub hsub]⟩
    rw [hold pCb (hwf.own q pCb hmem).2, hlast pCb hpCb]
  have hnew : (OnSub.new.cbList .value) = [] := rfl
  rw [hctx', sub_registerSilently _ _ hwf.ordered] at hsub'
  split at hsub'
  case isFalse => exact ⟨(hkept sub' hsub' hne).1, (hkept sub' hsub' hne).2⟩
  next hq =>
  subst hq
  set path' := wcDatasyncPathParse path with hpath'
  set sub := (ctx.sub keyCmp path').getD OnSub.new with hgetD
  obtain rfl := Option.some.inj hsub'
  have hsome : sub.cbList .value ≠ [] → ctx.sub keyCmp path' = some sub := by
    intro hne
    cases hfind : ctx.sub keyCmp path' with
    | none =>
        rw [hgetD, hfind] at hne
        exact absurd hnew hne
    | some _ => rw [hgetD, hfind, Option.getD_some]
  rw [cbList_initSub] at hne
  by_cases htype : type = .value
  · subst htype
    have hlist : (sub.addCb .value ⟨ctx.alloc, path'⟩).cbList .value =
        ⟨ctx.alloc, path'⟩ :: sub.cbList .value := by simp [OnSub.addCb]
    have hhash : (initSub wcSHA1 keyCmp .value path' ctx.toOnState
        (sub.addCb .value ⟨ctx.alloc, path'⟩)).hash =
          storedHash wcSHA1 (ctx'.cached keyCmp path') := by
      rw [hcached]
      exact hash_registered h hfits _
    refine ⟨hhash, fun pCb hpCb => ?_⟩
    rw [cbList_initSub, hlist] at hpCb
    rcases List.mem_cons.mp hpCb with rfl | hpCb
    · rw [hhash, hcached]
      exact lastValue_registered h path
    · obtain ⟨hsame, hlast⟩ := hkept sub (hsome (List.ne_nil_of_mem hpCb)) (List.ne_nil_of_mem hpCb)
      rw [hlast pCb hpCb, hsame, hhash]
  · have hlist : (sub.addCb type ⟨ctx.alloc, path'⟩).cbList .value = sub.cbList .value :=
      Function.update_of_ne (Ne.symm htype) _ _
    have hhash : (initSub wcSHA1 keyCmp type path' ctx.toOnState
        (sub.addCb type ⟨ctx.alloc, path'⟩)).hash = sub.hash :=
      hash_initSub_of_ne htype path' _ _
    rw [hlist] at hne
    obtain ⟨hsame, hlast⟩ := hkept sub (hsome hne) hne
    refine ⟨hhash.trans hsame, fun pCb hpCb => ?_⟩
    rw [cbList_initSub, hlist] at hpCb
    rw [hhash, hlast pCb hpCb]

theorem step_upToDate (h : ctx.UpToDate wcSHA1 keyCmp) {op : OnOp} (hkeep : op.Keeps)
    (hfits : HashFits wcSHA1 keyCmp ctx op) (hstep : ctx.step wcSHA1 keyCmp op = some ctx') :
    ctx'.UpToDate wcSHA1 keyCmp := by
  have hagrees := step_agrees_of_keeps h.agrees hkeep hstep
  rcases step_cases h.agrees h.cacheOk hkeep hstep with
    ⟨type, path, answers, rfl, rfl⟩ | htrim | ⟨path, hpush⟩
  · refine ⟨hagrees, by simpa using h.cacheOk, fun c hc => ?_, told_registered h hfits⟩
    rw [log_registerSilently, List.mem_append] at hc
    rw [alloc_registerSilently]
    rcases hc with hc | hc
    · exact Nat.lt_add_right 2 (h.logged c hc)
    · obtain ⟨c', hc', heq⟩ := List.mem_map.mp hc
      obtain rfl := Event.call.inj heq
      rw [(mem_initCalls _ hc').2]
      exact Nat.lt_add_of_pos_right Nat.two_pos
  · refine ⟨hagrees, by simpa [htrim.cache] using h.cacheOk, ?_, told_trimmed h htrim⟩
    rw [htrim.log, htrim.alloc]
    exact h.logged
  · refine ⟨hagrees, hpush.cacheOk, fun c hc => ?_, told_pushed h hpush⟩
    obtain ⟨calls, hlog, haddr, -⟩ := hpush.log
    rw [hlog, List.mem_append] at hc
    rw [hpush.alloc]
    rcases hc with hc | hc
    · exact h.logged c hc
    · obtain ⟨c', hc', heq⟩ := List.mem_map.mp hc
      obtain rfl := Event.call.inj heq
      exact haddr _ hc'

omit [TransCmp keyCmp] [LawfulEqCmp keyCmp] in
theorem OnCtx.UpToDate.valuesTold (h : ctx.UpToDate wcSHA1 keyCmp) :
    ctx.ValuesTold wcSHA1 keyCmp := by
  intro q pCb hpCb
  cases hsub : ctx.sub keyCmp q with
  | none =>
      rw [OnState.cbs, hsub] at hpCb
      cases hpCb
  | some sub =>
      rw [cbs_of_sub hsub] at hpCb
      obtain ⟨hhash, hlast⟩ := h.told q sub hsub (List.ne_nil_of_mem hpCb)
      exact treenodeHashEq_iff.mpr ((hlast pCb hpCb).trans hhash)

/-- **Every `ON_VALUE` callback knows its value**, in every state that a run
reaches in which no callback inherits a stale hash. Every dispatch comes to its
end. -/
theorem values_told (run : Reach (OnCtx.step wcSHA1 keyCmp)
    (fun ctx op => op.Keeps ∧ HashFits wcSHA1 keyCmp ctx op) onCtxNew ctx) :
    ctx.ValuesTold wcSHA1 keyCmp ∧ ctx.DispatchesEnd wcSHA1 keyCmp := by
  have hup : ctx.UpToDate wcSHA1 keyCmp := by
    refine run.invariant ?_ fun _ _ _ h hok hstep => step_upToDate h hok.1 hok.2 hstep
    exact ⟨onCtxNew_agrees, nodeOk_leafNull, nofun, nofun⟩
  exact ⟨hup.valuesTold, dispatchesEnd hup.agrees.counted.wellFormed.ordered hup.agrees.fault⟩

end Steps

/-! ### A stale hash -/

theorem values_told_first_value : ∃ ctx, Reach (OnCtx.step zeroSHA1 strcmp)
      (fun ctx op => op.Keeps ∧ HashFits zeroSHA1 strcmp ctx op) onCtxNew ctx ∧
    ctx.ValuesTold zeroSHA1 strcmp ∧ ctx.DispatchesEnd zeroSHA1 strcmp := by
  have hrun : ∃ ctx, onCtxNew.step zeroSHA1 strcmp (.on .value pathA keepAlways) = some ctx ∧
      ∃ ctx', ctx.step zeroSHA1 strcmp (.updatePut pathA (.boolean true) keepAlways 2) =
        some ctx' := ⟨_, rfl, _, rfl⟩
  obtain ⟨ctx, hctx, ctx', hctx'⟩ := hrun
  have hfits : HashFits zeroSHA1 strcmp onCtxNew (.on .value pathA keepAlways) := by
    intro sub hsub
    cases hsub
  have run : Reach (OnCtx.step zeroSHA1 strcmp)
      (fun ctx op => op.Keeps ∧ HashFits zeroSHA1 strcmp ctx op) onCtxNew ctx' :=
    .step (.step .start ⟨keeps_on _ _, hfits⟩ hctx) ⟨keeps_updatePut _ _ _, trivial⟩ hctx'
  exact ⟨ctx', run, values_told run⟩

/-- A second callback of the same path, once the first one is gone and the value
with it. -/
def secondValue : List OnOp :=
  [.handshake, .on .childChanged pathA keepAlways, .on .value pathA keepAlways,
    .updatePut pathA (.boolean true) keepAlways 2, .offPathType pathA .value,
    .updatePut pathA .null keepAlways 2, .on .value pathA keepAlways,
    .updatePut pathA (.boolean true) keepAlways 2]

/-- The second callback is not told when the value comes back: the hash of the
`on_sub` is still that of the value. -/
theorem second_value_not_told :
    ¬ ∀ ctx, Reach (OnCtx.step zeroSHA1 strcmp) (fun _ op => op.Keeps) onCtxNew ctx →
      ctx.ValuesTold zeroSHA1 strcmp ∧ ctx.DispatchesEnd zeroSHA1 strcmp := by
  intro hall
  have hrun : ∃ ctx, secondValue.foldlM (OnCtx.step zeroSHA1 strcmp) onCtxNew = some ctx ∧
      (⟨4, [pathA.tail]⟩ : OnCb) ∈ ctx.cbs strcmp [pathA.tail] .value ∧
      treenodeHashEq (valueHash zeroSHA1 (lastValue ctx.log ⟨4, [pathA.tail]⟩))
        (valueHash zeroSHA1 (ctx.cached strcmp [pathA.tail])) = false :=
    ⟨_, rfl, List.mem_cons_self, rfl⟩
  obtain ⟨ctx, hctx, hlive, hdiff⟩ := hrun
  have hkeeps : ∀ op ∈ secondValue, op.Keeps := by
    have hoff : (OnOp.offPathType pathA .value).Keeps := keeps_of_no_answers rfl
    have hnet : OnOp.handshake.Keeps := keeps_of_no_answers rfl
    simp [secondValue, keeps_on, keeps_updatePut, hoff, hnet]
  have htold := (hall ctx (.of_foldlM .start (fun op hop _ => hkeeps op hop) hctx)).1 _ _ hlive
  rw [hdiff] at htold
  cases htold

end WebcomSdk.On
