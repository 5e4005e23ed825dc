import WebcomSdk.On.ChildTriggers
import WebcomSdk.On.QuietSteps

/-!
What the child callbacks are told during a push, against what the push does to
the children. The entries of `children_hashes` stand for the children last seen;
the table is not kept while there is no child callback, and only an
`ON_CHILD_ADDED` callback fills it when it is registered.
-/

namespace WebcomSdk.On

open WebcomSdk.Lib WebcomSdk.Collection WebcomSdk.Datasync WebcomSdk.Cache Std

/-- The events handed to a callback: their type and the key of the child. -/
def Event.handed (pCb : OnCb) : Event → Option (OnEventType × Option Key)
  | .call c => if c.pCb = pCb then some (c.type, c.curKey) else none
  | .register .. => none

def eventsTo (pCb : OnCb) (log : List Event) : List (OnEventType × Option Key) :=
  log.filterMap (Event.handed pCb)

section

variable (wcSHA1 : SHA1) (keyCmp : Key → Key → Ordering)

/-- What happens to a child whose value was `old` and is `new`. -/
def childEvent (old new : Option Treenode) : Option OnEventType :=
  match old, new with
  | none, some _ => some .childAdded
  | some _, none => some .childRemoved
  | some old, some new =>
      if treenodeHashEq (scratchHash wcSHA1 old) (scratchHash wcSHA1 new) then none
      else some .childChanged
  | none, none => none

/-- From one state to the other, each child callback is handed exactly one event
for each child that has undergone what the callback is for. -/
def ChildrenTold (ctx ctx' : OnCtx) : Prop :=
  ∀ q type, type ≠ .value → ∀ pCb ∈ ctx.cbs keyCmp q type, ∃ keys : List Key, keys.Nodup ∧
    (∀ key, key ∈ keys ↔ childEvent wcSHA1 (ctx.cached keyCmp (q ++ [key]))
      (ctx'.cached keyCmp (q ++ [key])) = some type) ∧
    eventsTo pCb (ctx'.log.drop ctx.log.length) = keys.map fun key => (type, some key)

/-- A child callback that is the first of its path finds the keys and hashes of
the children in the table, unless it fills the table itself. -/
def TableFits (ctx : OnCtx) (op : OnOp) : Prop :=
  match op with
  | .on type path _ =>
      let sub := (ctx.sub keyCmp (wcDatasyncPathParse path)).getD OnSub.new
      let cached := ctx.cached keyCmp (wcDatasyncPathParse path)
      type ≠ .value → sub.hasChildCb = false →
        (type = .childAdded ∧ ∃ children hash, cached = some (.internal children hash)) ∨
          sub.childrenHashes.toList = childHashes wcSHA1 cached
  | _ => True

/-- The tables are up to date wherever there are child callbacks. -/
structure OnCtx.Tabled (ctx : OnCtx) : Prop where
  agrees : ctx.Agrees keyCmp
  cacheOk : ctx.cache.Forall (NodeOk wcSHA1 keyCmp)
  table : ∀ q sub, ctx.sub keyCmp q = some sub → sub.hasChildCb = true →
    sub.childrenHashes.toList = childHashes wcSHA1 (ctx.cached keyCmp q)

end

variable {wcSHA1 : SHA1} {keyCmp : Key → Key → Ordering} {ctx ctx' : OnCtx}

theorem hasChildCb_iff {sub : OnSub} :
    sub.hasChildCb = true ↔ ∃ type, type ≠ .value ∧ sub.cbList type ≠ [] := by
  constructor
  · intro h
    simp only [OnSub.hasChildCb, Bool.or_eq_true, Bool.not_eq_true', List.isEmpty_eq_false_iff] at h
    rcases h with (h | h) | h
    · exact ⟨.childAdded, by decide, h⟩
    · exact ⟨.childChanged, by decide, h⟩
    · exact ⟨.childRemoved, by decide, h⟩
  · rintro ⟨type, htype, h⟩
    cases type with
    | value => exact absurd rfl htype
    | _ => simp [OnSub.hasChildCb, h]

theorem hasChildCb_congr {sub sub' : OnSub} (h : sub'.cbList = sub.cbList) :
    sub'.hasChildCb = sub.hasChildCb := by
  rw [OnSub.hasChildCb, h, OnSub.hasChildCb]

/-! ### Children and their hashes -/

/-- A child of a cached value. -/
def childOf (keyCmp : Key → Key → Ordering) (key : Key) (cached : Option Treenode) :
    Option Treenode := cached.bind (dataCacheGetR keyCmp [key])

theorem cached_child (ctx : OnState) (q : Path) (key : Key) :
    ctx.cached keyCmp (q ++ [key]) = childOf keyCmp key (ctx.cached keyCmp q) :=
  get_append q [key] ctx.cache

theorem childEvent_eq (old new : Option Treenode) : childEvent wcSHA1 old new =
    hashEvent (new.map fun n => treenodeHashCopy (scratchHash wcSHA1 n))
      (old.map fun n => treenodeHashCopy (scratchHash wcSHA1 n)) := by
  cases old with
  | none => cases new <;> rfl
  | some old =>
      cases new with
      | none => rfl
      | some new =>
          rw [childEvent]
          simp only [treenodeHashEq_iff, Option.map_some, hashEvent]
          exact if_congr eq_comm rfl rfl

theorem childEvent_self (value : Option Treenode) : childEvent wcSHA1 value value = none := by
  cases value with
  | none => rfl
  | some n => simp [childEvent, treenodeHashEq_iff]

section

variable [TransCmp keyCmp] [LawfulEqCmp keyCmp]

theorem hasValue_childHashes {cached : Option Treenode}
    (h : ∀ n ∈ cached, n.Forall (NodeOk wcSHA1 keyCmp)) (key : Key) :
    HasValue (childHashes wcSHA1 cached) key
      ((childOf keyCmp key cached).map fun n => treenodeHashCopy (scratchHash wcSHA1 n)) := by
  rcases internal_or_not cached with ⟨children, hash, rfl⟩ | hcached
  · have hord := (h _ rfl).childrenOk.ordered
    intro a
    have hchild : childOf keyCmp key (some (.internal children hash)) =
        avlFind keyCmp key children := by
      rw [childOf, Option.bind_some, dataCacheGetR]
      cases avlFind keyCmp key children <;> rfl
    rw [hchild, Option.map_eq_some_iff, childHashes]
    simp only [avlFind_eq_some_iff hord, List.mem_map, childEntry, Prod.mk.injEq]
    constructor
    · rintro ⟨n, hn, rfl⟩
      exact ⟨(key, n), hn, rfl, rfl⟩
    · rintro ⟨⟨k, n⟩, hn, rfl, rfl⟩
      exact ⟨n, hn, rfl⟩
  · have hchild : childOf keyCmp key cached = none := by
      cases cached with
      | none => rfl
      | some n =>
          exact dataCacheGetR_leaf (fun c h heq => hcached c h (congrArg some heq)) (by simp)
    rw [hchild, childHashes_of_not_internal hcached]
    exact fun a => by simp

/-- Tables that give no event are the same. -/
theorem eq_of_no_events {new old : List (Key × TreenodeHash)} (hnew : SortedKeys keyCmp new)
    (hold : SortedKeys keyCmp old) (h : (outerJoin keyCmp new old).filterMap keyEvent = []) :
    new = old := by
  refine sorted_ext hnew hold fun e => ?_
  obtain ⟨x, hx⟩ := hnew.exists_hasValue e.1
  obtain ⟨y, hy⟩ := hold.exists_hasValue e.1
  have hquiet : ∀ type, hashEvent x y ≠ some type := by
    intro type hevent
    have hmem := (mem_events hnew hold hx hy).mpr hevent
    rw [h] at hmem
    cases hmem
  have hsame : x = y := by
    cases x with
    | none =>
        cases y with
        | none => rfl
        | some b => exact absurd rfl (hquiet .childRemoved)
    | some a =>
        cases y with
        | none => exact absurd rfl (hquiet .childAdded)
        | some b =>
            by_contra hne
            exact hquiet .childChanged (if_neg fun h => hne (congrArg some h))
  have hl : (e.1, e.2) ∈ new ↔ x = some e.2 := (hx e.2).symm
  have hr : (e.1, e.2) ∈ old ↔ y = some e.2 := (hy e.2).symm
  exact hl.trans (hsame ▸ hr.symm)

/-- What the triggers of a path find out. -/
theorem events_of_triggers (type : OnEventType) {old new : Option Treenode} {sub : OnSub}
    (hold : ∀ n ∈ old, n.Forall (NodeOk wcSHA1 keyCmp))
    (hnew : ∀ n ∈ new, n.Forall (NodeOk wcSHA1 keyCmp))
    (htable : sub.childrenHashes.toList = childHashes wcSHA1 old) :
    let keys := ((sub.childTriggers wcSHA1 keyCmp new).filter (·.type = type)).map (·.curKey)
    keys.Nodup ∧ ∀ key, key ∈ keys ↔
      childEvent wcSHA1 (childOf keyCmp key old) (childOf keyCmp key new) = some type := by
  have hsortedOld := sortedKeys_childHashes hold
  have hsortedNew := sortedKeys_childHashes hnew
  have hkeys : ((sub.childTriggers wcSHA1 keyCmp new).filter (·.type = type)).map (·.curKey) =
      (((outerJoin keyCmp (childHashes wcSHA1 new) (childHashes wcSHA1 old)).filterMap
        keyEvent).filter (·.2 = type)).map Prod.fst := by
    rw [← htable, ← OnSub.childTriggers_event, List.filter_map, List.map_map]
    rfl
  intro keys
  refine ⟨?_, fun key => ?_⟩
  · have hsorted := sortedKeys_events hsortedNew hsortedOld
    show (List.map _ _).Nodup
    rw [hkeys]
    refine List.pairwise_map.mpr ((hsorted.sublist List.filter_sublist).imp fun {a b} hab heq => ?_)
    have hself : keyCmp a.1 b.1 = .eq := LawfulEqCmp.compare_eq_iff_eq.mpr heq
    rw [hab] at hself
    cases hself
  · show key ∈ List.map _ _ ↔ _
    have hmem : (key, type) ∈ _ ↔ _ := mem_events hsortedNew hsortedOld
      (hasValue_childHashes hnew key) (hasValue_childHashes hold key)
    rw [hkeys, childEvent_eq, ← hmem, List.mem_map]
    constructor
    · rintro ⟨e, he, rfl⟩
      obtain ⟨he, htype⟩ := List.mem_filter.mp he
      rwa [← of_decide_eq_true htype]
    · intro hevent
      exact ⟨_, List.mem_filter.mpr ⟨hevent, decide_eq_true rfl⟩, rfl⟩

end

/-! ### Steps -/

section Steps

variable [TransCmp keyCmp] [LawfulEqCmp keyCmp]

theorem OnCtx.Tabled.cachedOk (h : ctx.Tabled wcSHA1 keyCmp) (q : Path) :
    ∀ n ∈ ctx.cached keyCmp q, n.Forall (NodeOk wcSHA1 keyCmp) := fun _ hn =>
  forall_get h.cacheOk hn

omit [TransCmp keyCmp] [LawfulEqCmp keyCmp] in
theorem childrenHashes_trigSub {cached : Option Treenode} {sub : OnSub}
    (hchild : sub.hasChildCb = true) :
    (trigSub wcSHA1 keyCmp cached sub).childrenHashes =
      (childSub wcSHA1 keyCmp cached sub).childrenHashes := by
  rw [trigSub, if_pos hchild, valSub]
  split <;> rfl

/-- After its trigger the table is up to date. -/
theorem table_childSub {old new : Option Treenode} {sub : OnSub}
    (hold : ∀ n ∈ old, n.Forall (NodeOk wcSHA1 keyCmp))
    (hnew : ∀ n ∈ new, n.Forall (NodeOk wcSHA1 keyCmp))
    (htable : sub.childrenHashes.toList = childHashes wcSHA1 old) :
    (childSub wcSHA1 keyCmp new sub).childrenHashes.toList = childHashes wcSHA1 new := by
  rcases internal_or_not new with ⟨children, hash, rfl⟩ | hnot
  · rw [childSub]
    split
    next hempty =>
      have hevents : (sub.childTriggers wcSHA1 keyCmp (some (.internal children hash))).map
          ChildTrigger.event = _ := OnSub.childTriggers_event _ sub
      rw [List.isEmpty_iff.mp hempty, htable] at hevents
      rw [htable]
      exact (eq_of_no_events (sortedKeys_childHashes hnew) (sortedKeys_childHashes hold)
        hevents.symm).symm
    next => exact toList_refreshOnChildSubHashes hash (hnew _ rfl).childrenOk.ordered sub
  · rw [childHashes_of_not_internal hnot]
    unfold childSub
    split
    next heq => exact absurd rfl (hnot _ _)
    next => rfl

theorem table_pushed (h : ctx.Tabled wcSHA1 keyCmp) {path : Path}
    (hpush : Pushed wcSHA1 keyCmp path ctx ctx') (q : Path) (sub' : OnSub)
    (hsub' : ctx'.sub keyCmp q = some sub') (hchild : sub'.hasChildCb = true) :
    sub'.childrenHashes.toList = childHashes wcSHA1 (ctx'.cached keyCmp q) := by
  rw [hpush.sub] at hsub'
  obtain ⟨sub, hsub, rfl⟩ := Option.map_eq_some_iff.mp hsub'
  split at hchild
  next hrel =>
    rw [hasChildCb_congr (cbList_trigSub _ sub)] at hchild
    rw [if_pos hrel, childrenHashes_trigSub hchild]
    exact table_childSub (h.cachedOk q) (fun n hn => forall_get hpush.cacheOk hn)
      (h.table q sub hsub hchild)
  next hrel =>
    rw [if_neg hrel, hpush.cached q hrel]
    exact h.table q sub hsub hchild

theorem table_registered (h : ctx.Tabled wcSHA1 keyCmp) {type : OnEventType} {path : Bytes}
    {answers : ℕ → CbRun} (hfits : TableFits wcSHA1 keyCmp ctx (.on type path answers)) (q : Path)
    (sub' : OnSub)
    (hsub' : (registerSilently wcSHA1 keyCmp type path ctx).sub keyCmp q = some sub')
    (hchild : sub'.hasChildCb = true) :
    sub'.childrenHashes.toList =
      childHashes wcSHA1 ((registerSilently wcSHA1 keyCmp type path ctx).cached keyCmp q) := by
  have hcached : (registerSilently wcSHA1 keyCmp type path ctx).cached keyCmp q =
      ctx.cached keyCmp q := by
    rw [OnState.cached, cache_registerSilently]
    rfl
  rw [hcached]
  rw [sub_registerSilently _ _ h.agrees.counted.wellFormed.ordered] at hsub'
  split at hsub'
  case isFalse => exact h.table q sub' hsub' hchild
  next hq =>
  subst hq
  set path' := wcDatasyncPathParse path with hpath'
  set sub := (ctx.sub keyCmp path').getD OnSub.new with hgetD
  obtain rfl := Option.some.inj hsub'
  by_cases hfill : type = .childAdded ∧
      ∃ children hash, ctx.cached keyCmp path' = some (.internal children hash)
  · obtain ⟨rfl, children, hash, hchildren⟩ := hfill
    have hcalls : ctx.callsAtOnce keyCmp path' = true := by
      rw [OnState.callsAtOnce, hchildren]
      rfl
    have hok := h.cachedOk path' _ hchildren
    rw [initSub, if_pos hcalls, hchildren]
    exact toList_refreshOnChildSubHashes hash hok.childrenOk.ordered _
  · -- the registration does not write the table
    have hsame : ∀ sub, (initSub wcSHA1 keyCmp type path' ctx.toOnState sub).childrenHashes =
        sub.childrenHashes := by
      intro sub
      unfold initSub
      split
      case isFalse => rfl
      cases type with
      | childAdded =>
          rcases internal_or_not (ctx.cached keyCmp path') with hsome | hnot
          · exact absurd ⟨rfl, hsome⟩ hfill
          · simp
      | _ => rfl
    rw [hsame]
    show sub.childrenHashes.toList = _
    cases hold : sub.hasChildCb with
    | true =>
        cases hfind : ctx.sub keyCmp path' with
        | none =>
            rw [hgetD, hfind] at hold
            cases hold
        | some found =>
            rw [hgetD, hfind] at hold ⊢
            exact h.table path' found hfind hold
    | false =>
        have htype : type ≠ .value := by
          rintro rfl
          -- an `ON_VALUE` callback does not make the first child callback
          obtain ⟨t, ht, hne⟩ := hasChildCb_iff.mp hchild
          have hsame : (sub.addCb .value ⟨ctx.alloc, path'⟩).cbList t = sub.cbList t :=
            Function.update_of_ne ht _ _
          rw [cbList_initSub, hsame] at hne
          rw [hasChildCb_iff.mpr ⟨t, ht, hne⟩] at hold
          cases hold
        exact (hfits htype hold).resolve_left hfill

omit [TransCmp keyCmp] [LawfulEqCmp keyCmp] in
theorem table_trimmed (h : ctx.Tabled wcSHA1 keyCmp) (htrim : Trimmed keyCmp ctx ctx') (q : Path)
    (sub' : OnSub) (hsub' : ctx'.sub keyCmp q = some sub') (hchild : sub'.hasChildCb = true) :
    sub'.childrenHashes.toList = childHashes wcSHA1 (ctx'.cached keyCmp q) := by
  obtain ⟨hit, sub, hsub, rfl⟩ := htrim.sub q sub' hsub'
  obtain ⟨type, htype, hne⟩ := hasChildCb_iff.mp hchild
  obtain ⟨pCb, hpCb⟩ := List.exists_mem_of_ne_nil _ hne
  have hold : sub.hasChildCb = true := hasChildCb_iff.mpr
    ⟨type, htype, List.ne_nil_of_mem (List.filter_subset_self _ hpCb)⟩
  rw [OnState.cached, htrim.cache]
  exact h.table q sub hsub hold

theorem step_tabled (h : ctx.Tabled wcSHA1 keyCmp) {op : OnOp} (hkeep : op.Keeps)
    (hfits : TableFits wcSHA1 keyCmp ctx op) (hstep : ctx.step wcSHA1 keyCmp op = some ctx') :
    ctx'.Tabled wcSHA1 keyCmp := by
  have hagrees := step_agrees_of_keeps h.agrees hkeep hstep
  rcases step_cases h.agrees h.cacheOk hkeep hstep with
    ⟨type, path, answers, rfl, rfl⟩ | htrim | ⟨path, hpush⟩
  · exact ⟨hagrees, by simpa using h.cacheOk, table_registered h hfits⟩
  · exact ⟨hagrees, by simpa [htrim.cache] using h.cacheOk, table_trimmed h htrim⟩
  · exact ⟨hagrees, hpush.cacheOk, table_pushed h hpush⟩

omit [TransCmp keyCmp] [LawfulEqCmp keyCmp] in
/-- A callback is in the list of one type only. -/
theorem type_unique {f : OnEventType → List OnCb} (h : (onEventTypes.flatMap f).Nodup)
    {t t' : OnEventType} {pCb : OnCb} (ht : pCb ∈ f t) (ht' : pCb ∈ f t') : t = t' := by
  by_contra hne
  obtain ⟨-, hdisjoint⟩ := List.nodup_flatMap.mp h
  have : Std.Symm (Function.onFun List.Disjoint f) := ⟨fun _ _ hd => hd.symm⟩
  exact hdisjoint.forall (mem_onEventTypes t) (mem_onEventTypes t') hne ht ht'

omit [TransCmp keyCmp] [LawfulEqCmp keyCmp] in
theorem filterMap_eq_singleton {α β : Type} [DecidableEq α] {l : List α} (h : l.Nodup) {a : α}
    (ha : a ∈ l) (b : β) : l.filterMap (fun x => if x = a then some b else none) = [b] := by
  induction l with
  | nil => cases ha
  | cons x l ih =>
      rw [List.nodup_cons] at h
      by_cases hx : x = a
      · subst hx
        have hrest : l.filterMap (fun y => if y = x then some b else none) = [] :=
          List.filterMap_eq_nil_iff.mpr fun y hy => if_neg fun heq : y = x => h.1 (heq ▸ hy)
        rw [List.filterMap_cons, if_pos rfl]
        simp only [hrest]
      · rw [List.filterMap_cons, if_neg hx]
        exact ih h.2 ((List.mem_cons.mp ha).resolve_left fun heq => hx heq.symm)

omit [TransCmp keyCmp] [LawfulEqCmp keyCmp] in
/-- The events of one path, for one callback of one type. -/
theorem handed_trigCalls {cached : Option Treenode} {sub : OnSub} {type : OnEventType}
    {pCb : OnCb} (htype : type ≠ .value) (hpCb : pCb ∈ sub.cbList type)
    (hnodup : (onEventTypes.flatMap sub.cbList).Nodup) :
    (trigCalls wcSHA1 keyCmp cached sub).filterMap (fun c => Event.handed pCb (.call c)) =
      (((sub.childTriggers wcSHA1 keyCmp cached).filter (·.type = type)).map (·.curKey)).map
        fun key => (type, some key) := by
  have hchild : sub.hasChildCb = true := hasChildCb_iff.mpr ⟨type, htype, List.ne_nil_of_mem hpCb⟩
  have honce : ∀ t, pCb ∈ sub.cbList t → t = type := fun t ht =>
    type_unique hnodup ht hpCb
  have hvalue : (valCalls wcSHA1 cached sub).filterMap (fun c => Event.handed pCb (.call c)) =
      [] := by
    refine List.filterMap_eq_nil_iff.mpr fun c hc => if_neg fun heq => ?_
    rw [valCalls] at hc
    split at hc
    · obtain ⟨c', hc', rfl⟩ := List.mem_map.mp hc
      obtain rfl : c' = pCb := heq
      exact htype (honce _ hc').symm
    · cases hc
  have htrigger : ∀ t : ChildTrigger, ((sub.cbList t.type).map t.call).filterMap
      (fun c => Event.handed pCb (.call c)) =
        if t.type = type then [(type, some t.curKey)] else [] := by
    intro t
    rw [List.filterMap_map]
    split
    next ht =>
      have hlist : (sub.cbList type).Nodup :=
        (List.nodup_flatMap.mp hnodup).1 _ (mem_onEventTypes _)
      rw [ht, ← filterMap_eq_singleton hlist hpCb (type, some t.curKey)]
      refine List.filterMap_congr fun c _ => ?_
      simp [Event.handed, ChildTrigger.call, ht]
    next ht =>
      refine List.filterMap_eq_nil_iff.mpr fun c hc => if_neg fun heq : c = pCb => ?_
      exact ht (honce _ (heq ▸ hc))
  rw [trigCalls, if_pos hchild, List.filterMap_append, hvalue, List.append_nil, childCalls]
  induction sub.childTriggers wcSHA1 keyCmp cached with
  | nil => rfl
  | cons t triggers ih =>
      rw [List.flatMap_cons, List.filterMap_append, ih, htrigger]
      by_cases ht : t.type = type
      · simp [ht]
      · simp [ht]

theorem told_of_pushed (h : ctx.Tabled wcSHA1 keyCmp) {path : Path}
    (hpush : Pushed wcSHA1 keyCmp path ctx ctx') : ChildrenTold wcSHA1 keyCmp ctx ctx' := by
  intro q type htype pCb hpCb
  have hwf := h.agrees.counted.wellFormed
  cases hsub : ctx.sub keyCmp q with
  | none =>
      rw [OnState.cbs, hsub] at hpCb
      cases hpCb
  | some sub =>
  have hown : pCb.sub = q := (hwf.own q pCb (mem_registrations.mpr ⟨type, hpCb⟩)).1
  have hnodup : (onEventTypes.flatMap sub.cbList).Nodup := by
    have hall := hwf.nodup q
    rwa [OnState.registrations, cbs_of_sub hsub] at hall
  rw [cbs_of_sub hsub] at hpCb
  have hchild : sub.hasChildCb = true := hasChildCb_iff.mpr ⟨type, htype, List.ne_nil_of_mem hpCb⟩
  obtain ⟨calls, hlog, -, hcalls⟩ := hpush.log
  have hevents : eventsTo pCb (ctx'.log.drop ctx.log.length) =
      (calls.filter (fun c => c.pCb.sub = q)).filterMap
        (fun c => Event.handed pCb (.call c)) := by
    rw [hlog, List.drop_left, eventsTo, List.filterMap_map, List.filterMap_filter]
    refine List.filterMap_congr fun c _ => ?_
    by_cases heq : c.pCb = pCb
    · simp [heq, hown]
    · simp [Event.handed, heq]
  simp only [cached_child]
  rw [hevents, hcalls q sub hsub]
  by_cases hrel : Related path q
  · obtain ⟨hkeys, hmem⟩ := events_of_triggers type (h.cachedOk q)
      (fun n hn => forall_get hpush.cacheOk hn) (h.table q sub hsub hchild)
    rw [if_pos hrel, handed_trigCalls htype hpCb hnodup]
    exact ⟨_, hkeys, hmem, rfl⟩
  · refine ⟨[], List.nodup_nil, fun key => ?_, by rw [if_neg hrel]; rfl⟩
    rw [hpush.cached q hrel, childEvent_self]
    simp

/-- **Every child callback is told of every change of its kind, once**, during
any push from a state that a run reaches in which no child callback inherits a
table that does not fit. Every dispatch comes to its end. -/
theorem children_told (run : Reach (OnCtx.step wcSHA1 keyCmp)
    (fun ctx op => op.Keeps ∧ TableFits wcSHA1 keyCmp ctx op) onCtxNew ctx) :
    (∀ op ctx', op.IsPush → op.Keeps → ctx.step wcSHA1 keyCmp op = some ctx' →
      ChildrenTold wcSHA1 keyCmp ctx ctx') ∧ ctx.DispatchesEnd wcSHA1 keyCmp := by
  have htabled : ctx.Tabled wcSHA1 keyCmp := by
    refine run.invariant ?_ fun _ _ _ h hok hstep => step_tabled h hok.1 hok.2 hstep
    exact ⟨onCtxNew_agrees, nodeOk_leafNull, nofun⟩
  refine ⟨fun op ctx' hpush hkeep hstep => ?_,
    dispatchesEnd htabled.agrees.counted.wellFormed.ordered htabled.agrees.fault⟩
  obtain ⟨path, hpushed⟩ := step_pushed htabled.agrees htabled.cacheOk hpush hkeep hstep
  exact told_of_pushed htabled hpushed

end Steps

/-! ### An empty table -/

theorem children_told_first_child : ∃ ctx, Reach (OnCtx.step zeroSHA1 strcmp)
      (fun ctx op => op.Keeps ∧ TableFits zeroSHA1 strcmp ctx op) onCtxNew ctx ∧
    (∀ op ctx', op.IsPush → op.Keeps → ctx.step zeroSHA1 strcmp op = some ctx' →
      ChildrenTold zeroSHA1 strcmp ctx ctx') ∧ ctx.DispatchesEnd zeroSHA1 strcmp := by
  have hrun : ∃ ctx, onCtxNew.step zeroSHA1 strcmp (.on .childChanged pathA keepAlways) =
      some ctx ∧ ∃ ctx', ctx.step zeroSHA1 strcmp (.updatePut pathA twoChildren keepAlways 2) =
        some ctx' := ⟨_, rfl, _, rfl⟩
  obtain ⟨ctx, hctx, ctx', hctx'⟩ := hrun
  have hfits : TableFits zeroSHA1 strcmp onCtxNew (.on .childChanged pathA keepAlways) :=
    fun _ _ => .inr rfl
  have run : Reach (OnCtx.step zeroSHA1 strcmp)
      (fun ctx op => op.Keeps ∧ TableFits zeroSHA1 strcmp ctx op) onCtxNew ctx' :=
    .step (.step .start ⟨keeps_on _ _, hfits⟩ hctx) ⟨keeps_updatePut _ _ _, trivial⟩ hctx'
  exact ⟨ctx', run, children_told run⟩

def pathAX : Bytes := pathA ++ [slash, 120]

/-- A callback registered once the children are there finds an empty table, and
is not told that one of them changes. -/
theorem changed_child_not_told :
    ¬ ∀ ctx, Reach (OnCtx.step zeroSHA1 strcmp) (fun _ op => op.Keeps) onCtxNew ctx →
      (∀ op ctx', op.IsPush → op.Keeps → ctx.step zeroSHA1 strcmp op = some ctx' →
        ChildrenTold zeroSHA1 strcmp ctx ctx') ∧ ctx.DispatchesEnd zeroSHA1 strcmp := by
  intro hall
  have hrun : ∃ ctx, [OnOp.updatePut pathA twoChildren keepAlways 2,
        .on .childChanged pathA keepAlways].foldlM (OnCtx.step zeroSHA1 strcmp) onCtxNew =
          some ctx ∧
      ∃ ctx', ctx.step zeroSHA1 strcmp (.updatePut pathAX (.boolean false) keepAlways 2) =
          some ctx' ∧
        (⟨0, [pathA.tail]⟩ : OnCb) ∈ ctx.cbs strcmp [pathA.tail] .childChanged ∧
        childEvent zeroSHA1 (ctx.cached strcmp ([pathA.tail] ++ [[120]]))
          (ctx'.cached strcmp ([pathA.tail] ++ [[120]])) = some .childChanged ∧
        eventsTo ⟨0, [pathA.tail]⟩ (ctx'.log.drop ctx.log.length) = [] :=
    ⟨_, rfl, _, rfl, List.mem_cons_self, rfl, rfl⟩
  obtain ⟨ctx, hctx, ctx', hctx', hlive, hchanged, hquiet⟩ := hrun
  have hreach : Reach (OnCtx.step zeroSHA1 strcmp) (fun _ op => op.Keeps) onCtxNew ctx := by
    refine .of_foldlM .start (fun op hop _ => ?_) hctx
    simp only [List.mem_cons, List.not_mem_nil, or_false] at hop
    rcases hop with rfl | rfl
    · exact keeps_updatePut _ _ _
    · exact keeps_on _ _
  have hpush : (OnOp.updatePut pathAX (.boolean false) keepAlways 2).IsPush := trivial
  obtain ⟨keys, -, hkeys, hevents⟩ :=
    (hall ctx hreach).1 _ ctx' hpush (keeps_updatePut _ _ _) hctx' _ _ (by decide) _ hlive
  have hmem := (hkeys [120]).mpr hchanged
  rw [hquiet] at hevents
  rw [List.map_eq_nil_iff.mp hevents.symm] at hmem
  cases hmem

end WebcomSdk.On
