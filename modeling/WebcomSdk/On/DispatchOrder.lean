import WebcomSdk.On.RefCounts
import WebcomSdk.Datasync.ListenCoverage

/-!
Which subscriptions a dispatch visits. The dispatch is taken once more with a
record of the subscriptions on which it runs `trig`; the record is the strict
prefixes of the path from the root on, then what starts with the path in the
order of the registry.
-/

namespace WebcomSdk.On

open WebcomSdk.Collection WebcomSdk.Datasync WebcomSdk.Cache Std

section

variable (wcSHA1 : SHA1) (keyCmp : Key → Key → Ordering)

/-! ### Registries -/

/-- What is done with a subscription registry. In between, the cache and the
listen registry change in any way. -/
inductive RegistryOp where
  | add (type : OnEventType) (path : Bytes)
  | remove (path : Path) (typeMask : OnEventType → Bool) (h : Option OnCb)
  | other (cache : Treenode) (listen : ListenCtx)

/-- The callbacks added only return. -/
def RegistryOp.run (ctx : OnCtx) : RegistryOp → OnCtx
  | .add type path =>
      onRegistryAdd wcSHA1 keyCmp (fun c ctx => ctx.emit (.call c)) type
        (wcDatasyncPathParse path) ctx
  | .remove path typeMask h => (onRegistryRemove keyCmp path typeMask h ctx).1
  | .other cache listen => { ctx with cache, listen }

/-- The registry was built from an empty one. -/
def OnCtx.Built (ctx : OnCtx) : Prop :=
  ∃ (before : OnCtx) (ops : List RegistryOp), before.onReg = .nil ∧
    ctx = ops.foldl (RegistryOp.run wcSHA1 keyCmp) before

/-! ### The record of a dispatch -/

variable (answers : ℕ → CbRun)

/-- `trig`, with its subscription put at the end of the record. -/
def tracedTrig (walking : Bool) (q : Path) (s : OnCtx × List Path) : OnCtx × List Path :=
  (trig wcSHA1 keyCmp answers walking q s.1, s.2 ++ [q])

/-- A pass of the first loop of `on_registry_dispatch_on_event_ex`. -/
def tracedAbove (path : Path) (s : OnCtx × List Path) (nparts : ℕ) : OnCtx × List Path :=
  if (s.1.sub keyCmp (path.take nparts)).isSome then
    tracedTrig wcSHA1 keyCmp answers false (path.take nparts) s
  else s

/-- `on_registry_dispatch_on_event_ex` up to `deleted_cb_gc`. -/
def tracedDispatch (path : Path) (fuel : ℕ) (ctx : OnCtx) : Option (OnCtx × List Path) :=
  let s := (List.range path.length).foldl (tracedAbove wcSHA1 keyCmp answers path) (ctx, [])
  avlItLoop (wcDatasyncPathCmp keyCmp) (fun s : OnCtx × List Path => s.1.onReg)
    (fun q => wcDatasyncPathStartsWith q path) (tracedTrig wcSHA1 keyCmp answers true) fuel
    (avlItStartAt (wcDatasyncPathCmp keyCmp) path s.1.onReg []) s

/-- The subscriptions related to a path, each once: strict prefixes from the
root on, then those at and below the path in their order. -/
structure DispatchOrder (ctx : OnState) (p : Path) (visited : List Path) : Prop where
  once : visited.Nodup
  related : ∀ q, q ∈ visited ↔ (ctx.sub keyCmp q).isSome ∧ Related p q
  sorted : ∃ above below, visited = above ++ below ∧ (∀ q ∈ above, Above q p) ∧
    above.Pairwise Above ∧ (∀ q ∈ below, p <+: q) ∧
    below.Pairwise fun q r => wcDatasyncPathCmp keyCmp q r = .lt

end

variable {wcSHA1 : SHA1} {keyCmp : Key → Key → Ordering} {answers : ℕ → CbRun} {ctx : OnCtx}

/-! ### Built registries are search trees -/

section Built

variable [TransCmp keyCmp] [LawfulEqCmp keyCmp]

theorem ordered_run (hreg : ctx.onReg.Ordered (wcDatasyncPathCmp keyCmp)) (op : RegistryOp) :
    (op.run wcSHA1 keyCmp ctx).onReg.Ordered (wcDatasyncPathCmp keyCmp) := by
  cases op with
  | add type path =>
      rw [RegistryOp.run, onRegistryAdd_emit]
      exact ordered_avlModify (ordered_linkCb hreg type _) _ _
  | remove path typeMask h =>
      obtain ⟨reg, heq, hord, -, -⟩ := onRegistryRemove_spec hreg path typeMask h
      rw [RegistryOp.run, heq]
      exact hord
  | other cache listen => exact hreg

theorem OnCtx.Built.ordered (h : ctx.Built wcSHA1 keyCmp) :
    ctx.onReg.Ordered (wcDatasyncPathCmp keyCmp) := by
  obtain ⟨before, ops, hempty, rfl⟩ := h
  have hstart : before.onReg.Ordered (wcDatasyncPathCmp keyCmp) := by
    rw [hempty]
    exact List.Pairwise.nil
  exact List.foldlRecOn (motive := fun ctx : OnCtx =>
    ctx.onReg.Ordered (wcDatasyncPathCmp keyCmp)) ops _ hstart
    fun _ hreg op _ => ordered_run hreg op

end Built

/-! ### The record and the dispatch -/

theorem tracedAbove_proj (path : Path) (ns : List ℕ) (s : OnCtx × List Path) :
    (ns.foldl (tracedAbove wcSHA1 keyCmp answers path) s).1 =
      ns.foldl (fun ctx n => trig wcSHA1 keyCmp answers false (path.take n) ctx) s.1 := by
  induction ns generalizing s with
  | nil => rfl
  | cons n ns ih =>
      have hstep : (tracedAbove wcSHA1 keyCmp answers path s n).1 =
          trig wcSHA1 keyCmp answers false (path.take n) s.1 := by
        rw [tracedAbove]
        cases hsub : s.1.sub keyCmp (path.take n) with
        | none =>
            rw [trig, hsub]
            rfl
        | some sub => rfl
      rw [List.foldl_cons, List.foldl_cons, ih, hstep]

/-- The record does not change what is done. -/
theorem tracedDispatch_proj (path : Path) (fuel : ℕ) (ctx : OnCtx) :
    onRegistryDispatchOnEvent wcSHA1 keyCmp answers path fuel ctx =
      (tracedDispatch wcSHA1 keyCmp answers path fuel ctx).map fun s => deletedCbGc keyCmp s.1 := by
  have habove : ((List.range path.length).foldl (tracedAbove wcSHA1 keyCmp answers path)
      (ctx, [])).1 = dispatchAbove wcSHA1 keyCmp answers path ctx := tracedAbove_proj path _ _
  have hproj (it : List Path) (s : OnCtx × List Path) :
      (avlItLoop (wcDatasyncPathCmp keyCmp) (fun s : OnCtx × List Path => s.1.onReg)
        (fun q => wcDatasyncPathStartsWith q path) (tracedTrig wcSHA1 keyCmp answers true)
        fuel it s).map Prod.fst =
      avlItLoop (wcDatasyncPathCmp keyCmp) (fun ctx : OnCtx => ctx.onReg)
        (fun q => wcDatasyncPathStartsWith q path) (trig wcSHA1 keyCmp answers true) fuel it s.1 :=
    avlItLoop_proj (fun ctx : OnCtx => ctx.onReg) Prod.fst (fun _ _ => rfl) fuel it s
  have hmap (r : Option (OnCtx × List Path)) :
      (r.map fun s => deletedCbGc keyCmp s.1) = (r.map Prod.fst).map (deletedCbGc keyCmp) := by
    rw [Option.map_map]
    rfl
  rw [onRegistryDispatchOnEvent, tracedDispatch, hmap, hproj, habove, dispatchBelow_eq_loop]

section Order

variable (wcSHA1 keyCmp) in
/-- The first loop keeps the keys and records the prefixes that are there. -/
theorem foldl_tracedAbove (hret : OnlyReturn answers) (path : Path) (ns : List ℕ)
    (s : OnCtx × List Path) (hs : s.1.onReg.map OnSub.cbList = ctx.onReg.map OnSub.cbList) :
    (ns.foldl (tracedAbove wcSHA1 keyCmp answers path) s).1.onReg.map OnSub.cbList =
        ctx.onReg.map OnSub.cbList ∧
      (ns.foldl (tracedAbove wcSHA1 keyCmp answers path) s).2 =
        s.2 ++ (ns.map path.take).filter fun q => (ctx.sub keyCmp q).isSome := by
  induction ns generalizing s with
  | nil => exact ⟨hs, (List.append_nil _).symm⟩
  | cons n ns ih =>
      have hsub : (s.1.sub keyCmp (path.take n)).isSome =
          (ctx.sub keyCmp (path.take n)).isSome := by
        rw [OnState.sub, OnState.sub, ← Option.isSome_map, ← avlFind_map, hs, avlFind_map,
          Option.isSome_map]
      rw [List.foldl_cons, List.map_cons, tracedAbove, hsub]
      cases hsome : (ctx.sub keyCmp (path.take n)).isSome with
      | false =>
          rw [if_neg (by simp), List.filter_cons_of_neg (by simp [hsome])]
          exact ih s hs
      | true =>
          rw [if_pos rfl, List.filter_cons_of_pos (by simpa using hsome)]
          have hmap : (tracedTrig wcSHA1 keyCmp answers false (path.take n) s).1.onReg.map
              OnSub.cbList = ctx.onReg.map OnSub.cbList := by
            rw [tracedTrig, hret.trig_eq, map_cbList_fire, hs]
          obtain ⟨hkept, hrecord⟩ := ih _ hmap
          exact ⟨hkept, by rw [hrecord, tracedTrig, List.append_assoc]; rfl⟩

/-- What the record holds in the end. -/
def visitedPaths (keyCmp : Key → Key → Ordering) (path : Path) (ctx : OnState) : List Path :=
  ((List.range path.length).map path.take).filter (fun q => (ctx.sub keyCmp q).isSome) ++
    (walkBelow keyCmp path ctx.onReg).map Prod.fst

theorem foldl_tracedTrig (walking : Bool) (qs : List Path) (s : OnCtx × List Path) :
    (qs.foldl (fun s q => tracedTrig wcSHA1 keyCmp answers walking q s) s).2 = s.2 ++ qs := by
  induction qs generalizing s with
  | nil => exact (List.append_nil _).symm
  | cons q qs ih => rw [List.foldl_cons, ih, tracedTrig, List.append_assoc, List.singleton_append]

variable [TransCmp keyCmp]

variable (wcSHA1) in
theorem tracedDispatch_eq (hret : OnlyReturn answers)
    (hreg : ctx.onReg.Ordered (wcDatasyncPathCmp keyCmp)) (path : Path) :
    ∃ ctx', ∀ fuel, (visitedPaths keyCmp path ctx.toOnState).length < fuel →
      tracedDispatch wcSHA1 keyCmp answers path fuel ctx =
        some (ctx', visitedPaths keyCmp path ctx.toOnState) := by
  obtain ⟨hmap, hrecord⟩ := foldl_tracedAbove wcSHA1 keyCmp hret path (List.range path.length)
    (ctx, []) rfl
  set s := (List.range path.length).foldl (tracedAbove wcSHA1 keyCmp answers path) (ctx, []) with hs
  have hkeep : ∀ q (s : OnCtx × List Path),
      (tracedTrig wcSHA1 keyCmp answers true q s).1.onReg.map OnSub.cbList =
        s.1.onReg.map OnSub.cbList := by
    intro q s
    rw [tracedTrig, hret.trig_eq, map_cbList_fire]
  refine ⟨(((walkBelow keyCmp path ctx.onReg).map Prod.fst).foldl
    (fun s q => tracedTrig wcSHA1 keyCmp answers true q s) s).1, fun fuel hfuel => ?_⟩
  have hlen : ((walkBelow keyCmp path ctx.onReg).map Prod.fst).length < fuel := by
    rw [visitedPaths, List.length_append] at hfuel
    omega
  rw [tracedDispatch, ← hs, ← avlItStartAt_map OnSub.cbList, hmap, avlItStartAt_map,
    avlItLoop_eq OnSub.cbList hreg hkeep fuel _ s hmap, pending_eq_walkBelow hreg, if_pos hlen]
  refine congrArg some (Prod.ext rfl ?_)
  rw [foldl_tracedTrig, hrecord, List.nil_append, visitedPaths]

variable [LawfulEqCmp keyCmp]

theorem visitedPaths_order (hreg : ctx.onReg.Ordered (wcDatasyncPathCmp keyCmp)) (p : Path) :
    DispatchOrder keyCmp ctx.toOnState p (visitedPaths keyCmp p ctx.toOnState) := by
  have hbelow : ∀ q ∈ (walkBelow keyCmp p ctx.onReg).map Prod.fst,
      (ctx.sub keyCmp q).isSome ∧ p <+: q := by
    intro q hq
    obtain ⟨e, he, rfl⟩ := List.mem_map.mp hq
    obtain ⟨hmem, hpre⟩ := (mem_walkBelow hreg).mp he
    exact ⟨Option.isSome_iff_exists.mpr ⟨e.2, (avlFind_eq_some_iff hreg).mpr hmem⟩, hpre⟩
  constructor
  case once =>
    exact (nodup_dispatchPaths hreg).sublist (List.filter_sublist.append_right _)
  case related =>
    intro q
    constructor
    · intro hq
      rcases List.mem_append.mp hq with hq | hq
      · obtain ⟨hq, hsome⟩ := List.mem_filter.mp hq
        obtain ⟨n, -, rfl⟩ := List.mem_map.mp hq
        exact ⟨hsome, .inl (List.take_prefix n p)⟩
      · exact ⟨(hbelow q hq).1, .inr (hbelow q hq).2⟩
    · rintro ⟨hsome, hrelated⟩
      obtain ⟨sub, hsub⟩ := Option.isSome_iff_exists.mp hsome
      have hq := (mem_dispatchPaths hreg hsub).mpr hrelated
      rw [dispatchPaths, List.mem_append] at hq
      exact List.mem_append.mpr (hq.imp_left fun hq => List.mem_filter.mpr ⟨hq, hsome⟩)
  case sorted =>
    refine ⟨_, _, rfl, ?_, ?_, fun q hq => (hbelow q hq).2, ?_⟩
    · intro q hq
      obtain ⟨n, hn, rfl⟩ := List.mem_map.mp (List.mem_of_mem_filter hq)
      exact above_take (List.mem_range.mp hn)
    · refine List.Pairwise.filter _ (List.pairwise_map.mpr ?_)
      refine List.pairwise_lt_range.imp_of_mem fun {m n} _ hn hlt => ?_
      have htake : (p.take n).take m = p.take m := by
        rw [List.take_take, Nat.min_eq_left hlt.le]
      rw [← htake]
      refine above_take ?_
      rw [List.length_take]
      have hn' := List.mem_range.mp hn
      omega
    · exact List.pairwise_map.mpr (List.Pairwise.sublist (sublist_walkBelow hreg) hreg)

end Order

/-- **The subscriptions of a dispatch.** In every registry that was built from an
empty one, a dispatch whose callbacks register nothing runs `trig` on exactly the
subscriptions that are prefixes of the path or start with it, each once, from the
root down and then in the order of the paths. -/
theorem dispatch_visits_related [TransCmp keyCmp] [LawfulEqCmp keyCmp]
    (hbuilt : ctx.Built wcSHA1 keyCmp) (hret : OnlyReturn answers) (p : Path) :
    ∃ visited ctx', DispatchOrder keyCmp ctx.toOnState p visited ∧
      ∀ fuel, visited.length < fuel →
        tracedDispatch wcSHA1 keyCmp answers p fuel ctx = some (ctx', visited) ∧
        onRegistryDispatchOnEvent wcSHA1 keyCmp answers p fuel ctx =
          some (deletedCbGc keyCmp ctx') := by
  have hreg := hbuilt.ordered
  obtain ⟨ctx', htraced⟩ := tracedDispatch_eq wcSHA1 hret hreg p
  refine ⟨_, ctx', visitedPaths_order hreg p, fun fuel hfuel => ⟨htraced fuel hfuel, ?_⟩⟩
  rw [tracedDispatch_proj, htraced fuel hfuel]
  rfl

/-- Subscriptions at `/`, `/a` and `/b`, of which the last one is removed. -/
def threeSubs : List RegistryOp :=
  [.add .value (ascii "/"), .add .childAdded (ascii "/a"), .add .value (ascii "/b"),
    .remove [ascii "b"] (fun _ => true) none]

theorem dispatch_visits_threeSubs :
    let ctx := threeSubs.foldl (RegistryOp.run zeroSHA1 strcmp) onCtxNew
    ∃ visited ctx', DispatchOrder strcmp ctx.toOnState [ascii "a"] visited ∧
      ∀ fuel, visited.length < fuel →
        tracedDispatch zeroSHA1 strcmp keepNever [ascii "a"] fuel ctx = some (ctx', visited) ∧
        onRegistryDispatchOnEvent zeroSHA1 strcmp keepNever [ascii "a"] fuel ctx =
          some (deletedCbGc strcmp ctx') :=
  dispatch_visits_related ⟨onCtxNew, threeSubs, rfl, rfl⟩ (fun _ => ⟨false, rfl⟩) [ascii "a"]

end WebcomSdk.On
