import WebcomSdk.Cache.Merges
import WebcomSdk.Client.Wire
import WebcomSdk.Datasync.RoundTrip

/-!
The cache as a replica. Whatever the frames, the callbacks and the operations of the
application are, it holds what the puts and merges of the server make, in the order in
which they were sent.
-/

namespace WebcomSdk.Client

open WebcomSdk.Lib WebcomSdk.Datasync WebcomSdk.Cache WebcomSdk.On Std

/-! ### What the server means -/

section Meaning

variable (jsonC : JsonC) (keyCmp : Key → Key → Ordering)

/-- A put replaces all there is at and below its path. At the root a null is a value. -/
def putFaces (path : Path) (x : Json) (m : CacheMap) : CacheMap :=
  if path = [] then fun q =>
    (childFaces keyCmp x q).or (if q = [] then some (.leaf .null) else none)
  else .graft .object path (childFaces keyCmp x) m

/-- The messages that change the data. A merge is a put for each member. -/
def msgFaces (m : CacheMap) : WcMsg → CacheMap
  | .data (.push (.dataUpdatePut path data)) =>
      putFaces keyCmp (wcDatasyncPathParse path) (jsonC.tokenerParse data) m
  | .data (.push (.dataUpdateMerge path data)) =>
      match jsonC.tokenerParse data with
      | .object members => members.foldl (fun m (key, val) =>
          putFaces keyCmp (wcDatasyncPathParse (mergePath path key)) val m) m
      | _ => m
  | _ => m

/-- The data after the messages, from none at all. -/
def serverFaces (sent : List WcMsg) : CacheMap :=
  sent.foldl (msgFaces jsonC keyCmp) (faces keyCmp dataCacheNew)

end Meaning

section Replica

variable {jsonC : JsonC} {wcSHA1 : SHA1} {keyCmp : Key → Key → Ordering} {ctx ctx' : OnCtx}

/-! ### What changes the cache -/

theorem cache_onRegistryRemove (path : Path) (typeMask : OnEventType → Bool) (h : Option OnCb) :
    (onRegistryRemove keyCmp path typeMask h ctx).1.cache = ctx.cache := by
  rw [onRegistryRemove]
  split
  · rfl
  · dsimp only
    split <;> rfl

theorem cache_unwatch (path : Path) (refDec : ℕ) :
    (unwatch keyCmp path refDec ctx).cache = ctx.cache := by
  rw [unwatch]
  split <;> rfl

theorem cache_wcDatasyncOffW (path : Bytes) (eventMask : OnEventType → Bool) (cb : Option OnCb) :
    (wcDatasyncOffW keyCmp path eventMask cb ctx).cache = ctx.cache := by
  rw [wcDatasyncOffW, cache_unwatch]
  exact cache_onRegistryRemove _ eventMask cb

theorem cache_gcLoop (queue : List OnCb) : (gcLoop keyCmp queue ctx).cache = ctx.cache := by
  induction queue generalizing ctx with
  | nil => rfl
  | cons pCb queue ih =>
      rw [gcLoop]
      split
      · rw [ih, cache_onRegistryRemove, cache_unwatch]
      · rfl

/-- What the operation writes to the cache. -/
def cacheAfter (keyCmp : Key → Key → Ordering) (root : Treenode) : OnOp → Treenode
  | .updatePut path data _ _ => dataCacheSet keyCmp path data root
  | .updateMerge path data _ _ => dataCacheMerge keyCmp path data root
  | _ => root

variable [TransCmp keyCmp] [LawfulEqCmp keyCmp]

theorem cache_dispatch {answers : ℕ → CbRun} {path : Path} {fuel : ℕ}
    (h : ctx.Ready wcSHA1 keyCmp)
    (hdispatch : onRegistryDispatchOnEvent wcSHA1 keyCmp answers path fuel ctx = some ctx') :
    ctx'.cache = ctx.cache := by
  obtain ⟨ctx₁, ⟨-, hcache⟩, rfl⟩ := dispatch_induction
    (P := fun c => c.Ready wcSHA1 keyCmp ∧ c.cache = ctx.cache) (fun walking q c hc => by
      obtain ⟨hgrown, hready⟩ := trig_grown answers hc.1 walking q
      exact ⟨hready, hgrown.cache.trans hc.2⟩) ⟨h, rfl⟩ hdispatch
  rw [deletedCbGc, cache_gcLoop]
  exact hcache

/-- Only the pushes change the cache, whatever the callbacks do. -/
theorem cache_step (h : ctx.Ready wcSHA1 keyCmp) {op : OnOp}
    (hstep : ctx.step wcSHA1 keyCmp op = some ctx') :
    ctx'.cache = cacheAfter keyCmp ctx.cache op := by
  have hpush : ∀ {cache answers path fuel}, cache.Forall (NodeOk wcSHA1 keyCmp) →
      onRegistryDispatchOnEvent wcSHA1 keyCmp answers path fuel { ctx with cache } = some ctx' →
      ctx'.cache = cache := by
    intro cache answers path fuel hok hdispatch
    have hready : OnCtx.Ready wcSHA1 keyCmp { ctx with cache } :=
      ⟨h.wellFormed.congr rfl (Nat.le_refl _), hok, h.logged⟩
    exact cache_dispatch hready hdispatch
  have hnet : ∀ op : ListenOp,
      ((ctx.listen.step keyCmp op).map fun listen => { ctx with listen }) = some ctx' →
        ctx'.cache = ctx.cache := by
    intro op hop
    obtain ⟨listen, -, rfl⟩ := Option.map_eq_some_iff.mp hop
    rfl
  unfold OnCtx.step at hstep
  split at hstep
  case isTrue => cases hstep
  cases op with
  | on type path answers =>
      obtain rfl := Option.some.inj hstep
      exact (wcDatasyncOn_grown h type path
        (fun c ctx hready => run_nested hready none (answers ctx.log.length))).1.cache
  | off c =>
      simp only at hstep
      split at hstep
      · exact Option.some.inj hstep ▸ cache_wcDatasyncOffW _ _ _
      · cases hstep
  | offPath path => exact Option.some.inj hstep ▸ cache_wcDatasyncOffW _ _ _
  | offPathType path type => exact Option.some.inj hstep ▸ cache_wcDatasyncOffW _ _ _
  | updatePut path data answers fuel => exact hpush (dataCacheSetEx_ok _ data h.cacheOk) hstep
  | updateMerge path data answers fuel => exact hpush (dataCacheMerge_ok _ data h.cacheOk) hstep
  | cnxLost => exact hnet _ hstep
  | handshake => exact hnet _ hstep
  | response id ok => exact hnet _ hstep
  | connect => exact hnet _ hstep
  | closeCnx => exact hnet _ hstep

/-! ### What is written -/

omit [TransCmp keyCmp] [LawfulEqCmp keyCmp] in
/-- A document at the root: what was there does not matter. -/
theorem faces_setRoot (x : Json) (m : CacheMap) :
    faces keyCmp (dataCacheSetRoot keyCmp x) = putFaces keyCmp [] x m := by
  have hvalue : setChild keyCmp x = some (dataCacheSetRoot keyCmp x) →
      faces keyCmp (dataCacheSetRoot keyCmp x) = putFaces keyCmp [] x m := by
    intro hsome
    ext1 q
    have hchild : childFaces keyCmp x q = faces keyCmp (dataCacheSetRoot keyCmp x) q := by
      rw [childFaces, hsome]
      rfl
    show _ = (childFaces keyCmp x q).or (if q = [] then _ else none)
    rw [hchild]
    cases q with
    | nil => rfl
    | cons key q =>
        rw [if_neg (List.cons_ne_nil key q)]
        exact Option.or_none.symm
  cases x with
  | null =>
      ext1 q
      cases q with
      | nil => rfl
      | cons key q => rfl
  | _ => exact hvalue rfl

theorem faces_setEx (path : Path) (x : Json) {root : Treenode}
    (h : root.Forall (NodeOk wcSHA1 keyCmp)) :
    faces keyCmp (dataCacheSetEx keyCmp path x root) =
      putFaces keyCmp path x (faces keyCmp root) := by
  by_cases hpath : path = []
  · subst hpath
    exact faces_setRoot x _
  · rw [faces_dataCacheSetEx hpath x h, putFaces, if_neg hpath]

theorem faces_merge (path : Bytes) (members : List (Key × Json)) {root : Treenode}
    (h : root.Forall (NodeOk wcSHA1 keyCmp)) :
    faces keyCmp (dataCacheMerge keyCmp path (.object members) root) =
      members.foldl (fun m (key, val) =>
        putFaces keyCmp (wcDatasyncPathParse (mergePath path key)) val m) (faces keyCmp root) := by
  rw [dataCacheMerge]
  induction members generalizing root with
  | nil => rfl
  | cons m members ih =>
      rw [List.foldl_cons, List.foldl_cons, ih (dataCacheSetEx_ok _ m.2 h), faces_setEx _ m.2 h]

/-- A program with a next step is not faulty. -/
theorem ready_of_step {op : OnOp}
    (run : Reach (OnCtx.step wcSHA1 keyCmp) (fun _ _ => True) onCtxNew ctx)
    (hstep : ctx.step wcSHA1 keyCmp op = some ctx') : ctx.Ready wcSHA1 keyCmp := by
  apply And.left
  apply reach_ready run
  unfold OnCtx.step at hstep
  split at hstep
  · cases hstep
  next hfault => exact Bool.eq_false_iff.mpr hfault

/-- One message. -/
theorem process_faces {answers : ℕ → CbRun} {fuel : ℕ} {msg : WcMsg}
    (run : Reach (OnCtx.step wcSHA1 keyCmp) (fun _ _ => True) onCtxNew ctx)
    (hprocess : wcDatasyncProcessMessage jsonC wcSHA1 keyCmp answers fuel ctx msg = some ctx') :
    Reach (OnCtx.step wcSHA1 keyCmp) (fun _ _ => True) onCtxNew ctx' ∧
      faces keyCmp ctx'.cache = msgFaces jsonC keyCmp (faces keyCmp ctx.cache) msg := by
  have hop : ∀ op, ctx.step wcSHA1 keyCmp op = some ctx' →
      Reach (OnCtx.step wcSHA1 keyCmp) (fun _ _ => True) onCtxNew ctx' ∧
        ctx.cache.Forall (NodeOk wcSHA1 keyCmp) ∧ ctx'.cache = cacheAfter keyCmp ctx.cache op := by
    intro op hstep
    have hready := ready_of_step run hstep
    exact ⟨.step run trivial hstep, hready.cacheOk, cache_step hready hstep⟩
  have hsame : some ctx = some ctx' → Reach (OnCtx.step wcSHA1 keyCmp) (fun _ _ => True) onCtxNew
      ctx' ∧ faces keyCmp ctx'.cache = faces keyCmp ctx.cache := by
    intro heq
    obtain rfl := Option.some.inj heq
    exact ⟨run, rfl⟩
  cases msg with
  | ctrl c =>
      cases c with
      | handshake ts server version =>
          simp only [wcDatasyncProcessMessage] at hprocess
          obtain ⟨run', -, hcache⟩ := hop _ hprocess
          exact ⟨run', by rw [hcache]; rfl⟩
      | connectionShutdown reason => exact hsame hprocess
  | data d =>
      cases d with
      | action r action => exact hsame hprocess
      | response r status data =>
          simp only [wcDatasyncProcessMessage] at hprocess
          obtain ⟨run', -, hcache⟩ := hop _ hprocess
          exact ⟨run', by rw [hcache]; rfl⟩
      | push push =>
          cases push with
          | authRevoked status reason => exact hsame hprocess
          | listenRevoked path => exact hsame hprocess
          | dataUpdatePut path data =>
              simp only [wcDatasyncProcessMessage] at hprocess
              obtain ⟨run', hok, hcache⟩ := hop _ hprocess
              refine ⟨run', ?_⟩
              rw [hcache]
              exact faces_setEx _ (jsonC.tokenerParse data) hok
          | dataUpdateMerge path data =>
              simp only [wcDatasyncProcessMessage] at hprocess
              obtain ⟨run', hok, hcache⟩ := hop _ hprocess
              refine ⟨run', ?_⟩
              rw [hcache, cacheAfter, msgFaces]
              cases jsonC.tokenerParse data with
              | object members => exact faces_merge path members hok
              | _ => rfl

/-! ### Runs -/

variable {T : Tokener} {Document : Bytes → Json → Prop} {w : Wire T}

/-- One event: a run of the registry goes on, and the cache follows the messages. -/
theorem acts_faces {passed : List WcMsg} (h : Acts jsonC wcSHA1 keyCmp ctx passed ctx')
    (run : Reach (OnCtx.step wcSHA1 keyCmp) (fun _ _ => True) onCtxNew ctx) :
    Reach (OnCtx.step wcSHA1 keyCmp) (fun _ _ => True) onCtxNew ctx' ∧
      faces keyCmp ctx'.cache = passed.foldl (msgFaces jsonC keyCmp) (faces keyCmp ctx.cache) := by
  cases h with
  | nothing => exact ⟨run, rfl⟩
  | message hprocess => exact process_faces run hprocess
  | @operation op _ hop hstep =>
      refine ⟨.step run trivial hstep, ?_⟩
      rw [cache_step (ready_of_step run hstep) hstep, List.foldl_nil]
      -- neither the application nor the loss of the connection pushes anything
      cases op with
      | updatePut | updateMerge => exact absurd hop (by simp [Local])
      | _ => rfl

end Replica

/-! ### A push in two frames -/

def pushJson : Json :=
  .object [(ascii "t", .string (ascii "d")), (ascii "d", .object [(ascii "a", .string (ascii "d")),
    (ascii "b", .object [(ascii "p", .string (ascii "/a")), (ascii "d", .boolean true)])])]

def pushText : Bytes :=
  ascii "\x7b\"t\":\"d\",\"d\":\x7b\"a\":\"d\",\"b\":\x7b\"p\":\"/a\",\"d\":true\x7d\x7d\x7d"

def pushMsg : WcMsg := .data (.push (.dataUpdatePut (ascii "/a") (ascii "true")))

theorem messageText_push : MessageText putJsonC strcmp (fun t j => t = pushText ∧ j = pushJson)
    pushText pushMsg :=
  ⟨rfl, pushJson, ⟨rfl, rfl⟩, by decide +kernel⟩

end WebcomSdk.Client
