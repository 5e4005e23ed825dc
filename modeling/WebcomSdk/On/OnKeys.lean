import WebcomSdk.Cache.KeyAgreement
import WebcomSdk.Datasync.ListenKeys
import WebcomSdk.On.RefCounts

/-!
The on registry under comparators that agree on the keys that occur: in the
cache, in the paths that are subscribed or listened to, and in what callbacks
register. Every operation does the same under both, so a run under
`wc_datasync_key_cmp` whose keys are strictly ordered is a run under a total
order.
-/

namespace WebcomSdk.On

open WebcomSdk.Lib WebcomSdk.Collection WebcomSdk.Datasync WebcomSdk.Cache Std

/-- The keys of `children_hashes` and the parts of the paths of the callbacks are
in `S`. -/
structure SubIn (S : Set Key) (sub : OnSub) : Prop where
  hashes : AvlTree.KeysIn S sub.childrenHashes
  cbs : ∀ type, ∀ pCb ∈ sub.cbList type, PathIn S pCb.sub

structure StateIn (S : Set Key) (ctx : OnState) : Prop where
  cache : ctx.cache.KeysIn S
  paths : PathsIn S ctx.onReg
  subs : ∀ e ∈ ctx.onReg.toList, SubIn S e.2
  listen : PathsIn S ctx.listen.list
  queue : ∀ pCb ∈ ctx.deletedCbList, PathIn S pCb.sub

/-- The same context, with its keys in `S`. -/
structure SameOn (S : Set Key) (ctx ctx' : OnCtx) : Prop where
  eq : ctx = ctx'
  keys : StateIn S ctx.toOnState

/-- The parts of the paths that the invocation registers for are in `S`. -/
def CbRun.KeysIn (S : Set Key) : CbRun → Prop
  | .ret _ => True
  | .register _ path init rest =>
      PathIn S (wcDatasyncPathParse path) ∧ (∀ n, (init n).KeysIn S) ∧ rest.KeysIn S

variable {S : Set Key} {cmp cmp' : Key → Key → Ordering} {wcSHA1 : SHA1} {ctx : OnCtx}
  {path : Path}

theorem subIn_new : SubIn S OnSub.new :=
  ⟨fun _ he => absurd he List.not_mem_nil, fun _ _ h => absurd h List.not_mem_nil⟩

theorem SubIn.addCb {sub : OnSub} (h : SubIn S sub) (type : OnEventType) {pCb : OnCb}
    (hpCb : PathIn S pCb.sub) : SubIn S (sub.addCb type pCb) := by
  refine ⟨h.hashes, fun t => ?_⟩
  by_cases ht : t = type
  · subst ht
    simp only [OnSub.addCb, Function.update_self]
    exact List.forall_mem_cons.mpr ⟨hpCb, h.cbs t⟩
  · simp only [OnSub.addCb, Function.update_of_ne ht]
    exact h.cbs t

theorem SubIn.congr {sub sub' : OnSub} (h : SubIn S sub) (hcbs : sub'.cbList = sub.cbList)
    (hhashes : AvlTree.KeysIn S sub'.childrenHashes) : SubIn S sub' :=
  ⟨hhashes, hcbs ▸ h.cbs⟩

/-! ### Writes -/

section Writes

theorem StateIn.modifySub (h : StateIn S ctx.toOnState) (path : Path) {f : OnSub → OnSub}
    (hf : ∀ sub, SubIn S sub → SubIn S (f sub)) :
    StateIn S (ctx.modifySub cmp path f).toOnState where
  cache := h.cache
  paths := h.paths.modify f
  subs := by
    intro e he
    rcases mem_of_mem_avlModify he with he | ⟨v, hv, hfv⟩
    · exact h.subs e he
    · exact hfv ▸ hf v (h.subs (e.1, v) hv)
  listen := h.listen
  queue := h.queue

theorem StateIn.sub {ctx : OnState} (h : StateIn S ctx) {sub : OnSub}
    (hsub : ctx.sub cmp path = some sub) : SubIn S sub := by
  obtain ⟨e, he, rfl⟩ := Option.map_eq_some_iff.mp hsub
  exact h.subs e (mem_of_avlGet he)

variable (hagree : AgreeOn S cmp cmp') (hpath : PathIn S path) (h : StateIn S ctx.toOnState)

include hagree hpath h

theorem sub_agree : ctx.sub cmp path = ctx.sub cmp' path :=
  avlFind_agree (agreeOn_pathCmp hagree) hpath h.paths

theorem cached_agree : ctx.cached cmp path = ctx.cached cmp' path :=
  dataCacheGetR_agree hagree hpath _ h.cache

theorem modifySub_agree {f : OnSub → OnSub} (hf : ∀ sub, SubIn S sub → SubIn S (f sub)) :
    SameOn S (ctx.modifySub cmp path f) (ctx.modifySub cmp' path f) := by
  refine ⟨?_, h.modifySub path hf⟩
  rw [OnCtx.modifySub, OnCtx.modifySub, avlModify_agree (agreeOn_pathCmp hagree) hpath h.paths]

theorem callsAtOnce_agree : ctx.callsAtOnce cmp path = ctx.callsAtOnce cmp' path := by
  have hcached : ctx.cached cmp path = ctx.cached cmp' path := cached_agree hagree hpath h
  rw [OnState.callsAtOnce, OnState.callsAtOnce, hcached, wcIsListening, wcIsListening,
    isMasked_agree hagree hpath h.listen]

theorem linkCb_agree (type : OnEventType) :
    SameOn S (linkCb cmp type path ctx) (linkCb cmp' type path ctx) := by
  have hpaths := agreeOn_pathCmp hagree
  have hnew : PathIn S (⟨ctx.alloc, path⟩ : OnCb).sub := hpath
  simp only [linkCb, ← avlFind_agree hpaths hpath h.paths]
  cases avlFind (wcDatasyncPathCmp cmp) path ctx.onReg with
  | none =>
      refine ⟨by simp only [avlInsertRec_agree hpaths hpath h.paths], ?_⟩
      refine ⟨h.cache, fun e he => ?_, fun e he => ?_, h.listen, h.queue⟩
      · rcases (mem_avlInsertRec path _ ctx.onReg).mp he with rfl | he
        · exact hpath
        · exact h.paths e he
      · rcases (mem_avlInsertRec path _ ctx.onReg).mp he with rfl | he
        · exact subIn_new.addCb type hnew
        · exact h.subs e he
  | some _ =>
      refine ⟨by simp only [avlModify_agree hpaths hpath h.paths], ?_⟩
      have hin : StateIn S
          (ctx.modifySub cmp path (OnSub.addCb type ⟨ctx.alloc, path⟩)).toOnState :=
        h.modifySub path fun sub hsub => hsub.addCb type hnew
      exact ⟨hin.cache, hin.paths, hin.subs, hin.listen, hin.queue⟩

end Writes

variable (wcSHA1) in
/-- The table is filled with the keys of the children. -/
theorem refreshOnChildSubHashes_agree (hagree : AgreeOn S cmp cmp') {children : Children}
    (hchildren : AvlTree.KeysIn S children) (sub : OnSub) :
    refreshOnChildSubHashes wcSHA1 cmp children sub =
        refreshOnChildSubHashes wcSHA1 cmp' children sub ∧
      AvlTree.KeysIn S (refreshOnChildSubHashes wcSHA1 cmp children sub).childrenHashes := by
  have hloop : ∀ (l : List (Key × Treenode)) (hashes : AvlTree Key TreenodeHash),
      (∀ e ∈ l, e.1 ∈ S) → AvlTree.KeysIn S hashes →
        l.foldl (fun hashes e => (avlInsert cmp e.1
            (treenodeHashCopy (scratchHash wcSHA1 e.2)) hashes).getD hashes) hashes =
          l.foldl (fun hashes e => (avlInsert cmp' e.1
            (treenodeHashCopy (scratchHash wcSHA1 e.2)) hashes).getD hashes) hashes ∧
        AvlTree.KeysIn S (l.foldl (fun hashes e => (avlInsert cmp e.1
            (treenodeHashCopy (scratchHash wcSHA1 e.2)) hashes).getD hashes) hashes) := by
    intro l
    induction l with
    | nil => exact fun hashes _ h => ⟨rfl, h⟩
    | cons e l ih =>
        intro hashes hl h
        rw [List.forall_mem_cons] at hl
        rw [List.foldl_cons, List.foldl_cons, ← avlInsert_agree hagree hl.1 h]
        refine ih _ hl.2 ?_
        rw [avlInsert]
        split
        next => exact h
        next =>
          intro e' he'
          rcases (mem_avlInsertRec e.1 _ hashes).mp he' with rfl | he'
          · exact hl.1
          · exact h e' he'
  obtain ⟨heq, hin⟩ := hloop children.toList .nil hchildren fun _ he => absurd he List.not_mem_nil
  refine ⟨?_, hin⟩
  rw [refreshOnChildSubHashes, refreshOnChildSubHashes]
  exact congrArg (fun hashes => { sub with
    childrenHashes := hashes
    rebuilt := sub.rebuilt + 1 }) heq

/-! ### Registration -/

section Registration

variable (hagree : AgreeOn S cmp cmp')

include hagree

variable (wcSHA1) in
theorem initSub_agree (hpath : PathIn S path) (h : StateIn S ctx.toOnState) (type : OnEventType) :
    initSub wcSHA1 cmp type path ctx.toOnState = initSub wcSHA1 cmp' type path ctx.toOnState ∧
      ∀ sub, SubIn S sub → SubIn S (initSub wcSHA1 cmp type path ctx.toOnState sub) := by
  have hcached : ctx.cached cmp path = ctx.cached cmp' path := cached_agree hagree hpath h
  unfold initSub
  rw [← callsAtOnce_agree hagree hpath h, ← hcached]
  cases ctx.callsAtOnce cmp path with
  | false => exact ⟨rfl, fun sub hsub => hsub⟩
  | true =>
      rw [if_pos rfl, if_pos rfl]
      cases type with
      | value => exact ⟨rfl, fun sub hsub => hsub.congr rfl hsub.hashes⟩
      | childAdded =>
          cases hnode : ctx.cached cmp path with
          | none => exact ⟨rfl, fun sub hsub => hsub⟩
          | some node =>
              cases node with
              | internal children hash =>
                  have hin : AvlTree.KeysIn S children :=
                    (keysIn_internal_iff.mp (keysIn_get h.cache hnode)).keys
                  exact ⟨funext fun sub => (refreshOnChildSubHashes_agree wcSHA1 hagree hin sub).1,
                    fun sub hsub =>
                      hsub.congr rfl (refreshOnChildSubHashes_agree wcSHA1 hagree hin sub).2⟩
              | _ => exact ⟨rfl, fun sub hsub => hsub⟩
      | _ => exact ⟨rfl, fun sub hsub => hsub⟩

theorem initCalls_agree (hpath : PathIn S path) (h : StateIn S ctx.toOnState)
    (type : OnEventType) :
    initCalls cmp type path ctx.toOnState = initCalls cmp' type path ctx.toOnState := by
  have hcached : ctx.cached cmp path = ctx.cached cmp' path := cached_agree hagree hpath h
  unfold initCalls
  rw [← callsAtOnce_agree hagree hpath h, ← hcached]

omit hagree in
/-- Calls in turn that do the same under both comparators. -/
theorem calls_agree {α : Type} {f g : OnCtx → α → OnCtx} {l : List α}
    (hf : ∀ a ∈ l, ∀ ctx : OnCtx, StateIn S ctx.toOnState → SameOn S (f ctx a) (g ctx a))
    (h : StateIn S ctx.toOnState) : SameOn S (l.foldl f ctx) (l.foldl g ctx) := by
  induction l generalizing ctx with
  | nil => exact ⟨rfl, h⟩
  | cons a l ih =>
      rw [List.forall_mem_cons] at hf
      obtain ⟨heq, hin⟩ := hf.1 ctx h
      rw [List.foldl_cons, List.foldl_cons, ← heq]
      exact ih hf.2 hin

theorem wcDatasyncOn_agree {call call' : Call → OnCtx → OnCtx}
    (hcall : ∀ c (ctx : OnCtx), StateIn S ctx.toOnState → SameOn S (call c ctx) (call' c ctx))
    (type : OnEventType) {text : Bytes} (hpath : PathIn S (wcDatasyncPathParse text))
    (h : StateIn S ctx.toOnState) :
    SameOn S (wcDatasyncOn wcSHA1 cmp type call text ctx)
      (wcDatasyncOn wcSHA1 cmp' type call' text ctx) := by
  obtain ⟨hlink, hlinkIn⟩ := linkCb_agree hagree hpath h type
  obtain ⟨hcalls, hcallsIn⟩ := calls_agree
    (l := initCalls cmp type (wcDatasyncPathParse text) ctx.toOnState)
    (fun c _ ctx hctx => hcall c ctx hctx) hlinkIn
  obtain ⟨hinit, hinitIn⟩ := initSub_agree wcSHA1 hagree hpath h type
  obtain ⟨hwrite, hwriteIn⟩ := modifySub_agree hagree hpath hcallsIn hinitIn
  rw [wcDatasyncOn, wcDatasyncOn, onRegistryAdd_eq, onRegistryAdd_eq,
    ← initCalls_agree hagree hpath h, ← hlink, ← hcalls, ← hinit, ← hwrite]
  obtain ⟨hwatch, hwatchIn⟩ := wcDatasyncWatch_agree hagree hpath
    (((initCalls cmp type (wcDatasyncPathParse text) ctx.toOnState).foldl
      (fun ctx c => call c ctx) (linkCb cmp type (wcDatasyncPathParse text) ctx)).modifySub cmp
        (wcDatasyncPathParse text)
        (initSub wcSHA1 cmp type (wcDatasyncPathParse text) ctx.toOnState)).alloc
    hwriteIn.listen
  refine ⟨by simp only [hwatch], ?_⟩
  exact ⟨hwriteIn.cache, hwriteIn.paths, hwriteIn.subs, hwatchIn, hwriteIn.queue⟩

theorem run_agree (dispatch : Option Dispatch) {r : CbRun} (hr : r.KeysIn S) (ctx : OnCtx)
    (h : StateIn S ctx.toOnState) :
    SameOn S (r.run wcSHA1 cmp dispatch ctx).1 (r.run wcSHA1 cmp' dispatch ctx).1 ∧
      (r.run wcSHA1 cmp dispatch ctx).2 = (r.run wcSHA1 cmp' dispatch ctx).2 := by
  induction r generalizing ctx with
  | ret keep => exact ⟨⟨rfl, h⟩, rfl⟩
  | register type text init rest ihInit ihRest =>
      obtain ⟨hpath, hinit, hrest⟩ := hr
      rw [CbRun.run, CbRun.run]
      set before := ctx.emit (.register dispatch type (wcDatasyncPathParse text) ctx.toOnState)
      have hemitIn : StateIn S before.toOnState := h
      have hcall : ∀ c (ctx : OnCtx), StateIn S ctx.toOnState →
          SameOn S ((init ctx.log.length).run wcSHA1 cmp dispatch (ctx.emit (.call c))).1
            ((init ctx.log.length).run wcSHA1 cmp' dispatch (ctx.emit (.call c))).1 :=
        fun c ctx hctx => (ihInit ctx.log.length (hinit _) (ctx.emit (.call c)) hctx).1
      obtain ⟨heq, hin⟩ := wcDatasyncOn_agree hagree hcall type hpath hemitIn
      rw [← heq]
      exact ihRest hrest _ hin

end Registration

/-! ### Removal -/

theorem SubIn.without {sub : OnSub} (h : SubIn S sub) (hit : OnEventType → OnCb → Bool) :
    SubIn S (sub.without hit) :=
  ⟨h.hashes, fun type _ hpCb => h.cbs type _ (List.mem_of_mem_filter hpCb)⟩

section Removal

variable (hagree : AgreeOn S cmp cmp')

include hagree

theorem onRegistryRemove_agree (hpath : PathIn S path) (typeMask : OnEventType → Bool)
    (hdl : Option OnCb) (h : StateIn S ctx.toOnState) :
    onRegistryRemove cmp path typeMask hdl ctx = onRegistryRemove cmp' path typeMask hdl ctx ∧
      StateIn S (onRegistryRemove cmp path typeMask hdl ctx).1.toOnState := by
  rw [onRegistryRemove, onRegistryRemove, ← sub_agree hagree hpath h]
  cases hsub : ctx.sub cmp path with
  | none => exact ⟨rfl, h⟩
  | some sub =>
      obtain ⟨hmod, hin⟩ := modifySub_agree (f := OnSub.without (selects typeMask hdl)) hagree
        hpath h fun sub hsub => hsub.without _
      dsimp only
      rw [← hmod, ← avlRemove_agree (agreeOn_pathCmp hagree) hpath hin.paths]
      refine ⟨rfl, ?_⟩
      split
      · exact ⟨hin.cache, hin.paths.remove, fun e he => hin.subs e (mem_of_mem_avlRemove he),
          hin.listen, hin.queue⟩
      · exact hin

theorem unwatch_agree (hpath : PathIn S path) (refDec : ℕ) (h : StateIn S ctx.toOnState) :
    SameOn S (unwatch cmp path refDec ctx) (unwatch cmp' path refDec ctx) := by
  obtain ⟨heq, hin⟩ := wcDatasyncUnwatchEx_agree hagree hpath refDec h.listen
  rw [unwatch, unwatch, ← heq]
  cases hres : wcDatasyncUnwatchEx cmp path refDec ctx.listen with
  | none => exact ⟨rfl, h.cache, h.paths, h.subs, h.listen, h.queue⟩
  | some listen => exact ⟨rfl, h.cache, h.paths, h.subs, hin listen hres, h.queue⟩

theorem wcDatasyncOffW_agree {text : Bytes} (hpath : PathIn S (wcDatasyncPathParse text))
    (eventMask : OnEventType → Bool) (cb : Option OnCb) (h : StateIn S ctx.toOnState) :
    SameOn S (wcDatasyncOffW cmp text eventMask cb ctx)
      (wcDatasyncOffW cmp' text eventMask cb ctx) := by
  obtain ⟨heq, hin⟩ := onRegistryRemove_agree hagree hpath eventMask cb h
  rw [wcDatasyncOffW, wcDatasyncOffW, ← heq]
  exact unwatch_agree hagree hpath _ hin

theorem registered_agree {pCb : OnCb} (hpath : PathIn S pCb.sub) (h : StateIn S ctx.toOnState) :
    ctx.registered cmp pCb = ctx.registered cmp' pCb := by
  rw [OnState.registered, OnState.registered, sub_agree hagree hpath h]

theorem gcLoop_agree {queue : List OnCb} (hqueue : ∀ pCb ∈ queue, PathIn S pCb.sub)
    (h : StateIn S ctx.toOnState) : SameOn S (gcLoop cmp queue ctx) (gcLoop cmp' queue ctx) := by
  induction queue generalizing ctx with
  | nil => exact ⟨rfl, h⟩
  | cons pCb queue ih =>
      rw [List.forall_mem_cons] at hqueue
      rw [gcLoop, gcLoop, ← registered_agree hagree hqueue.1 h]
      split
      · obtain ⟨hun, hunIn⟩ := unwatch_agree hagree hqueue.1 1 h
        obtain ⟨hre, hreIn⟩ :=
          onRegistryRemove_agree hagree hqueue.1 (fun _ => true) (some pCb) hunIn
        simp only [← hun, ← hre]
        exact ih hqueue.2 hreIn
      · exact ⟨rfl, h.cache, h.paths, h.subs, h.listen, h.queue⟩

theorem deletedCbGc_agree (h : StateIn S ctx.toOnState) :
    SameOn S (deletedCbGc cmp ctx) (deletedCbGc cmp' ctx) :=
  gcLoop_agree hagree h.queue
    ⟨h.cache, h.paths, h.subs, h.listen, fun _ hpCb => absurd hpCb List.not_mem_nil⟩

end Removal

/-! ### Triggers -/

theorem childPasses_agree {key : Key} (hkey : key ∈ S) (node : Treenode)
    {next next' : List (Key × TreenodeHash) → Option Key → List ChildTrigger}
    (hagree : AgreeOn S cmp cmp') {subs : List (Key × TreenodeHash)} (hsubs : ∀ e ∈ subs, e.1 ∈ S)
    (hnext : ∀ subs prev, (∀ e ∈ subs, e.1 ∈ S) → next subs prev = next' subs prev)
    (prev : Option Key) :
    childPasses wcSHA1 cmp key node next subs prev =
      childPasses wcSHA1 cmp' key node next' subs prev := by
  induction subs with
  | nil => rw [childPasses, childPasses, hnext [] _ hsubs]
  | cons e subs ih =>
      obtain ⟨subKey, hash⟩ := e
      have hall := hsubs
      rw [List.forall_mem_cons] at hsubs
      rw [childPasses, childPasses, hagree key hkey subKey hsubs.1, hnext _ _ hall,
        hnext _ _ hsubs.2, ih hsubs.2]

variable (wcSHA1) in
theorem childTriggers_agree (hagree : AgreeOn S cmp cmp') {caches : List (Key × Treenode)}
    (hcaches : ∀ e ∈ caches, e.1 ∈ S) {subs : List (Key × TreenodeHash)}
    (hsubs : ∀ e ∈ subs, e.1 ∈ S) (prev : Option Key) :
    childTriggers wcSHA1 cmp caches subs prev = childTriggers wcSHA1 cmp' caches subs prev := by
  induction caches generalizing subs prev with
  | nil => rfl
  | cons e caches ih =>
      rw [List.forall_mem_cons] at hcaches
      exact childPasses_agree hcaches.1 e.2 hagree hsubs
        (fun subs prev hsubs => ih hcaches.2 hsubs prev) prev

section Triggers

variable {answers : ℕ → CbRun} (hagree : AgreeOn S cmp cmp')
  (hanswers : ∀ n, (answers n).KeysIn S)

include hagree hanswers

theorem callCb_agree (dispatch : Dispatch) {c : Call} (hc : PathIn S c.pCb.sub)
    (h : StateIn S ctx.toOnState) :
    SameOn S (callCb wcSHA1 cmp answers dispatch ctx c)
      (callCb wcSHA1 cmp' answers dispatch ctx c) := by
  have hrun : SameOn S ((answers ctx.log.length).run wcSHA1 cmp (some dispatch)
      (ctx.emit (.call c))).1 _ ∧ _ :=
    run_agree hagree (some dispatch) (hanswers ctx.log.length) (ctx.emit (.call c)) h
  obtain ⟨⟨heq, hin⟩, hkeep⟩ := hrun
  simp only [callCb, ← heq, ← hkeep]
  split
  · exact ⟨rfl, hin⟩
  · refine ⟨rfl, hin.cache, hin.paths, hin.subs, hin.listen, ?_⟩
    exact List.forall_mem_cons.mpr ⟨hc, hin.queue⟩

theorem onValTrig_agree (walking : Bool) (hpath : PathIn S path) (h : StateIn S ctx.toOnState) :
    SameOn S (onValTrig wcSHA1 cmp answers walking path ctx)
      (onValTrig wcSHA1 cmp' answers walking path ctx) := by
  have hcached : ctx.cached cmp path = ctx.cached cmp' path := cached_agree hagree hpath h
  rw [onValTrig, onValTrig, ← sub_agree hagree hpath h, ← hcached]
  cases hsub : ctx.sub cmp path with
  | none => exact ⟨rfl, h⟩
  | some sub =>
      dsimp only
      split
      · exact ⟨rfl, h⟩
      · obtain ⟨hcalls, hin⟩ := calls_agree (l := sub.cbList .value)
          (f := fun ctx' pCb => callCb wcSHA1 cmp answers ⟨walking, .value path⟩ ctx'
            ⟨pCb, .value, ctx.cached cmp path, none, none⟩)
          (g := fun ctx' pCb => callCb wcSHA1 cmp' answers ⟨walking, .value path⟩ ctx'
            ⟨pCb, .value, ctx.cached cmp path, none, none⟩)
          (fun pCb hpCb ctx' h' => callCb_agree hagree hanswers _ ((h.sub hsub).cbs _ pCb hpCb) h')
          h
        rw [← hcalls]
        exact modifySub_agree hagree hpath hin fun sub hsub => hsub.congr rfl hsub.hashes

theorem triggerLoop_agree (walking : Bool) (hpath : PathIn S path) (t : ChildTrigger)
    {cbs : List OnCb} (hcbs : ∀ pCb ∈ cbs, PathIn S pCb.sub) (h : StateIn S ctx.toOnState) :
    SameOn S (triggerLoop wcSHA1 cmp answers walking path t cbs ctx)
      (triggerLoop wcSHA1 cmp' answers walking path t cbs ctx) := by
  induction cbs generalizing ctx with
  | nil => exact ⟨rfl, h⟩
  | cons pCb cbs ih =>
      rw [List.forall_mem_cons] at hcbs
      obtain ⟨heq, hin⟩ := callCb_agree hagree hanswers
        ⟨walking, .child path (t.held || (t.keyHeld && !cbs.isEmpty))⟩ (c := t.call pCb) hcbs.1 h
      have hrebuilt : ∀ {ctx : OnCtx}, StateIn S ctx.toOnState →
          ctx.rebuilt cmp path = ctx.rebuilt cmp' path := by
        intro ctx h
        rw [OnState.rebuilt, OnState.rebuilt, sub_agree hagree hpath h]
      rw [triggerLoop, triggerLoop, ← hrebuilt h, ← heq, ← hrebuilt hin]
      exact ih hcbs.2 ⟨hin.cache, hin.paths, hin.subs, hin.listen, hin.queue⟩

theorem triggerOnChildCbList_agree (walking : Bool) (hpath : PathIn S path) (t : ChildTrigger)
    (h : StateIn S ctx.toOnState) :
    SameOn S (triggerOnChildCbList wcSHA1 cmp answers walking path ctx t)
      (triggerOnChildCbList wcSHA1 cmp' answers walking path ctx t) := by
  rw [triggerOnChildCbList, triggerOnChildCbList, ← sub_agree hagree hpath h]
  cases hsub : ctx.sub cmp path with
  | none => exact ⟨rfl, h⟩
  | some sub => exact triggerLoop_agree hagree hanswers walking hpath t ((h.sub hsub).cbs _) h

theorem onChildTrig_agree (walking : Bool) (hpath : PathIn S path) (h : StateIn S ctx.toOnState) :
    SameOn S (onChildTrig wcSHA1 cmp answers walking path ctx)
      (onChildTrig wcSHA1 cmp' answers walking path ctx) := by
  have hcached : ctx.cached cmp path = ctx.cached cmp' path := cached_agree hagree hpath h
  have htriggers : ∀ ts : List ChildTrigger,
      SameOn S (ts.foldl (triggerOnChildCbList wcSHA1 cmp answers walking path) ctx)
        (ts.foldl (triggerOnChildCbList wcSHA1 cmp' answers walking path) ctx) := fun ts =>
    calls_agree (fun t _ ctx h => triggerOnChildCbList_agree hagree hanswers walking hpath t h) h
  have hremoved : ∀ sub : OnSub, SameOn S
      (((childrenRemoved none sub.childrenHashes.toList).foldl
        (triggerOnChildCbList wcSHA1 cmp answers walking path) ctx).modifySub cmp path
          OnSub.clearHashes)
      (((childrenRemoved none sub.childrenHashes.toList).foldl
        (triggerOnChildCbList wcSHA1 cmp' answers walking path) ctx).modifySub cmp' path
          OnSub.clearHashes) := by
    intro sub
    obtain ⟨heq, hin⟩ := htriggers (childrenRemoved none sub.childrenHashes.toList)
    rw [← heq]
    exact modifySub_agree hagree hpath hin fun sub hsub => hsub.congr rfl subIn_new.hashes
  rw [onChildTrig, onChildTrig, ← sub_agree hagree hpath h, ← hcached]
  cases hsub : ctx.sub cmp path with
  | none => exact ⟨rfl, h⟩
  | some sub =>
      cases hnode : ctx.cached cmp path with
      | none => exact hremoved sub
      | some node =>
          cases node with
          | internal children hash =>
              have hchildren : AvlTree.KeysIn S children :=
                (keysIn_internal_iff.mp (keysIn_get h.cache hnode)).keys
              dsimp only
              rw [← childTriggers_agree wcSHA1 hagree hchildren (h.sub hsub).hashes none]
              obtain ⟨heq, hin⟩ := htriggers
                (childTriggers wcSHA1 cmp children.toList sub.childrenHashes.toList none)
              rw [← heq]
              split
              · exact ⟨rfl, hin⟩
              · have hrefresh := fun sub =>
                  refreshOnChildSubHashes_agree wcSHA1 hagree hchildren sub
                rw [← funext fun sub => (hrefresh sub).1]
                exact modifySub_agree hagree hpath hin fun sub hsub =>
                  hsub.congr rfl (hrefresh sub).2
          | _ => exact hremoved sub

theorem trig_agree (walking : Bool) (hpath : PathIn S path) (h : StateIn S ctx.toOnState) :
    SameOn S (trig wcSHA1 cmp answers walking path ctx)
      (trig wcSHA1 cmp' answers walking path ctx) := by
  rw [trig, trig, ← sub_agree hagree hpath h]
  cases ctx.sub cmp path with
  | none => exact ⟨rfl, h⟩
  | some sub =>
      dsimp only
      split
      · obtain ⟨heq, hin⟩ := onChildTrig_agree hagree hanswers walking hpath h
        rw [← heq]
        exact onValTrig_agree hagree hanswers walking hpath hin
      · exact onValTrig_agree hagree hanswers walking hpath h

/-! ### Dispatch -/

theorem dispatchBelow_agree (path : Path) (fuel : ℕ) {it : List Path} (hit : ∀ q ∈ it, PathIn S q)
    (h : StateIn S ctx.toOnState) :
    dispatchBelow wcSHA1 cmp answers path fuel it ctx =
        dispatchBelow wcSHA1 cmp' answers path fuel it ctx ∧
      ∀ ctx' ∈ dispatchBelow wcSHA1 cmp answers path fuel it ctx, StateIn S ctx'.toOnState := by
  have hdone : some ctx = some ctx ∧ ∀ ctx' ∈ some ctx, StateIn S ctx'.toOnState :=
    ⟨rfl, fun ctx' hctx' => Option.some.inj hctx' ▸ h⟩
  induction fuel generalizing it ctx with
  | zero => exact ⟨rfl, fun ctx' hctx' => by cases hctx'⟩
  | succ fuel ih =>
      cases it with
      | nil => exact hdone
      | cons top stack =>
          rw [List.forall_mem_cons] at hit
          rw [dispatchBelow, dispatchBelow, avlItNext, avlItNext,
            ← avlNode_agree (agreeOn_pathCmp hagree) hit.1 h.paths]
          dsimp only
          split
          · obtain ⟨heq, hin⟩ : SameOn S (trig wcSHA1 cmp answers true top ctx) _ :=
              trig_agree hagree hanswers true hit.1 h
            rw [← heq]
            refine ih (fun q hq => ?_) hin ⟨rfl, fun ctx' hctx' => Option.some.inj hctx' ▸ hin⟩
            rcases mem_pushLeft hq with hright | hstack
            · obtain ⟨e, he, rfl⟩ := List.mem_map.mp hright
              exact h.paths e (mem_of_mem_avlNode (AvlTree.mem_of_mem_right he))
            · exact hit.2 q hstack
          · exact hdone

theorem onRegistryDispatchOnEvent_agree (hpath : PathIn S path) (fuel : ℕ)
    (h : StateIn S ctx.toOnState) :
    onRegistryDispatchOnEvent wcSHA1 cmp answers path fuel ctx =
        onRegistryDispatchOnEvent wcSHA1 cmp' answers path fuel ctx ∧
      ∀ ctx' ∈ onRegistryDispatchOnEvent wcSHA1 cmp answers path fuel ctx,
        StateIn S ctx'.toOnState := by
  obtain ⟨heq, hin⟩ : SameOn S (dispatchAbove wcSHA1 cmp answers path ctx)
      (dispatchAbove wcSHA1 cmp' answers path ctx) :=
    calls_agree (fun n _ ctx h => trig_agree hagree hanswers false (hpath.take n) h) h
  have hit : ∀ q ∈ avlItStartAt (wcDatasyncPathCmp cmp) path
      (dispatchAbove wcSHA1 cmp answers path ctx).onReg [], PathIn S q := by
    intro q hq
    rcases mem_avlItStartAt path hq with hkey | hnil
    · obtain ⟨e, he, rfl⟩ := List.mem_map.mp hkey
      exact hin.paths e he
    · exact absurd hnil List.not_mem_nil
  obtain ⟨hbelow, hbelowIn⟩ := dispatchBelow_agree hagree hanswers path fuel hit hin
  rw [onRegistryDispatchOnEvent, onRegistryDispatchOnEvent, ← heq,
    ← avlItStartAt_agree (agreeOn_pathCmp hagree) hpath hin.paths, ← hbelow]
  refine ⟨Option.map_congr fun ctx' hctx' => (deletedCbGc_agree hagree (hbelowIn ctx' hctx')).eq,
    fun ctx' hctx' => ?_⟩
  obtain ⟨ctx₁, hctx₁, rfl⟩ := Option.map_eq_some_iff.mp hctx'
  exact (deletedCbGc_agree hagree (hbelowIn ctx₁ hctx₁)).keys

end Triggers

/-! ### Runs -/

/-- The keys of an operation are in `S`: the parts of its path, the names of its
document, and those of what its callbacks register. -/
def OnOp.KeysIn (S : Set Key) : OnOp → Prop
  | .on _ path answers => PathIn S (wcDatasyncPathParse path) ∧ ∀ n, (answers n).KeysIn S
  | .off h => PathIn S h.sub ∧ PathIn S (wcDatasyncPathParse (wcDatasyncPathToStr h.sub))
  | .offPath path => PathIn S (wcDatasyncPathParse path)
  | .offPathType path _ => PathIn S (wcDatasyncPathParse path)
  | .updatePut path data answers _ =>
      PathIn S (wcDatasyncPathParse path) ∧ (CacheOp.set path data).KeysIn S ∧
        ∀ n, (answers n).KeysIn S
  | .updateMerge path data answers _ =>
      PathIn S (wcDatasyncPathParse path) ∧ (CacheOp.merge path data).KeysIn S ∧
        ∀ n, (answers n).KeysIn S
  | .cnxLost | .handshake | .response _ _ | .connect | .closeCnx => True

variable (wcSHA1) in
theorem onStep_agree (hagree : AgreeOn S cmp cmp') {op : OnOp} (hop : op.KeysIn S)
    (h : StateIn S ctx.toOnState) :
    ctx.step wcSHA1 cmp op = ctx.step wcSHA1 cmp' op ∧
      ∀ ctx' ∈ ctx.step wcSHA1 cmp op, StateIn S ctx'.toOnState := by
  have hnone : (none : Option OnCtx) = none ∧
      ∀ ctx' ∈ (none : Option OnCtx), StateIn S ctx'.toOnState :=
    ⟨rfl, fun ctx' hctx' => by cases hctx'⟩
  have hdone : ∀ {ctx₁ ctx₂ : OnCtx}, SameOn S ctx₁ ctx₂ →
      some ctx₁ = some ctx₂ ∧ ∀ ctx' ∈ some ctx₁, StateIn S ctx'.toOnState := by
    rintro ctx₁ ctx₂ ⟨rfl, hin⟩
    exact ⟨rfl, fun ctx' hctx' => Option.some.inj hctx' ▸ hin⟩
  have hnet : ∀ op : ListenOp, op.KeysIn S →
      (ctx.listen.step cmp op).map (fun listen => { ctx with listen }) =
          (ctx.listen.step cmp' op).map (fun listen => { ctx with listen }) ∧
        ∀ ctx' ∈ (ctx.listen.step cmp op).map (fun listen => ({ ctx with listen } : OnCtx)),
          StateIn S ctx'.toOnState := by
    intro op hop
    obtain ⟨heq, hin⟩ := listenStep_agree hagree hop h.listen
    refine ⟨by rw [heq], fun ctx' hctx' => ?_⟩
    obtain ⟨listen, hlisten, rfl⟩ := Option.map_eq_some_iff.mp hctx'
    exact ⟨h.cache, h.paths, h.subs, hin listen hlisten, h.queue⟩
  have hpush : ∀ (cacheOp : CacheOp) (store : (Key → Key → Ordering) → Treenode),
      (∀ cmp, cacheStep wcSHA1 cmp ctx.cache cacheOp = some (store cmp)) → cacheOp.KeysIn S →
      store cmp = store cmp' ∧ StateIn S { ctx with cache := store cmp }.toOnState := by
    intro cacheOp store hstore hcacheOp
    obtain ⟨heq, hin⟩ := cacheStep_agree wcSHA1 hagree hcacheOp h.cache
    rw [hstore, hstore] at heq
    exact ⟨Option.some.inj heq, hin _ (hstore cmp), h.paths, h.subs, h.listen, h.queue⟩
  unfold OnCtx.step
  split
  case isTrue => exact hnone
  cases op with
  | on type path answers =>
      exact hdone (wcDatasyncOn_agree hagree (fun c ctx hctx =>
        (run_agree hagree none (hop.2 ctx.log.length) (ctx.emit (.call c)) hctx).1) type hop.1 h)
  | off hdl =>
      dsimp only
      rw [← registered_agree hagree hop.1 h]
      split
      · exact hdone (wcDatasyncOffW_agree hagree hop.2 _ _ h)
      · exact hnone
  | offPath path => exact hdone (wcDatasyncOffW_agree hagree hop _ _ h)
  | offPathType path type => exact hdone (wcDatasyncOffW_agree hagree hop _ _ h)
  | updatePut path data answers fuel =>
      obtain ⟨hcache, hin⟩ := hpush (.set path data)
        (fun cmp => dataCacheSet cmp path data ctx.cache) (fun _ => rfl) hop.2.1
      dsimp only
      rw [← hcache]
      exact onRegistryDispatchOnEvent_agree hagree hop.2.2 hop.1 fuel hin
  | updateMerge path data answers fuel =>
      obtain ⟨hcache, hin⟩ := hpush (.merge path data)
        (fun cmp => dataCacheMerge cmp path data ctx.cache) (fun _ => rfl) hop.2.1
      dsimp only
      rw [← hcache]
      exact onRegistryDispatchOnEvent_agree hagree hop.2.2 hop.1 fuel hin
  | cnxLost => exact hnet .cnxLost trivial
  | handshake => exact hnet .handshake trivial
  | response id ok => exact hnet (.response id ok) trivial
  | connect => exact hnet .connect trivial
  | closeCnx => exact hnet .closeCnx trivial

theorem stateIn_new : StateIn S onCtxNew.toOnState where
  cache := keysIn_leaf (by simp [onCtxNew, dataCacheNew])
  paths := fun _ he => absurd he List.not_mem_nil
  subs := fun _ he => absurd he List.not_mem_nil
  listen := pathsIn_new
  queue := fun _ hpCb => absurd hpCb List.not_mem_nil

/-- **A run of the on registry under `wc_datasync_key_cmp` whose keys are strictly
ordered is a run under a total order**, with the same promises about its steps. -/
theorem onReach_keyOrder (hS : StrictOn S) {ok : OnCtx → OnOp → Prop}
    (run : Reach (OnCtx.step wcSHA1 wcDatasyncKeyOrd) (fun ctx op => op.KeysIn S ∧ ok ctx op)
      onCtxNew ctx) :
    Reach (OnCtx.step wcSHA1 keyOrder) ok onCtxNew ctx ∧ StateIn S ctx.toOnState := by
  refine run.transfer (I := fun ctx => StateIn S ctx.toOnState) stateIn_new
    fun ctx op ctx' h hok hstep => ?_
  obtain ⟨hsame, hin⟩ := onStep_agree wcSHA1 (agreeOn_keyOrder hS) hok.1 h
  exact ⟨hok.2, hsame ▸ hstep, hin _ hstep⟩

/-- One registration, at `/a`. -/
theorem onReach_keyOrder_a : ∃ ctx,
    onCtxNew.step zeroSHA1 wcDatasyncKeyOrd (.on .value pathA keepAlways) = some ctx ∧
      Reach (OnCtx.step zeroSHA1 keyOrder) (fun _ _ => True) onCtxNew ctx ∧
      StateIn stringKeys ctx.toOnState := by
  have hpath : ∀ part ∈ wcDatasyncPathParse pathA, part ∈ stringKeys := by decide
  have hop : (OnOp.on .value pathA keepAlways).KeysIn stringKeys := ⟨hpath, fun _ => trivial⟩
  have hrun : ∃ ctx, onCtxNew.step zeroSHA1 wcDatasyncKeyOrd (.on .value pathA keepAlways) =
      some ctx := ⟨_, rfl⟩
  obtain ⟨ctx, hctx⟩ := hrun
  exact ⟨ctx, hctx,
    onReach_keyOrder strictOn_stringKeys (.step .start ⟨hop, trivial⟩ hctx)⟩

end WebcomSdk.On
