import WebcomSdk.Cache.DataCache
import WebcomSdk.Collection.AvlIterator
import WebcomSdk.Datasync.ListenRegistry

/-!
The on registry of `lib/datasync/on`, with the parts of the context it works on:
the cache and the listen registry. A callback is foreign code, so what one
invocation of it does is an input: the registrations it makes, in order, and the
value it returns. Where the C code would read freed memory or fail an assertion,
the state is marked as faulty.

The hash of a node is computed from scratch here: what `treenode_hash_get`
returns on the nodes of a cache is that hash.
-/

namespace WebcomSdk.On

open WebcomSdk.Collection WebcomSdk.Datasync WebcomSdk.Cache

inductive OnEventType where
  | childAdded
  | childRemoved
  | childChanged
  | value
  deriving Repr, DecidableEq

def onEventTypes : List OnEventType := [.childAdded, .childRemoved, .childChanged, .value]

/-- A `struct on_cb_list`, which is also the handle of the registration: its
address and the path of its `on_sub`. -/
structure OnCb where
  addr : Addr
  sub : Path
  deriving Repr, DecidableEq

/-- A `struct on_sub` without its path, which is the key of the tree. `rebuilt`
counts how often the nodes of `children_hashes` were freed. -/
structure OnSub where
  cbList : OnEventType → List OnCb
  childrenHashes : AvlTree Key TreenodeHash
  hash : TreenodeHash
  rebuilt : ℕ

/-- The context, as far as the on registry is concerned. `alloc` is the next
address that the allocator returns. -/
structure OnState where
  cache : Treenode
  onReg : AvlTree Path OnSub
  listen : ListenCtx
  deletedCbList : List OnCb
  alloc : Addr
  fault : Bool

/-- The trigger in which a callback is invoked: `on_child_trig`, which still
holds nodes of `children_hashes` or not, or `on_val_trig`. -/
inductive Trigger where
  | child (path : Path) (held : Bool)
  | value (path : Path)
  deriving Repr, DecidableEq

/-- The dispatch in which a callback is invoked, and whether it is already
walking the subscriptions with an iterator. -/
structure Dispatch where
  walking : Bool
  trigger : Trigger
  deriving Repr, DecidableEq

/-- The arguments of a callback. It is given the text of the node. -/
structure Call where
  pCb : OnCb
  type : OnEventType
  data : Option Treenode
  curKey : Option Key
  prevKey : Option Key

/-- A callback is invoked, or it registers another one. -/
inductive Event where
  | call (call : Call)
  | register (dispatch : Option Dispatch) (type : OnEventType) (path : Path) (before : OnState)

/-- The context and all that has happened. -/
structure OnCtx extends OnState where
  log : List Event

/-- What one invocation of a callback does: it returns, or registers a callback
first. The invocations that this registration makes at once are those of `init`. -/
inductive CbRun where
  | ret (keep : Bool)
  | register (type : OnEventType) (path : Bytes) (init : ℕ → CbRun) (rest : CbRun)

def OnSub.addCb (type : OnEventType) (pCb : OnCb) (sub : OnSub) : OnSub :=
  { sub with cbList := Function.update sub.cbList type (pCb :: sub.cbList type) }

def OnSub.new : OnSub := ⟨fun _ => [], .nil, nullHash, 0⟩

def OnSub.hasChildCb (sub : OnSub) : Bool :=
  !(sub.cbList .childAdded).isEmpty || !(sub.cbList .childChanged).isEmpty ||
    !(sub.cbList .childRemoved).isEmpty

def OnCtx.emit (event : Event) (ctx : OnCtx) : OnCtx := { ctx with log := ctx.log ++ [event] }

def onCtxNew : OnCtx := ⟨⟨dataCacheNew, .nil, listenRegistryNew, [], 0, false⟩, []⟩

section Functions

variable (wcSHA1 : SHA1) (keyCmp : Key → Key → Ordering)

def OnState.sub (ctx : OnState) (path : Path) : Option OnSub :=
  avlFind (wcDatasyncPathCmp keyCmp) path ctx.onReg

/-- A write through a pointer to an `on_sub`. -/
def OnCtx.modifySub (path : Path) (f : OnSub → OnSub) (ctx : OnCtx) : OnCtx :=
  { ctx with onReg := avlModify (wcDatasyncPathCmp keyCmp) path f ctx.onReg }

/-- `data_cache_get_parsed`. -/
def OnState.cached (ctx : OnState) (path : Path) : Option Treenode :=
  dataCacheGetR keyCmp path ctx.cache

/-- `treenode_hash_get`, with its result for `NULL`. -/
def valueHash (node : Option Treenode) : Option TreenodeHash := node.bind (scratchHash wcSHA1)

/-! ### Registration -/

def OnSub.clearHashes (sub : OnSub) : OnSub :=
  { sub with childrenHashes := .nil, rebuilt := sub.rebuilt + 1 }

def refreshOnChildSubHashes (children : Children) (sub : OnSub) : OnSub :=
  { sub with
    childrenHashes := children.toList.foldl (fun hashes (key, node) =>
      (avlInsert keyCmp key (treenodeHashCopy (scratchHash wcSHA1 node)) hashes).getD hashes) .nil
    rebuilt := sub.rebuilt + 1 }

/-- Whether `on_registry_add` calls the new callback at once. -/
def OnState.callsAtOnce (ctx : OnState) (path : Path) : Bool :=
  (ctx.cached keyCmp path).isSome || wcIsListening keyCmp ctx.listen path ||
    ctx.listen.state = .disconnected

/-- Puts a new `on_cb_list` first in the list of its path and type. -/
def linkCb (type : OnEventType) (path : Path) (ctx : OnCtx) : OnCtx :=
  let pCb : OnCb := ⟨ctx.alloc, path⟩
  let onReg := match avlFind (wcDatasyncPathCmp keyCmp) path ctx.onReg with
    | none => avlInsertRec (wcDatasyncPathCmp keyCmp) path (OnSub.new.addCb type pCb) ctx.onReg
    | some _ => avlModify (wcDatasyncPathCmp keyCmp) path (OnSub.addCb type pCb) ctx.onReg
  { ctx with onReg, alloc := ctx.alloc + 1 }

/-- One initial call for each child, in the order of the keys. -/
def callChildren (call : Call → OnCtx → OnCtx) (pCb : OnCb) :
    List (Key × Treenode) → Option Key → OnCtx → OnCtx
  | [], _, ctx => ctx
  | (key, node) :: rest, prev, ctx =>
      callChildren call pCb rest (some key)
        (call ⟨pCb, .childAdded, some node, some key, prev⟩ ctx)

/-- `on_registry_add`. `call` runs the callback; what it returns is not looked
at. -/
def onRegistryAdd (call : Call → OnCtx → OnCtx) (type : OnEventType) (path : Path)
    (ctx : OnCtx) : OnCtx :=
  let pCb : OnCb := ⟨ctx.alloc, path⟩
  let ctx := linkCb keyCmp type path ctx
  let snapshot := ctx.cached keyCmp path
  if ctx.callsAtOnce keyCmp path then
    match type with
    | .value =>
        (call ⟨pCb, .value, snapshot, none, none⟩ ctx).modifySub keyCmp path fun sub =>
          { sub with hash := treenodeHashCopy (valueHash wcSHA1 snapshot) }
    | .childAdded =>
        match snapshot with
        | some (.internal children _) =>
            (callChildren call pCb children.toList none ctx).modifySub keyCmp path
              (refreshOnChildSubHashes wcSHA1 keyCmp children)
        | _ => ctx
    | _ => ctx
  else ctx

/-- The four functions `wc_datasync_on_*`. -/
def wcDatasyncOn (type : OnEventType) (call : Call → OnCtx → OnCtx) (path : Bytes)
    (ctx : OnCtx) : OnCtx :=
  let ctx := onRegistryAdd wcSHA1 keyCmp call type (wcDatasyncPathParse path) ctx
  { ctx with
    listen := wcDatasyncWatch keyCmp path ctx.alloc ctx.listen
    alloc := ctx.alloc + 1 }

def wcDatasyncOnValue := wcDatasyncOn wcSHA1 keyCmp .value
def wcDatasyncOnChildAdded := wcDatasyncOn wcSHA1 keyCmp .childAdded
def wcDatasyncOnChildChanged := wcDatasyncOn wcSHA1 keyCmp .childChanged
def wcDatasyncOnChildRemoved := wcDatasyncOn wcSHA1 keyCmp .childRemoved

/-- Runs one invocation of a callback, to the value it returns. -/
def CbRun.run (dispatch : Option Dispatch) : CbRun → OnCtx → OnCtx × Bool
  | .ret keep, ctx => (ctx, keep)
  | .register type path init rest, ctx =>
      let ctx := ctx.emit (.register dispatch type (wcDatasyncPathParse path) ctx.toOnState)
      let call c ctx := ((init ctx.log.length).run dispatch (ctx.emit (.call c))).1
      rest.run dispatch (wcDatasyncOn wcSHA1 keyCmp type call path ctx)

/-! ### Removal -/

/-- Whether the mask and the handle select a callback. -/
def selects (typeMask : OnEventType → Bool) (h : Option OnCb) (type : OnEventType) (pCb : OnCb) :
    Bool :=
  typeMask type && (h.isNone || h == some pCb)

/-- What is left of an `on_sub` when the callbacks that `hit` selects are
unlinked. -/
def OnSub.without (hit : OnEventType → OnCb → Bool) (sub : OnSub) : OnSub :=
  { sub with cbList := fun type => (sub.cbList type).filter fun pCb => !hit type pCb }

def OnSub.isUnused (sub : OnSub) : Bool := onEventTypes.all fun type => (sub.cbList type).isEmpty

/-- `on_registry_remove`. `h = none` is the handle `NULL`, which stands for every
callback of the types in the mask. Returns the number of callbacks removed. -/
def onRegistryRemove (path : Path) (typeMask : OnEventType → Bool) (h : Option OnCb)
    (ctx : OnCtx) : OnCtx × ℕ :=
  match ctx.sub keyCmp path with
  | none => (ctx, 0)
  | some sub =>
      let hit := selects typeMask h
      let removed := (onEventTypes.map fun type => (sub.cbList type).countP (hit type)).sum
      let ctx := ctx.modifySub keyCmp path (OnSub.without hit)
      let ctx :=
        if (sub.without hit).isUnused then
          { ctx with onReg := avlRemove (wcDatasyncPathCmp keyCmp) path ctx.onReg }
        else ctx
      (ctx, removed)

/-- `wc_datasync_unwatch_ex`; the context is faulty when it fails its assertion. -/
def unwatch (path : Path) (refDec : ℕ) (ctx : OnCtx) : OnCtx :=
  match wcDatasyncUnwatchEx keyCmp path refDec ctx.listen with
  | some listen => { ctx with listen }
  | none => { ctx with fault := true }

def wcDatasyncOffW (path : Bytes) (eventMask : OnEventType → Bool) (cb : Option OnCb)
    (ctx : OnCtx) : OnCtx :=
  let parsedPath := wcDatasyncPathParse path
  let (ctx, removed) := onRegistryRemove keyCmp parsedPath eventMask cb ctx
  unwatch keyCmp parsedPath removed ctx

def wcDatasyncOff (h : OnCb) : OnCtx → OnCtx :=
  wcDatasyncOffW keyCmp (wcDatasyncPathToStr h.sub) (fun _ => true) (some h)

def wcDatasyncOffPath (path : Bytes) : OnCtx → OnCtx :=
  wcDatasyncOffW keyCmp path (fun _ => true) none

def wcDatasyncOffPathType (path : Bytes) (type : OnEventType) : OnCtx → OnCtx :=
  wcDatasyncOffW keyCmp path (fun t => t = type) none

/-- The `on_cb_list` at this address has not been freed. -/
def OnState.registered (ctx : OnState) (pCb : OnCb) : Bool :=
  match ctx.sub keyCmp pCb.sub with
  | some sub => onEventTypes.any fun type => (sub.cbList type).contains pCb
  | none => false

/-- The loop of `deleted_cb_gc`, which starts by reading the `on_cb_list`. -/
def gcLoop : List OnCb → OnCtx → OnCtx
  | [], ctx => ctx
  | pCb :: rest, ctx =>
      if ctx.registered keyCmp pCb then
        let ctx := unwatch keyCmp pCb.sub 1 ctx
        gcLoop rest (onRegistryRemove keyCmp pCb.sub (fun _ => true) (some pCb) ctx).1
      else { ctx with fault := true }

def deletedCbGc (ctx : OnCtx) : OnCtx :=
  gcLoop keyCmp ctx.deletedCbList { ctx with deletedCbList := [] }

/-! ### Triggers -/

section Triggers

variable (answers : ℕ → CbRun)

def markCbForDeletion (pCb : OnCb) (ctx : OnCtx) : OnCtx :=
  { ctx with deletedCbList := pCb :: ctx.deletedCbList }

/-- `p_cb->cb(…)`, and what follows when it returns 0. -/
def callCb (dispatch : Dispatch) (ctx : OnCtx) (call : Call) : OnCtx :=
  let (ctx, keep) :=
    (answers ctx.log.length).run wcSHA1 keyCmp (some dispatch) (ctx.emit (.call call))
  if keep then ctx else markCbForDeletion call.pCb ctx

def onValTrig (walking : Bool) (path : Path) (ctx : OnCtx) : OnCtx :=
  match ctx.sub keyCmp path with
  | none => ctx
  | some sub =>
      let cachedData := ctx.cached keyCmp path
      let cachedHash := valueHash wcSHA1 cachedData
      if (sub.cbList .value).isEmpty || treenodeHashEq cachedHash (some sub.hash) then ctx
      else
        let ctx := (sub.cbList .value).foldl (fun ctx pCb =>
          callCb wcSHA1 keyCmp answers ⟨walking, .value path⟩ ctx
            ⟨pCb, .value, cachedData, none, none⟩) ctx
        ctx.modifySub keyCmp path fun sub => { sub with hash := treenodeHashCopy cachedHash }

/-- A call of `trigger_on_child_cb_list`. `held` says that `on_child_trig` still
has nodes of `children_hashes` to look at, `keyHeld` that `curKey` is in one. -/
structure ChildTrigger where
  type : OnEventType
  snapshot : Option Treenode
  curKey : Key
  prevKey : Option Key
  held : Bool
  keyHeld : Bool

def ChildTrigger.call (t : ChildTrigger) (pCb : OnCb) : Call :=
  ⟨pCb, t.type, t.snapshot, some t.curKey, t.prevKey⟩

def OnState.rebuilt (ctx : OnState) (path : Path) : ℕ :=
  ((ctx.sub keyCmp path).map OnSub.rebuilt).getD 0

/-- The loop of `trigger_on_child_cb_list`. Once the nodes that `on_child_trig`
holds are freed, it is going to read freed memory. -/
def triggerLoop (walking : Bool) (path : Path) (t : ChildTrigger) : List OnCb → OnCtx → OnCtx
  | [], ctx => ctx
  | pCb :: rest, ctx =>
      let held := t.held || (t.keyHeld && !rest.isEmpty)
      let ctx' := callCb wcSHA1 keyCmp answers ⟨walking, .child path held⟩ ctx (t.call pCb)
      let freed := held && ctx'.rebuilt keyCmp path != ctx.rebuilt keyCmp path
      triggerLoop walking path t rest { ctx' with fault := ctx'.fault || freed }

def triggerOnChildCbList (walking : Bool) (path : Path) (ctx : OnCtx) (t : ChildTrigger) : OnCtx :=
  match ctx.sub keyCmp path with
  | none => ctx
  | some sub => triggerLoop wcSHA1 keyCmp answers walking path t (sub.cbList t.type) ctx

/-- The entries of `children_hashes` that have no child in the cache any more. -/
def childrenRemoved (prevKey : Option Key) : List (Key × TreenodeHash) → List ChildTrigger
  | [] => []
  | (key, _) :: subs =>
      ⟨.childRemoved, none, key, prevKey, !subs.isEmpty, true⟩ :: childrenRemoved prevKey subs

/-- The passes of the loop of `on_child_trig` until it is past the child `p_cache`;
`next` are the passes after that. -/
def childPasses (key : Key) (node : Treenode)
    (next : List (Key × TreenodeHash) → Option Key → List ChildTrigger) :
    List (Key × TreenodeHash) → Option Key → List ChildTrigger
  | [], prev => ⟨.childAdded, some node, key, prev, false, false⟩ :: next [] (some key)
  | (subKey, hash) :: subs, prev =>
      match keyCmp key subKey with
      | .lt =>
          ⟨.childAdded, some node, key, prev, true, false⟩ ::
            next ((subKey, hash) :: subs) (some key)
      | .eq =>
          if treenodeHashEq (scratchHash wcSHA1 node) (some hash) then next subs (some key)
          else
            ⟨.childChanged, some node, key, prev, !subs.isEmpty, false⟩ :: next subs (some key)
      | .gt =>
          ⟨.childRemoved, none, subKey, prev, !subs.isEmpty, true⟩ ::
            childPasses key node next subs prev

/-- The calls of `trigger_on_child_cb_list` by `on_child_trig`: the loop compares
the children with the entries of `children_hashes`, none of which a callback can
change without freeing them all. -/
def childTriggers : List (Key × Treenode) → List (Key × TreenodeHash) → Option Key →
    List ChildTrigger
  | [], subs, prev => childrenRemoved prev subs
  | (key, node) :: caches, subs, prev =>
      childPasses wcSHA1 keyCmp key node (childTriggers caches) subs prev

def onChildTrig (walking : Bool) (path : Path) (ctx : OnCtx) : OnCtx :=
  match ctx.sub keyCmp path with
  | none => ctx
  | some sub =>
      match ctx.cached keyCmp path with
      | some (.internal children _) =>
          let triggers :=
            childTriggers wcSHA1 keyCmp children.toList sub.childrenHashes.toList none
          let ctx := triggers.foldl (triggerOnChildCbList wcSHA1 keyCmp answers walking path) ctx
          if triggers.isEmpty then ctx
          else ctx.modifySub keyCmp path (refreshOnChildSubHashes wcSHA1 keyCmp children)
      | _ =>
          let triggers := childrenRemoved none sub.childrenHashes.toList
          (triggers.foldl (triggerOnChildCbList wcSHA1 keyCmp answers walking path) ctx).modifySub
            keyCmp path OnSub.clearHashes

def trig (walking : Bool) (path : Path) (ctx : OnCtx) : OnCtx :=
  match ctx.sub keyCmp path with
  | none => ctx
  | some sub =>
      let ctx := if sub.hasChildCb then onChildTrig wcSHA1 keyCmp answers walking path ctx else ctx
      onValTrig wcSHA1 keyCmp answers walking path ctx

/-! ### Dispatch -/

/-- The subscriptions strictly above the path, from the root on. -/
def dispatchAbove (path : Path) (ctx : OnCtx) : OnCtx :=
  (List.range path.length).foldl
    (fun ctx nparts => trig wcSHA1 keyCmp answers false (path.take nparts) ctx) ctx

/-- The loop over the subscriptions at and below the path. `none` says that it
makes more than `fuel` passes. -/
def dispatchBelow (path : Path) : ℕ → List Path → OnCtx → Option OnCtx
  | 0, _, _ => none
  | fuel + 1, it, ctx =>
      match avlItNext (wcDatasyncPathCmp keyCmp) ctx.onReg it with
      | none => some ctx
      | some (sub, it) =>
          if wcDatasyncPathStartsWith sub path then
            dispatchBelow path fuel it (trig wcSHA1 keyCmp answers true sub ctx)
          else some ctx

def onRegistryDispatchOnEvent (path : Path) (fuel : ℕ) (ctx : OnCtx) : Option OnCtx :=
  let ctx := dispatchAbove wcSHA1 keyCmp answers path ctx
  let it := avlItStartAt (wcDatasyncPathCmp keyCmp) path ctx.onReg []
  (dispatchBelow wcSHA1 keyCmp answers path fuel it ctx).map (deletedCbGc keyCmp)

end Triggers

/-! ### Steps -/

inductive OnOp where
  | on (type : OnEventType) (path : Bytes) (answers : ℕ → CbRun)
  | off (h : OnCb)
  | offPath (path : Bytes)
  | offPathType (path : Bytes) (type : OnEventType)
  /-- A pushed put or merge. `fuel` bounds the passes of the dispatch. -/
  | updatePut (path : Bytes) (data : Json) (answers : ℕ → CbRun) (fuel : ℕ)
  | updateMerge (path : Bytes) (data : Json) (answers : ℕ → CbRun) (fuel : ℕ)
  | cnxLost
  | handshake
  | response (id : ℕ) (ok : Bool)
  | connect
  | closeCnx

/-- The callbacks that the operation may invoke. -/
def OnOp.answers : OnOp → Option (ℕ → CbRun)
  | .on _ _ answers | .updatePut _ _ answers _ | .updateMerge _ _ answers _ => some answers
  | _ => none

/-- One operation, made outside callbacks. A handle that was removed is not used
any more, and a faulty program has no steps. -/
def OnCtx.step (ctx : OnCtx) (op : OnOp) : Option OnCtx :=
  let net (op : ListenOp) := (ctx.listen.step keyCmp op).map fun listen => { ctx with listen }
  if ctx.fault then none
  else
    match op with
    | .on type path answers =>
        let call c (ctx : OnCtx) :=
          ((answers ctx.log.length).run wcSHA1 keyCmp none (ctx.emit (.call c))).1
        some (wcDatasyncOn wcSHA1 keyCmp type call path ctx)
    | .off h => if ctx.registered keyCmp h then some (wcDatasyncOff keyCmp h ctx) else none
    | .offPath path => some (wcDatasyncOffPath keyCmp path ctx)
    | .offPathType path type => some (wcDatasyncOffPathType keyCmp path type ctx)
    | .updatePut path data answers fuel =>
        onRegistryDispatchOnEvent wcSHA1 keyCmp answers (wcDatasyncPathParse path) fuel
          { ctx with cache := dataCacheSet keyCmp path data ctx.cache }
    | .updateMerge path data answers fuel =>
        onRegistryDispatchOnEvent wcSHA1 keyCmp answers (wcDatasyncPathParse path) fuel
          { ctx with cache := dataCacheMerge keyCmp path data ctx.cache }
    | .cnxLost => net .cnxLost
    | .handshake => net .handshake
    | .response id ok => net (.response id ok)
    | .connect => net .connect
    | .closeCnx => net .closeCnx

end Functions

end WebcomSdk.On
