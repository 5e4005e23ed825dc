import WebcomSdk.Datasync.PathTree

/-!
The listen registry of `lib/datasync/listen/listen_registry.c`, with the part
of the context it reads and writes: the connection state, the counter of
request numbers and the table of pending requests. A request remembers the
address of the item it was sent for; the address of a new item is whatever the
allocator returns, so it is an argument of `wcDatasyncWatch`.
-/

namespace WebcomSdk.Datasync

open WebcomSdk.Collection

inductive CnxState where
  | disconnected
  | disconnecting
  | connecting
  | connected
  deriving Repr, DecidableEq

inductive ListenStatus where
  | unref
  | required
  | removed
  | pending
  | active
  | failed
  | masked
  deriving Repr, DecidableEq

/-- The statuses under which an item counts as listening in `is_masked`. -/
def ListenStatus.listens : ListenStatus → Bool
  | active | required | pending => true
  | _ => false

abbrev Addr := ℕ

/-- `struct listen_item` without its path, which is the key of the tree. While a path
is registered fewer than 2^32 times, `ref` is the `unsigned` of the source. -/
structure ListenItem where
  status : ListenStatus
  ref : ℕ
  addr : Addr
  deriving Repr, DecidableEq

inductive ListenReq where
  | listen
  | unlisten
  deriving Repr, DecidableEq

/-- A `wc_action_trans_t`, with the path the request carries. The callback of a
listen request is `on_listen_result` and `user` is its item; an unlisten request
has no callback. -/
structure WcActionTrans where
  id : ℕ
  type : ListenReq
  path : Path
  user : Option Addr
  deriving Repr, DecidableEq

structure ListenCtx where
  state : CnxState
  list : AvlTree Path ListenItem
  reqnum : ℕ
  pendingReqTable : List WcActionTrans
  deriving Repr, DecidableEq

def listenRegistryNew : ListenCtx := ⟨.disconnected, .nil, 0, []⟩

section Functions

variable (keyCmp : Key → Key → Ordering)

/-! ### Requests -/

/-- `wc_datasync_listen(ctx, path, on_listen_result, li)`. The request is stored
even when it cannot be sent. -/
def wcDatasyncListen (path : Path) (user : Addr) (ctx : ListenCtx) : ListenCtx :=
  { ctx with
    reqnum := ctx.reqnum + 1
    pendingReqTable := ⟨ctx.reqnum + 1, .listen, path, some user⟩ :: ctx.pendingReqTable }

/-- `wc_datasync_unlisten(ctx, path, NULL, NULL)`. -/
def wcDatasyncUnlisten (path : Path) (ctx : ListenCtx) : ListenCtx :=
  { ctx with
    reqnum := ctx.reqnum + 1
    pendingReqTable := ⟨ctx.reqnum + 1, .unlisten, path, none⟩ :: ctx.pendingReqTable }

def setStatus (path : Path) (status : ListenStatus) (ctx : ListenCtx) : ListenCtx :=
  { ctx with
    list := avlModify (wcDatasyncPathCmp keyCmp) path (fun li => { li with status }) ctx.list }

/-! ### Items -/

/-- The C code shortens the path in place; its length runs from 0 to one less
than that of the path. -/
def isMasked (list : AvlTree Path ListenItem) (parsedPath : Path) : Bool :=
  (List.range parsedPath.length).any fun nparts =>
    match avlFind (wcDatasyncPathCmp keyCmp) (parsedPath.take nparts) list with
    | some li => li.status.listens
    | none => false

def wcIsListening (ctx : ListenCtx) (parsedPath : Path) : Bool :=
  isMasked keyCmp ctx.list parsedPath

/-- Returns the registry and the item, new or with one reference more. -/
def listenRegistryAddEx (parsedPath : Path) (addr : Addr) (ctx : ListenCtx) :
    ListenCtx × ListenItem :=
  match avlFind (wcDatasyncPathCmp keyCmp) parsedPath ctx.list with
  | none =>
      let li : ListenItem :=
        ⟨if isMasked keyCmp ctx.list parsedPath then .masked else .required, 1, addr⟩
      ({ ctx with list := avlInsertRec (wcDatasyncPathCmp keyCmp) parsedPath li ctx.list }, li)
  | some li =>
      let li := { li with ref := li.ref + 1 }
      ({ ctx with
          list := avlModify (wcDatasyncPathCmp keyCmp) parsedPath (fun _ => li) ctx.list }, li)

/-- `none` is the failed `assert(li->ref >= n_unref)`. The flag says that the
item was removed. -/
def listenRegistryUnref (parsedPath : Path) (nUnref : ℕ) (ctx : ListenCtx) :
    Option (ListenCtx × Bool) :=
  match avlFind (wcDatasyncPathCmp keyCmp) parsedPath ctx.list with
  | none => some (ctx, false)
  | some li =>
      if li.ref < nUnref then none
      else if li.ref - nUnref > 0 then
        some ({ ctx with
          list := avlModify (wcDatasyncPathCmp keyCmp) parsedPath
            (fun li => { li with ref := li.ref - nUnref }) ctx.list }, false)
      else
        some ({ ctx with list := avlRemove (wcDatasyncPathCmp keyCmp) parsedPath ctx.list }, true)

/-! ### Loops over the items

A loop writes the status of the item it is at and no other, so what it reads of
an item is what the list held when the loop began. -/

def maskItem (ctx : ListenCtx) : Path × ListenItem → ListenCtx
  | (path, li) =>
      match li.status with
      | .active => wcDatasyncUnlisten path (setStatus keyCmp path .masked ctx)
      | .pending | .required => setStatus keyCmp path .masked ctx
      | _ => ctx

def maskListenRequest (parsedPath : Path) (ctx : ListenCtx) : ListenCtx :=
  (walkStrictlyBelow keyCmp parsedPath ctx.list).foldl (maskItem keyCmp) ctx

/-- What `wc_datasync_watch` and `unmask_listen_request` do to get an item
listened to. -/
def requestListen (path : Path) (addr : Addr) (ctx : ListenCtx) : ListenCtx :=
  if ctx.state = .connected then
    wcDatasyncListen path addr (setStatus keyCmp path .pending ctx)
  else setStatus keyCmp path .required ctx

/-- The loop of `unmask_listen_request`: `topPath` is the last item unmasked, and
what starts with it stays masked. -/
def unmaskLoop (topPath : Option Path) (ctx : ListenCtx) : List (Path × ListenItem) → ListenCtx
  | [] => ctx
  | (path, li) :: rest =>
      if topPath.any (wcDatasyncPathStartsWith path) then unmaskLoop topPath ctx rest
      else if li.status = .masked then
        unmaskLoop (some path) (requestListen keyCmp path li.addr ctx) rest
      else unmaskLoop topPath ctx rest

def unmaskListenRequest (parsedPath : Path) (ctx : ListenCtx) : ListenCtx :=
  unmaskLoop keyCmp none ctx (walkBelow keyCmp parsedPath ctx.list)

def suspendItem (ctx : ListenCtx) : Path × ListenItem → ListenCtx
  | (path, li) =>
      if li.status = .active ∨ li.status = .pending then setStatus keyCmp path .required ctx
      else ctx

def wcListenSuspendAll (ctx : ListenCtx) : ListenCtx :=
  ctx.list.toList.foldl (suspendItem keyCmp) ctx

def resumeItem (ctx : ListenCtx) : Path × ListenItem → ListenCtx
  | (path, li) =>
      if li.status = .required ∨ li.status = .pending then
        wcDatasyncListen path li.addr (setStatus keyCmp path .pending ctx)
      else ctx

def wcListenResumeAll (ctx : ListenCtx) : ListenCtx :=
  ctx.list.toList.foldl (resumeItem keyCmp) ctx

/-! ### Entry points -/

def wcDatasyncWatch (path : Bytes) (addr : Addr) (ctx : ListenCtx) : ListenCtx :=
  let parsedPath := wcDatasyncPathParse path
  let (ctx, li) := listenRegistryAddEx keyCmp parsedPath addr ctx
  if li.status = .required ∨ li.status = .failed then
    maskListenRequest keyCmp parsedPath (requestListen keyCmp parsedPath li.addr ctx)
  else ctx

def wcDatasyncUnwatchEx (parsedPath : Path) (refDec : ℕ) (ctx : ListenCtx) : Option ListenCtx :=
  match listenRegistryUnref keyCmp parsedPath refDec ctx with
  | none => none
  | some (ctx, false) => some ctx
  | some (ctx, true) =>
      some (unmaskListenRequest keyCmp parsedPath (wcDatasyncUnlisten parsedPath ctx))

/-- When the item was freed since the request was sent, the write goes to
memory that no item of the registry occupies. -/
def onListenResult (user : Addr) (ok : Bool) (ctx : ListenCtx) : ListenCtx :=
  match ctx.list.toList.find? fun e => e.2.addr = user with
  | some (path, _) => setStatus keyCmp path (if ok then .active else .failed) ctx
  | none => ctx

def wcDatasyncReqResponseDispatch (id : ℕ) (ok : Bool) (ctx : ListenCtx) : ListenCtx :=
  match ctx.pendingReqTable.find? fun t => t.id = id with
  | none => ctx
  | some req =>
      let ctx := { ctx with pendingReqTable := ctx.pendingReqTable.eraseP fun t => t.id = id }
      match req.user with
      | some user => onListenResult keyCmp user ok ctx
      | none => ctx

/-! ### Steps -/

inductive ListenOp where
  | watch (path : Bytes) (addr : Addr)
  | unwatchEx (path : Path) (refDec : ℕ)
  /-- `LWS_CALLBACK_CLOSED` or `LWS_CALLBACK_CLIENT_CONNECTION_ERROR`. -/
  | cnxLost
  /-- The handshake message of the server. -/
  | handshake
  | response (id : ℕ) (ok : Bool)
  | connect
  | closeCnx
  deriving Repr, DecidableEq

/-- One operation. The allocator does not return the address of a live item, and
a program that fails an assertion stops. -/
def ListenCtx.step (ctx : ListenCtx) : ListenOp → Option ListenCtx
  | .watch path addr =>
      if ctx.list.toList.any fun e => e.2.addr = addr then none
      else some (wcDatasyncWatch keyCmp path addr ctx)
  | .unwatchEx path refDec => wcDatasyncUnwatchEx keyCmp path refDec ctx
  | .cnxLost => some (wcListenSuspendAll keyCmp { ctx with state := .disconnected })
  | .handshake => some (wcListenResumeAll keyCmp { ctx with state := .connected })
  | .response id ok => some (wcDatasyncReqResponseDispatch keyCmp id ok ctx)
  | .connect => some (if ctx.state = .disconnected then { ctx with state := .connecting } else ctx)
  | .closeCnx =>
      some (if ctx.state = .connected ∨ ctx.state = .connecting then
        { ctx with state := .disconnecting } else ctx)

end Functions

end WebcomSdk.Datasync
