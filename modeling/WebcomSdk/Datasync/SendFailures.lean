import WebcomSdk.Datasync.Requests
import WebcomSdk.Datasync.ListenRegistry

/-!
Requests that cannot be sent. A request is stored before `wc_datasync_send_msg`
of `lib/datasync/datasync.c` is called, and stays in the table when that fails:
by then its caller, the application or the listen registry, has been told -1.
-/

namespace WebcomSdk.Datasync.Requests

open WebcomSdk.Cache

/-- What lies outside the SDK in one request call: whether `malloc` returned
memory for the entry, whether `strdup` did for the text of the message, and the
value of `lws_write`. -/
structure SendEnv where
  allocated : Bool
  duplicated : Bool
  lwsWrite : Bytes → ℤ

/-- `wc_datasync_send_msg`. -/
def wcDatasyncSendMsg (jsonC : JsonC) (env : SendEnv) (state : CnxState) (msg : WcMsg) : ℤ :=
  if state ≠ .connected then -1
  else if env.duplicated then env.lwsWrite (wcDatasyncMsgToJsonStr jsonC msg)
  else -1

/-- The callbacks that are registered with requests. -/
inductive ReqCallback (Cb : Type) where
  | onListenResult
  | app (callback : Cb)
  deriving Repr, DecidableEq

inductive ReqUser (User : Type) where
  | null
  | item (li : Addr)
  | app (user : User)
  deriving Repr, DecidableEq

/-- A call of a request function, with the context in which it is made. -/
structure SendCall (Cb User : Type) where
  call : ReqCall
  callback : Option (ReqCallback Cb)
  user : ReqUser User
  state : CnxState
  before : ReqCtx (ReqCallback Cb) (ReqUser User)

variable {Cb User : Type}

section Calls

variable (jsonC : JsonC) (env : ℤ → SendEnv)

/-- The number that a call takes. -/
def SendCall.reqnum (c : SendCall Cb User) : ℤ := c.before.lastReq + 1

/-- The arguments of the call when the value of `wc_datasync_send_msg` is `sent`.
What lies outside is given for each request number. -/
def SendCall.args (c : SendCall Cb User) (sent : ℤ) :
    ReqArgs (ReqCallback Cb) (ReqUser User) :=
  ⟨c.callback, c.user, (env c.reqnum).allocated, sent⟩

/-- The message, which does not depend on what becomes of it. -/
def SendCall.msg (c : SendCall Cb User) : WcMsg := (c.call.run (c.args env 0) c.before).1

def SendCall.sent (c : SendCall Cb User) : ℤ :=
  wcDatasyncSendMsg jsonC (env c.reqnum) c.state (c.msg env)

/-- The value returned. -/
def SendCall.returned (c : SendCall Cb User) : ℤ :=
  (c.call.run (c.args env (c.sent jsonC env)) c.before).2.1

def SendCall.after (c : SendCall Cb User) : ReqCtx (ReqCallback Cb) (ReqUser User) :=
  (c.call.run (c.args env (c.sent jsonC env)) c.before).2.2

end Calls

/-! ### Runs -/

/-- The listen registry, the table, and the calls made so far, the latest
first. -/
structure SendState (Cb User : Type) where
  registry : ListenCtx
  cnx : ReqCtx (ReqCallback Cb) (ReqUser User)
  calls : List (SendCall Cb User)

def sendStart : SendState Cb User := ⟨listenRegistryNew, ⟨0, fun _ => []⟩, []⟩

/-- What a context can be made to do. An operation of the registry issues its
own requests; a response goes to the table first. What a callback does comes as
further steps. -/
inductive SendOp (Cb User : Type) where
  | request (call : ReqCall) (callback : Option Cb) (user : User)
  | registry (op : ListenOp)
  | response (response : WcResponse)

section Runs

variable (jsonC : JsonC) (env : ℤ → SendEnv) (keyCmp : Key → Key → Ordering)

def SendState.request (s : SendState Cb User) (call : ReqCall)
    (callback : Option (ReqCallback Cb)) (user : ReqUser User) : SendState Cb User :=
  let c : SendCall Cb User := ⟨call, callback, user, s.registry.state, s.cnx⟩
  { s with cnx := c.after jsonC env, calls := c :: s.calls }

/-- A request of the registry: `wc_datasync_listen(ctx, .., on_listen_result, li)`
or `wc_datasync_unlisten(ctx, .., NULL, NULL)`. -/
def SendState.registryRequest (s : SendState Cb User) (req : Datasync.WcActionTrans) :
    SendState Cb User :=
  match req.type with
  | .listen =>
      s.request jsonC env (.listen (wcDatasyncPathToStr req.path)) (some .onListenResult)
        (req.user.elim .null .item)
  | .unlisten => s.request jsonC env (.unlisten (wcDatasyncPathToStr req.path)) none .null

/-- The registry and the requests that an operation issues, in order. -/
def registryStep (registry : ListenCtx) (op : ListenOp) :
    Option (ListenCtx × List Datasync.WcActionTrans) :=
  (({ registry with pendingReqTable := [] } : ListenCtx).step keyCmp op).map fun registry =>
    (registry, registry.pendingReqTable.reverse)

/-- A response, and what `on_listen_result` does when it is called. -/
def SendState.receive (s : SendState Cb User) (response : WcResponse) : SendState Cb User :=
  let (_, call, cnx) := wcDatasyncReqResponseDispatch response s.cnx
  { s with
    cnx
    registry :=
      match call with
      | some ⟨.onListenResult, _, _, status, _, _, .item li⟩ =>
          onListenResult keyCmp li (status = .ok) s.registry
      | _ => s.registry }

/-- Responses reach the registry through the table only. -/
def SendState.step (s : SendState Cb User) : SendOp Cb User → Option (SendState Cb User)
  | .request call callback user =>
      some (s.request jsonC env call (callback.map .app) (.app user))
  | .registry (.response _ _) => none
  | .registry op =>
      (registryStep keyCmp s.registry op).map fun (registry, reqs) =>
        reqs.foldl (SendState.registryRequest jsonC env) { s with registry }
  | .response response => some (s.receive keyCmp response)

def runSends (s : SendState Cb User) (ops : List (SendOp Cb User)) : Option (SendState Cb User) :=
  ops.foldlM (SendState.step jsonC env keyCmp) s

/-- A failed call left the table as it was, and what the table holds belongs to
callers that were given its number. -/
structure SendState.CallersKnow (s : SendState Cb User) : Prop where
  unchanged : ∀ c ∈ s.calls, c.returned jsonC env = -1 →
    (c.after jsonC env).pendingReqTable = c.before.pendingReqTable
  known : ∀ slot, ∀ req ∈ s.cnx.pendingReqTable slot,
    ∃ c ∈ s.calls, c.returned jsonC env = req.id

/-- The connection takes the message, or there is no memory for the entry. -/
def SendCall.Accepted (c : SendCall Cb User) : Prop :=
  (env c.reqnum).allocated = true →
    c.state = .connected ∧ (env c.reqnum).duplicated = true ∧
      0 < (env c.reqnum).lwsWrite (wcDatasyncMsgToJsonStr jsonC (c.msg env))

end Runs

/-! ### One call -/

section Call

variable {jsonC : JsonC} {env : ℤ → SendEnv} {keyCmp : Key → Key → Ordering}
variable (c : SendCall Cb User)

theorem ReqCall.run_returned (call : ReqCall) (args : ReqArgs Cb User) (ctx : ReqCtx Cb User) :
    (call.run args ctx).2.1 = if args.sent > 0 then ctx.lastReq + 1 else -1 := by
  cases call <;> rfl

theorem sendMsg_pos {env : SendEnv} {state : CnxState} {msg : WcMsg} :
    0 < wcDatasyncSendMsg jsonC env state msg ↔
      state = .connected ∧ env.duplicated = true ∧
        0 < env.lwsWrite (wcDatasyncMsgToJsonStr jsonC msg) := by
  rw [wcDatasyncSendMsg]
  split
  next hstate => simp [hstate]
  next hstate =>
    split
    next hdup => simp [not_not.mp hstate, hdup]
    next hdup => simp [hdup]

theorem accepted_iff :
    c.Accepted jsonC env ↔ ((env c.reqnum).allocated = true → 0 < c.sent jsonC env) := by
  rw [SendCall.Accepted, SendCall.sent, sendMsg_pos]

theorem returned_eq :
    c.returned jsonC env = if c.sent jsonC env > 0 then c.reqnum else -1 :=
  c.call.run_returned _ _

theorem after_eq :
    c.after jsonC env =
      wcReqStorePending (env c.reqnum).allocated ⟨c.reqnum, c.call.type, c.callback, c.user⟩
        { c.before with lastReq := c.reqnum } :=
  c.call.run_eq _ _

theorem after_lastReq : (c.after jsonC env).lastReq = c.reqnum := by
  rw [after_eq, wcReqStorePending]
  split <;> rfl

/-- The table is left as it was exactly when there was no memory. -/
theorem after_table_eq_iff :
    (c.after jsonC env).pendingReqTable = c.before.pendingReqTable ↔
      (env c.reqnum).allocated = false := by
  rw [after_eq, wcReqStorePending]
  constructor
  · intro htable
    by_contra hallocated
    rw [if_pos (by simpa using hallocated)] at htable
    have hslot := congrFun htable (pendingReqHash c.reqnum)
    simp at hslot
  · intro hallocated
    rw [hallocated]
    rfl

theorem mem_after {slot : Fin (2 ^ 8)} {req : WcActionTrans (ReqCallback Cb) (ReqUser User)}
    (h : req ∈ (c.after jsonC env).pendingReqTable slot) :
    ((env c.reqnum).allocated = true ∧ req.id = c.reqnum) ∨
      req ∈ c.before.pendingReqTable slot := by
  rw [after_eq, mem_storePending] at h
  rcases h with ⟨hallocated, rfl, -⟩ | hbefore
  · exact .inl ⟨hallocated, rfl⟩
  · exact .inr hbefore

end Call

/-! ### Along a run -/

/-- What every state of a run has: numbers are issued from 1 on, and an entry of
the table was stored by a call. -/
structure SendState.Inv (env : ℤ → SendEnv) (s : SendState Cb User) : Prop where
  issued : 0 ≤ s.cnx.lastReq
  numbered : ∀ c ∈ s.calls, 0 < c.reqnum
  stored : ∀ slot, ∀ req ∈ s.cnx.pendingReqTable slot,
    ∃ c ∈ s.calls, (env c.reqnum).allocated = true ∧ req.id = c.reqnum

section Run

variable {jsonC : JsonC} {env : ℤ → SendEnv} {keyCmp : Key → Key → Ordering}
variable {s s' : SendState Cb User}

theorem sendInv_start : (sendStart : SendState Cb User).Inv env where
  issued := Int.le_refl 0
  numbered _ hc := absurd hc List.not_mem_nil
  stored _ _ hreq := absurd hreq List.not_mem_nil

theorem sendInv_request (hs : s.Inv env) (call : ReqCall) (callback : Option (ReqCallback Cb))
    (user : ReqUser User) : (s.request jsonC env call callback user).Inv env := by
  have hreqnum : 0 < s.cnx.lastReq + 1 := by
    have hissued := hs.issued
    omega
  constructor
  case issued =>
    show 0 ≤ (SendCall.after jsonC env ⟨call, callback, user, s.registry.state, s.cnx⟩).lastReq
    rw [after_lastReq]
    exact hreqnum.le
  case numbered =>
    intro c hc
    rcases List.mem_cons.mp hc with rfl | hc
    · exact hreqnum
    · exact hs.numbered c hc
  case stored =>
    intro slot req hreq
    rcases mem_after _ hreq with ⟨hallocated, hid⟩ | hbefore
    · exact ⟨_, .head _, hallocated, hid⟩
    · obtain ⟨c, hc, hstored⟩ := hs.stored slot req hbefore
      exact ⟨c, .tail _ hc, hstored⟩

theorem sendInv_registryRequest (hs : s.Inv env) (req : Datasync.WcActionTrans) :
    (s.registryRequest jsonC env req).Inv env := by
  rw [SendState.registryRequest]
  split
  · exact sendInv_request hs _ _ _
  · exact sendInv_request hs _ _ _

/-- A response only takes entries out. -/
theorem sendInv_receive (hs : s.Inv env) (response : WcResponse) :
    (s.receive keyCmp response).Inv env := by
  have hcnx : (s.receive keyCmp response).cnx = (wcDatasyncReqGetPending response.r s.cnx).2 := by
    rw [SendState.receive, wcDatasyncReqResponseDispatch]
    rcases wcDatasyncReqGetPending response.r s.cnx with ⟨_ | req, cnx⟩ <;> rfl
  constructor
  case issued =>
    rw [hcnx]
    exact hs.issued
  case numbered => exact hs.numbered
  case stored =>
    intro slot req hreq
    rw [hcnx] at hreq
    exact hs.stored slot req (mem_of_mem_getPending hreq)

theorem sendInv_step (hs : s.Inv env) {op : SendOp Cb User}
    (hstep : s.step jsonC env keyCmp op = some s') : s'.Inv env := by
  cases op with
  | request call callback user =>
      obtain rfl := Option.some.inj hstep
      exact sendInv_request hs _ _ _
  | response response =>
      obtain rfl := Option.some.inj hstep
      exact sendInv_receive hs response
  | registry op =>
      have hissue (registry : ListenCtx) (reqs : List Datasync.WcActionTrans) :
          (reqs.foldl (SendState.registryRequest jsonC env) { s with registry }).Inv env := by
        have hregistry : ({ s with registry } : SendState Cb User).Inv env :=
          ⟨hs.issued, hs.numbered, hs.stored⟩
        exact List.foldlRecOn reqs _ hregistry fun _ h req _ => sendInv_registryRequest h req
      have hmap : (registryStep keyCmp s.registry op).map (fun (registry, reqs) =>
          reqs.foldl (SendState.registryRequest jsonC env) { s with registry }) = some s' := by
        cases op with
        | response id ok => exact absurd hstep (Option.some_ne_none _).symm
        | _ => exact hstep
      obtain ⟨⟨registry, reqs⟩, -, rfl⟩ := Option.map_eq_some_iff.mp hmap
      exact hissue registry reqs

theorem sendInv_run (ops : List (SendOp Cb User)) (hs : s.Inv env)
    (hrun : runSends jsonC env keyCmp s ops = some s') : s'.Inv env := by
  induction ops generalizing s with
  | nil => exact Option.some.inj hrun ▸ hs
  | cons op ops ih =>
      rw [runSends, List.foldlM_cons] at hrun
      obtain ⟨t, ht, hrun⟩ := Option.bind_eq_some_iff.mp hrun
      exact ih (sendInv_step hs ht) hrun

end Run

/-- **Failed requests and the table.** In a run, the calls that fail leave the
table alone and every entry belongs to a caller that knows its number, if and
only if each call that gets memory for its entry is made while connected, with a
text that `lws_write` takes. -/
theorem callers_know_iff (jsonC : JsonC) (env : ℤ → SendEnv) (keyCmp : Key → Key → Ordering)
    (ops : List (SendOp Cb User)) (s : SendState Cb User)
    (hrun : runSends jsonC env keyCmp sendStart ops = some s) :
    s.CallersKnow jsonC env ↔ ∀ c ∈ s.calls, c.Accepted jsonC env := by
  have hinv : s.Inv env := sendInv_run ops sendInv_start hrun
  constructor
  · intro hknow c hc
    rw [accepted_iff]
    intro hallocated
    by_contra hsent
    have hreturned : c.returned jsonC env = -1 := by rw [returned_eq, if_neg hsent]
    have hmemory := (after_table_eq_iff c).mp (hknow.unchanged c hc hreturned)
    rw [hallocated] at hmemory
    exact absurd hmemory (by decide)
  · intro haccepted
    have hreturned : ∀ c ∈ s.calls, (env c.reqnum).allocated = true →
        c.returned jsonC env = c.reqnum := by
      intro c hc hallocated
      rw [returned_eq, if_pos ((accepted_iff c).mp (haccepted c hc) hallocated)]
    constructor
    case unchanged =>
      intro c hc hfailed
      rw [after_table_eq_iff, ← Bool.not_eq_true]
      intro hallocated
      have hpos := hinv.numbered c hc
      rw [hreturned c hc hallocated] at hfailed
      omega
    case known =>
      intro slot req hreq
      obtain ⟨c, hc, hallocated, hid⟩ := hinv.stored slot req hreq
      exact ⟨c, hc, (hreturned c hc hallocated).trans hid.symm⟩

/-- A printer for which nothing needs to be printed. -/
def emptyTexts : JsonC := ⟨fun _ => [], fun _ => none⟩

/-- Memory is there and what is sent is taken. -/
def takesAll : ℤ → SendEnv := fun _ => ⟨true, true, fun _ => 1⟩

def putCall : SendOp ℕ ℕ := .request (.put (ascii "/a") (ascii "true")) (some 0) 0

/-- Watched and unwatched, `/a` leaves the unlisten request of the registry. -/
def watchAndUnwatch : List (SendOp ℕ ℕ) :=
  [.registry (.watch (ascii "/a") 0), .registry (.unwatchEx [ascii "a"] 1)]

/-- The only call of a run returns -1 and its entry is left in the table. -/
def LeavesEntry (ops : List (SendOp ℕ ℕ)) : Prop :=
  ∃ s, runSends emptyTexts takesAll strcmp sendStart ops = some s ∧
    s.calls.map (SendCall.returned emptyTexts takesAll) = [-1] ∧
    (s.cnx.pendingReqTable 1).map (·.id) = [1] ∧ ¬ s.CallersKnow emptyTexts takesAll

theorem entry_of_failed_request : LeavesEntry [putCall] ∧ LeavesEntry watchAndUnwatch := by
  have hunknown (s : SendState ℕ ℕ)
      (hcalls : s.calls.map (SendCall.returned emptyTexts takesAll) = [-1])
      (htable : (s.cnx.pendingReqTable 1).map (·.id) = [1]) :
      ¬ s.CallersKnow emptyTexts takesAll := by
    intro hknow
    have hid : (1 : ℤ) ∈ (s.cnx.pendingReqTable 1).map (·.id) := by simp [htable]
    obtain ⟨req, hreq, hone⟩ := List.mem_map.mp hid
    obtain ⟨c, hc, hreturned⟩ := hknow.known 1 req hreq
    have hmem : c.returned emptyTexts takesAll ∈ [(-1 : ℤ)] :=
      hcalls ▸ List.mem_map_of_mem hc
    rw [hreturned, hone] at hmem
    simp at hmem
  constructor
  · exact ⟨_, rfl, rfl, rfl, hunknown _ rfl rfl⟩
  · exact ⟨_, rfl, rfl, rfl, hunknown _ rfl rfl⟩

theorem callers_know_connected :
    ∃ s, runSends emptyTexts takesAll strcmp sendStart
        [.registry .connect, .registry .handshake, putCall] = some s ∧
      s.CallersKnow emptyTexts takesAll := by
  refine ⟨_, rfl, (callers_know_iff emptyTexts takesAll strcmp
    [.registry .connect, .registry .handshake, putCall] _ rfl).mpr fun c hc _ => ?_⟩
  obtain rfl := List.mem_singleton.mp hc
  exact ⟨rfl, rfl, Int.one_pos⟩

end WebcomSdk.Datasync.Requests
