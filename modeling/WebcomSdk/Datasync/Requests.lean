import WebcomSdk.Datasync.Message

/-!
The table of pending requests, `lib/datasync/request.c`: 256 slots, each a chain
to which requests are prepended and from which the dispatcher of responses
unlinks them. Request numbers are an `int64_t` counter, whose overflow C leaves
undefined, so they are integers here.
-/

namespace WebcomSdk.Datasync.Requests

open WebcomSdk.Cache

inductive WcActionType where
  | put
  | merge
  | listen
  | unlisten
  | authenticate
  | unauthenticate
  | onDisconnectPut
  | onDisconnectMerge
  | onDisconnectCancel
  deriving Repr, DecidableEq

inductive WcReqPendingResult where
  | ok
  | error
  deriving Repr, DecidableEq

/-- `wc_response_t`. -/
structure WcResponse where
  r : ℤ
  status : Bytes
  data : Bytes
  deriving Repr, DecidableEq

/-- `wc_action_trans_t` without its link. The callback may be `NULL`. -/
structure WcActionTrans (Cb User : Type) where
  id : ℤ
  type : WcActionType
  callback : Option Cb
  user : User
  deriving Repr, DecidableEq

/-- A call of a `wc_on_req_result_t`. -/
structure ReqResultCall (Cb User : Type) where
  callback : Cb
  id : ℤ
  type : WcActionType
  status : WcReqPendingResult
  reason : Bytes
  data : Bytes
  user : User
  deriving Repr, DecidableEq

/-- The counter and the table of a `wc_datasync_context_t`. -/
structure ReqCtx (Cb User : Type) where
  lastReq : ℤ
  pendingReqTable : Fin (2 ^ 8) → List (WcActionTrans Cb User)

variable {Cb User : Type}

/-! ### The table -/

def pendingReqHash (id : ℤ) : Fin (2 ^ 8) := ⟨(id % 2 ^ 64 % 2 ^ 8).toNat, by omega⟩

/-- `allocated` says whether `malloc` returned memory. -/
def wcReqStorePending (allocated : Bool) (req : WcActionTrans Cb User) (cnx : ReqCtx Cb User) :
    ReqCtx Cb User :=
  if allocated then
    let slot := pendingReqHash req.id
    { cnx with
      pendingReqTable :=
        Function.update cnx.pendingReqTable slot (req :: cnx.pendingReqTable slot) }
  else cnx

/-- The loop of `wc_datasync_req_get_pending`: the entry found, and the chain
without it. -/
def unlinkPending (id : ℤ) :
    List (WcActionTrans Cb User) → Option (WcActionTrans Cb User) × List (WcActionTrans Cb User)
  | [] => (none, [])
  | cur :: next =>
      if cur.id = id then (some cur, next)
      else
        let (found, next) := unlinkPending id next
        (found, cur :: next)

def wcDatasyncReqGetPending (id : ℤ) (cnx : ReqCtx Cb User) :
    Option (WcActionTrans Cb User) × ReqCtx Cb User :=
  let slot := pendingReqHash id
  let (found, chain) := unlinkPending id (cnx.pendingReqTable slot)
  (found, { cnx with pendingReqTable := Function.update cnx.pendingReqTable slot chain })

def WcResponse.result (response : WcResponse) : WcReqPendingResult :=
  if response.status = ascii "ok" then .ok else .error

/-- The call that a response makes for the entry it found. -/
def WcActionTrans.call (req : WcActionTrans Cb User) (response : WcResponse) :
    Option (ReqResultCall Cb User) :=
  req.callback.map fun callback =>
    ⟨callback, req.id, req.type, response.result, response.status, response.data, req.user⟩

/-- The entry found, the call of its callback, and the context in which the
callback runs. After it only the entry is freed. -/
def wcDatasyncReqResponseDispatch (response : WcResponse) (cnx : ReqCtx Cb User) :
    Option (WcActionTrans Cb User) × Option (ReqResultCall Cb User) × ReqCtx Cb User :=
  match wcDatasyncReqGetPending response.r cnx with
  | (some req, cnx) => (some req, req.call response, cnx)
  | (none, cnx) => (none, none, cnx)

/-! ### Requests -/

def actionType : WcAction → WcActionType
  | .put .. => .put
  | .merge .. => .merge
  | .listen .. => .listen
  | .unlisten .. => .unlisten
  | .authenticate .. => .authenticate
  | .unauthenticate => .unauthenticate
  | .onDisconnectPut .. => .onDisconnectPut
  | .onDisconnectMerge .. => .onDisconnectMerge
  | .onDisconnectCancel .. => .onDisconnectCancel

/-- The callback and the pointer of the caller, and what the environment does:
`malloc`, and the value of `wc_datasync_send_msg`. -/
structure ReqArgs (Cb User : Type) where
  callback : Option Cb
  user : User
  allocated : Bool
  sent : ℤ
  deriving Repr, DecidableEq

/-- `DEFINE_REQ_FUNC`: the message sent, the value returned and the context. -/
def defineReqFunc (action : WcAction) (args : ReqArgs Cb User) (ctx : ReqCtx Cb User) :
    WcMsg × ℤ × ReqCtx Cb User :=
  let reqnum := ctx.lastReq + 1
  (.data (.action (Int64.ofInt reqnum) action),
    if args.sent > 0 then reqnum else -1,
    wcReqStorePending args.allocated ⟨reqnum, actionType action, args.callback, args.user⟩
      { ctx with lastReq := reqnum })

variable (args : ReqArgs Cb User) (ctx : ReqCtx Cb User)

def wcDatasyncAuth (cred : Bytes) := defineReqFunc (.authenticate cred) args ctx

def wcDatasyncUnauth := defineReqFunc .unauthenticate args ctx

def wcDatasyncListen (path : Bytes) := defineReqFunc (.listen path) args ctx

def wcDatasyncUnlisten (path : Bytes) := defineReqFunc (.unlisten path) args ctx

def wcDatasyncPut (path json : Bytes) := defineReqFunc (.put path json none) args ctx

def wcDatasyncMerge (path json : Bytes) := defineReqFunc (.merge path json) args ctx

def wcDatasyncOnDiscPut (path json : Bytes) := defineReqFunc (.onDisconnectPut path json) args ctx

def wcDatasyncOnDiscMerge (path json : Bytes) :=
  defineReqFunc (.onDisconnectMerge path json) args ctx

def wcDatasyncOnDiscCancel (path : Bytes) := defineReqFunc (.onDisconnectCancel path) args ctx

/-- `pushId` is what `wc_datasync_push_id` writes. -/
def wcDatasyncPush (path json pushId : Bytes) :=
  wcDatasyncPut args ctx (path ++ ascii "/" ++ pushId) json

inductive ReqCall where
  | auth (cred : Bytes)
  | unauth
  | listen (path : Bytes)
  | unlisten (path : Bytes)
  | put (path json : Bytes)
  | merge (path json : Bytes)
  | push (path json pushId : Bytes)
  | onDiscPut (path json : Bytes)
  | onDiscMerge (path json : Bytes)
  | onDiscCancel (path : Bytes)
  deriving Repr, DecidableEq

def ReqCall.run : ReqCall → WcMsg × ℤ × ReqCtx Cb User
  | auth cred => wcDatasyncAuth args ctx cred
  | unauth => wcDatasyncUnauth args ctx
  | listen path => wcDatasyncListen args ctx path
  | unlisten path => wcDatasyncUnlisten args ctx path
  | put path json => wcDatasyncPut args ctx path json
  | merge path json => wcDatasyncMerge args ctx path json
  | push path json pushId => wcDatasyncPush args ctx path json pushId
  | onDiscPut path json => wcDatasyncOnDiscPut args ctx path json
  | onDiscMerge path json => wcDatasyncOnDiscMerge args ctx path json
  | onDiscCancel path => wcDatasyncOnDiscCancel args ctx path

/-! ### Runs -/

/-- The type under which the callback of a request is called. -/
def ReqCall.type : ReqCall → WcActionType
  | auth _ => .authenticate
  | unauth => .unauthenticate
  | listen _ => .listen
  | unlisten _ => .unlisten
  | put .. | push .. => .put
  | merge .. => .merge
  | onDiscPut .. => .onDisconnectPut
  | onDiscMerge .. => .onDisconnectMerge
  | onDiscCancel _ => .onDisconnectCancel

/-- Requests and responses in their order. A response comes with what its callback
does if it is called: further requests, and the responses that arrive while these
are sent. -/
inductive ReqRun (Cb User : Type) where
  | done
  | request (call : ReqCall) (args : ReqArgs Cb User) (next : ReqRun Cb User)
  | response (response : WcResponse) (during next : ReqRun Cb User)

inductive ReqEvent (Cb User : Type) where
  | stored (req : WcActionTrans Cb User)
  | received (response : WcResponse) (found : Option (WcActionTrans Cb User))
      (call : Option (ReqResultCall Cb User))
  deriving Repr, DecidableEq

/-- The entry that a response found. -/
def ReqEvent.found : ReqEvent Cb User → Option (WcActionTrans Cb User)
  | stored _ => none
  | received _ found _ => found

/-- The context, and what happened so far, the latest event first. -/
structure ReqState (Cb User : Type) where
  cnx : ReqCtx Cb User
  log : List (ReqEvent Cb User)

def reqStart : ReqState Cb User := ⟨⟨0, fun _ => []⟩, []⟩

def ReqState.request (s : ReqState Cb User) (call : ReqCall) (args : ReqArgs Cb User) :
    ReqState Cb User :=
  ⟨(call.run args s.cnx).2.2,
    if args.allocated then
      .stored ⟨s.cnx.lastReq + 1, call.type, args.callback, args.user⟩ :: s.log
    else s.log⟩

def ReqState.receive (s : ReqState Cb User) (response : WcResponse) : ReqState Cb User :=
  let (found, call, cnx) := wcDatasyncReqResponseDispatch response s.cnx
  ⟨cnx, .received response found call :: s.log⟩

/-- Whether a response with this number calls a callback. -/
def ReqState.calls (s : ReqState Cb User) (response : WcResponse) : Bool :=
  (wcDatasyncReqResponseDispatch response s.cnx).2.1.isSome

def ReqState.run (s : ReqState Cb User) : ReqRun Cb User → ReqState Cb User
  | .done => s
  | .request call args next => (s.request call args).run next
  | .response response during next =>
      if s.calls response then ((s.receive response).run during).run next
      else (s.receive response).run next

/-- The request was stored and no response with its number arrived since. -/
def Unanswered (log : List (ReqEvent Cb User)) (req : WcActionTrans Cb User) : Prop :=
  ∃ since before, log = since ++ .stored req :: before ∧
    ∀ response found call, .received response found call ∈ since → response.r ≠ req.id

/-- The responses of a run and the requests go together. -/
structure RequestsMatched (s : ReqState Cb User) : Prop where
  /-- A response finds the request with its number that awaits an answer. -/
  found : ∀ since response found call before,
    s.log = since ++ .received response found call :: before →
    ∀ req, found = some req ↔ Unanswered before req ∧ req.id = response.r
  /-- The callback of that request, if it has one, is called with what it is. -/
  called : ∀ response found call, .received response found call ∈ s.log →
    call = found.bind fun req => req.call response
  /-- The table holds the requests that await an answer. -/
  pending : ∀ req, (∃ slot, req ∈ s.cnx.pendingReqTable slot) ↔ Unanswered s.log req
  /-- A response takes the entries with its number out of the table and no others. -/
  removed : ∀ response slot,
    (s.receive response).cnx.pendingReqTable slot =
      (s.cnx.pendingReqTable slot).filter fun req => req.id ≠ response.r
  /-- No request is answered twice. -/
  once : ((s.log.filterMap ReqEvent.found).map (·.id)).Nodup

/-! ### One chain -/

theorem unlinkPending_eq (id : ℤ) (chain : List (WcActionTrans Cb User)) :
    unlinkPending id chain =
      (chain.find? fun req => req.id = id, chain.eraseP fun req => req.id = id) := by
  induction chain with
  | nil => rfl
  | cons cur next ih =>
      rw [unlinkPending]
      split
      next hid => simp [hid]
      next hid => simp [hid, ih]

/-- A chain without repeated numbers loses all that has the number. -/
theorem eraseP_eq_filter {chain : List (WcActionTrans Cb User)}
    (hnodup : (chain.map (·.id)).Nodup) (id : ℤ) :
    (chain.eraseP fun req => req.id = id) = chain.filter fun req => req.id ≠ id := by
  induction chain with
  | nil => rfl
  | cons cur next ih =>
      rw [List.map_cons, List.nodup_cons] at hnodup
      rcases eq_or_ne cur.id id with hid | hid
      · have hnext : ∀ req ∈ next, req.id ≠ id := fun req hreq heq =>
          hnodup.1 (List.mem_map.mpr ⟨req, hreq, heq.trans hid.symm⟩)
        rw [List.eraseP_cons_of_pos (by simpa using hid),
          List.filter_cons_of_neg (by simpa using hid)]
        exact (List.filter_eq_self.mpr fun req hreq => by simpa using hnext req hreq).symm
      · rw [List.eraseP_cons_of_neg (by simpa using hid),
          List.filter_cons_of_pos (by simpa using hid), ih hnodup.2]

theorem eq_of_mem_of_id_eq {chain : List (WcActionTrans Cb User)}
    (hnodup : (chain.map (·.id)).Nodup) {req req' : WcActionTrans Cb User} (hreq : req ∈ chain)
    (hreq' : req' ∈ chain) (hid : req.id = req'.id) : req = req' :=
  List.inj_on_of_nodup_map hnodup hreq hreq' hid

/-! ### The table -/

/-- Entries are in the slot of their number, and numbers are not repeated. -/
structure ReqCtx.WellFormed (cnx : ReqCtx Cb User) : Prop where
  slots : ∀ slot, ∀ req ∈ cnx.pendingReqTable slot, pendingReqHash req.id = slot
  nodup : ∀ slot, ((cnx.pendingReqTable slot).map (·.id)).Nodup
  issued : ∀ slot, ∀ req ∈ cnx.pendingReqTable slot, req.id ≤ cnx.lastReq

section Table

variable {cnx : ReqCtx Cb User} {req : WcActionTrans Cb User}

theorem getPending_found (hcnx : cnx.WellFormed) {id : ℤ} :
    (wcDatasyncReqGetPending id cnx).1 = some req ↔
      req ∈ cnx.pendingReqTable (pendingReqHash id) ∧ req.id = id := by
  have hfound : (wcDatasyncReqGetPending id cnx).1 =
      (cnx.pendingReqTable (pendingReqHash id)).find? fun req => req.id = id := by
    rw [wcDatasyncReqGetPending, unlinkPending_eq]
  rw [hfound]
  constructor
  · intro hsome
    exact ⟨List.mem_of_find?_eq_some hsome, by simpa using List.find?_some hsome⟩
  · intro ⟨hmem, hid⟩
    cases hsome : (cnx.pendingReqTable (pendingReqHash id)).find? fun req => req.id = id with
    | none => exact absurd hid (by simpa using List.find?_eq_none.mp hsome req hmem)
    | some req' =>
        have hid' : req'.id = id := by simpa using List.find?_some hsome
        exact congrArg some (eq_of_mem_of_id_eq (hcnx.nodup _) (List.mem_of_find?_eq_some hsome)
          hmem (hid'.trans hid.symm))

theorem getPending_table (hcnx : cnx.WellFormed) (id : ℤ) (slot : Fin (2 ^ 8)) :
    (wcDatasyncReqGetPending id cnx).2.pendingReqTable slot =
      (cnx.pendingReqTable slot).filter fun req => req.id ≠ id := by
  rw [wcDatasyncReqGetPending, unlinkPending_eq]
  dsimp only
  rcases eq_or_ne slot (pendingReqHash id) with rfl | hslot
  · rw [Function.update_self, eraseP_eq_filter (hcnx.nodup _)]
  · rw [Function.update_of_ne hslot]
    refine (List.filter_eq_self.mpr fun req hreq => ?_).symm
    have hid : req.id ≠ id := by
      rintro rfl
      exact hslot (hcnx.slots slot req hreq).symm
    simpa using hid

theorem getPending_lastReq (id : ℤ) : (wcDatasyncReqGetPending id cnx).2.lastReq = cnx.lastReq :=
  rfl

/-- Nothing is added to a chain. -/
theorem mem_of_mem_getPending {id : ℤ} {slot : Fin (2 ^ 8)}
    (hreq : req ∈ (wcDatasyncReqGetPending id cnx).2.pendingReqTable slot) :
    req ∈ cnx.pendingReqTable slot := by
  rw [wcDatasyncReqGetPending, unlinkPending_eq] at hreq
  dsimp only at hreq
  rcases eq_or_ne slot (pendingReqHash id) with rfl | hslot
  · rw [Function.update_self] at hreq
    exact List.mem_of_mem_eraseP hreq
  · rwa [Function.update_of_ne hslot] at hreq

theorem getPending_wellFormed (hcnx : cnx.WellFormed) (id : ℤ) :
    (wcDatasyncReqGetPending id cnx).2.WellFormed := by
  have hsub : ∀ slot, ((wcDatasyncReqGetPending id cnx).2.pendingReqTable slot).Sublist
      (cnx.pendingReqTable slot) := by
    intro slot
    rw [getPending_table hcnx]
    exact List.filter_sublist
  constructor
  case slots => exact fun slot req hreq => hcnx.slots slot req ((hsub slot).subset hreq)
  case nodup => exact fun slot => ((hsub slot).map _).nodup (hcnx.nodup slot)
  case issued => exact fun slot req hreq => hcnx.issued slot req ((hsub slot).subset hreq)

theorem mem_storePending {allocated : Bool} {new : WcActionTrans Cb User} (slot : Fin (2 ^ 8)) :
    req ∈ (wcReqStorePending allocated new cnx).pendingReqTable slot ↔
      (allocated ∧ req = new ∧ slot = pendingReqHash new.id) ∨ req ∈ cnx.pendingReqTable slot := by
  rw [wcReqStorePending]
  split
  next hallocated =>
    rcases eq_or_ne slot (pendingReqHash new.id) with rfl | hslot
    · simp [hallocated]
    · simp [hslot]
  next hallocated => simp [hallocated]

/-- A number not issued before keeps the table well formed. -/
theorem storePending_wellFormed (hcnx : cnx.WellFormed) (allocated : Bool)
    {new : WcActionTrans Cb User} (hnew : cnx.lastReq < new.id) :
    (wcReqStorePending allocated new { cnx with lastReq := new.id }).WellFormed := by
  constructor
  case slots =>
    intro slot req hreq
    rcases (mem_storePending slot).mp hreq with ⟨-, rfl, rfl⟩ | hreq
    · rfl
    · exact hcnx.slots slot req hreq
  case nodup =>
    intro slot
    rw [wcReqStorePending]
    split
    next =>
      dsimp only
      rcases eq_or_ne slot (pendingReqHash new.id) with rfl | hslot
      · rw [Function.update_self, List.map_cons, List.nodup_cons]
        refine ⟨fun hmem => ?_, hcnx.nodup _⟩
        obtain ⟨req, hreq, hid⟩ := List.mem_map.mp hmem
        have hissued := hcnx.issued _ req hreq
        omega
      · rw [Function.update_of_ne hslot]
        exact hcnx.nodup slot
    next => exact hcnx.nodup slot
  case issued =>
    intro slot req hreq
    have hlast : (wcReqStorePending allocated new { cnx with lastReq := new.id }).lastReq =
        new.id := by
      rw [wcReqStorePending]
      split <;> rfl
    rw [hlast]
    rcases (mem_storePending slot).mp hreq with ⟨-, rfl, -⟩ | hreq
    · exact Int.le_refl _
    · exact (hcnx.issued slot req hreq).trans hnew.le

end Table

/-! ### The log -/

section Log

variable {log : List (ReqEvent Cb User)} {req : WcActionTrans Cb User}

theorem unanswered_stored {new : WcActionTrans Cb User} :
    Unanswered (.stored new :: log) req ↔ req = new ∨ Unanswered log req := by
  constructor
  · rintro ⟨since, before, heq, hsince⟩
    cases since with
    | nil =>
        injection heq with heq
        injection heq with heq
        exact .inl heq.symm
    | cons e since =>
        injection heq with _ heq
        exact .inr ⟨since, before, heq,
          fun response found call hmem => hsince response found call (.tail _ hmem)⟩
  · rintro (rfl | ⟨since, before, rfl, hsince⟩)
    · exact ⟨[], log, rfl, fun _ _ _ hmem => absurd hmem List.not_mem_nil⟩
    · refine ⟨.stored new :: since, before, rfl, fun response found call hmem => ?_⟩
      exact hsince response found call ((List.mem_cons.mp hmem).resolve_left nofun)

theorem unanswered_received {response : WcResponse} {found : Option (WcActionTrans Cb User)}
    {call : Option (ReqResultCall Cb User)} :
    Unanswered (.received response found call :: log) req ↔
      Unanswered log req ∧ req.id ≠ response.r := by
  constructor
  · rintro ⟨since, before, heq, hsince⟩
    cases since with
    | nil =>
        injection heq with heq
        injection heq
    | cons e since =>
        injection heq with heq heq'
        exact ⟨⟨since, before, heq', fun response found call hmem =>
            hsince response found call (.tail _ hmem)⟩,
          (hsince response found call (heq ▸ .head _)).symm⟩
  · rintro ⟨⟨since, before, rfl, hsince⟩, hid⟩
    refine ⟨.received response found call :: since, before, rfl, fun r f c hmem => ?_⟩
    rcases List.mem_cons.mp hmem with heq | hmem
    · injection heq with heq
      exact heq ▸ hid.symm
    · exact hsince r f c hmem

end Log

/-! ### Along a run -/

theorem ReqCall.run_eq (call : ReqCall) (args : ReqArgs Cb User) (ctx : ReqCtx Cb User) :
    (call.run args ctx).2.2 =
      wcReqStorePending args.allocated ⟨ctx.lastReq + 1, call.type, args.callback, args.user⟩
        { ctx with lastReq := ctx.lastReq + 1 } := by
  cases call <;> rfl

theorem receive_cnx (s : ReqState Cb User) (response : WcResponse) :
    (s.receive response).cnx = (wcDatasyncReqGetPending response.r s.cnx).2 := by
  rw [ReqState.receive, wcDatasyncReqResponseDispatch]
  rcases wcDatasyncReqGetPending response.r s.cnx with ⟨_ | req, cnx⟩ <;> rfl

theorem receive_log (s : ReqState Cb User) (response : WcResponse) :
    (s.receive response).log =
      .received response (wcDatasyncReqGetPending response.r s.cnx).1
        ((wcDatasyncReqGetPending response.r s.cnx).1.bind fun req => req.call response) ::
      s.log := by
  rw [ReqState.receive, wcDatasyncReqResponseDispatch]
  rcases wcDatasyncReqGetPending response.r s.cnx with ⟨_ | req, cnx⟩ <;> rfl

/-- What every state of a run has: `answered` says that the numbers already
answered do not come back. -/
structure ReqState.Inv (s : ReqState Cb User) : Prop where
  wellFormed : s.cnx.WellFormed
  pending : ∀ req, req ∈ s.cnx.pendingReqTable (pendingReqHash req.id) ↔ Unanswered s.log req
  answered : ∀ req ∈ s.log.filterMap ReqEvent.found, req.id ≤ s.cnx.lastReq ∧
    ∀ slot, ∀ req' ∈ s.cnx.pendingReqTable slot, req'.id ≠ req.id
  once : ((s.log.filterMap ReqEvent.found).map (·.id)).Nodup
  found : ∀ since response found call before,
    s.log = since ++ .received response found call :: before →
    ∀ req, found = some req ↔ Unanswered before req ∧ req.id = response.r
  called : ∀ response found call, .received response found call ∈ s.log →
    call = found.bind fun req => req.call response

section Run

variable {s : ReqState Cb User}

theorem inv_start : (reqStart : ReqState Cb User).Inv where
  wellFormed := ⟨fun _ _ hreq => absurd hreq List.not_mem_nil, fun _ => List.nodup_nil,
    fun _ _ hreq => absurd hreq List.not_mem_nil⟩
  pending req := by simp [reqStart, Unanswered]
  answered _ hreq := absurd hreq List.not_mem_nil
  once := List.nodup_nil
  found since response found call before heq := by simp [reqStart] at heq
  called _ _ _ hmem := absurd hmem List.not_mem_nil

theorem inv_request (hs : s.Inv) (call : ReqCall) (args : ReqArgs Cb User) :
    (s.request call args).Inv := by
  have hcnx : (s.request call args).cnx = _ := call.run_eq args s.cnx
  have hlast : (s.request call args).cnx.lastReq = s.cnx.lastReq + 1 := by
    rw [hcnx, wcReqStorePending]
    split <;> rfl
  have hfound : (s.request call args).log.filterMap ReqEvent.found =
      s.log.filterMap ReqEvent.found := by
    rw [ReqState.request]
    split <;> rfl
  have hreceived : ∀ response found call', .received response found call' ∈
      (s.request call args).log → .received response found call' ∈ s.log := by
    intro response found call' hmem
    rw [ReqState.request] at hmem
    split at hmem
    next => exact (List.mem_cons.mp hmem).resolve_left nofun
    next => exact hmem
  constructor
  case wellFormed =>
    rw [hcnx]
    exact storePending_wellFormed hs.wellFormed args.allocated (by simp)
  case pending =>
    intro req
    rw [hcnx, mem_storePending, hs.pending]
    simp only [ReqState.request]
    split
    next hallocated =>
      rw [unanswered_stored]
      simp only [hallocated, true_and]
      exact or_congr_left ⟨fun h => h.1, fun h => ⟨h, by rw [h]⟩⟩
    next hallocated => simp [hallocated]
  case answered =>
    intro req hreq
    rw [hfound] at hreq
    obtain ⟨hissued, hgone⟩ := hs.answered req hreq
    refine ⟨by omega, fun slot req' hreq' => ?_⟩
    rw [hcnx] at hreq'
    rcases (mem_storePending slot).mp hreq' with ⟨-, rfl, -⟩ | hreq'
    · have hnew : req.id < s.cnx.lastReq + 1 := by omega
      exact hnew.ne'
    · exact hgone slot req' hreq'
  case once =>
    rw [hfound]
    exact hs.once
  case found =>
    intro since response found call' before heq
    simp only [ReqState.request] at heq
    split at heq
    next =>
      cases since with
      | nil => exact absurd (List.cons.inj heq).1 nofun
      | cons e since => exact hs.found since response found call' before (List.cons.inj heq).2
    next => exact hs.found since response found call' before heq
  case called =>
    exact fun response found call' hmem =>
      hs.called response found call' (hreceived response found call' hmem)

theorem inv_receive (hs : s.Inv) (response : WcResponse) : (s.receive response).Inv := by
  have hfound : ∀ req, (wcDatasyncReqGetPending response.r s.cnx).1 = some req ↔
      req ∈ s.cnx.pendingReqTable (pendingReqHash response.r) ∧ req.id = response.r :=
    fun req => getPending_found hs.wellFormed
  have hunanswered : ∀ req, (wcDatasyncReqGetPending response.r s.cnx).1 = some req ↔
      Unanswered s.log req ∧ req.id = response.r := by
    intro req
    rw [hfound, ← hs.pending]
    exact and_congr_left fun hid => by rw [hid]
  have hremoved : ∀ slot req, req ∈ (s.receive response).cnx.pendingReqTable slot ↔
      req ∈ s.cnx.pendingReqTable slot ∧ req.id ≠ response.r := by
    intro slot req
    rw [receive_cnx, getPending_table hs.wellFormed, List.mem_filter, decide_eq_true_iff]
  have hlast : (s.receive response).cnx.lastReq = s.cnx.lastReq := by
    rw [receive_cnx, getPending_lastReq]
  constructor
  case wellFormed =>
    rw [receive_cnx]
    exact getPending_wellFormed hs.wellFormed response.r
  case pending =>
    intro req
    rw [hremoved, hs.pending, receive_log, unanswered_received]
  case answered =>
    intro req hreq
    rw [receive_log, List.filterMap_cons, ReqEvent.found] at hreq
    have hcases : (wcDatasyncReqGetPending response.r s.cnx).1 = some req ∨
        req ∈ s.log.filterMap ReqEvent.found := by
      split at hreq
      next => exact .inr hreq
      next req' heq =>
        rcases List.mem_cons.mp hreq with rfl | hreq
        · exact .inl heq
        · exact .inr hreq
    rw [hlast]
    rcases hcases with hsome | hreq
    · obtain ⟨hmem, hid⟩ := (hfound req).mp hsome
      exact ⟨hs.wellFormed.issued _ req hmem,
        fun slot req' hreq' => hid ▸ ((hremoved slot req').mp hreq').2⟩
    · obtain ⟨hissued, hgone⟩ := hs.answered req hreq
      exact ⟨hissued, fun slot req' hreq' => hgone slot req' ((hremoved slot req').mp hreq').1⟩
  case once =>
    rw [receive_log, List.filterMap_cons, ReqEvent.found]
    split
    next => exact hs.once
    next req heq =>
      rw [List.map_cons, List.nodup_cons]
      refine ⟨fun hmem => ?_, hs.once⟩
      obtain ⟨req', hreq', hid⟩ := List.mem_map.mp hmem
      exact (hs.answered req' hreq').2 _ req ((hfound req).mp heq).1 hid.symm
  case found =>
    intro since response' found call before heq
    rw [receive_log] at heq
    cases since with
    | nil =>
        obtain ⟨hevent, rfl⟩ := List.cons.inj heq
        injection hevent with hresponse hsome
        subst hresponse hsome
        exact hunanswered
    | cons e since => exact hs.found since response' found call before (List.cons.inj heq).2
  case called =>
    intro response' found call hmem
    rw [receive_log] at hmem
    rcases List.mem_cons.mp hmem with heq | hmem
    · injection heq with hresponse hsome hcall
      rw [hcall, hsome, hresponse]
    · exact hs.called response' found call hmem

theorem inv_run (hs : s.Inv) (run : ReqRun Cb User) : (s.run run).Inv := by
  induction run generalizing s with
  | done => exact hs
  | request call args next ih => exact ih (inv_request hs call args)
  | response response during next ihDuring ih =>
      rw [ReqState.run]
      split
      next => exact ih (ihDuring (inv_receive hs response))
      next => exact ih (inv_receive hs response)

end Run

/-- **Matching of responses.** Over every run, responses call the callbacks of
the requests that await them, each once. -/
theorem responses_match_requests (run : ReqRun Cb User) : RequestsMatched (reqStart.run run) := by
  have hs : (reqStart.run run).Inv := inv_run inv_start run
  constructor
  case found => exact hs.found
  case called => exact hs.called
  case once => exact hs.once
  case pending =>
    intro req
    rw [← hs.pending]
    constructor
    · rintro ⟨slot, hreq⟩
      rw [hs.wellFormed.slots slot req hreq]
      exact hreq
    · exact fun hreq => ⟨_, hreq⟩
  case removed =>
    intro response slot
    rw [receive_cnx]
    exact getPending_table hs.wellFormed response.r slot

/-- The numbers 1 and 257 share a slot. -/
example : ((wcDatasyncReqGetPending 1 (wcReqStorePending true ⟨257, .put, some true, ()⟩
    (wcReqStorePending true ⟨1, .listen, some false, ()⟩ ⟨257, fun _ => []⟩))).1.map (·.type)) =
    some .listen := by decide

end WebcomSdk.Datasync.Requests
