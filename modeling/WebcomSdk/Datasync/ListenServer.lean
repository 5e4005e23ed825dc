import WebcomSdk.Datasync.ListenOverlap
import WebcomSdk.Datasync.ListenAnswers

/-!
The client and its server. The server takes the listen and unlisten requests of
a connection in the order they are sent and answers the listen requests; an
answer arrives at any later time. What it listens to and what is active at the
client are the same when no answer is on its way, unless an item is asked for a
second time before its first answer.
-/

namespace WebcomSdk.Datasync

open WebcomSdk.Lib WebcomSdk.Collection Std

/-- A client, what its server listens to, and the listen requests whose answers
are on their way. -/
structure World where
  client : ListenTrace
  server : List Path
  inflight : List ℕ
  deriving Repr, DecidableEq

def World.start : World := ⟨.start, [], []⟩

/-- The requests that an operation sends, in order. -/
def sentBetween (ctx ctx' : ListenCtx) : List WcActionTrans :=
  (ctx'.pendingReqTable.filter fun req => ctx.reqnum < req.id).reverse

/-- A request is taken by the server; `accept` is its answer to each listen
request. -/
def serve (accept : ℕ → Bool) (server : List Path) (req : WcActionTrans) : List Path :=
  match req.type with
  | .listen => if accept req.id then server.insert req.path else server
  | .unlisten => server.filter fun p => p ≠ req.path

/-- The client gets to another state; what it sends reaches the server when it is
connected (`wc_datasync_send_msg`). -/
def World.advance (accept : ℕ → Bool) (w : World) (client : ListenTrace) : World :=
  let sent := if client.ctx.state = .connected then sentBetween w.client.ctx client.ctx else []
  { client
    server := sent.foldl (serve accept) w.server
    inflight := w.inflight ++ (sent.filter fun req => req.type = .listen).map WcActionTrans.id }

/-- An answer takes its request out of the table; it is written unless the item
it is for was removed. -/
def ListenTrace.answer (keyCmp : Key → Key → Ordering) (id : ℕ) (ok : Bool) (s : ListenTrace) :
    ListenTrace :=
  if id ∈ s.stale then
    { s with ctx.pendingReqTable := s.ctx.pendingReqTable.eraseP fun t => t.id = id }
  else { s with ctx := wcDatasyncReqResponseDispatch keyCmp id ok s.ctx }

/-- One operation of the client or its connection. A lost connection loses what
is on its way, and the server forgets the client. Messages arrive on a
connection, answers once the server takes requests. -/
def World.step (keyCmp : Key → Key → Ordering) (accept : ℕ → Bool) (w : World) :
    ListenOp → Option World
  | .cnxLost => (w.client.step keyCmp .cnxLost).map fun client => ⟨client, [], []⟩
  | .handshake =>
      if w.client.ctx.state = .connecting ∨ w.client.ctx.state = .connected then
        (w.client.step keyCmp .handshake).map (w.advance accept)
      else none
  | .response id ok =>
      if id ∈ w.inflight ∧ ok = accept id ∧ w.client.ctx.state = .connected then
        some ⟨w.client.answer keyCmp id ok, w.server, w.inflight.filter fun i => i ≠ id⟩
      else none
  | op => (w.client.step keyCmp op).map (w.advance accept)

/-- The answer to a request for a registered item is on its way. -/
def World.Awaited (w : World) (req : WcActionTrans) : Prop :=
  req ∈ w.client.ctx.pendingReqTable ∧ req.id ∈ w.inflight ∧ req.id ∉ w.client.stale

instance (w : World) (req : WcActionTrans) : Decidable (w.Awaited req) :=
  inferInstanceAs (Decidable (_ ∧ _ ∧ _))

/-- The item at the address waits for an answer. -/
def World.Awaits (w : World) (a : Addr) : Prop :=
  ∃ req ∈ w.client.ctx.pendingReqTable, w.Awaited req ∧ req.user = some a

instance (w : World) (a : Addr) : Decidable (w.Awaits a) :=
  inferInstanceAs (Decidable (∃ req ∈ w.client.ctx.pendingReqTable, _))

/-- No item is asked for again while it waits for an answer: none that a removal
unmasks, and none that another handshake on the same connection resumes. -/
def NoSecondListen (keyCmp : Key → Key → Ordering) (w : World) : ListenOp → Prop
  | .unwatchEx p refDec =>
      w.client.ctx.state = .connected →
        ∀ li ∈ w.client.ctx.item keyCmp p, li.ref ≤ refDec →
          ∀ m ∈ w.client.ctx.list.toList, m.2.status = .masked → w.client.ctx.Unmasked p m.1 →
            ¬ w.Awaits m.2.addr
  | .handshake =>
      ∀ e ∈ w.client.ctx.list.toList, e.2.status = .required ∨ e.2.status = .pending →
        ¬ w.Awaits e.2.addr
  | _ => True

instance (keyCmp : Key → Key → Ordering) (w : World) (op : ListenOp) :
    Decidable (NoSecondListen keyCmp w op) :=
  match op with
  | .unwatchEx p _ => inferInstanceAs (Decidable (_ → ∀ li ∈ w.client.ctx.item keyCmp p, _))
  | .handshake => inferInstanceAs (Decidable (∀ e ∈ w.client.ctx.list.toList, _))
  | .response _ _ | .watch _ _ | .cnxLost | .connect | .closeCnx =>
      inferInstanceAs (Decidable True)

/-- The server listens to the paths whose items are active, if the client is
connected and waits for no answer. -/
def World.Agrees (w : World) : Prop :=
  w.client.ctx.state = .connected → w.inflight = [] →
    ∀ p, p ∈ w.server ↔ ∃ e ∈ w.client.ctx.list.toList, e.1 = p ∧ e.2.status = .active

section Agreement

variable {keyCmp : Key → Key → Ordering} {accept : ℕ → Bool} {ctx ctx' : ListenCtx} {w w' : World}

/-! ### What is sent -/

theorem sentBetween_eq (new : List WcActionTrans)
    (hle : ∀ req ∈ ctx.pendingReqTable, req.id ≤ ctx.reqnum)
    (hreqs : ctx'.pendingReqTable = new ++ ctx.pendingReqTable)
    (hnew : ∀ req ∈ new, ctx.reqnum < req.id) : sentBetween ctx ctx' = new.reverse := by
  have hold : (ctx.pendingReqTable.filter fun req => ctx.reqnum < req.id) = [] := by
    refine List.filter_eq_nil_iff.mpr fun req hreq => ?_
    simpa using hle req hreq
  rw [sentBetween, hreqs, List.filter_append, hold, List.append_nil,
    List.filter_eq_self.mpr fun req hreq => decide_eq_true (hnew req hreq)]

/-- New requests are numbered on and put before the old ones. -/
def Sends (ctx ctx' : ListenCtx) : Prop :=
  ctx.reqnum ≤ ctx'.reqnum ∧ ∃ new, ctx'.pendingReqTable = new ++ ctx.pendingReqTable ∧
    ∀ req ∈ new, ctx.reqnum < req.id

theorem Moves.sends {ps : List Path} (run : Moves keyCmp ps ctx ctx') : Sends ctx ctx' := by
  induction run with
  | refl => exact ⟨le_rfl, [], rfl, fun req hreq => absurd hreq List.not_mem_nil⟩
  | step run move ih =>
      obtain ⟨hle, new, hreqs, hnew⟩ := ih
      cases move with
      | quiet => exact ⟨hle, new, hreqs, hnew⟩
      | listen =>
          refine ⟨Nat.le_succ_of_le hle, _ :: new, congrArg _ hreqs, ?_⟩
          exact List.forall_mem_cons.mpr ⟨Nat.lt_succ_of_le hle, hnew⟩
      | unlisten =>
          refine ⟨Nat.le_succ_of_le hle, _ :: new, congrArg _ hreqs, ?_⟩
          exact List.forall_mem_cons.mpr ⟨Nat.lt_succ_of_le hle, hnew⟩

/-- Sending in two goes. -/
theorem advance_advance (accept : ℕ → Bool) {stale : List ℕ} (stale' : List ℕ)
    {ctx'' : ListenCtx} (h : w.client.Tracked keyCmp)
    (h' : ListenTrace.Tracked keyCmp ⟨ctx', stale⟩) (hsends : Sends w.client.ctx ctx')
    (hsends' : Sends ctx' ctx'') (hstate' : ctx'.state = .connected)
    (hstate'' : ctx''.state = .connected) :
    (w.advance accept ⟨ctx', stale⟩).advance accept ⟨ctx'', stale'⟩ =
      w.advance accept ⟨ctx'', stale'⟩ := by
  obtain ⟨hle, new, hreqs, hnew⟩ := hsends
  obtain ⟨-, new', hreqs', hnew'⟩ := hsends'
  have hsent := sentBetween_eq _ h.id_le hreqs hnew
  have hsent' := sentBetween_eq _ h'.id_le hreqs' hnew'
  have hboth : sentBetween w.client.ctx ctx'' = new.reverse ++ new'.reverse := by
    rw [← List.reverse_append]
    refine sentBetween_eq _ h.id_le (by rw [hreqs', hreqs, List.append_assoc]) fun req hreq => ?_
    rcases List.mem_append.mp hreq with hreq | hreq
    · exact hle.trans_lt (hnew' req hreq)
    · exact hnew req hreq
  simp only [World.advance, hstate', hstate'', if_true, hsent, hsent', hboth, List.foldl_append,
    List.filter_append, List.map_append, List.append_assoc]

/-! ### Agreement about one path -/

/-- What holds of a path in a connected client: its item is active exactly when
the server listens, or it waits for the one answer that says so. -/
inductive World.PathInStep (keyCmp : Key → Key → Ordering) (accept : ℕ → Bool) (w : World)
    (p : Path) : Prop
  | settled (hnone : ∀ req, w.Awaited req → req.path ≠ p)
      (hserver : p ∈ w.server ↔ ∃ li, w.client.ctx.item keyCmp p = some li ∧ li.status = .active)
  | waiting {req : WcActionTrans} {li : ListenItem} (hreq : w.Awaited req) (hpath : req.path = p)
      (hone : ∀ req', w.Awaited req' → req'.path = p → req' = req)
      (hitem : w.client.ctx.item keyCmp p = some li) (huser : req.user = some li.addr)
      (hst : li.status = .pending ∨ li.status = .masked)
      (hserver : p ∈ w.server ↔ accept req.id = true)

/-- A connected client in step with its server. -/
structure World.InStep (keyCmp : Key → Key → Ordering) (accept : ℕ → Bool) (w : World) :
    Prop where
  tracked : w.client.Tracked keyCmp
  sent : ∀ id ∈ w.inflight, id ≤ w.client.ctx.reqnum
  path : ∀ p, w.PathInStep keyCmp accept p

theorem World.PathInStep.congr {p : Path} (h : w.PathInStep keyCmp accept p)
    (hawaited : ∀ req, req.path = p → (w'.Awaited req ↔ w.Awaited req))
    (hitem : w'.client.ctx.item keyCmp p = w.client.ctx.item keyCmp p)
    (hserver : p ∈ w'.server ↔ p ∈ w.server) : w'.PathInStep keyCmp accept p := by
  cases h with
  | settled hnone hactive =>
      refine .settled (fun req hreq hpath => ?_) ?_
      · exact hnone req ((hawaited req hpath).mp hreq) hpath
      · rw [hserver, hactive, hitem]
  | waiting hreq hpath hone hli huser hst hok =>
      refine .waiting ((hawaited _ hpath).mpr hreq) hpath (fun req' hreq' hpath' => ?_)
        (hitem.trans hli) huser hst (hserver.trans hok)
      exact hone req' ((hawaited req' hpath').mp hreq') hpath'

theorem World.PathInStep.server_iff {p : Path} {li : ListenItem}
    (h : w.PathInStep keyCmp accept p) (hitem : w.client.ctx.item keyCmp p = some li)
    (hst : li.status ≠ .pending ∧ li.status ≠ .masked) :
    (∀ req, w.Awaited req → req.path ≠ p) ∧ (p ∈ w.server ↔ li.status = .active) := by
  cases h with
  | settled hnone hserver =>
      refine ⟨hnone, hserver.trans ?_⟩
      simp [hitem]
  | waiting hreq hpath hone hli huser hst' hok =>
      obtain rfl := Option.some.inj (hitem.symm.trans hli)
      rcases hst' with hst' | hst'
      · exact absurd hst' hst.1
      · exact absurd hst' hst.2

/-! ### Moves -/

theorem mem_serve_listen {server : List Path} {p q : Path} {id : ℕ} {user : Option Addr} :
    q ∈ serve accept server ⟨id, .listen, p, user⟩ ↔ q ∈ server ∨ (q = p ∧ accept id = true) := by
  rw [serve]
  dsimp only
  split
  next hok => simp [hok, or_comm]
  next hno => simp [hno]

theorem mem_serve_unlisten {server : List Path} {p q : Path} {id : ℕ} {user : Option Addr} :
    q ∈ serve accept server ⟨id, .unlisten, p, user⟩ ↔ q ∈ server ∧ q ≠ p := by
  simp [serve]

theorem advance_quiet (ctx' : ListenCtx) (stale : List ℕ)
    (hsent : sentBetween w.client.ctx ctx' = []) :
    w.advance accept ⟨ctx', stale⟩ = ⟨⟨ctx', stale⟩, w.server, w.inflight⟩ := by
  simp [World.advance, hsent]

theorem advance_sent (accept : ℕ → Bool) (ctx' : ListenCtx) (stale : List ℕ) {req : WcActionTrans}
    (hle : ∀ req ∈ w.client.ctx.pendingReqTable, req.id ≤ w.client.ctx.reqnum)
    (hstate : ctx'.state = .connected) (hid : req.id = w.client.ctx.reqnum + 1)
    (hreqs : ctx'.pendingReqTable = req :: w.client.ctx.pendingReqTable) :
    w.advance accept ⟨ctx', stale⟩ = ⟨⟨ctx', stale⟩, serve accept w.server req,
      w.inflight ++ if req.type = .listen then [req.id] else []⟩ := by
  have hsent : sentBetween w.client.ctx ctx' = [req] := by
    refine sentBetween_eq [req] hle hreqs fun req' hreq' => ?_
    rw [List.mem_singleton.mp hreq', hid]
    exact Nat.lt_succ_self _
  simp only [World.advance, if_pos hstate, hsent, List.foldl_cons, List.foldl_nil]
  by_cases htype : req.type = .listen <;> simp [htype]

theorem World.InStep.of_path (h : w.InStep keyCmp accept) (htracked : w'.client.Tracked keyCmp)
    (hsent : ∀ id ∈ w'.inflight, id ≤ w'.client.ctx.reqnum) {p : Path}
    (hawaited : ∀ req, req.path ≠ p → (w'.Awaited req ↔ w.Awaited req))
    (hitem : ∀ q, q ≠ p → w'.client.ctx.item keyCmp q = w.client.ctx.item keyCmp q)
    (hserver : ∀ q, q ≠ p → (q ∈ w'.server ↔ q ∈ w.server))
    (hp : w'.PathInStep keyCmp accept p) : w'.InStep keyCmp accept := by
  refine ⟨htracked, hsent, fun q => ?_⟩
  rcases eq_or_ne q p with rfl | hq
  · exact hp
  · apply (h.path q).congr
    · exact fun req hreq => hawaited req (hreq ▸ hq)
    · exact hitem q hq
    · exact hserver q hq

variable [TransCmp keyCmp] [LawfulEqCmp keyCmp]

theorem item_setStatus_self (hwf : ctx.WellFormed keyCmp) {p : Path} {li : ListenItem}
    (hp : ctx.item keyCmp p = some li) (s : ListenStatus) :
    (setStatus keyCmp p s ctx).item keyCmp p = some { li with status := s } := by
  rw [item_setStatus hwf, hp, Option.map_some, if_pos rfl]

theorem item_setStatus_of_ne (hwf : ctx.WellFormed keyCmp) {p q : Path} (hq : q ≠ p)
    (s : ListenStatus) : (setStatus keyCmp p s ctx).item keyCmp q = ctx.item keyCmp q := by
  rw [item_setStatus hwf]
  simp [hq]

/-- Masking an item that waits, or is about to be asked for. -/
theorem World.InStep.quiet (h : w.InStep keyCmp accept) {p : Path} {li : ListenItem}
    (hitem : w.client.ctx.item keyCmp p = some li)
    (hst : li.status = .pending ∨ li.status = .required) :
    World.InStep keyCmp accept
      ⟨⟨setStatus keyCmp p .masked w.client.ctx, w.client.stale⟩, w.server, w.inflight⟩ := by
  have hwf : w.client.ctx.WellFormed keyCmp := h.tracked.wellFormed
  have hself := item_setStatus_self hwf hitem .masked
  have hmove : Move keyCmp [] w.client.ctx (setStatus keyCmp p .masked w.client.ctx) :=
    .quiet hitem (by decide) fun _ => ⟨hst, rfl⟩
  apply h.of_path (p := p)
  · exact h.tracked.move hmove
  · exact h.sent
  · exact fun _ _ => Iff.rfl
  · exact fun q hq => item_setStatus_of_ne hwf hq _
  · exact fun _ _ => Iff.rfl
  · cases h.path p with
    | settled hnone hserver =>
        refine .settled hnone (hserver.trans ?_)
        rw [hitem, hself]
        rcases hst with hst | hst <;> simp [hst]
    | waiting hreq hpath hone hli huser _ hok =>
        obtain rfl := Option.some.inj (hitem.symm.trans hli)
        exact .waiting hreq hpath hone hself huser (.inr rfl) hok

/-- Asking for an item that waits for no answer. -/
theorem World.InStep.listen (h : w.InStep keyCmp accept)
    (hstate : w.client.ctx.state = .connected) {p : Path} {li : ListenItem}
    (hitem : w.client.ctx.item keyCmp p = some li) (hst : li.status ≠ .active)
    (hfree : ∀ req, w.Awaited req → req.path ≠ p) :
    let ctx' := wcDatasyncListen p li.addr (setStatus keyCmp p .pending w.client.ctx)
    let req₀ : WcActionTrans := ⟨w.client.ctx.reqnum + 1, .listen, p, some li.addr⟩
    let w' : World := ⟨⟨ctx', w.client.stale⟩, serve accept w.server req₀, w.inflight ++ [req₀.id]⟩
    w'.InStep keyCmp accept ∧ ∀ req, w'.Awaited req ↔ w.Awaited req ∨ req = req₀ := by
  intro ctx' req₀ w'
  have hwf : w.client.ctx.WellFormed keyCmp := h.tracked.wellFormed
  have hmove : Move keyCmp [p] w.client.ctx ctx' :=
    .listen hitem List.mem_cons_self hstate hst
  have hfresh : req₀.id ∉ w.client.stale := fun hid =>
    Nat.not_succ_le_self _ (h.tracked.stale_le _ hid)
  have hawaited : ∀ req, w'.Awaited req ↔ w.Awaited req ∨ req = req₀ := by
    intro req
    constructor
    · rintro ⟨hreq, hid, hstale⟩
      rcases List.mem_cons.mp hreq with rfl | hreq
      · exact .inr rfl
      · refine .inl ⟨hreq, ?_, hstale⟩
        rcases List.mem_append.mp hid with hid | hid
        · exact hid
        · have hle := h.tracked.id_le req hreq
          rw [List.mem_singleton.mp hid] at hle
          exact absurd hle (Nat.not_succ_le_self _)
    · rintro (⟨hreq, hid, hstale⟩ | rfl)
      · exact ⟨List.mem_cons_of_mem _ hreq, List.mem_append_left _ hid, hstale⟩
      · exact ⟨List.mem_cons_self, List.mem_append_right _ List.mem_cons_self, hfresh⟩
  refine ⟨?_, hawaited⟩
  apply h.of_path (p := p)
  · exact h.tracked.move hmove
  · intro id hid
    rcases List.mem_append.mp hid with hid | hid
    · exact Nat.le_succ_of_le (h.sent id hid)
    · exact (List.mem_singleton.mp hid).le
  · intro req hreq
    rw [hawaited, or_iff_left]
    rintro rfl
    exact hreq rfl
  · exact fun q hq => item_setStatus_of_ne hwf hq _
  · intro q hq
    rw [mem_serve_listen, or_iff_left]
    exact fun hq' => hq hq'.1
  · have hnone : p ∉ w.server := by
      cases h.path p with
      | settled _ hserver =>
          rw [hserver, hitem]
          rintro ⟨lj, hj, hactive⟩
          exact hst (Option.some.inj hj ▸ hactive)
      | waiting hreq hpath => exact absurd hpath (hfree _ hreq)
    have hreq₀ : w'.Awaited req₀ := (hawaited req₀).mpr (.inr rfl)
    refine .waiting hreq₀ rfl (fun req hreq hpath => ?_)
      (item_setStatus_self hwf hitem .pending) rfl (.inl rfl) ?_
    · rcases (hawaited req).mp hreq with hreq | rfl
      · exact absurd hpath (hfree req hreq)
      · rfl
    · rw [mem_serve_listen, or_iff_right hnone]
      exact and_iff_right rfl

/-- Taking an active item back. -/
theorem World.InStep.unlisten (h : w.InStep keyCmp accept) {p : Path} {li : ListenItem}
    (hitem : w.client.ctx.item keyCmp p = some li) (hst : li.status = .active) :
    let ctx' := wcDatasyncUnlisten p (setStatus keyCmp p .masked w.client.ctx)
    let req₀ : WcActionTrans := ⟨w.client.ctx.reqnum + 1, .unlisten, p, none⟩
    let w' : World := ⟨⟨ctx', w.client.stale⟩, serve accept w.server req₀, w.inflight⟩
    w'.InStep keyCmp accept ∧ ∀ req, w'.Awaited req ↔ w.Awaited req := by
  intro ctx' req₀ w'
  have hwf : w.client.ctx.WellFormed keyCmp := h.tracked.wellFormed
  have hmove : Move keyCmp [] w.client.ctx ctx' := .unlisten hitem hst
  have hawaited : ∀ req, w'.Awaited req ↔ w.Awaited req := by
    intro req
    constructor
    · rintro ⟨hreq, hid, hstale⟩
      rcases List.mem_cons.mp hreq with rfl | hreq
      · exact absurd (h.sent _ hid) (Nat.not_succ_le_self _)
      · exact ⟨hreq, hid, hstale⟩
    · rintro ⟨hreq, hid, hstale⟩
      exact ⟨List.mem_cons_of_mem _ hreq, hid, hstale⟩
  refine ⟨?_, hawaited⟩
  apply h.of_path (p := p)
  · exact h.tracked.move hmove
  · exact fun id hid => Nat.le_succ_of_le (h.sent id hid)
  · exact fun req _ => hawaited req
  · exact fun q hq => item_setStatus_of_ne hwf hq _
  · intro q hq
    rw [mem_serve_unlisten, and_iff_left hq]
  · have hself := item_setStatus_self hwf hitem .masked
    have hsettled := (h.path p).server_iff hitem (by simp [hst])
    refine .settled (fun req hreq => hsettled.1 req ((hawaited req).mp hreq)) ?_
    rw [mem_serve_unlisten]
    refine iff_of_false (fun hq => hq.2 rfl) ?_
    rintro ⟨lj, hj, hactive⟩
    rw [← Option.some.inj (hself.symm.trans hj)] at hactive
    cases hactive

theorem World.InStep.move {ps : List Path} (h : w.InStep keyCmp accept)
    (hstate : w.client.ctx.state = .connected) (move : Move keyCmp ps w.client.ctx ctx')
    (hfree : ∀ p ∈ ps, ∀ req, w.Awaited req → req.path ≠ p) :
    let w' := w.advance accept ⟨ctx', w.client.stale⟩
    w'.InStep keyCmp accept ∧ ∀ req, w'.Awaited req → w.Awaited req ∨ req.path ∈ ps := by
  have hle := h.tracked.id_le
  cases move with
  | @quiet p li s hitem _ hmask =>
      obtain ⟨hst, rfl⟩ := hmask hstate
      have hnone : sentBetween w.client.ctx (setStatus keyCmp p .masked w.client.ctx) = [] :=
        sentBetween_eq [] hle rfl fun req hreq => absurd hreq List.not_mem_nil
      rw [advance_quiet (setStatus keyCmp p .masked w.client.ctx) w.client.stale hnone]
      exact ⟨h.quiet hitem hst, fun req hreq => .inl hreq⟩
  | @listen p li hitem hp _ hst =>
      rw [advance_sent accept
          (wcDatasyncListen p li.addr (setStatus keyCmp p .pending w.client.ctx))
        w.client.stale hle hstate rfl rfl]
      obtain ⟨hstep, hawaited⟩ := h.listen hstate hitem hst (hfree p hp)
      refine ⟨hstep, fun req hreq => ((hawaited req).mp hreq).imp_right ?_⟩
      rintro rfl
      exact hp
  | @unlisten p li hitem hst =>
      rw [advance_sent accept (wcDatasyncUnlisten p (setStatus keyCmp p .masked w.client.ctx))
        w.client.stale hle hstate rfl rfl]
      obtain ⟨hstep, hawaited⟩ := h.unlisten hitem hst
      simp only [reduceCtorEq, if_false, List.append_nil]
      exact ⟨hstep, fun req hreq => .inl ((hawaited req).mp hreq)⟩

/-- **Moves keep client and server in step** if they ask for no path that waits,
and for none twice. -/
theorem World.InStep.moves {ps : List Path} (h : w.InStep keyCmp accept)
    (hstate : w.client.ctx.state = .connected) (run : Moves keyCmp ps w.client.ctx ctx')
    (hnodup : ps.Nodup) (hfree : ∀ p ∈ ps, ∀ req, w.Awaited req → req.path ≠ p) :
    let w' := w.advance accept ⟨ctx', w.client.stale⟩
    w'.InStep keyCmp accept ∧ ∀ req, w'.Awaited req → w.Awaited req ∨ req.path ∈ ps := by
  obtain ⟨⟨ctx, stale⟩, server, inflight⟩ := w
  dsimp only at hstate run hfree ⊢
  induction run with
  | @refl ctx =>
      have hnone : sentBetween ctx ctx = [] :=
        sentBetween_eq [] h.tracked.id_le rfl fun req hreq => absurd hreq List.not_mem_nil
      rw [advance_quiet (w := ⟨⟨ctx, stale⟩, server, inflight⟩) ctx stale hnone]
      exact ⟨h, fun req hreq => .inl hreq⟩
  | @step ps qs ctx ctx' ctx'' run move ih =>
      obtain ⟨hps, hqs, hdisjoint⟩ := List.nodup_append.mp hnodup
      obtain ⟨hstep, hawaited⟩ := ih hps h hstate fun p hp => hfree p (List.mem_append_left _ hp)
      have hstate' : ctx'.state = .connected := run.state.trans hstate
      have hfree' : ∀ p ∈ qs, ∀ req,
          (World.advance accept ⟨⟨ctx, stale⟩, server, inflight⟩ ⟨ctx', stale⟩).Awaited req →
            req.path ≠ p := by
        rintro p hp req hreq rfl
        rcases hawaited req hreq with hreq | hmem
        · exact hfree req.path (List.mem_append_right _ hp) req hreq rfl
        · exact hdisjoint req.path hmem req.path hp rfl
      obtain ⟨hstep', hawaited'⟩ := hstep.move hstate' move hfree'
      have htwo := advance_advance accept (w := ⟨⟨ctx, stale⟩, server, inflight⟩)
        stale h.tracked hstep.tracked run.sends move.moves.sends hstate'
        (move.frame.1.trans hstate')
      rw [← htwo]
      refine ⟨hstep', fun req hreq => ?_⟩
      rw [List.mem_append]
      rcases hawaited' req hreq with hreq | hmem
      · exact (hawaited req hreq).imp_right .inl
      · exact .inr (.inr hmem)

/-! ### Operations of a connected client -/

theorem World.InStep.add (h : w.InStep keyCmp accept) (p : Path) {a : Addr}
    (ha : ¬ w.client.ctx.Live a) :
    World.InStep keyCmp accept ⟨⟨(listenRegistryAddEx keyCmp p a w.client.ctx).1, w.client.stale⟩,
      w.server, w.inflight⟩ := by
  have hwf : w.client.ctx.WellFormed keyCmp := h.tracked.wellFormed
  have htracked := h.tracked.add p ha
  obtain ⟨-, hnum, hreqs⟩ :=
    listenRegistryAddEx_frame keyCmp w.client.ctx p a
  obtain ⟨-, hitem, hnew⟩ := listenRegistryAddEx_spec hwf p a
  generalize listenRegistryAddEx keyCmp p a w.client.ctx = r at htracked hnum hreqs hitem hnew ⊢
  have hself : r.1.item keyCmp p = some r.2 := (hitem p).trans (if_pos rfl)
  have hawaited : ∀ req, World.Awaited ⟨⟨r.1, w.client.stale⟩, w.server, w.inflight⟩ req ↔
      w.Awaited req := by
    intro req
    rw [World.Awaited, World.Awaited, hreqs]
  apply h.of_path (p := p)
  · exact htracked
  · rw [hnum]
    exact h.sent
  · exact fun req _ => hawaited req
  · exact fun q hq => (hitem q).trans (if_neg hq)
  · exact fun _ _ => Iff.rfl
  · cases h.path p with
    | settled hnone hserver =>
        refine .settled (fun req hreq => hnone req ((hawaited req).mp hreq)) (hserver.trans ?_)
        rw [hself]
        cases hold : w.client.ctx.item keyCmp p with
        | none =>
            rw [hold] at hnew
            have hst : r.2.status ≠ .active := by
              rw [hnew]
              dsimp only
              split <;> decide
            simp [hst]
        | some lo =>
            rw [hold] at hnew
            rw [hnew]
            simp
    | waiting hreq hpath hone hli huser hst hok =>
        rw [hli] at hnew
        refine .waiting ((hawaited _).mpr hreq) hpath (fun req' hreq' => ?_) hself ?_ ?_ hok
        · exact hone req' ((hawaited req').mp hreq')
        · rw [hnew]
          exact huser
        · rw [hnew]
          exact hst

omit [TransCmp keyCmp] [LawfulEqCmp keyCmp] in
/-- Giving references back. -/
theorem World.InStep.count (h : w.InStep keyCmp accept)
    (htracked : ListenTrace.Tracked keyCmp ⟨ctx', w.client.stale⟩)
    (hframe : ctx' = { w.client.ctx with list := ctx'.list }) {f : Path → ListenItem → ListenItem}
    (hitem : ∀ q, ctx'.item keyCmp q = (w.client.ctx.item keyCmp q).map (f q))
    (hf : ∀ q li, (f q li).status = li.status ∧ (f q li).addr = li.addr) :
    World.InStep keyCmp accept ⟨⟨ctx', w.client.stale⟩, w.server, w.inflight⟩ := by
  have hawaited : ∀ req, World.Awaited ⟨⟨ctx', w.client.stale⟩, w.server, w.inflight⟩ req ↔
      w.Awaited req := by
    intro req
    rw [World.Awaited, hframe]
    exact Iff.rfl
  refine ⟨htracked, by rw [hframe]; exact h.sent, fun p => ?_⟩
  cases h.path p with
  | settled hnone hserver =>
      refine .settled (fun req hreq => hnone req ((hawaited req).mp hreq)) (hserver.trans ?_)
      rw [hitem]
      simp [hf]
  | waiting hreq hpath hone hli huser hst hok =>
      refine .waiting ((hawaited _).mpr hreq) hpath (fun req' hreq' => ?_)
        (by rw [hitem, hli, Option.map_some]) ?_ ?_ hok
      · exact hone req' ((hawaited req').mp hreq')
      · rw [(hf p _).2]
        exact huser
      · rw [(hf p _).1]
        exact hst

/-- The item of `p` is removed and the server is told. -/
theorem World.InStep.remove (h : w.InStep keyCmp accept) {p : Path} {li : ListenItem}
    (hp : w.client.ctx.item keyCmp p = some li) :
    let ctx' := wcDatasyncUnlisten p (w.client.ctx.without keyCmp p)
    let req₀ : WcActionTrans := ⟨w.client.ctx.reqnum + 1, .unlisten, p, none⟩
    let w' : World := ⟨⟨ctx', requestsFor w.client.ctx li.addr ++ w.client.stale⟩,
      serve accept w.server req₀, w.inflight⟩
    w'.InStep keyCmp accept ∧ ∀ req, w'.Awaited req → w.Awaited req := by
  intro ctx' req₀ w'
  have hwf : w.client.ctx.WellFormed keyCmp := h.tracked.wellFormed
  have htracked : w'.client.Tracked keyCmp := h.tracked.remove hp
  have hitem : ∀ q, ctx'.item keyCmp q = if q = p then none else w.client.ctx.item keyCmp q :=
    item_without hwf p
  have hpa : w.client.ctx.addr keyCmp p = some li.addr := by
    rw [ListenCtx.addr, hp, Option.map_some]
  have hawaited : ∀ req, w'.Awaited req → w.Awaited req := by
    rintro req ⟨hreq, hid, hstale⟩
    rw [List.mem_append, not_or] at hstale
    rcases List.mem_cons.mp hreq with rfl | hreq
    · exact absurd (h.sent _ hid) (Nat.not_succ_le_self _)
    · exact ⟨hreq, hid, hstale.2⟩
  refine ⟨?_, hawaited⟩
  apply h.of_path (p := p)
  · exact htracked
  · exact fun id hid => Nat.le_succ_of_le (h.sent id hid)
  · refine fun req hne => ⟨hawaited req, ?_⟩
    rintro ⟨hreq, hid, hstale⟩
    refine ⟨List.mem_cons_of_mem _ hreq, hid, ?_⟩
    rw [List.mem_append, not_or]
    refine ⟨fun hfor => ?_, hstale⟩
    -- a request sent for the item that goes is one for `p`
    obtain ⟨req', hreq', huser, heq⟩ := mem_requestsFor.mp hfor
    rw [h.tracked.eq_of_id_eq hreq' hreq heq] at huser
    exact hne (h.tracked.addr_inj _ p li.addr (h.tracked.owned req hreq hstale _ huser) hpa)
  · exact fun q hq => (hitem q).trans (if_neg hq)
  · intro q hq
    rw [mem_serve_unlisten, and_iff_left hq]
  · have hnone : ctx'.item keyCmp p = none := (hitem p).trans (if_pos rfl)
    refine .settled (fun req hreq hpath => ?_) ?_
    · cases h.path p with
      | settled hnone => exact hnone req (hawaited req hreq) hpath
      | waiting hreq' hpath' hone hli huser =>
          obtain rfl := hone req (hawaited req hreq) hpath
          have howned := htracked.owned req hreq.1 hreq.2.2 _ huser
          rw [ListenCtx.addr, hpath] at howned
          have hgone : w'.client.ctx.item keyCmp p = none := hnone
          rw [hgone] at howned
          cases howned
    · rw [mem_serve_unlisten]
      refine iff_of_false (fun hq => hq.2 rfl) ?_
      rintro ⟨lj, hj, -⟩
      have hgone : w'.client.ctx.item keyCmp p = none := hnone
      rw [hgone] at hj
      cases hj

/-- A request that is not stale is answered to the item it was sent for. -/
theorem answeredItem_eq {s : ListenTrace} (h : s.Tracked keyCmp) {req : WcActionTrans}
    (hreq : req ∈ s.ctx.pendingReqTable) {li : ListenItem} (huser : req.user = some li.addr)
    (hitem : s.ctx.item keyCmp req.path = some li) :
    answeredItem s.ctx req.id = some (req.path, li) := by
  have hmem := h.wellFormed.item_eq_some_iff.mp hitem
  have hsome : (s.ctx.list.toList.find? fun e => e.2.addr = li.addr).isSome :=
    List.find?_isSome.mpr ⟨(req.path, li), hmem, by simp⟩
  obtain ⟨⟨q, lq⟩, he⟩ := Option.isSome_iff_exists.mp hsome
  have hq := h.wellFormed.item_eq_some_iff.mpr (List.mem_of_find?_eq_some he)
  have haddr : lq.addr = li.addr := by simpa using List.find?_some he
  obtain rfl : q = req.path := by
    apply h.addr_inj q req.path li.addr
    · rw [ListenCtx.addr, hq, Option.map_some, haddr]
    · rw [ListenCtx.addr, hitem, Option.map_some]
  obtain rfl := Option.some.inj (hq.symm.trans hitem)
  rw [answeredItem, h.find?_eq hreq, Option.bind_some, huser, Option.bind_some, he]

/-- An answer takes the requests with its number out of those that are awaited. -/
theorem World.awaited_answered {ctx' : ListenCtx} {id : ℕ}
    (hreqs : ctx'.pendingReqTable = w.client.ctx.pendingReqTable.eraseP fun t => t.id = id)
    (req : WcActionTrans) :
    World.Awaited ⟨⟨ctx', w.client.stale⟩, w.server, w.inflight.filter fun i => i ≠ id⟩ req ↔
      w.Awaited req ∧ req.id ≠ id := by
  rw [World.Awaited, World.Awaited, hreqs, List.mem_filter, decide_eq_true_eq]
  constructor
  · rintro ⟨hreq, ⟨hid, hne⟩, hfresh⟩
    exact ⟨⟨List.mem_of_mem_eraseP hreq, hid, hfresh⟩, hne⟩
  · rintro ⟨⟨hreq, hid, hfresh⟩, hne⟩
    exact ⟨(List.mem_eraseP_of_neg (by simpa using hne)).mpr hreq, ⟨hid, hne⟩, hfresh⟩

/-- The answer to a request that is awaited. -/
theorem World.InStep.answer_awaited (h : w.InStep keyCmp accept) {req : WcActionTrans}
    (hreq : w.Awaited req) {ctx' : ListenCtx}
    (htracked : ListenTrace.Tracked keyCmp ⟨ctx', w.client.stale⟩)
    (hnum : ctx'.reqnum = w.client.ctx.reqnum)
    (hreqs : ctx'.pendingReqTable = w.client.ctx.pendingReqTable.eraseP fun t => t.id = req.id)
    (hlist : ∀ li, answeredItem w.client.ctx req.id = some (req.path, li) →
      ∀ q, ctx'.item keyCmp q =
        (setStatus keyCmp req.path (if accept req.id then .active else .failed)
          w.client.ctx).item keyCmp q) :
    World.InStep keyCmp accept
      ⟨⟨ctx', w.client.stale⟩, w.server, w.inflight.filter fun i => i ≠ req.id⟩ := by
  have hwf : w.client.ctx.WellFormed keyCmp := h.tracked.wellFormed
  cases h.path req.path with
  | settled hnone => exact absurd rfl (hnone req hreq)
  | @waiting req' li hreq' hpath hone hitem huser hst hok =>
      obtain rfl := hone req hreq rfl
      have hitem' := hlist li (answeredItem_eq h.tracked hreq.1 huser hitem)
      apply h.of_path (p := req.path)
      · exact htracked
      · exact fun i hi => hnum.symm ▸ h.sent i (List.mem_of_mem_filter hi)
      · intro req' hne
        rw [World.awaited_answered hreqs]
        refine and_iff_left_of_imp fun hreq' heq => hne ?_
        rw [h.tracked.eq_of_id_eq hreq'.1 hreq.1 heq]
      · exact fun q hq => (hitem' q).trans (item_setStatus_of_ne hwf hq _)
      · exact fun _ _ => Iff.rfl
      · refine .settled (fun req' hreq' hpath' => ?_) (hok.trans ?_)
        · obtain ⟨hreq', hne⟩ := (World.awaited_answered hreqs req').mp hreq'
          exact hne (congrArg WcActionTrans.id (hone req' hreq' hpath'))
        · rw [hitem', item_setStatus_self hwf hitem]
          split
          next hacc => simp [hacc]
          next hacc => simp [hacc]

/-- An answer settles its path. -/
theorem World.InStep.answer (h : w.InStep keyCmp accept) {id : ℕ} (hid : id ∈ w.inflight) :
    World.InStep keyCmp accept
      ⟨w.client.answer keyCmp id (accept id), w.server, w.inflight.filter fun i => i ≠ id⟩ := by
  have hwf : w.client.ctx.WellFormed keyCmp := h.tracked.wellFormed
  have hsent : ∀ i ∈ w.inflight.filter fun i => i ≠ id, i ≤ w.client.ctx.reqnum :=
    fun i hi => h.sent i (List.mem_of_mem_filter hi)
  rw [ListenTrace.answer]
  split
  next hstale =>
    refine ⟨h.tracked.mono hwf (fun _ => rfl) List.eraseP_sublist rfl (List.Subset.refl _)
      h.tracked.stale_le, hsent, fun p => (h.path p).congr (fun req _ => ?_) rfl Iff.rfl⟩
    rw [World.awaited_answered rfl]
    exact and_iff_left_of_imp fun hreq heq => hreq.2.2 (heq ▸ hstale)
  next hstale =>
    obtain ⟨hwf', haddr⟩ := addr_wcDatasyncReqResponseDispatch hwf id (accept id)
    obtain ⟨-, hnum, hreqs⟩ :=
      wcDatasyncReqResponseDispatch_frame keyCmp w.client.ctx id (accept id)
    have hlist := list_wcDatasyncReqResponseDispatch keyCmp w.client.ctx id (accept id)
    generalize wcDatasyncReqResponseDispatch keyCmp id (accept id) w.client.ctx = ctx'
      at hwf' haddr hnum hreqs hlist ⊢
    have htracked : ListenTrace.Tracked keyCmp ⟨ctx', w.client.stale⟩ := by
      apply h.tracked.mono hwf' haddr
      · rw [hreqs]
        exact List.eraseP_sublist
      · exact hnum
      · exact List.Subset.refl _
      · exact h.tracked.stale_le
    by_cases hwaits : ∃ req, w.Awaited req ∧ req.id = id
    · obtain ⟨req, hreq, rfl⟩ := hwaits
      refine h.answer_awaited hreq htracked hnum hreqs fun li hli q => ?_
      rw [hli] at hlist
      rw [ListenCtx.item, hlist, ListenCtx.item]
    · -- an answer that no item waits for
      have hnone : ∀ req ∈ w.client.ctx.pendingReqTable, req.id ≠ id := by
        rintro req hreq rfl
        exact hwaits ⟨req, ⟨hreq, hid, hstale⟩, rfl⟩
      have hfind : (w.client.ctx.pendingReqTable.find? fun t => t.id = id) = none :=
        List.find?_eq_none.mpr fun req hreq => by simpa using hnone req hreq
      rw [answeredItem, hfind] at hlist
      refine ⟨htracked, by rw [hnum]; exact hsent,
        fun p => (h.path p).congr (fun req _ => ?_) ?_ ?_⟩
      · rw [World.awaited_answered hreqs]
        exact and_iff_left_of_imp fun hreq => hnone req hreq.1
      · rw [ListenCtx.item, hlist, ListenCtx.item]
        rfl
      · exact Iff.rfl

/-! ### Operations without a connection -/

/-- No item is active. -/
def ListenCtx.NoneActive (keyCmp : Key → Key → Ordering) (ctx : ListenCtx) : Prop :=
  ∀ p li, ctx.item keyCmp p = some li → li.status ≠ .active

theorem noneActive_setStatus (hwf : ctx.WellFormed keyCmp) (h : ctx.NoneActive keyCmp) (p : Path)
    {s : ListenStatus} (hs : s ≠ .active) : (setStatus keyCmp p s ctx).NoneActive keyCmp := by
  intro q li hli
  rw [item_setStatus hwf] at hli
  obtain ⟨lq, hlq, rfl⟩ := Option.map_eq_some_iff.mp hli
  split
  · exact hs
  · exact h q lq hlq

theorem Moves.noneActive {ps : List Path} (run : Moves keyCmp ps ctx ctx')
    (hwf : ctx.WellFormed keyCmp) (hstate : ctx.state ≠ .connected)
    (h : ctx.NoneActive keyCmp) : ctx'.NoneActive keyCmp := by
  induction run with
  | refl => exact h
  | step run move ih =>
      have hnone := ih hwf hstate h
      have hwf' := run.wellFormed hwf
      have hstate' := run.state.symm ▸ hstate
      cases move with
      | @quiet p _ _ _ hs => exact noneActive_setStatus hwf' hnone p hs
      | listen _ _ hcnx => exact absurd hcnx hstate'
      | unlisten hitem hst => exact absurd hst (hnone _ _ hitem)

/-- A client without connection and a server that has forgotten it. -/
structure World.Idle (keyCmp : Key → Key → Ordering) (w : World) : Prop where
  server : w.server = []
  inflight : w.inflight = []
  noneActive : w.client.ctx.NoneActive keyCmp

omit [TransCmp keyCmp] [LawfulEqCmp keyCmp] in
/-- The handshake. -/
theorem World.Idle.inStep (h : w.Idle keyCmp) (htracked : w.client.Tracked keyCmp) :
    World.InStep keyCmp accept
      ⟨⟨{ w.client.ctx with state := .connected }, w.client.stale⟩, w.server, w.inflight⟩ := by
  refine ⟨htracked.state _, ?_, fun p => .settled (fun req hreq => ?_) ?_⟩
  · rw [h.inflight]
    exact fun id hid => absurd hid List.not_mem_nil
  · have hin : req.id ∈ w.inflight := hreq.2.1
    rw [h.inflight] at hin
    exact absurd hin List.not_mem_nil
  · rw [h.server]
    refine iff_of_false List.not_mem_nil ?_
    rintro ⟨li, hli, hst⟩
    exact h.noneActive p li hli hst

/-! ### Runs -/

/-- The invariant of a client and its server. -/
structure World.Consistent (keyCmp : Key → Key → Ordering) (accept : ℕ → Bool) (w : World) :
    Prop where
  tracked : w.client.Tracked keyCmp
  inStep : w.client.ctx.state = .connected → w.InStep keyCmp accept
  idle : w.client.ctx.state = .disconnected ∨ w.client.ctx.state = .connecting → w.Idle keyCmp

omit [TransCmp keyCmp] [LawfulEqCmp keyCmp] in
theorem advance_of_not_connected {client : ListenTrace} (hstate : client.ctx.state ≠ .connected) :
    w.advance accept client = { w with client } := by
  simp [World.advance, hstate]

omit [TransCmp keyCmp] [LawfulEqCmp keyCmp] in
theorem not_connected_of_idle {state : CnxState} (h : state = .disconnected ∨ state = .connecting) :
    state ≠ .connected := by
  rcases h with h | h <;> rw [h] <;> decide

/-- An operation that removes nothing. -/
theorem client_step_kept {s s' : ListenTrace} (h : s.Tracked keyCmp) {op : ListenOp}
    (hkeep : ∀ p li, ¬ Removes keyCmp s.ctx op p li) (hstep : s.step keyCmp op = some s') :
    ∃ ctx', s.ctx.step keyCmp op = some ctx' ∧ s' = ⟨ctx', s.stale⟩ := by
  obtain ⟨ctx', hctx, rfl⟩ := Option.map_eq_some_iff.mp hstep
  exact ⟨ctx', hctx, by rw [removedBetween_eq_nil h hkeep hctx, List.nil_append]⟩

omit [TransCmp keyCmp] [LawfulEqCmp keyCmp] in
theorem advance_congr (ctx₁ : ListenCtx) (stale : List ℕ) (client : ListenTrace)
    (hnum : ctx₁.reqnum = w.client.ctx.reqnum) :
    World.advance accept ⟨⟨ctx₁, stale⟩, w.server, w.inflight⟩ client =
      w.advance accept client := by
  simp only [World.advance, sentBetween, hnum]

omit [TransCmp keyCmp] [LawfulEqCmp keyCmp] in
theorem advance_self {stale : List ℕ} (h : w.client.Tracked keyCmp)
    (hreqs : ctx'.pendingReqTable = w.client.ctx.pendingReqTable) :
    w.advance accept ⟨ctx', stale⟩ = ⟨⟨ctx', stale⟩, w.server, w.inflight⟩ := by
  apply advance_quiet
  exact sentBetween_eq [] h.id_le hreqs fun req hreq => absurd hreq List.not_mem_nil

theorem noneActive_add (hwf : ctx.WellFormed keyCmp) (h : ctx.NoneActive keyCmp) (p : Path)
    (a : Addr) : (listenRegistryAddEx keyCmp p a ctx).1.NoneActive keyCmp := by
  obtain ⟨-, hitem, hnew⟩ := listenRegistryAddEx_spec hwf p a
  generalize listenRegistryAddEx keyCmp p a ctx = r at hitem hnew ⊢
  intro q li hli
  rw [hitem] at hli
  split at hli
  · obtain rfl := Option.some.inj hli
    rw [hnew]
    split
    · dsimp only
      split <;> decide
    next lo hlo => exact h p lo hlo
  · exact h q li hli

theorem watch_consistent (h : w.Consistent keyCmp accept) {path : Bytes} {addr : Addr}
    (hstep : w.step keyCmp accept (.watch path addr) = some w') :
    w'.Consistent keyCmp accept := by
  obtain ⟨client, hclient, rfl⟩ := Option.map_eq_some_iff.mp hstep
  have htracked := step_tracked h.tracked hclient
  obtain ⟨ctx', hctx, rfl⟩ := client_step_kept h.tracked (fun p li hrem => by cases hrem.2) hclient
  simp only [ListenCtx.step] at hctx
  split at hctx
  · cases hctx
  next hfresh =>
    obtain rfl := Option.some.inj hctx
    have hwf : w.client.ctx.WellFormed keyCmp := h.tracked.wellFormed
    have hlive : ¬ w.client.ctx.Live addr := by simpa [ListenCtx.Live] using hfresh
    have hmoves := wcDatasyncWatch_moves hwf path addr
    generalize wcDatasyncWatch keyCmp path addr w.client.ctx = ctx' at htracked hmoves ⊢
    generalize wcDatasyncPathParse path = p at hmoves
    obtain ⟨hstate₁, hnum₁, hreqs₁⟩ :=
      listenRegistryAddEx_frame keyCmp w.client.ctx p addr
    obtain ⟨hwf₁, hitem₁, -⟩ := listenRegistryAddEx_spec hwf p addr
    have hnone₁ := fun hnone => noneActive_add hwf hnone p addr
    have hadd := fun hstate => (h.inStep hstate).add p hlive
    generalize listenRegistryAddEx keyCmp p addr w.client.ctx = r
      at hmoves hstate₁ hnum₁ hreqs₁ hwf₁ hitem₁ hnone₁ hadd
    have hstate : ctx'.state = w.client.ctx.state := by
      rcases hmoves with ⟨run, -⟩ | rfl
      · exact run.state.trans hstate₁
      · exact hstate₁
    refine ⟨htracked, fun hcnx' => ?_, fun hidle' => ?_⟩
    · have hcnx : w.client.ctx.state = .connected := hstate.symm.trans hcnx'
      rcases hmoves with ⟨run, hst⟩ | rfl
      · rw [← advance_congr r.1 w.client.stale ⟨ctx', w.client.stale⟩ hnum₁]
        refine ((hadd hcnx).moves (hstate₁.trans hcnx) run (List.nodup_singleton p) ?_).1
        have hp := ((hadd hcnx).path p).server_iff ((hitem₁ p).trans (if_pos rfl))
          (by rcases hst with hst | hst <;> simp [hst])
        exact fun q hq => List.mem_singleton.mp hq ▸ hp.1
      · rw [advance_self h.tracked hreqs₁]
        exact hadd hcnx
    · have hne : ctx'.state ≠ .connected := not_connected_of_idle hidle'
      have hidle := h.idle (hstate ▸ hidle')
      rw [advance_of_not_connected hne]
      refine ⟨hidle.server, hidle.inflight, ?_⟩
      rcases hmoves with ⟨run, -⟩ | rfl
      · exact run.noneActive hwf₁ (run.state ▸ hne) (hnone₁ hidle.noneActive)
      · exact hnone₁ hidle.noneActive

omit [TransCmp keyCmp] [LawfulEqCmp keyCmp] in
theorem noneActive_map (h : ctx.NoneActive keyCmp) {f : Path → ListenItem → ListenItem}
    (hitem : ∀ q, ctx'.item keyCmp q = (ctx.item keyCmp q).map (f q))
    (hf : ∀ q li, li.status ≠ .active → (f q li).status ≠ .active) : ctx'.NoneActive keyCmp := by
  intro q li hli
  rw [hitem] at hli
  obtain ⟨lq, hlq, rfl⟩ := Option.map_eq_some_iff.mp hli
  exact hf q lq (h q lq hlq)

omit [TransCmp keyCmp] [LawfulEqCmp keyCmp] in
/-- An item for which no answer is on its way. -/
theorem World.PathInStep.free {p : Path} {li : ListenItem} (h : w.PathInStep keyCmp accept p)
    (hp : w.client.ctx.item keyCmp p = some li) (hnot : ¬ w.Awaits li.addr) {req : WcActionTrans}
    (hreq : w.Awaited req) : req.path ≠ p := by
  intro hpath
  cases h with
  | settled hnone => exact hnone req hreq hpath
  | waiting hreq' hpath' hone hli huser =>
      obtain rfl := hone req hreq hpath
      obtain rfl := Option.some.inj (hp.symm.trans hli)
      exact hnot ⟨req, hreq.1, hreq, huser⟩

/-- Nothing that the removal of the item of `p` unmasks waits for an answer. -/
theorem unmasked_free (h : w.InStep keyCmp accept) {p : Path} {li : ListenItem}
    (hp : w.client.ctx.item keyCmp p = some li) (hstate : w.client.ctx.state = .connected)
    (hok : NoSecondListen keyCmp w (.unwatchEx p li.ref)) {e : Path × ListenItem}
    (he : e ∈ unmaskedItems none (walkBelow keyCmp p (w.client.ctx.without keyCmp p).list))
    {req : WcActionTrans} (hreq : w.Awaited req) : req.path ≠ e.1 := by
  have hwf : w.client.ctx.WellFormed keyCmp := h.tracked.wellFormed
  have hitem := item_without hwf p
  obtain ⟨hmem, hst, habove, htopmost⟩ :=
    mem_unmaskedItems_walkBelow (hwf.without p) ((hitem p).trans (if_pos rfl)) he
  rw [hitem, if_neg habove.2.symm] at hmem
  refine (h.path e.1).free hmem (hok hstate li hp le_rfl e (hwf.item_eq_some_iff.mp hmem) hst
    ⟨habove, fun m hm hstm hpm => ?_⟩) hreq
  refine htopmost m.1 ⟨m.2, ?_, hstm⟩ hpm
  rw [hitem, if_neg hpm.2.symm]
  exact hwf.item_eq_some_iff.mpr hm

theorem unwatchEx_consistent (h : w.Consistent keyCmp accept) {p : Path} {n : ℕ}
    (hok : NoSecondListen keyCmp w (.unwatchEx p n))
    (hstep : w.step keyCmp accept (.unwatchEx p n) = some w') : w'.Consistent keyCmp accept := by
  obtain ⟨client, hclient, rfl⟩ := Option.map_eq_some_iff.mp hstep
  have htracked := step_tracked h.tracked hclient
  have hwf : w.client.ctx.WellFormed keyCmp := h.tracked.wellFormed
  by_cases hrem : ∃ q li, Removes keyCmp w.client.ctx (.unwatchEx p n) q li
  · obtain ⟨q, li, hrem⟩ := hrem
    obtain ⟨ctx', hctx, rfl⟩ := Option.map_eq_some_iff.mp hclient
    obtain ⟨heq, hstale, -, -⟩ := step_removed h.tracked hrem hctx
    obtain ⟨hp, hop⟩ := hrem
    obtain ⟨rfl, rfl⟩ := ListenOp.unwatchEx.inj hop
    rw [hstale] at htracked ⊢
    have hremoved := h.tracked.remove hp
    have hwf₁ : (wcDatasyncUnlisten p (w.client.ctx.without keyCmp p)).WellFormed keyCmp :=
      hwf.without p
    have run := unmaskListenRequest_moves hwf₁ p
    rw [← heq] at run
    refine ⟨htracked, fun hcnx' => ?_, fun hidle' => ?_⟩
    · have hcnx : w.client.ctx.state = .connected := run.state.symm.trans hcnx'
      obtain ⟨hstep, hawaited⟩ := (h.inStep hcnx).remove hp
      have hsends : Sends w.client.ctx (wcDatasyncUnlisten p (w.client.ctx.without keyCmp p)) :=
        ⟨Nat.le_succ _, [_], rfl, fun req hreq => by
          rw [List.mem_singleton.mp hreq]
          exact Nat.lt_succ_self _⟩
      have hfirst := advance_sent accept (w := w)
        (wcDatasyncUnlisten p (w.client.ctx.without keyCmp p))
        (requestsFor w.client.ctx li.addr ++ w.client.stale) h.tracked.id_le hcnx rfl rfl
      simp only [reduceCtorEq, if_false, List.append_nil] at hfirst
      rw [← advance_advance accept (requestsFor w.client.ctx li.addr ++ w.client.stale)
          h.tracked hremoved
        hsends run.sends hcnx hcnx', hfirst]
      refine (hstep.moves hcnx run (nodup_unmaskedItems hwf₁ p) fun q hq req hreq => ?_).1
      obtain ⟨e, he, rfl⟩ := List.mem_map.mp hq
      exact unmasked_free (h.inStep hcnx) hp hcnx hok he (hawaited req hreq)
    · have hne : ctx'.state ≠ .connected := not_connected_of_idle hidle'
      have hidle := h.idle (run.state ▸ hidle')
      rw [advance_of_not_connected hne]
      refine ⟨hidle.server, hidle.inflight, run.noneActive hwf₁ (run.state ▸ hne) ?_⟩
      intro q lq hlq
      have hitem : (w.client.ctx.without keyCmp p).item keyCmp q = some lq := hlq
      rw [item_without hwf] at hitem
      split at hitem
      · cases hitem
      · exact hidle.noneActive q lq hitem
  · simp only [not_exists] at hrem
    obtain ⟨ctx', hctx, rfl⟩ := client_step_kept h.tracked hrem hclient
    rcases wcDatasyncUnwatchEx_cases hwf hctx with
      ⟨-, rfl⟩ | ⟨li, -, -, hwf', heq, hitem⟩ | ⟨li, hp, rfl, -⟩
    · rw [advance_self h.tracked rfl]
      exact h
    · have hsame : ctx'.state = w.client.ctx.state := by rw [heq]
      rw [advance_self h.tracked (by rw [heq])]
      refine ⟨htracked, fun hcnx => ?_, fun hidle => ?_⟩
      · refine (h.inStep (hsame.symm.trans hcnx)).count htracked heq hitem fun q lq => ?_
        split <;> exact ⟨rfl, rfl⟩
      · have hidle := h.idle (hsame ▸ hidle)
        refine ⟨hidle.server, hidle.inflight, noneActive_map hidle.noneActive hitem ?_⟩
        intro q lq hst
        split <;> exact hst
    · exact absurd ⟨hp, rfl⟩ (hrem p li)

theorem handshake_consistent (h : w.Consistent keyCmp accept)
    (hok : NoSecondListen keyCmp w .handshake)
    (hstep : w.step keyCmp accept .handshake = some w') : w'.Consistent keyCmp accept := by
  simp only [World.step] at hstep
  split at hstep
  next hcnx =>
    obtain ⟨client, hclient, rfl⟩ := Option.map_eq_some_iff.mp hstep
    have htracked := step_tracked h.tracked hclient
    obtain ⟨ctx', hctx, rfl⟩ :=
      client_step_kept h.tracked (fun p li hrem => by cases hrem.2) hclient
    obtain rfl := Option.some.inj hctx
    have hwf₀ : ListenCtx.WellFormed keyCmp { w.client.ctx with state := .connected } :=
      h.tracked.wellFormed
    have run := wcListenResumeAll_moves hwf₀ rfl
    have hstep₀ : World.InStep keyCmp accept
        ⟨⟨{ w.client.ctx with state := .connected }, w.client.stale⟩, w.server, w.inflight⟩ := by
      rcases hcnx with hcnx | hcnx
      · exact (h.idle (.inr hcnx)).inStep h.tracked
      · have hsame : { w.client.ctx with state := .connected } = w.client.ctx := by rw [← hcnx]
        rw [hsame]
        exact h.inStep hcnx
    have hstate := run.state
    refine ⟨htracked, fun _ => ?_, fun hidle => ?_⟩
    · rw [← advance_congr { w.client.ctx with state := .connected } w.client.stale _ rfl]
      refine (hstep₀.moves rfl run (nodup_resumedPaths hwf₀) fun p hp req hreq => ?_).1
      obtain ⟨li, hli, hst⟩ := (mem_resumedPaths hwf₀).mp hp
      refine (hstep₀.path p).free hli ?_ hreq
      exact hok (p, li) (h.tracked.wellFormed.item_eq_some_iff.mp hli) hst
    · exact absurd hstate (not_connected_of_idle hidle)
  next => cases hstep

theorem cnxLost_consistent (h : w.Consistent keyCmp accept)
    (hstep : w.step keyCmp accept .cnxLost = some w') : w'.Consistent keyCmp accept := by
  rw [World.step] at hstep
  obtain ⟨client, hclient, rfl⟩ := Option.map_eq_some_iff.mp hstep
  have htracked := step_tracked h.tracked hclient
  obtain ⟨ctx', hctx, rfl⟩ := client_step_kept h.tracked (fun p li hrem => by cases hrem.2) hclient
  obtain rfl := Option.some.inj hctx
  have hwf₀ : ListenCtx.WellFormed keyCmp { w.client.ctx with state := .disconnected } :=
    h.tracked.wellFormed
  have hstate := (wcListenSuspendAll_moves hwf₀ rfl).state
  refine ⟨htracked, fun hcnx => ?_, fun _ => ⟨rfl, rfl, ?_⟩⟩
  · cases hstate.symm.trans hcnx
  · obtain ⟨-, hitem⟩ := rewrites_suspendItem.foldl_all hwf₀
    intro q lq hlq
    obtain ⟨⟨s, r, a⟩, -, rfl⟩ := Option.map_eq_some_iff.mp ((hitem q).symm.trans hlq)
    cases s <;> simp [ListenItem.rewritten, suspendHit]

theorem response_consistent (h : w.Consistent keyCmp accept) {id : ℕ} {ok : Bool}
    (hstep : w.step keyCmp accept (.response id ok) = some w') : w'.Consistent keyCmp accept := by
  simp only [World.step] at hstep
  split at hstep
  next hanswer =>
    obtain ⟨hid, rfl, hcnx⟩ := hanswer
    obtain rfl := Option.some.inj hstep
    have hstep := (h.inStep hcnx).answer hid
    refine ⟨hstep.tracked, fun _ => hstep, fun hidle => ?_⟩
    have hstate : (w.client.answer keyCmp id (accept id)).ctx.state = w.client.ctx.state := by
      rw [ListenTrace.answer]
      split
      · rfl
      · exact (wcDatasyncReqResponseDispatch_frame keyCmp w.client.ctx id (accept id)).1
    exact absurd (hstate.trans hcnx) (not_connected_of_idle hidle)
  next => cases hstep

/-- A change of the connection state that sends nothing. -/
theorem state_consistent (h : w.Consistent keyCmp accept) {op : ListenOp} {state : CnxState}
    (hop : w.step keyCmp accept op = (w.client.step keyCmp op).map (w.advance accept))
    (hctx : w.client.ctx.step keyCmp op = some { w.client.ctx with state })
    (hkeep : ∀ p li, ¬ Removes keyCmp w.client.ctx op p li) (hcnx : state ≠ .connected)
    (hidle : state = .connecting → w.client.ctx.state = .disconnected)
    (hdis : state ≠ .disconnected) (hstep : w.step keyCmp accept op = some w') :
    w'.Consistent keyCmp accept := by
  rw [hop] at hstep
  obtain ⟨client, hclient, rfl⟩ := Option.map_eq_some_iff.mp hstep
  obtain ⟨ctx', hctx', rfl⟩ := client_step_kept h.tracked hkeep hclient
  obtain rfl := Option.some.inj (hctx.symm.trans hctx')
  rw [advance_of_not_connected hcnx]
  refine ⟨h.tracked.state state, fun h' => absurd h' hcnx, fun h' => ?_⟩
  have hold := h.idle (.inl (hidle (h'.resolve_left hdis)))
  exact ⟨hold.server, hold.inflight, hold.noneActive⟩

theorem step_consistent (h : w.Consistent keyCmp accept) {op : ListenOp}
    (hok : NoSecondListen keyCmp w op) (hstep : w.step keyCmp accept op = some w') :
    w'.Consistent keyCmp accept := by
  have hstay : ∀ {op}, w.step keyCmp accept op = (w.client.step keyCmp op).map (w.advance accept) →
      w.client.ctx.step keyCmp op = some w.client.ctx → (∀ p n, op ≠ .unwatchEx p n) →
      w.step keyCmp accept op = some w' → w'.Consistent keyCmp accept := by
    intro op hop hctx hne hstep
    rw [hop] at hstep
    obtain ⟨client, hclient, rfl⟩ := Option.map_eq_some_iff.mp hstep
    obtain ⟨ctx', hctx', rfl⟩ :=
      client_step_kept h.tracked (fun p li hrem => hne p _ hrem.2) hclient
    obtain rfl := Option.some.inj (hctx.symm.trans hctx')
    rw [advance_self h.tracked rfl]
    exact h
  cases op with
  | watch path addr => exact watch_consistent h hstep
  | unwatchEx p n => exact unwatchEx_consistent h hok hstep
  | cnxLost => exact cnxLost_consistent h hstep
  | handshake => exact handshake_consistent h hok hstep
  | response id ok => exact response_consistent h hstep
  | connect =>
      by_cases hstate : w.client.ctx.state = .disconnected
      · have hctx : w.client.ctx.step keyCmp .connect =
            some { w.client.ctx with state := .connecting } := by
          rw [ListenCtx.step, if_pos hstate]
        exact state_consistent h rfl hctx (fun p li hrem => by cases hrem.2) (by decide)
          (fun _ => hstate) (by decide) hstep
      · have hctx : w.client.ctx.step keyCmp .connect = some w.client.ctx := by
          rw [ListenCtx.step, if_neg hstate]
        exact hstay rfl hctx (fun p n heq => by cases heq) hstep
  | closeCnx =>
      by_cases hstate : w.client.ctx.state = .connected ∨ w.client.ctx.state = .connecting
      · have hctx : w.client.ctx.step keyCmp .closeCnx =
            some { w.client.ctx with state := .disconnecting } := by
          rw [ListenCtx.step, if_pos hstate]
        exact state_consistent h rfl hctx (fun p li hrem => by cases hrem.2) (by decide)
          (fun heq => by cases heq) (by decide) hstep
      · have hctx : w.client.ctx.step keyCmp .closeCnx = some w.client.ctx := by
          rw [ListenCtx.step, if_neg hstate]
        exact hstay rfl hctx (fun p n heq => by cases heq) hstep

omit [TransCmp keyCmp] [LawfulEqCmp keyCmp] in
theorem consistent_start : World.start.Consistent keyCmp accept := by
  refine ⟨tracked_start, ?_, fun _ => ⟨rfl, rfl, ?_⟩⟩
  · intro hcnx
    cases hcnx
  · intro p li hli
    cases hli

/-- Under a total order client and server agree as long as no item is asked for
again before its answer. -/
theorem agrees_of_noSecondListen
    (run : Reach (World.step keyCmp accept) (NoSecondListen keyCmp) World.start w) :
    w.Agrees := by
  have h : w.Consistent keyCmp accept :=
    run.invariant consistent_start fun _ _ _ h hok hstep => step_consistent h hok hstep
  intro hcnx hquiet p
  have hwf : w.client.ctx.WellFormed keyCmp := h.tracked.wellFormed
  have hactive : (∃ e ∈ w.client.ctx.list.toList, e.1 = p ∧ e.2.status = .active) ↔
      ∃ li, w.client.ctx.item keyCmp p = some li ∧ li.status = .active := by
    simp only [hwf.item_eq_some_iff]
    constructor
    · rintro ⟨e, he, rfl, hst⟩
      exact ⟨e.2, he, hst⟩
    · rintro ⟨li, hli, hst⟩
      exact ⟨(p, li), hli, rfl, hst⟩
  rw [hactive]
  cases (h.inStep hcnx).path p with
  | settled _ hserver => exact hserver
  | waiting hreq =>
      have hin := hreq.2.1
      rw [hquiet] at hin
      exact absurd hin List.not_mem_nil

end Agreement

/-! ### The comparator of the library -/

section Keys

variable {S : Set Key} {cmp cmp' : Key → Key → Ordering} {accept : ℕ → Bool} {w : World}
  {op : ListenOp}

theorem noSecondListen_agree (hagree : AgreeOn S cmp cmp') (hop : op.KeysIn S)
    (h : PathsIn S w.client.ctx.list) : NoSecondListen cmp w op ↔ NoSecondListen cmp' w op := by
  cases op with
  | unwatchEx p refDec => rw [NoSecondListen, NoSecondListen, item_agree hagree hop h]
  | _ => exact Iff.rfl

theorem answer_agree (hagree : AgreeOn S cmp cmp') (id : ℕ) (ok : Bool) {s : ListenTrace}
    (h : PathsIn S s.ctx.list) :
    s.answer cmp id ok = s.answer cmp' id ok ∧ PathsIn S (s.answer cmp id ok).ctx.list := by
  obtain ⟨heq, hin⟩ := wcDatasyncReqResponseDispatch_agree hagree id ok h
  rw [ListenTrace.answer, ListenTrace.answer, ← heq]
  split
  · exact ⟨rfl, h⟩
  · exact ⟨rfl, hin⟩

theorem worldStep_agree (hagree : AgreeOn S cmp cmp') (hop : op.KeysIn S)
    (h : PathsIn S w.client.ctx.list) :
    w.step cmp accept op = w.step cmp' accept op ∧
      ∀ w' ∈ w.step cmp accept op, PathsIn S w'.client.ctx.list := by
  obtain ⟨heq, hin⟩ := traceStep_agree hagree hop h
  have hadvance : ∀ w' ∈ (w.client.step cmp op).map (w.advance accept),
      PathsIn S w'.client.ctx.list := by
    intro w' hw'
    obtain ⟨client, hclient, rfl⟩ := Option.map_eq_some_iff.mp hw'
    exact hin client hclient
  cases op with
  | response id ok =>
      obtain ⟨heq, hin⟩ := answer_agree hagree id ok h
      rw [World.step, World.step, ← heq]
      refine ⟨rfl, fun w' hw' => ?_⟩
      split at hw'
      · exact Option.some.inj hw' ▸ hin
      · cases hw'
  | cnxLost =>
      rw [World.step, World.step, ← heq]
      refine ⟨rfl, fun w' hw' => ?_⟩
      obtain ⟨client, hclient, rfl⟩ := Option.map_eq_some_iff.mp hw'
      exact hin client hclient
  | handshake =>
      rw [World.step, World.step, ← heq]
      refine ⟨rfl, fun w' hw' => ?_⟩
      split at hw'
      · exact hadvance w' hw'
      · cases hw'
  | _ => exact ⟨congrArg (Option.map (w.advance accept)) heq, hadvance⟩

/-- **Client and server agree** whenever a connected client waits for no answer,
in every run on strictly ordered keys in which no item is asked for again before
its answer, whatever the server answers and in whatever order the answers arrive. -/
theorem server_agrees_with_client (hS : StrictOn S) (accept : ℕ → Bool)
    (run : Reach (World.step wcDatasyncKeyOrd accept)
      (fun w op => NoSecondListen wcDatasyncKeyOrd w op ∧ op.KeysIn S) .start w) : w.Agrees := by
  have hagree := agreeOn_keyOrder hS
  obtain ⟨run', -⟩ : Reach (World.step keyOrder accept) (NoSecondListen keyOrder) .start w ∧
      PathsIn S w.client.ctx.list := by
    refine run.transfer (I := fun w => PathsIn S w.client.ctx.list) pathsIn_new
      fun w op w' h hok hstep => ?_
    obtain ⟨hsame, hin⟩ := worldStep_agree hagree hok.2 h
    exact ⟨(noSecondListen_agree hagree hok.2 h).mp hok.1, hsame ▸ hstep, hin w' hstep⟩
  exact agrees_of_noSecondListen run'

/-- `/a` takes over `/a/b`, is removed after its answer, and `/a/b` is asked for
again. -/
theorem server_agrees_with_client_taken_over :
    ∃ w, runSteps (World.step wcDatasyncKeyOrd fun _ => true)
        (fun w op => NoSecondListen wcDatasyncKeyOrd w op ∧ op.KeysIn stringKeys) .start
        [.connect, .handshake, .watch pathAB 1, .response 1 true, .watch pathA 2, .response 2 true,
          .unwatchEx (wcDatasyncPathParse pathA) 1, .response 5 true] = some w ∧ w.Agrees := by
  have hrun : ∃ w, runSteps (World.step wcDatasyncKeyOrd fun _ => true)
      (fun w op => NoSecondListen wcDatasyncKeyOrd w op ∧ op.KeysIn stringKeys) .start
      [.connect, .handshake, .watch pathAB 1, .response 1 true, .watch pathA 2, .response 2 true,
        .unwatchEx (wcDatasyncPathParse pathA) 1, .response 5 true] = some w := ⟨_, rfl⟩
  obtain ⟨w, hw⟩ := hrun
  exact ⟨w, hw, server_agrees_with_client strictOn_stringKeys _ (Reach.of_runSteps .start hw)⟩

/-- `/a/b` is masked and unmasked before its answer: it is asked for twice, and
the refusal of the second request hides that the first was accepted. -/
theorem second_listen_disagrees :
    ¬ ∀ (accept : ℕ → Bool) (w : World), Reach (World.step wcDatasyncKeyOrd accept)
      (fun _ op => op.KeysIn stringKeys) .start w → w.Agrees := by
  intro hall
  have hrun : ∃ w, runSteps (World.step wcDatasyncKeyOrd fun id => id = 1)
      (fun _ op => op.KeysIn stringKeys) .start
      [.connect, .handshake, .watch pathAB 1, .watch pathA 2,
        .unwatchEx (wcDatasyncPathParse pathA) 1, .response 1 true, .response 2 false,
        .response 4 false] = some w ∧ w.client.ctx.state = .connected ∧ w.inflight = [] ∧
      wcDatasyncPathParse pathAB ∈ w.server ∧
      ∀ e ∈ w.client.ctx.list.toList, e.2.status ≠ .active :=
    ⟨_, rfl, rfl, rfl, by decide, by decide⟩
  obtain ⟨w, hw, hcnx, hquiet, hserver, hnone⟩ := hrun
  obtain ⟨e, he, -, hst⟩ :=
    (hall _ w (Reach.of_runSteps .start hw) hcnx hquiet _).mp hserver
  exact hnone e he hst

end Keys

end WebcomSdk.Datasync
