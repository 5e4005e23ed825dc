import WebcomSdk.Datasync.ListenKeys
import WebcomSdk.Datasync.ListenMoves

/-!
Answers and the items they are written to. A pending request keeps the address
of its item, and nothing takes it out of the table when the item is removed: its
answer is then written to memory that was freed, and that a new item may own.
-/

namespace WebcomSdk.Datasync

open WebcomSdk.Lib WebcomSdk.Collection Std

/-- An item of the registry is at the address. -/
def ListenCtx.Live (ctx : ListenCtx) (a : Addr) : Prop := ∃ e ∈ ctx.list.toList, e.2.addr = a

instance (ctx : ListenCtx) (a : Addr) : Decidable (ctx.Live a) :=
  inferInstanceAs (Decidable (∃ e ∈ ctx.list.toList, _))

/-- The address that `on_listen_result` gets with the answer to request `id`. -/
def ListenCtx.answerTo (ctx : ListenCtx) (id : ℕ) : Option Addr :=
  (ctx.pendingReqTable.find? fun t => t.id = id).bind WcActionTrans.user

/-- The pending requests whose item is removed between two states. -/
def removedBetween (ctx ctx' : ListenCtx) : List ℕ :=
  (ctx.pendingReqTable.filter fun req =>
    req.user.any fun a => ctx.Live a ∧ ¬ ctx'.Live a).map WcActionTrans.id

/-- The registry, with the numbers of the requests whose item was removed while
they were pending. -/
structure ListenTrace where
  ctx : ListenCtx
  stale : List ℕ
  deriving Repr, DecidableEq

def ListenTrace.start : ListenTrace := ⟨listenRegistryNew, []⟩

/-- Every answer that may come next is written to the item that its request was
sent for. -/
def ListenTrace.AnswersLive (s : ListenTrace) : Prop :=
  ∀ id, ∀ a ∈ s.ctx.answerTo id, id ∉ s.stale ∧ s.ctx.Live a

/-- An item is not removed while a request sent for it is pending. -/
def RemovalWaits (keyCmp : Key → Key → Ordering) (s : ListenTrace) : ListenOp → Prop
  | .unwatchEx p refDec =>
      ∀ li ∈ s.ctx.item keyCmp p, li.ref ≤ refDec →
        ∀ req ∈ s.ctx.pendingReqTable, req.user ≠ some li.addr
  | _ => True

instance (keyCmp : Key → Key → Ordering) (s : ListenTrace) (op : ListenOp) :
    Decidable (RemovalWaits keyCmp s op) :=
  match op with
  | .unwatchEx p _ => inferInstanceAs (Decidable (∀ li ∈ s.ctx.item keyCmp p, _))
  | .response _ _ | .watch _ _ | .cnxLost | .handshake | .connect | .closeCnx =>
      inferInstanceAs (Decidable True)

section Answers

variable {keyCmp : Key → Key → Ordering} {ctx ctx' : ListenCtx} {s s' : ListenTrace}

variable (keyCmp) in
def ListenTrace.step (s : ListenTrace) (op : ListenOp) : Option ListenTrace :=
  (s.ctx.step keyCmp op).map fun ctx' => ⟨ctx', removedBetween s.ctx ctx' ++ s.stale⟩

/-- The address of the item of a path. -/
def ListenCtx.addr (keyCmp : Key → Key → Ordering) (ctx : ListenCtx) (path : Path) :
    Option Addr :=
  (ctx.item keyCmp path).map ListenItem.addr

/-- A request that is not stale is one for the item of its path, and requests
are numbered in the order they are sent. -/
structure ListenTrace.Tracked (keyCmp : Key → Key → Ordering) (s : ListenTrace) : Prop where
  wellFormed : s.ctx.WellFormed keyCmp
  addr_inj : ∀ p q a, s.ctx.addr keyCmp p = some a → s.ctx.addr keyCmp q = some a → p = q
  sorted : s.ctx.pendingReqTable.Pairwise fun req req' => req'.id < req.id
  id_le : ∀ req ∈ s.ctx.pendingReqTable, req.id ≤ s.ctx.reqnum
  stale_le : ∀ id ∈ s.stale, id ≤ s.ctx.reqnum
  owned : ∀ req ∈ s.ctx.pendingReqTable, req.id ∉ s.stale → ∀ a ∈ req.user,
    s.ctx.addr keyCmp req.path = some a

variable [TransCmp keyCmp] [LawfulEqCmp keyCmp]

theorem ListenCtx.WellFormed.live_iff (hwf : ctx.WellFormed keyCmp) {a : Addr} :
    ctx.Live a ↔ ∃ p, ctx.addr keyCmp p = some a := by
  simp only [ListenCtx.Live, ListenCtx.addr, Option.map_eq_some_iff, hwf.item_eq_some_iff]
  constructor
  · rintro ⟨e, he, rfl⟩
    exact ⟨e.1, e.2, he, rfl⟩
  · rintro ⟨p, li, hmem, rfl⟩
    exact ⟨(p, li), hmem, rfl⟩

/-! ### Moves -/

omit [TransCmp keyCmp] [LawfulEqCmp keyCmp] in
theorem Move.wellFormed {ps : List Path} (move : Move keyCmp ps ctx ctx')
    (hwf : ctx.WellFormed keyCmp) : ctx'.WellFormed keyCmp := by
  obtain ⟨-, p, s, hlist⟩ := move.frame
  rw [ListenCtx.WellFormed, hlist]
  exact hwf.setStatus p s

theorem Move.addr {ps : List Path} (move : Move keyCmp ps ctx ctx') (hwf : ctx.WellFormed keyCmp)
    (q : Path) : ctx'.addr keyCmp q = ctx.addr keyCmp q := by
  obtain ⟨-, p, s, hlist⟩ := move.frame
  have hitem : ctx'.item keyCmp q = (setStatus keyCmp p s ctx).item keyCmp q := by
    rw [ListenCtx.item, hlist, ListenCtx.item]
  rw [ListenCtx.addr, hitem, item_setStatus hwf, Option.map_map, ListenCtx.addr]
  refine Option.map_congr fun li _ => ?_
  rw [Function.comp_apply]
  split <;> rfl

omit [TransCmp keyCmp] [LawfulEqCmp keyCmp] in
theorem Moves.wellFormed {ps : List Path} (run : Moves keyCmp ps ctx ctx')
    (hwf : ctx.WellFormed keyCmp) : ctx'.WellFormed keyCmp := by
  induction run with
  | refl => exact hwf
  | step _ move ih => exact move.wellFormed (ih hwf)

theorem Moves.addr {ps : List Path} (run : Moves keyCmp ps ctx ctx')
    (hwf : ctx.WellFormed keyCmp) (q : Path) : ctx'.addr keyCmp q = ctx.addr keyCmp q := by
  induction run with
  | refl => rfl
  | step run move ih => rw [move.addr (run.wellFormed hwf), ih hwf]

omit [TransCmp keyCmp] [LawfulEqCmp keyCmp] in
theorem Moves.suffix {ps : List Path} (run : Moves keyCmp ps ctx ctx') :
    ctx.pendingReqTable <:+ ctx'.pendingReqTable := by
  induction run with
  | refl => exact List.suffix_rfl
  | step _ move ih =>
      cases move with
      | quiet => exact ih
      | listen => exact ih.trans (List.suffix_cons _ _)
      | unlisten => exact ih.trans (List.suffix_cons _ _)

theorem live_congr (hwf : ctx.WellFormed keyCmp) (hwf' : ctx'.WellFormed keyCmp)
    (haddr : ∀ q, ctx'.addr keyCmp q = ctx.addr keyCmp q) (a : Addr) :
    ctx'.Live a ↔ ctx.Live a := by
  simp only [hwf.live_iff, hwf'.live_iff, haddr]

/-! ### Requests -/

namespace ListenTrace.Tracked

variable {stale : List ℕ}

omit [TransCmp keyCmp] [LawfulEqCmp keyCmp] in
/-- Requests may be forgotten, and more of them may be stale. -/
theorem mono (h : Tracked keyCmp ⟨ctx, stale⟩) {stale' : List ℕ} (hwf : ctx'.WellFormed keyCmp)
    (haddr : ∀ q, ctx'.addr keyCmp q = ctx.addr keyCmp q)
    (hsub : ctx'.pendingReqTable.Sublist ctx.pendingReqTable) (hnum : ctx'.reqnum = ctx.reqnum)
    (hstale : stale ⊆ stale') (hle : ∀ id ∈ stale', id ≤ ctx.reqnum) :
    Tracked keyCmp ⟨ctx', stale'⟩ where
  wellFormed := hwf
  addr_inj p q a hp hq := h.addr_inj p q a ((haddr p).symm.trans hp) ((haddr q).symm.trans hq)
  sorted := h.sorted.sublist hsub
  id_le req hreq := (h.id_le req (hsub.subset hreq)).trans_eq hnum.symm
  stale_le id hid := (hle id hid).trans_eq hnum.symm
  owned req hreq hfresh a ha := by
    have hold : req.id ∉ stale := fun hid => hfresh (hstale hid)
    exact (haddr req.path).trans (h.owned req (hsub.subset hreq) hold a ha)

omit [TransCmp keyCmp] [LawfulEqCmp keyCmp] in
/-- A request is sent for the item of its path, or for none. -/
theorem send (h : Tracked keyCmp ⟨ctx, stale⟩) {req : WcActionTrans}
    (hwf : ctx'.WellFormed keyCmp) (haddr : ∀ q, ctx'.addr keyCmp q = ctx.addr keyCmp q)
    (hreqs : ctx'.pendingReqTable = req :: ctx.pendingReqTable)
    (hid : req.id = ctx.reqnum + 1) (hnum : ctx'.reqnum = ctx.reqnum + 1)
    (howned : ∀ a ∈ req.user, ctx.addr keyCmp req.path = some a) :
    Tracked keyCmp ⟨ctx', stale⟩ where
  wellFormed := hwf
  addr_inj p q a hp hq := h.addr_inj p q a ((haddr p).symm.trans hp) ((haddr q).symm.trans hq)
  sorted := by
    rw [hreqs]
    refine List.pairwise_cons.mpr ⟨fun req' hreq' => ?_, h.sorted⟩
    rw [hid]
    exact Nat.lt_succ_of_le (h.id_le req' hreq')
  id_le := by
    rw [hreqs, hnum]
    exact List.forall_mem_cons.mpr ⟨hid.le, fun req' hreq' => (h.id_le req' hreq').trans (by simp)⟩
  stale_le id' hid' := (h.stale_le id' hid').trans (by rw [hnum]; exact Nat.le_succ _)
  owned := by
    rw [hreqs]
    refine List.forall_mem_cons.mpr ⟨fun _ a ha => (haddr _).trans (howned a ha), ?_⟩
    exact fun req' hreq' hfresh a ha => (haddr _).trans (h.owned req' hreq' hfresh a ha)

theorem move {ps : List Path} (h : Tracked keyCmp ⟨ctx, stale⟩) (hmove : Move keyCmp ps ctx ctx') :
    Tracked keyCmp ⟨ctx', stale⟩ := by
  have hwf' := hmove.wellFormed h.wellFormed
  have haddr := hmove.addr h.wellFormed
  cases hmove with
  | quiet hitem hs hmask =>
      exact h.mono hwf' haddr (List.Sublist.refl _) rfl (List.Subset.refl _) h.stale_le
  | listen hitem hp hstate hst =>
      refine h.send hwf' haddr rfl rfl rfl fun a ha => ?_
      rw [ListenCtx.addr, hitem]
      exact ha
  | unlisten hitem hst =>
      exact h.send hwf' haddr rfl rfl rfl fun a ha => absurd ha (by simp)

theorem moves {ps : List Path} (h : Tracked keyCmp ⟨ctx, stale⟩)
    (run : Moves keyCmp ps ctx ctx') : Tracked keyCmp ⟨ctx', stale⟩ := by
  induction run with
  | refl => exact h
  | step _ hmove ih => exact (ih h).move hmove

end ListenTrace.Tracked

/-! ### Operations -/

omit [TransCmp keyCmp] [LawfulEqCmp keyCmp] in
/-- Adding or counting an item sends nothing. -/
theorem listenRegistryAddEx_frame (keyCmp : Key → Key → Ordering) (ctx : ListenCtx) (p : Path)
    (a : Addr) :
    let r := listenRegistryAddEx keyCmp p a ctx
    r.1.state = ctx.state ∧ r.1.reqnum = ctx.reqnum ∧
      r.1.pendingReqTable = ctx.pendingReqTable := by
  rw [listenRegistryAddEx]
  split <;> exact ⟨rfl, rfl, rfl⟩

theorem addr_listenRegistryAddEx (hwf : ctx.WellFormed keyCmp) (p q : Path) (a : Addr) :
    (listenRegistryAddEx keyCmp p a ctx).1.addr keyCmp q =
      if q = p then some ((ctx.addr keyCmp p).getD a) else ctx.addr keyCmp q := by
  obtain ⟨-, hitem, hnew⟩ := listenRegistryAddEx_spec hwf p a
  generalize listenRegistryAddEx keyCmp p a ctx = r at hitem hnew ⊢
  rw [ListenCtx.addr, hitem]
  split
  next =>
    rw [hnew, ListenCtx.addr]
    cases ctx.item keyCmp p <;> rfl
  next => rfl

theorem addr_without (hwf : ctx.WellFormed keyCmp) (p q : Path) :
    (ctx.without keyCmp p).addr keyCmp q = if q = p then none else ctx.addr keyCmp q := by
  rw [ListenCtx.addr, item_without hwf]
  split <;> rfl

theorem ListenTrace.Tracked.add {stale : List ℕ} (h : Tracked keyCmp ⟨ctx, stale⟩) (p : Path)
    {a : Addr} (ha : ¬ ctx.Live a) :
    Tracked keyCmp ⟨(listenRegistryAddEx keyCmp p a ctx).1, stale⟩ := by
  have hwf : ctx.WellFormed keyCmp := h.wellFormed
  have haddr := addr_listenRegistryAddEx hwf p (a := a)
  obtain ⟨-, hnum, hreqs⟩ := listenRegistryAddEx_frame keyCmp ctx p a
  have hwf' := (listenRegistryAddEx_spec hwf p a).1
  generalize (listenRegistryAddEx keyCmp p a ctx).1 = ctx₁ at haddr hnum hreqs hwf' ⊢
  have hkept : ∀ {q b}, ctx.addr keyCmp q = some b → ctx₁.addr keyCmp q = some b := by
    intro q b hq
    rw [haddr]
    split
    next heq => rw [← heq, hq, Option.getD_some]
    next => exact hq
  -- the address of `p` is its old one, or one that no item has
  have hback : ∀ {q b}, ctx₁.addr keyCmp q = some b →
      ctx.addr keyCmp q = some b ∨ (q = p ∧ ∀ q', ctx.addr keyCmp q' ≠ some b) := by
    intro q b hq
    rw [haddr] at hq
    split at hq
    next heq =>
      subst heq
      cases hold : ctx.addr keyCmp q with
      | none =>
          rw [hold, Option.getD_none, Option.some.injEq] at hq
          exact .inr ⟨rfl, fun q' hq' => ha (hwf.live_iff.mpr ⟨q', hq ▸ hq'⟩)⟩
      | some b' =>
          rw [hold, Option.getD_some] at hq
          exact .inl hq
    next => exact .inl hq
  exact {
    wellFormed := hwf'
    addr_inj := by
      intro q q' b hq hq'
      rcases hback hq with hq | ⟨rfl, hnone⟩
      · rcases hback hq' with hq' | ⟨rfl, hnone⟩
        · exact h.addr_inj q q' b hq hq'
        · exact absurd hq (hnone q)
      · rcases hback hq' with hq' | ⟨rfl, -⟩
        · exact absurd hq' (hnone q')
        · rfl
    sorted := hreqs ▸ h.sorted
    id_le := by
      rw [hreqs, hnum]
      exact h.id_le
    stale_le := by
      rw [hnum]
      exact h.stale_le
    owned := by
      rw [hreqs]
      exact fun req hreq hfresh b hb => hkept (h.owned req hreq hfresh b hb) }

omit [TransCmp keyCmp] [LawfulEqCmp keyCmp] in
/-- An answer takes its request out of the table. -/
theorem wcDatasyncReqResponseDispatch_frame (keyCmp : Key → Key → Ordering) (ctx : ListenCtx)
    (id : ℕ) (ok : Bool) :
    let ctx' := wcDatasyncReqResponseDispatch keyCmp id ok ctx
    ctx'.state = ctx.state ∧ ctx'.reqnum = ctx.reqnum ∧
      ctx'.pendingReqTable = ctx.pendingReqTable.eraseP fun t => t.id = id := by
  rw [wcDatasyncReqResponseDispatch]
  cases hreq : ctx.pendingReqTable.find? fun t => t.id = id with
  | none =>
      refine ⟨rfl, rfl, (List.eraseP_of_forall_not fun t ht => ?_).symm⟩
      exact List.find?_eq_none.mp hreq t ht
  | some req =>
      cases huser : req.user with
      | none => simp [huser]
      | some user =>
          simp only [huser, onListenResult]
          split <;> exact ⟨rfl, rfl, rfl⟩

theorem addr_wcDatasyncReqResponseDispatch (hwf : ctx.WellFormed keyCmp) (id : ℕ) (ok : Bool) :
    let ctx' := wcDatasyncReqResponseDispatch keyCmp id ok ctx
    ctx'.WellFormed keyCmp ∧ ∀ q, ctx'.addr keyCmp q = ctx.addr keyCmp q := by
  have hlist := list_wcDatasyncReqResponseDispatch keyCmp ctx id ok
  generalize wcDatasyncReqResponseDispatch keyCmp id ok ctx = ctx' at hlist ⊢
  cases he : answeredItem ctx id with
  | none =>
      rw [he] at hlist
      refine ⟨by rwa [ListenCtx.WellFormed, hlist], fun q => ?_⟩
      rw [ListenCtx.addr, ListenCtx.item, hlist]
      rfl
  | some e =>
      rw [he] at hlist
      refine ⟨by rw [ListenCtx.WellFormed, hlist]; exact hwf.setStatus e.1 _, fun q => ?_⟩
      have hitem : ctx'.item keyCmp q =
          (setStatus keyCmp e.1 (if ok then .active else .failed) ctx).item keyCmp q := by
        rw [ListenCtx.item, hlist, ListenCtx.item]
      rw [ListenCtx.addr, hitem, item_setStatus hwf, Option.map_map, ListenCtx.addr]
      refine Option.map_congr fun li _ => ?_
      rw [Function.comp_apply]
      split <;> rfl

omit [TransCmp keyCmp] [LawfulEqCmp keyCmp] in
theorem ListenTrace.Tracked.state {stale : List ℕ} (h : Tracked keyCmp ⟨ctx, stale⟩)
    (state : CnxState) : Tracked keyCmp ⟨{ ctx with state }, stale⟩ :=
  h.mono h.wellFormed (fun _ => rfl) (List.Sublist.refl _) rfl (List.Subset.refl _) h.stale_le

/-- The items that an operation removes. -/
def Removes (keyCmp : Key → Key → Ordering) (ctx : ListenCtx) (op : ListenOp) (p : Path)
    (li : ListenItem) : Prop :=
  ctx.item keyCmp p = some li ∧ op = .unwatchEx p li.ref

/-- An operation that removes no item. -/
theorem step_kept {stale : List ℕ} (h : ListenTrace.Tracked keyCmp ⟨ctx, stale⟩) {op : ListenOp}
    (hkeep : ∀ p li, ¬ Removes keyCmp ctx op p li) (hstep : ctx.step keyCmp op = some ctx') :
    ListenTrace.Tracked keyCmp ⟨ctx', stale⟩ ∧
      ∀ q a, ctx.addr keyCmp q = some a → ctx'.addr keyCmp q = some a := by
  have hwf : ctx.WellFormed keyCmp := h.wellFormed
  have hmoves : ∀ {ps ctx₁}, ListenTrace.Tracked keyCmp ⟨ctx₁, stale⟩ → Moves keyCmp ps ctx₁ ctx' →
      (∀ q a, ctx.addr keyCmp q = some a → ctx₁.addr keyCmp q = some a) →
      ListenTrace.Tracked keyCmp ⟨ctx', stale⟩ ∧
        ∀ q a, ctx.addr keyCmp q = some a → ctx'.addr keyCmp q = some a := by
    intro ps ctx₁ h₁ run hkept
    exact ⟨h₁.moves run, fun q a hq => (run.addr h₁.wellFormed q).trans (hkept q a hq)⟩
  cases op with
  | watch path addr =>
      simp only [ListenCtx.step] at hstep
      split at hstep
      · cases hstep
      next hfresh =>
        obtain rfl := Option.some.inj hstep
        have hlive : ¬ ctx.Live addr := by simpa [ListenCtx.Live] using hfresh
        have hadd := h.add (wcDatasyncPathParse path) hlive
        have hkept : ∀ q a, ctx.addr keyCmp q = some a →
            (listenRegistryAddEx keyCmp (wcDatasyncPathParse path) addr ctx).1.addr keyCmp q =
              some a := by
          intro q a hq
          rw [addr_listenRegistryAddEx hwf]
          split
          next heq => rw [← heq, hq, Option.getD_some]
          next => exact hq
        rcases wcDatasyncWatch_moves hwf path addr with ⟨run, -⟩ | heq
        · exact hmoves hadd run hkept
        · rw [heq]
          exact ⟨hadd, hkept⟩
  | unwatchEx p n =>
      rcases wcDatasyncUnwatchEx_cases hwf hstep with
        ⟨-, rfl⟩ | ⟨li, -, -, hwf', heq, hitem⟩ | ⟨li, hp, rfl, -⟩
      · exact ⟨h, fun _ _ hq => hq⟩
      · have haddr : ∀ q, ctx'.addr keyCmp q = ctx.addr keyCmp q := by
          intro q
          rw [ListenCtx.addr, hitem, Option.map_map, ListenCtx.addr]
          refine Option.map_congr fun li _ => ?_
          rw [Function.comp_apply]
          split <;> rfl
        refine ⟨h.mono hwf' haddr ?_ ?_ (List.Subset.refl _) h.stale_le, fun q a hq => ?_⟩
        · rw [heq]
        · rw [heq]
        · rw [haddr, hq]
      · exact absurd ⟨hp, rfl⟩ (hkeep p li)
  | cnxLost =>
      obtain rfl := Option.some.inj hstep
      exact hmoves (h.state _) (wcListenSuspendAll_moves hwf rfl) fun _ _ hq => hq
  | handshake =>
      obtain rfl := Option.some.inj hstep
      exact hmoves (h.state _) (wcListenResumeAll_moves hwf rfl) fun _ _ hq => hq
  | response id ok =>
      obtain rfl := Option.some.inj hstep
      obtain ⟨hwf', haddr⟩ := addr_wcDatasyncReqResponseDispatch hwf id ok
      obtain ⟨-, hnum, hreqs⟩ := wcDatasyncReqResponseDispatch_frame keyCmp ctx id ok
      refine ⟨h.mono hwf' haddr ?_ hnum (List.Subset.refl _) h.stale_le, fun q a hq => ?_⟩
      · rw [hreqs]
        exact List.eraseP_sublist
      · rw [haddr, hq]
  | connect =>
      obtain rfl := Option.some.inj hstep
      split
      · exact ⟨h.state _, fun _ _ hq => hq⟩
      · exact ⟨h, fun _ _ hq => hq⟩
  | closeCnx =>
      obtain rfl := Option.some.inj hstep
      split
      · exact ⟨h.state _, fun _ _ hq => hq⟩
      · exact ⟨h, fun _ _ hq => hq⟩

/-- The requests that are sent for an item. -/
def requestsFor (ctx : ListenCtx) (a : Addr) : List ℕ :=
  (ctx.pendingReqTable.filter fun req => req.user = some a).map WcActionTrans.id

omit [TransCmp keyCmp] [LawfulEqCmp keyCmp] in
theorem mem_requestsFor {a : Addr} {id : ℕ} :
    id ∈ requestsFor ctx a ↔ ∃ req ∈ ctx.pendingReqTable, req.user = some a ∧ req.id = id := by
  simp only [requestsFor, List.mem_map, List.mem_filter, decide_eq_true_eq, and_assoc]

/-- The requests sent for an item that is removed get stale. -/
theorem ListenTrace.Tracked.remove {stale : List ℕ} (h : Tracked keyCmp ⟨ctx, stale⟩) {p : Path}
    {li : ListenItem} (hp : ctx.item keyCmp p = some li) :
    Tracked keyCmp
      ⟨wcDatasyncUnlisten p (ctx.without keyCmp p), requestsFor ctx li.addr ++ stale⟩ := by
  have hwf : ctx.WellFormed keyCmp := h.wellFormed
  have hpa : ctx.addr keyCmp p = some li.addr := by rw [ListenCtx.addr, hp, Option.map_some]
  have hunowned : Tracked keyCmp ⟨ctx.without keyCmp p, requestsFor ctx li.addr ++ stale⟩ := by
    refine ⟨hwf.without p, ?_, h.sorted, h.id_le, ?_, ?_⟩
    · intro q q' a hq hq'
      rw [addr_without hwf] at hq hq'
      split at hq
      · cases hq
      · split at hq'
        · cases hq'
        · exact h.addr_inj q q' a hq hq'
    · intro id hid
      rcases List.mem_append.mp hid with hid | hid
      · obtain ⟨req, hreq, -, rfl⟩ := mem_requestsFor.mp hid
        exact h.id_le req hreq
      · exact h.stale_le id hid
    · intro req hreq hfresh a ha
      rw [List.mem_append, not_or] at hfresh
      have howned := h.owned req hreq hfresh.2 a ha
      rw [addr_without hwf, if_neg ?_]
      · exact howned
      · intro heq
        rw [heq, hpa] at howned
        obtain rfl := Option.some.inj howned
        exact hfresh.1 (mem_requestsFor.mpr ⟨req, hreq, ha, rfl⟩)
  exact hunowned.send (hwf.without p) (fun _ => rfl) rfl rfl rfl fun a ha => absurd ha (by simp)

theorem removedBetween_eq {stale : List ℕ} (h : ListenTrace.Tracked keyCmp ⟨ctx, stale⟩) {p : Path}
    {li : ListenItem} (hp : ctx.item keyCmp p = some li) (hwf' : ctx'.WellFormed keyCmp)
    (haddr : ∀ q, ctx'.addr keyCmp q = if q = p then none else ctx.addr keyCmp q) :
    removedBetween ctx ctx' = requestsFor ctx li.addr := by
  have hwf : ctx.WellFormed keyCmp := h.wellFormed
  have hpa : ctx.addr keyCmp p = some li.addr := by rw [ListenCtx.addr, hp, Option.map_some]
  have hgone : ∀ a, ctx.Live a ∧ ¬ ctx'.Live a ↔ a = li.addr := by
    intro a
    simp only [hwf.live_iff, hwf'.live_iff, haddr]
    constructor
    · rintro ⟨⟨q, hq⟩, hnone⟩
      rcases eq_or_ne q p with rfl | hne
      · exact Option.some.inj (hq.symm.trans hpa)
      · exact absurd ⟨q, (if_neg hne).trans hq⟩ hnone
    · rintro rfl
      refine ⟨⟨p, hpa⟩, ?_⟩
      rintro ⟨q, hq⟩
      split at hq
      next => cases hq
      next hne => exact hne (h.addr_inj q p li.addr hq hpa)
  rw [removedBetween, requestsFor]
  congr 1
  refine List.filter_congr fun req _ => ?_
  cases req.user <;> simp [hgone]

/-- An operation that removes an item. -/
theorem step_removed {stale : List ℕ} (h : ListenTrace.Tracked keyCmp ⟨ctx, stale⟩)
    {op : ListenOp} {p : Path} {li : ListenItem} (hrem : Removes keyCmp ctx op p li)
    (hstep : ctx.step keyCmp op = some ctx') :
    ctx' = unmaskListenRequest keyCmp p (wcDatasyncUnlisten p (ctx.without keyCmp p)) ∧
      removedBetween ctx ctx' = requestsFor ctx li.addr ∧
        ListenTrace.Tracked keyCmp ⟨ctx', requestsFor ctx li.addr ++ stale⟩ ∧
          ctx.pendingReqTable <:+ ctx'.pendingReqTable := by
  obtain ⟨hp, rfl⟩ := hrem
  have hwf : ctx.WellFormed keyCmp := h.wellFormed
  rcases wcDatasyncUnwatchEx_cases hwf hstep with
    ⟨hnone, -⟩ | ⟨lj, hj, hlt, -⟩ | ⟨lj, -, -, heq⟩
  · rw [hp] at hnone
    cases hnone
  · obtain rfl := Option.some.inj (hp.symm.trans hj)
    exact absurd hlt (Nat.lt_irrefl _)
  have hremoved := h.remove hp
  have hwf₁ : (wcDatasyncUnlisten p (ctx.without keyCmp p)).WellFormed keyCmp := hwf.without p
  have run := unmaskListenRequest_moves hwf₁ p
  rw [← heq] at run
  refine ⟨heq, ?_, hremoved.moves run, (List.suffix_cons _ _).trans run.suffix⟩
  exact removedBetween_eq h hp (run.wellFormed hwf₁)
    fun q => (run.addr hwf₁ q).trans (addr_without hwf p q)

/-- An operation that removes no item leaves no request stale. -/
theorem removedBetween_eq_nil {stale : List ℕ} (h : ListenTrace.Tracked keyCmp ⟨ctx, stale⟩)
    {op : ListenOp} (hkeep : ∀ p li, ¬ Removes keyCmp ctx op p li)
    (hstep : ctx.step keyCmp op = some ctx') : removedBetween ctx ctx' = [] := by
  obtain ⟨htracked, hkept⟩ := step_kept h hkeep hstep
  rw [removedBetween, List.map_eq_nil_iff, List.filter_eq_nil_iff]
  intro req _ hreq
  obtain ⟨a, -, ha⟩ := (Option.any_eq_true _ _).mp hreq
  obtain ⟨hlive, hgone⟩ := of_decide_eq_true ha
  have hwf : ctx.WellFormed keyCmp := h.wellFormed
  obtain ⟨q, hq⟩ := hwf.live_iff.mp hlive
  have hwf' : ctx'.WellFormed keyCmp := htracked.wellFormed
  exact hgone (hwf'.live_iff.mpr ⟨q, hkept q a hq⟩)

/-! ### Runs -/

theorem step_tracked (h : s.Tracked keyCmp) {op : ListenOp}
    (hstep : s.step keyCmp op = some s') : s'.Tracked keyCmp := by
  obtain ⟨ctx', hctx, rfl⟩ := Option.map_eq_some_iff.mp hstep
  by_cases hrem : ∃ p li, Removes keyCmp s.ctx op p li
  · obtain ⟨p, li, hrem⟩ := hrem
    obtain ⟨-, heq, htracked, -⟩ := step_removed h hrem hctx
    rw [heq]
    exact htracked
  · simp only [not_exists] at hrem
    rw [removedBetween_eq_nil h hrem hctx]
    exact (step_kept h hrem hctx).1

/-- A removal waits exactly when it leaves no request stale. -/
theorem removalWaits_iff (h : s.Tracked keyCmp) {op : ListenOp}
    (hstep : s.ctx.step keyCmp op = some ctx') :
    RemovalWaits keyCmp s op ↔ removedBetween s.ctx ctx' = [] := by
  by_cases hrem : ∃ p li, Removes keyCmp s.ctx op p li
  · obtain ⟨p, li, hrem⟩ := hrem
    rw [(step_removed h hrem hstep).2.1, List.eq_nil_iff_forall_not_mem]
    obtain ⟨hitem, rfl⟩ := hrem
    constructor
    · intro hwaits id hid
      obtain ⟨req, hreq, huser, -⟩ := mem_requestsFor.mp hid
      exact hwaits li hitem le_rfl req hreq huser
    · rintro hnone lq hq - req hreq huser
      obtain rfl := Option.some.inj (hitem.symm.trans hq)
      exact hnone req.id (mem_requestsFor.mpr ⟨req, hreq, huser, rfl⟩)
  · simp only [not_exists] at hrem
    refine iff_of_true ?_ (removedBetween_eq_nil h hrem hstep)
    cases op with
    | unwatchEx p n =>
        intro li hitem hle
        rw [Option.mem_def] at hitem
        rcases wcDatasyncUnwatchEx_cases h.wellFormed hstep with
          ⟨hnone, -⟩ | ⟨lj, hj, hlt, -⟩ | ⟨lj, hj, href, -⟩
        · rw [hitem] at hnone
          cases hnone
        · obtain rfl := Option.some.inj (hitem.symm.trans hj)
          exact absurd hlt (Nat.not_lt.mpr hle)
        · obtain rfl := Option.some.inj (hitem.symm.trans hj)
          exact absurd ⟨hitem, by rw [href]⟩ (hrem p li)
    | _ => trivial

omit [TransCmp keyCmp] [LawfulEqCmp keyCmp] in
theorem ListenTrace.Tracked.eq_of_id_eq (h : s.Tracked keyCmp) {req req' : WcActionTrans}
    (hreq : req ∈ s.ctx.pendingReqTable) (hreq' : req' ∈ s.ctx.pendingReqTable)
    (hid : req.id = req'.id) : req = req' := by
  have hnodup : (s.ctx.pendingReqTable.map WcActionTrans.id).Nodup :=
    List.pairwise_map.mpr (h.sorted.imp fun hlt heq => hlt.ne heq.symm)
  exact List.inj_on_of_nodup_map hnodup hreq hreq' hid

omit [TransCmp keyCmp] [LawfulEqCmp keyCmp] in
/-- The table is searched by number. -/
theorem ListenTrace.Tracked.find?_eq (h : s.Tracked keyCmp) {req : WcActionTrans}
    (hreq : req ∈ s.ctx.pendingReqTable) :
    (s.ctx.pendingReqTable.find? fun t => t.id = req.id) = some req := by
  have hsome : (s.ctx.pendingReqTable.find? fun t => t.id = req.id).isSome :=
    List.find?_isSome.mpr ⟨req, hreq, by simp⟩
  obtain ⟨req', hfind⟩ := Option.isSome_iff_exists.mp hsome
  have hid : req'.id = req.id := by simpa using List.find?_some hfind
  rw [hfind, h.eq_of_id_eq (List.mem_of_find?_eq_some hfind) hreq hid]

omit [TransCmp keyCmp] [LawfulEqCmp keyCmp] in
theorem tracked_start : ListenTrace.start.Tracked keyCmp := by
  refine ⟨AvlTree.ordered_nil, ?_, List.Pairwise.nil, ?_, ?_, ?_⟩
  · intro p q a hp
    cases hp
  · exact fun req hreq => absurd hreq List.not_mem_nil
  · exact fun id hid => absurd hid List.not_mem_nil
  · exact fun req hreq => absurd hreq List.not_mem_nil

/-- Under a total order answers are written to live items as long as removals
wait. -/
theorem answersLive_of_waits
    (run : Reach (ListenTrace.step keyCmp) (RemovalWaits keyCmp) ListenTrace.start s) :
    s.AnswersLive ∧ ∀ op s', s.step keyCmp op = some s' →
      (s'.AnswersLive ↔ RemovalWaits keyCmp s op) := by
  have hlive : ∀ {s : ListenTrace}, s.Tracked keyCmp → s.stale = [] → s.AnswersLive := by
    intro s h hstale id a ha
    obtain ⟨req, hreq, huser⟩ := Option.bind_eq_some_iff.mp ha
    have hfresh : ∀ id, id ∉ s.stale := fun id => hstale ▸ List.not_mem_nil
    have howned := h.owned req (List.mem_of_find?_eq_some hreq) (hfresh req.id) a huser
    exact ⟨hfresh id, h.wellFormed.live_iff.mpr ⟨req.path, howned⟩⟩
  have hwait : ∀ {s s' : ListenTrace} {op : ListenOp}, s.Tracked keyCmp → s.stale = [] →
      RemovalWaits keyCmp s op → s.step keyCmp op = some s' → s'.stale = [] := by
    intro s s' op h hstale hwaits hstep
    obtain ⟨ctx', hctx, rfl⟩ := Option.map_eq_some_iff.mp hstep
    show removedBetween s.ctx ctx' ++ s.stale = []
    rw [(removalWaits_iff h hctx).mp hwaits, hstale, List.append_nil]
  obtain ⟨h, hstale⟩ : s.Tracked keyCmp ∧ s.stale = [] := by
    refine run.invariant (I := fun s => s.Tracked keyCmp ∧ s.stale = []) ⟨tracked_start, rfl⟩ ?_
    exact fun s op s' h hwaits hstep => ⟨step_tracked h.1 hstep, hwait h.1 h.2 hwaits hstep⟩
  refine ⟨hlive h hstale, fun op s' hstep => ⟨fun hanswers => ?_, fun hwaits => ?_⟩⟩
  · have h' := step_tracked h hstep
    obtain ⟨ctx', hctx, rfl⟩ := Option.map_eq_some_iff.mp hstep
    refine (removalWaits_iff h hctx).mpr (List.eq_nil_iff_forall_not_mem.mpr fun id hid => ?_)
    by_cases hrem : ∃ p li, Removes keyCmp s.ctx op p li
    · obtain ⟨p, li, hrem⟩ := hrem
      obtain ⟨-, hremoved, -, hsuffix⟩ := step_removed h hrem hctx
      obtain ⟨req, hreq, huser, rfl⟩ := mem_requestsFor.mp (hremoved ▸ hid)
      -- a request left stale is still in the table
      have hto : ctx'.answerTo req.id = some li.addr := by
        rw [ListenCtx.answerTo, h'.find?_eq (hsuffix.subset hreq), Option.bind_some, huser]
      exact (hanswers req.id li.addr hto).1 (List.mem_append_left _ hid)
    · simp only [not_exists] at hrem
      rw [removedBetween_eq_nil h hrem hctx] at hid
      exact absurd hid List.not_mem_nil
  · exact hlive (step_tracked h hstep) (hwait h hstale hwaits hstep)

end Answers

/-! ### The comparator of the library -/

section Keys

variable {S : Set Key} {cmp cmp' : Key → Key → Ordering} {s : ListenTrace} {op : ListenOp}

theorem removalWaits_agree (hagree : AgreeOn S cmp cmp') (hop : op.KeysIn S)
    (h : PathsIn S s.ctx.list) : RemovalWaits cmp s op ↔ RemovalWaits cmp' s op := by
  cases op with
  | unwatchEx p refDec => rw [RemovalWaits, RemovalWaits, item_agree hagree hop h]
  | _ => exact Iff.rfl

theorem traceStep_agree (hagree : AgreeOn S cmp cmp') (hop : op.KeysIn S)
    (h : PathsIn S s.ctx.list) :
    s.step cmp op = s.step cmp' op ∧ ∀ s' ∈ s.step cmp op, PathsIn S s'.ctx.list := by
  obtain ⟨heq, hin⟩ := listenStep_agree hagree hop h
  refine ⟨by rw [ListenTrace.step, heq, ListenTrace.step], fun s' hs' => ?_⟩
  obtain ⟨ctx', hctx', rfl⟩ := Option.map_eq_some_iff.mp hs'
  exact hin ctx' hctx'

/-- **Answers are written to the items they are for**, in every state that a run
on strictly ordered keys reaches in which no removal overtakes an answer, and no
longer after a step that does. -/
theorem answers_reach_live_items (hS : StrictOn S)
    (run : Reach (ListenTrace.step wcDatasyncKeyOrd)
      (fun s op => RemovalWaits wcDatasyncKeyOrd s op ∧ op.KeysIn S) .start s) :
    s.AnswersLive ∧ ∀ op s', op.KeysIn S → s.step wcDatasyncKeyOrd op = some s' →
      (s'.AnswersLive ↔ RemovalWaits wcDatasyncKeyOrd s op) := by
  have hagree := agreeOn_keyOrder hS
  obtain ⟨run', hin⟩ : Reach (ListenTrace.step keyOrder) (RemovalWaits keyOrder) .start s ∧
      PathsIn S s.ctx.list := by
    refine run.transfer (I := fun s => PathsIn S s.ctx.list) pathsIn_new
      fun s op s' h hok hstep => ?_
    obtain ⟨hsame, hin⟩ := traceStep_agree hagree hok.2 h
    exact ⟨(removalWaits_agree hagree hok.2 h).mp hok.1, hsame ▸ hstep, hin s' hstep⟩
  obtain ⟨hlive, hnext⟩ := answersLive_of_waits run'
  refine ⟨hlive, fun op s' hop hstep => ?_⟩
  rw [removalWaits_agree hagree hop hin]
  exact hnext op s' ((traceStep_agree hagree hop hin).1 ▸ hstep)

/-- `/a` is removed once its request has been answered. -/
theorem answers_reach_live_items_answered :
    ∃ s, runSteps (ListenTrace.step wcDatasyncKeyOrd)
        (fun s op => RemovalWaits wcDatasyncKeyOrd s op ∧ op.KeysIn stringKeys) .start
        [.handshake, .watch pathA 1, .response 1 true, .watch pathAB 2,
          .unwatchEx (wcDatasyncPathParse pathA) 1] = some s ∧ s.AnswersLive := by
  have hrun : ∃ s, runSteps (ListenTrace.step wcDatasyncKeyOrd)
      (fun s op => RemovalWaits wcDatasyncKeyOrd s op ∧ op.KeysIn stringKeys) .start
      [.handshake, .watch pathA 1, .response 1 true, .watch pathAB 2,
        .unwatchEx (wcDatasyncPathParse pathA) 1] = some s := ⟨_, rfl⟩
  obtain ⟨s, hs⟩ := hrun
  exact ⟨s, hs, (answers_reach_live_items strictOn_stringKeys (Reach.of_runSteps .start hs)).1⟩

/-- `/a` is removed while its request is pending, and the answer to it arrives
later. -/
theorem answer_reaches_removed_item :
    ¬ ∀ s, Reach (ListenTrace.step wcDatasyncKeyOrd) (fun _ op => op.KeysIn stringKeys) .start s →
      s.AnswersLive := by
  intro hall
  have hrun : ∃ s, runSteps (ListenTrace.step wcDatasyncKeyOrd) (fun _ op => op.KeysIn stringKeys)
      .start [.handshake, .watch pathA 1, .unwatchEx (wcDatasyncPathParse pathA) 1] = some s ∧
      s.ctx.answerTo 1 = some 1 ∧ 1 ∈ s.stale := ⟨_, rfl, rfl, by decide⟩
  obtain ⟨s, hs, hto, hstale⟩ := hrun
  exact (hall s (Reach.of_runSteps .start hs) 1 1 hto).1 hstale

end Keys

end WebcomSdk.Datasync
