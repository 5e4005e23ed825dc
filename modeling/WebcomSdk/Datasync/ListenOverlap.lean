import WebcomSdk.Datasync.ListenKeys
import WebcomSdk.Datasync.ListenMoves
import Mathlib.Order.Antichain

/-!
Items that listen at the same time. None is above another, unless an item starts
to listen while one above or below it does: on a late answer, on a new attempt
after a refusal, or when the item that masked it is removed.
-/

namespace WebcomSdk.Datasync

open WebcomSdk.Lib WebcomSdk.Collection Std

/-- No item that listens is above another one. -/
def ListenCtx.NoOverlap (ctx : ListenCtx) : Prop :=
  ∀ e ∈ ctx.list.toList, ∀ e' ∈ ctx.list.toList, e.2.status.listens → e'.2.status.listens →
    ¬ Above e.1 e'.1

instance (ctx : ListenCtx) : Decidable ctx.NoOverlap :=
  inferInstanceAs (Decidable (∀ e ∈ ctx.list.toList, ∀ e' ∈ ctx.list.toList, _))

/-- No item but that of `p` that listens is above or below `q`. -/
def ListenCtx.Clear (ctx : ListenCtx) (p q : Path) : Prop :=
  ∀ a ∈ ctx.list.toList, a.2.status.listens → a.1 ≠ p → ¬ Above a.1 q ∧ ¬ Above q a.1

instance (ctx : ListenCtx) (p q : Path) : Decidable (ctx.Clear p q) :=
  inferInstanceAs (Decidable (∀ a ∈ ctx.list.toList, _))

/-- The masked items that the removal of the item of `p` unmasks: those below it
with no other masked item between. -/
def ListenCtx.Unmasked (ctx : ListenCtx) (p q : Path) : Prop :=
  Above p q ∧ ∀ m ∈ ctx.list.toList, m.2.status = .masked → Above p m.1 → ¬ Above m.1 q

instance (ctx : ListenCtx) (p q : Path) : Decidable (ctx.Unmasked p q) :=
  inferInstanceAs (Decidable (_ ∧ ∀ m ∈ ctx.list.toList, _))

/-- What starts to listen has none that listens above or below it: an item whose
request is accepted, a refused item that is watched again (what is below it is
masked then), the items unmasked by a removal. -/
def StartsClear (keyCmp : Key → Key → Ordering) (ctx : ListenCtx) : ListenOp → Prop
  | .response id true =>
      ∀ e ∈ answeredItem ctx id, e.2.status.listens ∨ ctx.Clear e.1 e.1
  | .watch path _ =>
      ∀ li ∈ ctx.item keyCmp (wcDatasyncPathParse path), li.status = .failed →
        ∀ a ∈ ctx.list.toList, a.2.status.listens → ¬ Above a.1 (wcDatasyncPathParse path)
  | .unwatchEx p refDec =>
      ∀ li ∈ ctx.item keyCmp p, li.ref ≤ refDec →
        ∀ m ∈ ctx.list.toList, m.2.status = .masked → ctx.Unmasked p m.1 → ctx.Clear p m.1
  | _ => True

instance (keyCmp : Key → Key → Ordering) (ctx : ListenCtx) (op : ListenOp) :
    Decidable (StartsClear keyCmp ctx op) :=
  match op with
  | .response id true => inferInstanceAs (Decidable (∀ e ∈ answeredItem ctx id, _))
  | .watch path _ =>
      inferInstanceAs (Decidable (∀ li ∈ ctx.item keyCmp (wcDatasyncPathParse path), _))
  | .unwatchEx p _ => inferInstanceAs (Decidable (∀ li ∈ ctx.item keyCmp p, _))
  | .response _ false | .cnxLost | .handshake | .connect | .closeCnx =>
      inferInstanceAs (Decidable True)

section Overlap

variable {keyCmp : Key → Key → Ordering} {ctx : ListenCtx}

/-- The paths whose items listen. -/
def ListenCtx.listening (keyCmp : Key → Key → Ordering) (ctx : ListenCtx) : Set Path :=
  {p | ctx.Listens keyCmp p}

/-- A well-formed registry in which what listens is an antichain. -/
structure ListenCtx.Apart (keyCmp : Key → Key → Ordering) (ctx : ListenCtx) : Prop where
  wellFormed : ctx.WellFormed keyCmp
  antichain : IsAntichain Above (ctx.listening keyCmp)

variable [TransCmp keyCmp] [LawfulEqCmp keyCmp]

theorem ListenCtx.WellFormed.listens_iff (hwf : ctx.WellFormed keyCmp) {p : Path} :
    ctx.Listens keyCmp p ↔ ∃ li, (p, li) ∈ ctx.list.toList ∧ li.status.listens := by
  simp only [ListenCtx.Listens, hwf.item_eq_some_iff]

theorem ListenCtx.Apart.noOverlap (h : ctx.Apart keyCmp) : ctx.NoOverlap := by
  intro e he e' he' hlis hlis' habove
  have hin : e.1 ∈ ctx.listening keyCmp := h.wellFormed.listens_iff.mpr ⟨e.2, he, hlis⟩
  have hin' : e'.1 ∈ ctx.listening keyCmp := h.wellFormed.listens_iff.mpr ⟨e'.2, he', hlis'⟩
  exact habove.2 (h.antichain.eq hin hin' habove)

theorem ListenCtx.WellFormed.clear_iff (hwf : ctx.WellFormed keyCmp) {p q : Path} :
    ctx.Clear p q ↔ ∀ a ∈ ctx.listening keyCmp, a ≠ p → ¬ Above a q ∧ ¬ Above q a := by
  constructor
  · intro h a ha hne
    obtain ⟨li, hli, hlis⟩ := hwf.listens_iff.mp ha
    exact h (a, li) hli hlis hne
  · intro h a ha hlis hne
    exact h a.1 (hwf.listens_iff.mpr ⟨a.2, ha, hlis⟩) hne

/-! ### What listens after each function -/

theorem listens_setStatus (hwf : ctx.WellFormed keyCmp) {p q : Path} {s : ListenStatus}
    (h : (setStatus keyCmp p s ctx).Listens keyCmp q) :
    ctx.Listens keyCmp q ∨ (q = p ∧ s.listens) := by
  obtain ⟨li, hli, hlis⟩ := h
  rw [item_setStatus hwf] at hli
  obtain ⟨lq, hlq, rfl⟩ := Option.map_eq_some_iff.mp hli
  split at hlis
  next hq => exact .inr ⟨hq, hlis⟩
  next => exact .inl ⟨lq, hlq, hlis⟩

theorem listens_requestListen (hwf : ctx.WellFormed keyCmp) {p q : Path} {a : Addr}
    (h : (requestListen keyCmp p a ctx).Listens keyCmp q) : ctx.Listens keyCmp q ∨ q = p := by
  rw [requestListen] at h
  split at h
  · exact (listens_setStatus hwf h).imp_right And.left
  · exact (listens_setStatus hwf h).imp_right And.left

theorem listens_maskListenRequest (hwf : ctx.WellFormed keyCmp) {p q : Path}
    (hp : ctx.item keyCmp p ≠ none) (h : (maskListenRequest keyCmp p ctx).Listens keyCmp q) :
    ctx.Listens keyCmp q ∧ ¬ Above p q := by
  obtain ⟨li, hli, hlis⟩ := h
  rw [(maskListenRequest_spec hwf hp).2] at hli
  obtain ⟨⟨s, r, a⟩, hlq, rfl⟩ := Option.map_eq_some_iff.mp hli
  split at hlis
  next =>
    cases s <;> simp [ListenItem.rewritten, maskHit, ListenStatus.listens] at hlis
  next hpq => exact ⟨⟨_, hlq, hlis⟩, hpq⟩

theorem listens_unmaskLoop (hwf : ctx.WellFormed keyCmp) {items : List (Path × ListenItem)}
    {top : Option Path} {q : Path} (h : (unmaskLoop keyCmp top ctx items).Listens keyCmp q) :
    ctx.Listens keyCmp q ∨ ∃ e ∈ unmaskedItems top items, q = e.1 := by
  rw [unmaskLoop_eq] at h
  generalize unmaskedItems top items = unmasked at h ⊢
  induction unmasked generalizing ctx with
  | nil => exact .inl h
  | cons e unmasked ih =>
      rcases ih (requestListen_spec hwf e.1 e.2.addr).1 h with hlis | ⟨e', he', rfl⟩
      · refine (listens_requestListen hwf hlis).imp_right fun hq => ?_
        exact ⟨e, List.mem_cons_self, hq⟩
      · exact .inr ⟨e', List.mem_cons_of_mem _ he', rfl⟩

/-- Removing an item lets only what it unmasks start to listen. -/
theorem listens_unmaskListenRequest (hwf : ctx.WellFormed keyCmp) {p q : Path}
    (hp : ctx.item keyCmp p = none) (h : (unmaskListenRequest keyCmp p ctx).Listens keyCmp q) :
    ctx.Listens keyCmp q ∨ (ctx.IsMasked keyCmp q ∧ Above p q ∧
      ∀ m, ctx.IsMasked keyCmp m → Above p m → ¬ Above m q) := by
  refine (listens_unmaskLoop hwf h).imp_right ?_
  rintro ⟨e, he, rfl⟩
  obtain ⟨hitem, hst, habove, htopmost⟩ := mem_unmaskedItems_walkBelow hwf hp he
  exact ⟨⟨e.2, hitem, hst⟩, habove, htopmost⟩

/-! ### Operations -/

omit [TransCmp keyCmp] [LawfulEqCmp keyCmp] in
/-- An item that takes over what is below it, when nothing above it listens. -/
theorem apart_takeOver (h : ctx.Apart keyCmp) {p : Path}
    (hp : ∀ a ∈ ctx.listening keyCmp, ¬ Above a p) {ctx' : ListenCtx}
    (hwf' : ctx'.WellFormed keyCmp)
    (hlis : ∀ q, ctx'.Listens keyCmp q → q = p ∨ (ctx.Listens keyCmp q ∧ ¬ Above p q)) :
    ctx'.Apart keyCmp := by
  refine ⟨hwf', IsAntichain.subset
    (t := ctx'.listening keyCmp) (s := insert p {q ∈ ctx.listening keyCmp | ¬ Above p q}) ?_ hlis⟩
  apply (h.antichain.subset fun q hq => hq.1).insert
  · exact fun q hq _ => hp q hq.1
  · exact fun q hq _ => hq.2

omit [TransCmp keyCmp] [LawfulEqCmp keyCmp] in
theorem apart_of_listens (h : ctx.Apart keyCmp) {ctx' : ListenCtx}
    (hwf' : ctx'.WellFormed keyCmp)
    (hlis : ∀ q, ctx'.Listens keyCmp q → ctx.Listens keyCmp q) : ctx'.Apart keyCmp :=
  ⟨hwf', h.antichain.subset hlis⟩

omit [TransCmp keyCmp] [LawfulEqCmp keyCmp] in
/-- Rewriting statuses without letting anything start to listen. -/
theorem ListenCtx.Apart.map (h : ctx.Apart keyCmp) {ctx' : ListenCtx}
    (hwf' : ctx'.WellFormed keyCmp) {f : Path → ListenItem → ListenItem}
    (hitem : ∀ q, ctx'.item keyCmp q = (ctx.item keyCmp q).map (f q))
    (hlis : ∀ q li, (f q li).status.listens → li.status.listens) : ctx'.Apart keyCmp := by
  apply apart_of_listens h hwf'
  rintro q ⟨li, hli, hst⟩
  rw [hitem] at hli
  obtain ⟨lq, hlq, rfl⟩ := Option.map_eq_some_iff.mp hli
  exact ⟨lq, hlq, hlis q lq hst⟩

theorem wcDatasyncWatch_apart (h : ctx.Apart keyCmp) {path : Bytes} {addr : Addr}
    (hclear : StartsClear keyCmp ctx (.watch path addr)) :
    (wcDatasyncWatch keyCmp path addr ctx).Apart keyCmp := by
  have hwf := h.wellFormed
  obtain ⟨hwf₁, hitem, hnew⟩ := listenRegistryAddEx_spec hwf (wcDatasyncPathParse path) addr
  rw [wcDatasyncWatch]
  simp only [StartsClear] at hclear
  generalize wcDatasyncPathParse path = p at hwf₁ hitem hnew hclear ⊢
  generalize listenRegistryAddEx keyCmp p addr ctx = r at hwf₁ hitem hnew ⊢
  obtain ⟨ctx₁, li⟩ := r
  dsimp only at hwf₁ hitem hnew ⊢
  have hother : ∀ q, q ≠ p → ctx₁.Listens keyCmp q → ctx.Listens keyCmp q := by
    rintro q hq ⟨lq, hlq, hst⟩
    rw [hitem, if_neg hq] at hlq
    exact ⟨lq, hlq, hst⟩
  split
  next hst =>
    have hp₁ : ctx₁.item keyCmp p = some li := (hitem p).trans (if_pos rfl)
    obtain ⟨hwf₂, s, -, hitem₂⟩ := requestListen_spec hwf₁ p li.addr
    have hp₂ : (requestListen keyCmp p li.addr ctx₁).item keyCmp p ≠ none := by simp [hitem₂, hp₁]
    refine apart_takeOver h (p := p) ?_ (maskListenRequest_spec hwf₂ hp₂).1 fun q hq => ?_
    · -- nothing above `p` listens, whether its item is new, required or refused
      intro a ha habove
      cases hold : ctx.item keyCmp p with
      | none =>
          rw [hold] at hnew
          have hm : isMasked keyCmp ctx.list p = true := isMasked_eq_true_iff.mpr ⟨a, habove, ha⟩
          rw [hm] at hnew
          simp [show li.status = .masked from congrArg ListenItem.status hnew] at hst
      | some lo =>
          rw [hold] at hnew
          have hstatus : li.status = lo.status := by rw [hnew]
          rw [hstatus] at hst
          obtain ⟨la, hla, hlis⟩ := hwf.listens_iff.mp ha
          rcases hst with hst | hst
          · have hp : p ∈ ctx.listening keyCmp := ⟨lo, hold, by rw [hst]; rfl⟩
            exact habove.2 (h.antichain.eq ha hp habove)
          · exact hclear lo hold hst (a, la) hla hlis habove
    · obtain ⟨hlis, hnot⟩ := listens_maskListenRequest hwf₂ hp₂ hq
      rcases eq_or_ne q p with hqp | hqp
      · exact .inl hqp
      · exact .inr ⟨hother q hqp ((listens_requestListen hwf₁ hlis).resolve_right hqp), hnot⟩
  next hst =>
    refine apart_of_listens h hwf₁ fun q hq => ?_
    rcases eq_or_ne q p with rfl | hqp
    · obtain ⟨lq, hlq, hlis⟩ := hq
      rw [hitem, if_pos rfl] at hlq
      obtain rfl := Option.some.inj hlq
      cases hold : ctx.item keyCmp q with
      | none =>
          rw [hold] at hnew
          have hstatus : li.status = .masked ∨ li.status = .required := by
            rw [hnew]
            dsimp only
            split
            · exact .inl rfl
            · exact .inr rfl
          rcases hstatus with hstatus | hstatus
          · rw [hstatus] at hlis
            cases hlis
          · exact absurd (.inl hstatus) hst
      | some lo =>
          rw [hold] at hnew
          exact ⟨lo, hold, by rw [hnew] at hlis; exact hlis⟩
    · exact hother q hqp hq

theorem wcDatasyncUnwatchEx_apart (h : ctx.Apart keyCmp) {p : Path} {refDec : ℕ}
    (hclear : StartsClear keyCmp ctx (.unwatchEx p refDec)) {ctx' : ListenCtx}
    (hstep : wcDatasyncUnwatchEx keyCmp p refDec ctx = some ctx') : ctx'.Apart keyCmp := by
  have hwf := h.wellFormed
  rcases wcDatasyncUnwatchEx_cases hwf hstep with
    ⟨-, rfl⟩ | ⟨li, -, -, hwf', -, hitem⟩ | ⟨li, hp, href, rfl⟩
  · exact h
  · refine h.map hwf' hitem fun q lq hst => ?_
    split at hst <;> exact hst
  · set ctx₁ := wcDatasyncUnlisten p (ctx.without keyCmp p) with hctx₁
    have hwf₁ : ctx₁.WellFormed keyCmp := hwf.without p
    have hitem : ∀ q, ctx₁.item keyCmp q = if q = p then none else ctx.item keyCmp q :=
      item_without hwf p
    have hold : ∀ {q lq}, ctx₁.item keyCmp q = some lq → q ≠ p ∧ ctx.item keyCmp q = some lq := by
      intro q lq hlq
      rw [hitem] at hlq
      split at hlq
      next => cases hlq
      next hq => exact ⟨hq, hlq⟩
    have hgone : ctx₁.item keyCmp p = none := (hitem p).trans (if_pos rfl)
    have hmasked : ∀ m, Above p m → (ctx₁.IsMasked keyCmp m ↔ ctx.IsMasked keyCmp m) := by
      intro m hpm
      rw [ListenCtx.IsMasked, hitem, if_neg hpm.2.symm]
      rfl
    -- what the removal unmasks has no listening item above or below it but that of `p`
    have hfree : ∀ q, ctx.IsMasked keyCmp q → Above p q →
        (∀ m, ctx₁.IsMasked keyCmp m → Above p m → ¬ Above m q) →
        ∀ a ∈ ctx.listening keyCmp, a ≠ p → ¬ Above a q ∧ ¬ Above q a := by
      rintro q ⟨lq, hlq, hst⟩ hpq hnone
      refine hwf.clear_iff.mp (hclear li hp href.le (q, lq) (hwf.item_eq_some_iff.mp hlq) hst
        ⟨hpq, fun m hm hstm hpm => ?_⟩)
      exact hnone m.1 ((hmasked m.1 hpm).mpr ⟨m.2, hwf.item_eq_some_iff.mpr hm, hstm⟩) hpm
    refine ⟨(unmaskListenRequest_spec hwf₁ p).1, fun a ha b hb hne habove => ?_⟩
    have hcases : ∀ q, (unmaskListenRequest keyCmp p ctx₁).Listens keyCmp q →
        (q ∈ ctx.listening keyCmp ∧ q ≠ p) ∨ (ctx₁.IsMasked keyCmp q ∧ Above p q ∧
          ∀ m, ctx₁.IsMasked keyCmp m → Above p m → ¬ Above m q) := by
      intro q hq
      refine (listens_unmaskListenRequest hwf₁ hgone hq).imp_left ?_
      rintro ⟨lq, hlq, hlis⟩
      exact ⟨⟨lq, (hold hlq).2, hlis⟩, (hold hlq).1⟩
    rcases hcases a ha with ⟨ha, hap⟩ | ⟨hma, hpa, hnonea⟩
    · rcases hcases b hb with ⟨hb, -⟩ | ⟨hmb, hpb, hnoneb⟩
      · exact hne (h.antichain.eq ha hb habove)
      · exact (hfree b ((hmasked b hpb).mp hmb) hpb hnoneb a ha hap).1 habove
    · rcases hcases b hb with ⟨hb, hbp⟩ | ⟨hmb, hpb, hnoneb⟩
      · exact (hfree a ((hmasked a hpa).mp hma) hpa hnonea b hb hbp).2 habove
      · exact hnoneb a hma hpa habove

theorem wcDatasyncReqResponseDispatch_apart (h : ctx.Apart keyCmp) {id : ℕ} {ok : Bool}
    (hclear : StartsClear keyCmp ctx (.response id ok)) :
    (wcDatasyncReqResponseDispatch keyCmp id ok ctx).Apart keyCmp := by
  have hwf := h.wellFormed
  have hlist := list_wcDatasyncReqResponseDispatch keyCmp ctx id ok
  cases he : answeredItem ctx id with
  | none =>
      rw [he] at hlist
      refine apart_of_listens h (by rwa [ListenCtx.WellFormed, hlist]) fun q hq => ?_
      obtain ⟨lq, hlq, hlis⟩ := hq
      rw [ListenCtx.item, hlist] at hlq
      exact ⟨lq, hlq, hlis⟩
  | some e =>
      rw [he] at hlist
      have hwf' : (wcDatasyncReqResponseDispatch keyCmp id ok ctx).WellFormed keyCmp := by
        rw [ListenCtx.WellFormed, hlist]
        exact hwf.setStatus _ _
      have hlis : ∀ q, (wcDatasyncReqResponseDispatch keyCmp id ok ctx).Listens keyCmp q →
          ctx.Listens keyCmp q ∨ (q = e.1 ∧ ok = true) := by
        rintro q ⟨lq, hlq, hlis⟩
        rw [ListenCtx.item, hlist] at hlq
        refine (listens_setStatus hwf ⟨lq, hlq, hlis⟩).imp_right (And.imp_right fun hst => ?_)
        cases ok with
        | true => rfl
        | false => cases hst
      cases ok with
      | false =>
          exact apart_of_listens h hwf' fun q hq =>
            (hlis q hq).resolve_right fun hq => Bool.false_ne_true hq.2
      | true =>
          have hmem := mem_of_answeredItem he
          rcases hclear e he with hst | hclear
          · refine apart_of_listens h hwf' fun q hq => (hlis q hq).elim (fun hold => hold) ?_
            rintro ⟨rfl, -⟩
            exact hwf.listens_iff.mpr ⟨e.2, hmem, hst⟩
          · have hfree := hwf.clear_iff.mp hclear
            refine ⟨hwf', IsAntichain.subset (h.antichain.insert (a := e.1) ?_ ?_)
              fun q hq => (hlis q hq).symm.imp And.left fun hold => hold⟩
            · exact fun a ha hne => (hfree a ha hne.symm).1
            · exact fun a ha hne => (hfree a ha hne.symm).2

/-! ### Runs -/

theorem step_apart (h : ctx.Apart keyCmp) {op : ListenOp} (hclear : StartsClear keyCmp ctx op)
    {ctx' : ListenCtx} (hstep : ctx.step keyCmp op = some ctx') : ctx'.Apart keyCmp := by
  cases op with
  | watch path addr =>
      simp only [ListenCtx.step] at hstep
      split at hstep
      · cases hstep
      · exact Option.some.inj hstep ▸ wcDatasyncWatch_apart h hclear
  | unwatchEx p refDec => exact wcDatasyncUnwatchEx_apart h hclear hstep
  | cnxLost =>
      obtain rfl := Option.some.inj hstep
      have hwf : ListenCtx.WellFormed keyCmp { ctx with state := .disconnected } := h.wellFormed
      obtain ⟨hwf', hitem⟩ := rewrites_suspendItem.foldl_all hwf
      refine h.map hwf' (f := fun _ => ListenItem.rewritten suspendHit) hitem ?_
      rintro - ⟨s, r, a⟩ hst
      cases s <;> simp_all [ListenItem.rewritten, suspendHit, ListenStatus.listens]
  | handshake =>
      obtain rfl := Option.some.inj hstep
      have hwf : ListenCtx.WellFormed keyCmp { ctx with state := .connected } := h.wellFormed
      obtain ⟨hwf', hitem⟩ := rewrites_resumeItem.foldl_all hwf
      refine h.map hwf' (f := fun _ => ListenItem.rewritten resumeHit) hitem ?_
      rintro - ⟨s, r, a⟩ hst
      cases s <;> simp_all [ListenItem.rewritten, resumeHit, ListenStatus.listens]
  | response id ok => exact Option.some.inj hstep ▸ wcDatasyncReqResponseDispatch_apart h hclear
  | connect =>
      obtain rfl := Option.some.inj hstep
      split <;> exact ⟨h.1, h.2⟩
  | closeCnx =>
      obtain rfl := Option.some.inj hstep
      split <;> exact ⟨h.1, h.2⟩

/-- Under a total order what listens is an antichain. -/
theorem apart_of_startsClear
    (run : Reach (ListenCtx.step keyCmp) (StartsClear keyCmp) listenRegistryNew ctx) :
    ctx.Apart keyCmp := by
  refine run.invariant ⟨AvlTree.ordered_nil, ?_⟩ fun _ _ _ h hclear hstep =>
    step_apart h hclear hstep
  rintro p ⟨li, hli, -⟩
  cases hli

end Overlap

/-! ### The comparator of the library -/

section Keys

variable {S : Set Key} {ctx : ListenCtx}

theorem startsClear_agree {cmp cmp' : Key → Key → Ordering} {op : ListenOp}
    (hagree : AgreeOn S cmp cmp') (hop : op.KeysIn S) (h : PathsIn S ctx.list) :
    StartsClear cmp ctx op ↔ StartsClear cmp' ctx op := by
  cases op with
  | watch path addr => rw [StartsClear, StartsClear, item_agree hagree hop h]
  | unwatchEx p refDec => rw [StartsClear, StartsClear, item_agree hagree hop h]
  | response id ok => cases ok <;> exact Iff.rfl
  | _ => exact Iff.rfl

/-- **Items that listen do not overlap**, in every state that a run on strictly
ordered keys reaches in which items only start to listen where nothing above or
below them does. -/
theorem listening_items_apart (hS : StrictOn S)
    (run : Reach (ListenCtx.step wcDatasyncKeyOrd)
      (fun ctx op => StartsClear wcDatasyncKeyOrd ctx op ∧ op.KeysIn S) listenRegistryNew ctx) :
    ctx.NoOverlap := by
  have hagree := agreeOn_keyOrder hS
  obtain ⟨run', -⟩ : Reach (ListenCtx.step keyOrder) (StartsClear keyOrder) listenRegistryNew ctx ∧
      PathsIn S ctx.list := by
    refine run.transfer (I := fun ctx => PathsIn S ctx.list) pathsIn_new
      fun ctx op ctx' h hok hstep => ?_
    obtain ⟨hsame, hin⟩ := listenStep_agree hagree hok.2 h
    exact ⟨(startsClear_agree hagree hok.2 h).mp hok.1, hsame ▸ hstep, hin ctx' hstep⟩
  exact (apart_of_startsClear run').noOverlap

/-- `/a` takes over `/a/b`, is removed, and leaves `/a/b` to listen again. -/
theorem listening_items_apart_taken_over :
    ∃ ctx, runSteps (ListenCtx.step wcDatasyncKeyOrd)
        (fun ctx op => StartsClear wcDatasyncKeyOrd ctx op ∧ op.KeysIn stringKeys)
        listenRegistryNew
        [.handshake, .watch pathAB 1, .response 1 true, .watch pathA 2,
          .unwatchEx (wcDatasyncPathParse pathA) 1, .response 5 true] = some ctx ∧
      ctx.NoOverlap := by
  have hrun : ∃ ctx, runSteps (ListenCtx.step wcDatasyncKeyOrd)
      (fun ctx op => StartsClear wcDatasyncKeyOrd ctx op ∧ op.KeysIn stringKeys)
      listenRegistryNew
      [.handshake, .watch pathAB 1, .response 1 true, .watch pathA 2,
        .unwatchEx (wcDatasyncPathParse pathA) 1, .response 5 true] = some ctx := ⟨_, rfl⟩
  obtain ⟨ctx, hctx⟩ := hrun
  exact ⟨ctx, hctx, listening_items_apart strictOn_stringKeys (Reach.of_runSteps .start hctx)⟩

/-- `/a/b` is watched, then masked by `/a` before its request is accepted. -/
theorem late_answer_overlaps :
    ¬ ∀ ctx, Reach (ListenCtx.step wcDatasyncKeyOrd) (fun _ op => op.KeysIn stringKeys)
      listenRegistryNew ctx → ctx.NoOverlap := by
  intro hall
  have hrun : ∃ ctx, runSteps (ListenCtx.step wcDatasyncKeyOrd)
      (fun _ op => op.KeysIn stringKeys) listenRegistryNew
      [.handshake, .watch pathAB 1, .watch pathA 2, .response 1 true] = some ctx ∧
      ¬ ctx.NoOverlap := ⟨_, rfl, by decide⟩
  obtain ⟨ctx, hctx, hnot⟩ := hrun
  exact hnot (hall ctx (Reach.of_runSteps .start hctx))

end Keys

end WebcomSdk.Datasync
