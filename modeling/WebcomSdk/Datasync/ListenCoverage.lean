import WebcomSdk.Lib.Cover
import WebcomSdk.Lib.Run
import WebcomSdk.Datasync.ListenRegistry

/-!
No watched path is left without a listen covering it. An item that is masked
sends no request of its own and relies on a strict ancestor that listens. Every
operation hands this cover on, except a refused listen request: nothing under
the refused item is unmasked.
-/

namespace WebcomSdk.Datasync

open WebcomSdk.Lib WebcomSdk.Collection Std

/-- `a` is a strict ancestor of `p`. -/
def Above (a p : Path) : Prop := a <+: p ∧ a ≠ p

instance (a p : Path) : Decidable (Above a p) := inferInstanceAs (Decidable (_ ∧ _))

theorem Above.trans {a b c : Path} (hab : Above a b) (hbc : Above b c) : Above a c := by
  refine ⟨hab.1.trans hbc.1, ?_⟩
  rintro rfl
  exact hab.2 (hab.1.eq_of_length (Nat.le_antisymm hab.1.length_le hbc.1.length_le))

theorem above_take {p : Path} {n : ℕ} (hn : n < p.length) : Above (p.take n) p := by
  refine ⟨List.take_prefix n p, fun heq => ?_⟩
  have hlen := congrArg List.length heq
  rw [List.length_take] at hlen
  omega

/-- Every masked item has a strict ancestor that is required, pending or
active. -/
def ListenCtx.MaskedCovered (ctx : ListenCtx) : Prop :=
  ∀ e ∈ ctx.list.toList, e.2.status = .masked →
    ∃ a ∈ ctx.list.toList, Above a.1 e.1 ∧ a.2.status.listens

instance (ctx : ListenCtx) : Decidable ctx.MaskedCovered :=
  inferInstanceAs (Decidable (∀ e ∈ ctx.list.toList, _ → ∃ a ∈ ctx.list.toList, _))

/-- The item whose status the response to request `id` overwrites. -/
def answeredItem (ctx : ListenCtx) (id : ℕ) : Option (Path × ListenItem) :=
  (ctx.pendingReqTable.find? fun t => t.id = id).bind fun req =>
    req.user.bind fun user => ctx.list.toList.find? fun e => e.2.addr = user

/-- A refusal does not reach an item that is the only cover of a masked one. -/
def RefusalFits (ctx : ListenCtx) : ListenOp → Prop
  | .response id false =>
      ∀ e ∈ answeredItem ctx id, ∀ m ∈ ctx.list.toList, m.2.status = .masked → Above e.1 m.1 →
        ∃ a ∈ ctx.list.toList, a.1 ≠ e.1 ∧ Above a.1 m.1 ∧ a.2.status.listens
  | _ => True

instance (ctx : ListenCtx) (op : ListenOp) : Decidable (RefusalFits ctx op) :=
  match op with
  | .response id false =>
      inferInstanceAs (Decidable (∀ e ∈ answeredItem ctx id, ∀ m ∈ ctx.list.toList, _))
  | .response _ true | .watch _ _ | .unwatchEx _ _ | .cnxLost | .handshake | .connect
  | .closeCnx => inferInstanceAs (Decidable True)

section Coverage

variable {keyCmp : Key → Key → Ordering}

/-- The registry stays a search tree. -/
def ListenCtx.WellFormed (keyCmp : Key → Key → Ordering) (ctx : ListenCtx) : Prop :=
  ctx.list.Ordered (wcDatasyncPathCmp keyCmp)

/-- What the registry holds for a path. -/
def ListenCtx.item (keyCmp : Key → Key → Ordering) (ctx : ListenCtx) (path : Path) :
    Option ListenItem :=
  avlFind (wcDatasyncPathCmp keyCmp) path ctx.list

def ListenCtx.IsMasked (keyCmp : Key → Key → Ordering) (ctx : ListenCtx) (path : Path) : Prop :=
  ∃ li, ctx.item keyCmp path = some li ∧ li.status = .masked

def ListenCtx.Listens (keyCmp : Key → Key → Ordering) (ctx : ListenCtx) (path : Path) : Prop :=
  ∃ li, ctx.item keyCmp path = some li ∧ li.status.listens

variable {ctx : ListenCtx}

theorem ListenCtx.WellFormed.setStatus (hwf : ctx.WellFormed keyCmp) (p : Path)
    (s : ListenStatus) : (setStatus keyCmp p s ctx).WellFormed keyCmp :=
  ordered_avlModify hwf p _

variable [TransCmp keyCmp] [LawfulEqCmp keyCmp]

theorem ListenCtx.WellFormed.item_eq_some_iff (hwf : ctx.WellFormed keyCmp) {p : Path}
    {li : ListenItem} : ctx.item keyCmp p = some li ↔ (p, li) ∈ ctx.list.toList :=
  avlFind_eq_some_iff hwf

theorem maskedCovered_iff (hwf : ctx.WellFormed keyCmp) :
    ctx.MaskedCovered ↔ Covered Above (ctx.IsMasked keyCmp) (ctx.Listens keyCmp) := by
  constructor
  · rintro h p ⟨li, hli, hst⟩
    obtain ⟨⟨a, la⟩, hmem, habove, hlis⟩ := h _ (hwf.item_eq_some_iff.mp hli) hst
    exact ⟨a, habove, la, hwf.item_eq_some_iff.mpr hmem, hlis⟩
  · rintro h ⟨p, li⟩ hmem hst
    obtain ⟨a, habove, la, hla, hlis⟩ := h p ⟨li, hwf.item_eq_some_iff.mpr hmem, hst⟩
    exact ⟨(a, la), hwf.item_eq_some_iff.mp hla, habove, hlis⟩

/-! ### What one write does -/

@[simp] theorem list_wcDatasyncListen (p : Path) (a : Addr) :
    (wcDatasyncListen p a ctx).list = ctx.list := rfl

@[simp] theorem list_wcDatasyncUnlisten (p : Path) : (wcDatasyncUnlisten p ctx).list = ctx.list :=
  rfl

theorem item_setStatus (hwf : ctx.WellFormed keyCmp) (p q : Path) (s : ListenStatus) :
    (setStatus keyCmp p s ctx).item keyCmp q =
      (ctx.item keyCmp q).map fun li => if q = p then { li with status := s } else li := by
  rw [ListenCtx.item, Datasync.setStatus, avlFind_avlModify hwf]
  split <;> simp_all [ListenCtx.item]

/-! ### Loops -/

/-- `body` writes the status `hit s` to an item of status `s`, or nothing. -/
def Rewrites (keyCmp : Key → Key → Ordering) (body : ListenCtx → Path × ListenItem → ListenCtx)
    (hit : ListenStatus → Option ListenStatus) : Prop :=
  ∀ ctx e, (body ctx e).list =
    match hit e.2.status with
    | some s => (setStatus keyCmp e.1 s ctx).list
    | none => ctx.list

def ListenItem.rewritten (hit : ListenStatus → Option ListenStatus) (li : ListenItem) :
    ListenItem :=
  { li with status := (hit li.status).getD li.status }

theorem Rewrites.body {body : ListenCtx → Path × ListenItem → ListenCtx}
    {hit : ListenStatus → Option ListenStatus} (hbody : Rewrites keyCmp body hit)
    (hwf : ctx.WellFormed keyCmp) {e : Path × ListenItem}
    (he : ctx.item keyCmp e.1 = some e.2) :
    (body ctx e).WellFormed keyCmp ∧ ∀ q, (body ctx e).item keyCmp q =
      (ctx.item keyCmp q).map fun li => if q = e.1 then li.rewritten hit else li := by
  have hlist := hbody ctx e
  cases hs : hit e.2.status with
  | none =>
      rw [hs] at hlist
      refine ⟨by rwa [ListenCtx.WellFormed, hlist], fun q => ?_⟩
      rw [ListenCtx.item, hlist]
      show ctx.item keyCmp q = _
      by_cases hq : q = e.1
      · subst hq
        simp [he, ListenItem.rewritten, hs]
      · simp [hq]
  | some s =>
      rw [hs] at hlist
      have hset := hwf.setStatus e.1 s
      refine ⟨by rwa [ListenCtx.WellFormed, hlist], fun q => ?_⟩
      rw [ListenCtx.item, hlist]
      show (setStatus keyCmp e.1 s ctx).item keyCmp q = _
      rw [item_setStatus hwf]
      by_cases hq : q = e.1
      · subst hq
        simp [he, ListenItem.rewritten, hs]
      · simp [hq]

/-- A loop over items of the registry rewrites each of them once. -/
theorem Rewrites.foldl {body : ListenCtx → Path × ListenItem → ListenCtx}
    {hit : ListenStatus → Option ListenStatus} (hbody : Rewrites keyCmp body hit)
    {items : List (Path × ListenItem)} (hnodup : (items.map Prod.fst).Nodup)
    (hwf : ctx.WellFormed keyCmp) (hin : ∀ e ∈ items, ctx.item keyCmp e.1 = some e.2) :
    (items.foldl body ctx).WellFormed keyCmp ∧ ∀ q, (items.foldl body ctx).item keyCmp q =
      (ctx.item keyCmp q).map fun li =>
        if q ∈ items.map Prod.fst then li.rewritten hit else li := by
  induction items generalizing ctx with
  | nil => exact ⟨hwf, fun q => by simp⟩
  | cons e items ih =>
      rw [List.map_cons, List.nodup_cons] at hnodup
      obtain ⟨hwf', hitem⟩ := hbody.body hwf (hin e List.mem_cons_self)
      have hin' : ∀ e' ∈ items, (body ctx e).item keyCmp e'.1 = some e'.2 := by
        intro e' he'
        have hne : e'.1 ≠ e.1 := fun h => hnodup.1 (h ▸ List.mem_map_of_mem he')
        simp [hitem, hin e' (List.mem_cons_of_mem _ he'), hne]
      obtain ⟨hwf'', hitems⟩ := ih hnodup.2 hwf' hin'
      refine ⟨hwf'', fun q => ?_⟩
      rw [List.foldl_cons, hitems, hitem, Option.map_map]
      refine Option.map_congr fun li _ => ?_
      simp only [Function.comp_apply, List.map_cons, List.mem_cons]
      by_cases hq : q = e.1
      · subst hq
        simp [hnodup.1]
      · rw [if_neg hq]
        exact if_congr (by simp only [hq, false_or]) rfl rfl

omit [TransCmp keyCmp] in
theorem ListenCtx.WellFormed.nodup_keys {items : List (Path × ListenItem)}
    (hwf : ctx.WellFormed keyCmp) (hsub : items.Sublist ctx.list.toList) :
    (items.map Prod.fst).Nodup := by
  have hlt : items.Pairwise fun a b => wcDatasyncPathCmp keyCmp a.1 b.1 = .lt :=
    List.Pairwise.sublist hsub hwf
  refine List.pairwise_map.mpr (hlt.imp fun {a b} h heq => ?_)
  have heq' : wcDatasyncPathCmp keyCmp a.1 b.1 = .eq := pathCmp_eq_iff.mpr heq
  rw [heq'] at h
  cases h

theorem ListenCtx.WellFormed.item_of_sublist {items : List (Path × ListenItem)}
    (hwf : ctx.WellFormed keyCmp) (hsub : items.Sublist ctx.list.toList) :
    ∀ e ∈ items, ctx.item keyCmp e.1 = some e.2 :=
  fun _ he => hwf.item_eq_some_iff.mpr (hsub.subset he)

def maskHit : ListenStatus → Option ListenStatus
  | .active | .pending | .required => some .masked
  | _ => none

def suspendHit : ListenStatus → Option ListenStatus
  | .active | .pending => some .required
  | _ => none

def resumeHit : ListenStatus → Option ListenStatus
  | .required | .pending => some .pending
  | _ => none

omit [TransCmp keyCmp] [LawfulEqCmp keyCmp] in
theorem rewrites_maskItem : Rewrites keyCmp (maskItem keyCmp) maskHit := by
  rintro ctx ⟨p, li⟩
  cases h : li.status <;> simp [maskItem, maskHit, h]

omit [TransCmp keyCmp] [LawfulEqCmp keyCmp] in
theorem rewrites_suspendItem : Rewrites keyCmp (suspendItem keyCmp) suspendHit := by
  rintro ctx ⟨p, li⟩
  cases h : li.status <;> simp [suspendItem, suspendHit, h]

omit [TransCmp keyCmp] [LawfulEqCmp keyCmp] in
theorem rewrites_resumeItem : Rewrites keyCmp (resumeItem keyCmp) resumeHit := by
  rintro ctx ⟨p, li⟩
  cases h : li.status <;> simp [resumeItem, resumeHit, h]

/-- A loop over the whole registry rewrites every item. -/
theorem Rewrites.foldl_all {body : ListenCtx → Path × ListenItem → ListenCtx}
    {hit : ListenStatus → Option ListenStatus} (hbody : Rewrites keyCmp body hit)
    (hwf : ctx.WellFormed keyCmp) :
    (ctx.list.toList.foldl body ctx).WellFormed keyCmp ∧ ∀ q,
      (ctx.list.toList.foldl body ctx).item keyCmp q =
        (ctx.item keyCmp q).map (ListenItem.rewritten hit) := by
  have hsub := List.Sublist.refl ctx.list.toList
  obtain ⟨hwf', hitem⟩ := hbody.foldl (hwf.nodup_keys hsub) hwf (hwf.item_of_sublist hsub)
  refine ⟨hwf', fun q => (hitem q).trans (Option.map_congr fun li hli => ?_)⟩
  have hq : q ∈ ctx.list.toList.map Prod.fst :=
    List.mem_map_of_mem (hwf.item_eq_some_iff.mp hli)
  rw [if_pos hq]

theorem maskListenRequest_spec (hwf : ctx.WellFormed keyCmp) {p : Path}
    (hp : ctx.item keyCmp p ≠ none) :
    (maskListenRequest keyCmp p ctx).WellFormed keyCmp ∧ ∀ q,
      (maskListenRequest keyCmp p ctx).item keyCmp q =
        (ctx.item keyCmp q).map fun li => if Above p q then li.rewritten maskHit else li := by
  obtain ⟨lp, hlp⟩ := Option.ne_none_iff_exists'.mp hp
  have hsub : (walkStrictlyBelow keyCmp p ctx.list).Sublist ctx.list.toList :=
    sublist_walkStrictlyBelow hwf
  obtain ⟨hwf', hitem⟩ :=
    rewrites_maskItem.foldl (hwf.nodup_keys hsub) hwf (hwf.item_of_sublist hsub)
  refine ⟨hwf', fun q => (hitem q).trans (Option.map_congr fun li hli => ?_)⟩
  have hq : q ∈ (walkStrictlyBelow keyCmp p ctx.list).map Prod.fst ↔ Above p q := by
    rw [List.mem_map]
    constructor
    · rintro ⟨e, he, rfl⟩
      obtain ⟨-, hpre, hne⟩ :=
        (mem_walkStrictlyBelow hwf (hwf.item_eq_some_iff.mp hlp)).mp he
      exact ⟨hpre, Ne.symm hne⟩
    · rintro ⟨hpre, hne⟩
      exact ⟨(q, li), (mem_walkStrictlyBelow hwf (hwf.item_eq_some_iff.mp hlp)).mpr
        ⟨hwf.item_eq_some_iff.mp hli, hpre, Ne.symm hne⟩, rfl⟩
  simp only [hq]

/-! ### Unmasking -/

theorem requestListen_spec (hwf : ctx.WellFormed keyCmp) (p : Path) (a : Addr) :
    (requestListen keyCmp p a ctx).WellFormed keyCmp ∧
      ∃ s : ListenStatus, s.listens ∧ ∀ q, (requestListen keyCmp p a ctx).item keyCmp q =
        (ctx.item keyCmp q).map fun li => if q = p then { li with status := s } else li := by
  by_cases hst : ctx.state = .connected
  · rw [requestListen, if_pos hst]
    exact ⟨hwf.setStatus p _, .pending, rfl, fun q => item_setStatus hwf p q _⟩
  · rw [requestListen, if_neg hst]
    exact ⟨hwf.setStatus p _, .required, rfl, fun q => item_setStatus hwf p q _⟩

/-- What the loop of `unmask_listen_request` does to the items it visits: one
is left alone, or was masked and listens now; and one that stays masked has a
visited item above it that listens, or the one remembered when the loop
began. -/
structure Unmasking (keyCmp : Key → Key → Ordering) (items : List (Path × ListenItem))
    (ctx ctx' : ListenCtx) : Prop where
  wellFormed : ctx'.WellFormed keyCmp
  outside : ∀ q ∉ items.map Prod.fst, ctx'.item keyCmp q = ctx.item keyCmp q
  visited : ∀ e ∈ items, ctx'.item keyCmp e.1 = some e.2 ∨ ctx'.Listens keyCmp e.1
  covered : ∀ e ∈ items, ctx'.IsMasked keyCmp e.1 → ∃ t, Above t e.1 ∧ ctx'.Listens keyCmp t

omit [TransCmp keyCmp] [LawfulEqCmp keyCmp] in
/-- An item that the loop passes over, covered by the one remembered if it is masked. -/
theorem Unmasking.pass {items : List (Path × ListenItem)} {p : Path} {li : ListenItem}
    (h : Unmasking keyCmp items ctx ctx') (hnot : p ∉ items.map Prod.fst)
    (hp : ctx.item keyCmp p = some li)
    (hcover : li.status = .masked →
      ∃ t, Above t p ∧ ctx.Listens keyCmp t ∧ t ∉ items.map Prod.fst) :
    Unmasking keyCmp ((p, li) :: items) ctx ctx' where
  wellFormed := h.wellFormed
  outside q hq := h.outside q (List.not_mem_of_not_mem_cons hq)
  visited := by
    refine List.forall_mem_cons.mpr ⟨.inl ?_, h.visited⟩
    rw [h.outside p hnot, hp]
  covered := by
    refine List.forall_mem_cons.mpr ⟨?_, h.covered⟩
    rintro ⟨li', hli', hst⟩
    rw [h.outside p hnot, hp] at hli'
    obtain rfl := Option.some.inj hli'
    obtain ⟨t, habove, ⟨lt, hlt, hlis⟩, hout⟩ := hcover hst
    exact ⟨t, habove, lt, by rw [h.outside t hout, hlt], hlis⟩

omit [TransCmp keyCmp] [LawfulEqCmp keyCmp] in
/-- An item that is asked for. -/
theorem Unmasking.listen {ctx₁ : ListenCtx} {items : List (Path × ListenItem)} {p : Path}
    {li : ListenItem} {s : ListenStatus} (h : Unmasking keyCmp items ctx₁ ctx')
    (hnot : p ∉ items.map Prod.fst) (hs : s.listens)
    (hp : ctx₁.item keyCmp p = some { li with status := s })
    (hout : ∀ q, q ≠ p → ctx₁.item keyCmp q = ctx.item keyCmp q) :
    Unmasking keyCmp ((p, li) :: items) ctx ctx' := by
  have hp' := (h.outside p hnot).trans hp
  refine ⟨h.wellFormed, fun q hq => ?_, ?_, ?_⟩
  · rw [h.outside q (List.not_mem_of_not_mem_cons hq), hout q (List.ne_of_not_mem_cons hq)]
  · exact List.forall_mem_cons.mpr ⟨.inr ⟨_, hp', hs⟩, h.visited⟩
  · refine List.forall_mem_cons.mpr ⟨?_, h.covered⟩
    rintro ⟨li', hli', hst⟩
    rw [hp'] at hli'
    obtain rfl := Option.some.inj hli'
    -- what listens is not masked
    rw [show s = .masked from hst] at hs
    simp [ListenStatus.listens] at hs

theorem unmaskLoop_spec {items : List (Path × ListenItem)} {top : Option Path}
    (hnodup : (items.map Prod.fst).Nodup) (hwf : ctx.WellFormed keyCmp)
    (hin : ∀ e ∈ items, ctx.item keyCmp e.1 = some e.2)
    (htop : ∀ t ∈ top, ctx.Listens keyCmp t ∧ t ∉ items.map Prod.fst) :
    Unmasking keyCmp items ctx (unmaskLoop keyCmp top ctx items) := by
  induction items generalizing ctx top with
  | nil => exact ⟨hwf, fun _ _ => rfl, by simp, by simp⟩
  | cons e items ih =>
      obtain ⟨p, li⟩ := e
      rw [List.map_cons, List.nodup_cons] at hnodup
      have hp : ctx.item keyCmp p = some li := hin _ List.mem_cons_self
      have hin' : ∀ e' ∈ items, ctx.item keyCmp e'.1 = some e'.2 :=
        fun e' he' => hin e' (List.mem_cons_of_mem _ he')
      have htop' : ∀ t ∈ top, ctx.Listens keyCmp t ∧ t ∉ items.map Prod.fst := fun t ht =>
        ⟨(htop t ht).1, fun hmem => (htop t ht).2 (List.mem_cons_of_mem _ hmem)⟩
      rw [unmaskLoop]
      split
      next hskip =>
        obtain ⟨t, ht, hpre⟩ := (Option.any_eq_true _ _).mp hskip
        refine (ih hnodup.2 hwf hin' htop').pass hnodup.1 hp fun _ =>
          ⟨t, ⟨wcDatasyncPathStartsWith_iff.mp hpre, ?_⟩, htop' t ht⟩
        rintro rfl
        exact (htop t ht).2 List.mem_cons_self
      next =>
        split
        next hmasked =>
          obtain ⟨hwf₁, s, hs, hitem⟩ := requestListen_spec hwf p li.addr
          have hp₁ : (requestListen keyCmp p li.addr ctx).item keyCmp p =
              some { li with status := s } := by simp [hitem, hp]
          have hout₁ : ∀ q, q ≠ p →
              (requestListen keyCmp p li.addr ctx).item keyCmp q = ctx.item keyCmp q := by
            intro q hq
            simp [hitem, hq]
          have hin₁ : ∀ e' ∈ items,
              (requestListen keyCmp p li.addr ctx).item keyCmp e'.1 = some e'.2 := by
            intro e' he'
            rw [hout₁ _ fun h => hnodup.1 (List.mem_map.mpr ⟨e', he', h⟩), hin' e' he']
          -- the item just asked for is the one to remember
          have htop₁ : ∀ t ∈ some p,
              (requestListen keyCmp p li.addr ctx).Listens keyCmp t ∧
                t ∉ items.map Prod.fst := by
            rintro t ⟨⟩
            exact ⟨⟨_, hp₁, hs⟩, hnodup.1⟩
          exact (ih hnodup.2 hwf₁ hin₁ htop₁).listen hnodup.1 hs hp₁ hout₁
        next hmasked =>
          exact (ih hnodup.2 hwf hin' htop').pass hnodup.1 hp fun h => absurd h hmasked

theorem unmaskListenRequest_spec (hwf : ctx.WellFormed keyCmp) (p : Path) :
    let ctx' := unmaskListenRequest keyCmp p ctx
    ctx'.WellFormed keyCmp ∧
      (∀ q, ¬ p <+: q → ctx'.item keyCmp q = ctx.item keyCmp q) ∧
      (∀ q, ctx.Listens keyCmp q → ctx'.Listens keyCmp q) ∧
      ∀ q, p <+: q → ctx'.IsMasked keyCmp q → ∃ t, Above t q ∧ ctx'.Listens keyCmp t := by
  have hsub : (walkBelow keyCmp p ctx.list).Sublist ctx.list.toList := sublist_walkBelow hwf
  have htop : ∀ t ∈ (none : Option Path), ctx.Listens keyCmp t ∧
      t ∉ (walkBelow keyCmp p ctx.list).map Prod.fst := by simp
  obtain ⟨hwf', hout, hkept, hstay⟩ :=
    unmaskLoop_spec (hwf.nodup_keys hsub) hwf (hwf.item_of_sublist hsub) htop
  have hmem : ∀ q li, ctx.item keyCmp q = some li → p <+: q →
      (q, li) ∈ walkBelow keyCmp p ctx.list := fun q li hli hpre =>
    (mem_walkBelow hwf).mpr ⟨hwf.item_eq_some_iff.mp hli, hpre⟩
  have hnot : ∀ q, (¬ p <+: q ∨ ctx.item keyCmp q = none) →
      q ∉ (walkBelow keyCmp p ctx.list).map Prod.fst := by
    rintro q hq hmem
    obtain ⟨e, he, rfl⟩ := List.mem_map.mp hmem
    obtain ⟨hin, hpre⟩ := (mem_walkBelow hwf).mp he
    rcases hq with hq | hq
    · exact hq hpre
    · rw [hwf.item_eq_some_iff.mpr hin] at hq
      cases hq
  refine ⟨hwf', fun q hq => hout q (hnot q (.inl hq)), ?_, ?_⟩
  · rintro q ⟨li, hli, hlis⟩
    by_cases hpre : p <+: q
    · rcases hkept _ (hmem q li hli hpre) with h | h
      · exact ⟨li, h, hlis⟩
      · exact h
    · exact ⟨li, by rw [unmaskListenRequest, hout q (hnot q (.inl hpre)), hli], hlis⟩
  · rintro q hpre hmasked
    cases hq : ctx.item keyCmp q with
    | none =>
        obtain ⟨li, hli, -⟩ := hmasked
        rw [unmaskListenRequest, hout q (hnot q (.inr hq)), hq] at hli
        cases hli
    | some li => exact hstay _ (hmem q li hq hpre) hmasked

/-! ### Operations -/

/-- The registry is a search tree in which every masked item is covered. -/
structure ListenCtx.Sound (keyCmp : Key → Key → Ordering) (ctx : ListenCtx) : Prop where
  wellFormed : ctx.WellFormed keyCmp
  covered : Covered Above (ctx.IsMasked keyCmp) (ctx.Listens keyCmp)

omit [TransCmp keyCmp] [LawfulEqCmp keyCmp] in
/-- Rewriting statuses keeps the registry sound if what listened still listens
and nothing is masked anew. -/
theorem ListenCtx.Sound.map {ctx' : ListenCtx} (h : ctx.Sound keyCmp)
    (hwf' : ctx'.WellFormed keyCmp) {f : Path → ListenItem → ListenItem}
    (hitem : ∀ q, ctx'.item keyCmp q = (ctx.item keyCmp q).map (f q))
    (hlis : ∀ q li, li.status.listens → (f q li).status.listens)
    (hmask : ∀ q li, (f q li).status = .masked → li.status = .masked) : ctx'.Sound keyCmp := by
  refine ⟨hwf', h.covered.mono ?_ ?_⟩
  · rintro q ⟨li, hli, hst⟩
    rw [hitem, Option.map_eq_some_iff] at hli
    obtain ⟨li', hli', rfl⟩ := hli
    exact ⟨li', hli', hmask q li' hst⟩
  · rintro q ⟨li, hli, hst⟩
    exact ⟨f q li, by rw [hitem, hli, Option.map_some], hlis q li hst⟩

omit [TransCmp keyCmp] [LawfulEqCmp keyCmp] in
theorem isMasked_eq_true_iff {p : Path} :
    isMasked keyCmp ctx.list p = true ↔ ∃ a, Above a p ∧ ctx.Listens keyCmp a := by
  simp only [isMasked, List.any_eq_true, List.mem_range]
  constructor
  · rintro ⟨n, hn, h⟩
    refine ⟨p.take n, above_take hn, ?_⟩
    · cases hli : avlFind (wcDatasyncPathCmp keyCmp) (p.take n) ctx.list with
      | none => simp [hli] at h
      | some li => exact ⟨li, hli, by simpa [hli] using h⟩
  · rintro ⟨a, ⟨hpre, hne⟩, li, hli, hlis⟩
    refine ⟨a.length, ?_, ?_⟩
    · exact Nat.lt_of_le_of_ne hpre.length_le fun h => hne (hpre.eq_of_length h)
    · rw [← List.prefix_iff_eq_take.mp hpre]
      rw [ListenCtx.item] at hli
      simp [hli, hlis]

/-- The item of the path is there afterwards, a new one with the status that
`is_masked` asks for; no other item changes. -/
theorem listenRegistryAddEx_spec (hwf : ctx.WellFormed keyCmp) (p : Path) (addr : Addr) :
    let r := listenRegistryAddEx keyCmp p addr ctx
    r.1.WellFormed keyCmp ∧
      (∀ q, r.1.item keyCmp q = if q = p then some r.2 else ctx.item keyCmp q) ∧
      r.2 = match ctx.item keyCmp p with
        | none => ⟨if isMasked keyCmp ctx.list p then .masked else .required, 1, addr⟩
        | some li => { li with ref := li.ref + 1 } := by
  rw [listenRegistryAddEx, ListenCtx.item]
  cases hp : avlFind (wcDatasyncPathCmp keyCmp) p ctx.list with
  | none =>
      refine ⟨ordered_avlInsertRec hwf _ (avlFind_eq_none_iff.mp hp), fun q => ?_, rfl⟩
      rw [ListenCtx.item, avlFind_avlInsertRec hwf _ hp]
      simp only [pathCmp_eq_iff]
      rfl
  | some li =>
      refine ⟨ordered_avlModify hwf p _, fun q => ?_, rfl⟩
      rw [ListenCtx.item, avlFind_avlModify hwf]
      simp only [pathCmp_eq_iff]
      by_cases hq : q = p
      · simp [hq, hp]
      · simp [ListenCtx.item, hq]

/-- The registry without the item of a path. -/
def ListenCtx.without (keyCmp : Key → Key → Ordering) (ctx : ListenCtx) (p : Path) : ListenCtx :=
  { ctx with list := avlRemove (wcDatasyncPathCmp keyCmp) p ctx.list }

omit [LawfulEqCmp keyCmp] in
theorem ListenCtx.WellFormed.without (hwf : ctx.WellFormed keyCmp) (p : Path) :
    (ctx.without keyCmp p).WellFormed keyCmp := ordered_avlRemove hwf p

theorem item_without (hwf : ctx.WellFormed keyCmp) (p q : Path) :
    (ctx.without keyCmp p).item keyCmp q = if q = p then none else ctx.item keyCmp q := by
  rw [ListenCtx.item, ListenCtx.without, avlFind_avlRemove hwf]
  simp only [pathCmp_eq_iff]
  rfl

/-- What a call of `wc_datasync_unwatch_ex` that meets the assertion does. -/
theorem wcDatasyncUnwatchEx_cases (hwf : ctx.WellFormed keyCmp) {p : Path} {refDec : ℕ}
    {ctx' : ListenCtx} (hstep : wcDatasyncUnwatchEx keyCmp p refDec ctx = some ctx') :
    (ctx.item keyCmp p = none ∧ ctx' = ctx) ∨
      (∃ li, ctx.item keyCmp p = some li ∧ refDec < li.ref ∧ ctx'.WellFormed keyCmp ∧
        ctx' = { ctx with list := ctx'.list } ∧
        ∀ q, ctx'.item keyCmp q = (ctx.item keyCmp q).map fun lq =>
          if q = p then { lq with ref := lq.ref - refDec } else lq) ∨
      ∃ li, ctx.item keyCmp p = some li ∧ li.ref = refDec ∧
        ctx' = unmaskListenRequest keyCmp p (wcDatasyncUnlisten p (ctx.without keyCmp p)) := by
  rw [wcDatasyncUnwatchEx, listenRegistryUnref] at hstep
  cases hp : avlFind (wcDatasyncPathCmp keyCmp) p ctx.list with
  | none =>
      simp only [hp, Option.some.injEq] at hstep
      exact .inl ⟨hp, hstep.symm⟩
  | some li =>
      simp only [hp] at hstep
      rcases Nat.lt_trichotomy li.ref refDec with hlt | heq | hgt
      · simp [hlt] at hstep
      · have hzero : ¬ li.ref - refDec > 0 := by omega
        simp only [heq.not_lt, hzero, if_false, Option.some.injEq] at hstep
        exact .inr (.inr ⟨li, hp, heq, hstep.symm⟩)
      · have hpos : li.ref - refDec > 0 := by omega
        simp only [Nat.not_lt.mpr hgt.le, hpos, if_true, if_false, Option.some.injEq] at hstep
        subst hstep
        refine .inr (.inl ⟨li, hp, hgt, ordered_avlModify hwf p _, rfl, fun q => ?_⟩)
        rw [ListenCtx.item, avlFind_avlModify hwf]
        simp only [pathCmp_eq_iff]
        by_cases hq : q = p <;> simp [ListenCtx.item, hq]

theorem listenRegistryAddEx_sound (h : ctx.Sound keyCmp) (p : Path) (addr : Addr) :
    let r := listenRegistryAddEx keyCmp p addr ctx
    r.1.Sound keyCmp ∧ r.1.item keyCmp p = some r.2 := by
  obtain ⟨hwf', hitem, hnew⟩ := listenRegistryAddEx_spec h.wellFormed p addr
  generalize listenRegistryAddEx keyCmp p addr ctx = r at hwf' hitem hnew ⊢
  obtain ⟨ctx', li⟩ := r
  refine ⟨⟨hwf', ?_⟩, (hitem p).trans (if_pos rfl)⟩
  have hlis : ∀ q, ctx.Listens keyCmp q → ctx'.Listens keyCmp q := by
    rintro q ⟨lq, hlq, hst⟩
    rcases eq_or_ne q p with rfl | hq
    · rw [hlq] at hnew
      obtain rfl : li = { lq with ref := lq.ref + 1 } := hnew
      exact ⟨_, (hitem q).trans (if_pos rfl), hst⟩
    · exact ⟨lq, by rw [hitem, if_neg hq, hlq], hst⟩
  have hmask : ∀ q, ctx'.IsMasked keyCmp q → ctx.IsMasked keyCmp q ∨
      (q = p ∧ isMasked keyCmp ctx.list p = true) := by
    rintro q ⟨lq, hlq, hst⟩
    rw [hitem] at hlq
    split at hlq
    next hq =>
      obtain rfl := Option.some.inj hlq
      subst hq
      cases hold : ctx.item keyCmp q with
      | none =>
          rw [hold] at hnew
          refine .inr ⟨rfl, ?_⟩
          by_contra hm
          rw [hnew, if_neg hm] at hst
          cases hst
      | some lo =>
          rw [hold] at hnew
          exact .inl ⟨lo, hold, by rw [← hst, hnew]⟩
    next => exact .inl ⟨lq, hlq, hst⟩
  have hmono : Covered Above (ctx.IsMasked keyCmp) (ctx'.Listens keyCmp) :=
    h.covered.mono (fun _ hq => hq) hlis
  by_cases hm : isMasked keyCmp ctx.list p = true
  · obtain ⟨a, habove, hlisa⟩ := isMasked_eq_true_iff.mp hm
    exact hmono.mask habove (hlis a hlisa) fun q hq => (hmask q hq).imp_right And.left
  · exact hmono.mono (fun q hq => (hmask q hq).resolve_right fun h => hm h.2) fun _ hq => hq

theorem listenAndMask_sound (h : ctx.Sound keyCmp) {p : Path} (hp : ctx.item keyCmp p ≠ none)
    (a : Addr) : (maskListenRequest keyCmp p (requestListen keyCmp p a ctx)).Sound keyCmp := by
  obtain ⟨hwf₁, s, hs, hitem₁⟩ := requestListen_spec h.wellFormed p a
  have hp₁ : (requestListen keyCmp p a ctx).item keyCmp p ≠ none := by simp [hitem₁, hp]
  obtain ⟨hwf', hitem⟩ := maskListenRequest_spec hwf₁ hp₁
  refine ⟨hwf', h.covered.takeOver Above.trans (p := p) ?_ ?_ ?_⟩
  · obtain ⟨li, hli⟩ := Option.ne_none_iff_exists'.mp hp
    refine ⟨{ li with status := s }, ?_, hs⟩
    rw [hitem, hitem₁, hli]
    simp [Above]
  · rintro q ⟨li, hli, hst⟩
    by_cases hpq : Above p q
    · exact .inr hpq
    · rw [hitem, hitem₁] at hli
      simp only [hpq, if_false, Option.map_map] at hli
      obtain ⟨lq, hlq, rfl⟩ := Option.map_eq_some_iff.mp hli
      refine .inl ⟨lq, hlq, ?_⟩
      by_cases hq : q = p
      · simp only [Function.comp_apply, hq, if_true] at hst
        rw [hst] at hs
        simp [ListenStatus.listens] at hs
      · simpa [hq] using hst
  · rintro q ⟨li, hli, hst⟩
    by_cases hpq : Above p q
    · exact .inr hpq
    · refine .inl ?_
      by_cases hq : q = p
      · subst hq
        refine ⟨{ li with status := s }, ?_, hs⟩
        rw [hitem, hitem₁, hli]
        simp [hpq]
      · refine ⟨li, ?_, hst⟩
        rw [hitem, hitem₁, hli]
        simp [hpq, hq]

theorem wcDatasyncWatch_sound (h : ctx.Sound keyCmp) (path : Bytes) (addr : Addr) :
    (wcDatasyncWatch keyCmp path addr ctx).Sound keyCmp := by
  obtain ⟨hadd, hitem⟩ := listenRegistryAddEx_sound h (wcDatasyncPathParse path) addr
  simp only [wcDatasyncWatch]
  split
  · exact listenAndMask_sound hadd (by simp [hitem]) _
  · exact hadd

theorem wcDatasyncUnwatchEx_sound (h : ctx.Sound keyCmp) {p : Path} {refDec : ℕ}
    {ctx' : ListenCtx} (hstep : wcDatasyncUnwatchEx keyCmp p refDec ctx = some ctx') :
    ctx'.Sound keyCmp := by
  have hwf := h.wellFormed
  rcases wcDatasyncUnwatchEx_cases hwf hstep with
    ⟨-, rfl⟩ | ⟨li, -, -, hwf', -, hitem⟩ | ⟨li, -, -, rfl⟩
  · exact h
  · refine h.map hwf' hitem (fun q lq hst => ?_) (fun q lq hst => ?_)
    · split <;> exact hst
    · split at hst <;> exact hst
  · have hitem₁ : ∀ q, q ≠ p →
        (wcDatasyncUnlisten p (ctx.without keyCmp p)).item keyCmp q = ctx.item keyCmp q :=
      fun q hq => (item_without hwf p q).trans (if_neg hq)
    have hwf₁ : (wcDatasyncUnlisten p (ctx.without keyCmp p)).WellFormed keyCmp := hwf.without p
    obtain ⟨hwf', hout, hlis, hcover⟩ := unmaskListenRequest_spec hwf₁ p
    refine ⟨hwf', h.covered.release (p := p) ?_ ?_⟩
    · rintro q hmasked
      by_cases hpre : p <+: q
      · exact .inr (hcover q hpre hmasked)
      · obtain ⟨lq, hlq, hst⟩ := hmasked
        have hne : q ≠ p := fun heq => hpre (heq ▸ List.prefix_rfl)
        exact .inl ⟨⟨lq, by rw [← hitem₁ q hne, ← hout q hpre, hlq], hst⟩,
          fun habove => hpre habove.1⟩
    · rintro q ⟨lq, hlq, hst⟩ hne
      exact hlis q ⟨lq, by rw [hitem₁ q hne, hlq], hst⟩

theorem wcListenSuspendAll_sound (h : ctx.Sound keyCmp) :
    (wcListenSuspendAll keyCmp ctx).Sound keyCmp := by
  obtain ⟨hwf', hitem⟩ := rewrites_suspendItem.foldl_all h.wellFormed
  refine h.map hwf' (f := fun _ => ListenItem.rewritten suspendHit) hitem ?_ ?_
  · rintro - ⟨s, r, a⟩ hst
    cases s <;> simp_all [ListenItem.rewritten, suspendHit, ListenStatus.listens]
  · rintro - ⟨s, r, a⟩ hst
    cases s <;> simp_all [ListenItem.rewritten, suspendHit]

theorem wcListenResumeAll_sound (h : ctx.Sound keyCmp) :
    (wcListenResumeAll keyCmp ctx).Sound keyCmp := by
  obtain ⟨hwf', hitem⟩ := rewrites_resumeItem.foldl_all h.wellFormed
  refine h.map hwf' (f := fun _ => ListenItem.rewritten resumeHit) hitem ?_ ?_
  · rintro - ⟨s, r, a⟩ hst
    cases s <;> simp_all [ListenItem.rewritten, resumeHit, ListenStatus.listens]
  · rintro - ⟨s, r, a⟩ hst
    cases s <;> simp_all [ListenItem.rewritten, resumeHit]

/-! ### Responses -/

variable (keyCmp ctx) in
omit [TransCmp keyCmp] [LawfulEqCmp keyCmp] in
theorem list_wcDatasyncReqResponseDispatch (id : ℕ) (ok : Bool) :
    (wcDatasyncReqResponseDispatch keyCmp id ok ctx).list =
      match answeredItem ctx id with
      | some e => (setStatus keyCmp e.1 (if ok then .active else .failed) ctx).list
      | none => ctx.list := by
  rw [wcDatasyncReqResponseDispatch, answeredItem]
  cases ctx.pendingReqTable.find? fun t => t.id = id with
  | none => rfl
  | some req =>
      cases huser : req.user with
      | none => simp [huser]
      | some user =>
          simp only [huser, Option.bind_some, onListenResult]
          cases ctx.list.toList.find? fun e => e.2.addr = user <;> rfl

theorem mem_of_answeredItem {id : ℕ} {e : Path × ListenItem}
    (he : answeredItem ctx id = some e) : e ∈ ctx.list.toList := by
  rw [answeredItem] at he
  obtain ⟨req, -, he⟩ := Option.bind_eq_some_iff.mp he
  obtain ⟨user, -, he⟩ := Option.bind_eq_some_iff.mp he
  exact List.mem_of_find?_eq_some he

theorem ListenCtx.Sound.response {ctx' : ListenCtx} (h : ctx.Sound keyCmp)
    {e : Path × ListenItem} {s : ListenStatus}
    (hlist : ctx'.list = (setStatus keyCmp e.1 s ctx).list) :
    ctx'.WellFormed keyCmp ∧ ∀ q, ctx'.item keyCmp q =
      (ctx.item keyCmp q).map fun li => if q = e.1 then { li with status := s } else li := by
  have hset := h.wellFormed.setStatus e.1 s
  refine ⟨by rwa [ListenCtx.WellFormed, hlist], fun q => ?_⟩
  rw [ListenCtx.item, hlist]
  exact item_setStatus h.wellFormed e.1 q s

theorem wcDatasyncReqResponseDispatch_ok_sound (h : ctx.Sound keyCmp) (id : ℕ) :
    (wcDatasyncReqResponseDispatch keyCmp id true ctx).Sound keyCmp := by
  have hlist := list_wcDatasyncReqResponseDispatch keyCmp ctx id true
  cases he : answeredItem ctx id with
  | none =>
      rw [he] at hlist
      refine h.map (by rw [ListenCtx.WellFormed, hlist]; exact h.wellFormed)
        (f := fun _ li => li) (fun q => ?_) (fun _ _ hst => hst) fun _ _ hst => hst
      rw [ListenCtx.item, hlist, Option.map_id']
      rfl
  | some e =>
      rw [he] at hlist
      obtain ⟨hwf', hitem⟩ := h.response hlist
      refine h.map hwf' (f := fun q li => if q = e.1 then { li with status := .active } else li)
        hitem (fun q li hst => ?_) (fun q li hst => ?_)
      · split
        · rfl
        · exact hst
      · split at hst
        · cases hst
        · exact hst

/-- **A refusal keeps every masked item covered exactly when it fits.** -/
theorem maskedCovered_refusal_iff (h : ctx.Sound keyCmp) (id : ℕ) :
    (wcDatasyncReqResponseDispatch keyCmp id false ctx).MaskedCovered ↔
      RefusalFits ctx (.response id false) := by
  have hwf := h.wellFormed
  have hcov := (maskedCovered_iff hwf).mpr h.covered
  have hlist := list_wcDatasyncReqResponseDispatch keyCmp ctx id false
  cases he : answeredItem ctx id with
  | none =>
      rw [he] at hlist
      rw [RefusalFits, he, ListenCtx.MaskedCovered, hlist]
      exact iff_of_true hcov fun e' he' => by cases he'
  | some e =>
      rw [he] at hlist
      obtain ⟨hwf', hitem⟩ := h.response hlist
      -- the refused item neither listens nor is masked any more
      have hsame : ∀ q, q ≠ e.1 →
          (wcDatasyncReqResponseDispatch keyCmp id false ctx).item keyCmp q =
            ctx.item keyCmp q := by
        intro q hq
        simp [hitem, hq]
      have hfailed : ∀ li,
          (wcDatasyncReqResponseDispatch keyCmp id false ctx).item keyCmp e.1 = some li →
            li.status = .failed := by
        intro li hli
        rw [hitem] at hli
        obtain ⟨lq, -, rfl⟩ := Option.map_eq_some_iff.mp hli
        simp
      rw [maskedCovered_iff hwf', RefusalFits]
      simp only [he, Option.mem_some_iff, forall_eq']
      constructor
      · rintro hcov' ⟨q, lq⟩ hmem hst habove
        obtain ⟨a, ha, la, hla, hlis⟩ := hcov' q
          ⟨lq, by rw [hsame q habove.2.symm, hwf.item_eq_some_iff.mpr hmem], hst⟩
        have hne : a ≠ e.1 := by
          rintro rfl
          rw [hfailed la hla] at hlis
          cases hlis
        rw [hsame a hne] at hla
        exact ⟨(a, la), hwf.item_eq_some_iff.mp hla, hne, ha, hlis⟩
      · rintro hfits q ⟨lq, hlq, hst⟩
        have hne : q ≠ e.1 := by
          rintro rfl
          rw [hfailed lq hlq] at hst
          cases hst
        rw [hsame q hne] at hlq
        obtain ⟨⟨a, la⟩, hmem, ha, hlis⟩ := hcov (q, lq) (hwf.item_eq_some_iff.mp hlq) hst
        by_cases hae : a = e.1
        · obtain ⟨⟨b, lb⟩, hmemb, hbe, hb, hlisb⟩ :=
            hfits (q, lq) (hwf.item_eq_some_iff.mp hlq) hst (hae ▸ ha)
          exact ⟨b, hb, lb, by rw [hsame b hbe, hwf.item_eq_some_iff.mpr hmemb], hlisb⟩
        · exact ⟨a, ha, la, by rw [hsame a hae, hwf.item_eq_some_iff.mpr hmem], hlis⟩

/-! ### Runs -/

theorem step_sound (h : ctx.Sound keyCmp) {op : ListenOp} (hfits : RefusalFits ctx op)
    {ctx' : ListenCtx} (hstep : ctx.step keyCmp op = some ctx') : ctx'.Sound keyCmp := by
  cases op with
  | watch path addr =>
      simp only [ListenCtx.step] at hstep
      split at hstep
      · cases hstep
      · exact Option.some.inj hstep ▸ wcDatasyncWatch_sound h path addr
  | unwatchEx p refDec => exact wcDatasyncUnwatchEx_sound h hstep
  | cnxLost =>
      have hlost : ListenCtx.Sound keyCmp { ctx with state := .disconnected } := ⟨h.1, h.2⟩
      exact Option.some.inj hstep ▸ wcListenSuspendAll_sound hlost
  | handshake =>
      have hcnx : ListenCtx.Sound keyCmp { ctx with state := .connected } := ⟨h.1, h.2⟩
      exact Option.some.inj hstep ▸ wcListenResumeAll_sound hcnx
  | response id ok =>
      cases ok with
      | true => exact Option.some.inj hstep ▸ wcDatasyncReqResponseDispatch_ok_sound h id
      | false =>
          have hwf' : (wcDatasyncReqResponseDispatch keyCmp id false ctx).WellFormed keyCmp := by
            rw [ListenCtx.WellFormed, list_wcDatasyncReqResponseDispatch]
            split
            · exact h.wellFormed.setStatus _ _
            · exact h.wellFormed
          exact Option.some.inj hstep ▸ ⟨hwf', (maskedCovered_iff hwf').mp
            ((maskedCovered_refusal_iff h id).mpr hfits)⟩
  | connect =>
      simp only [ListenCtx.step, Option.some.injEq] at hstep
      subst hstep
      split <;> exact ⟨h.1, h.2⟩
  | closeCnx =>
      simp only [ListenCtx.step, Option.some.injEq] at hstep
      subst hstep
      split <;> exact ⟨h.1, h.2⟩

/-- **Every masked item is covered**, in every state that a run reaches in which
each refusal fits. -/
theorem masked_items_covered {ctx : ListenCtx}
    (run : Reach (ListenCtx.step keyCmp) RefusalFits listenRegistryNew ctx) :
    ctx.MaskedCovered := by
  have hsound : ctx.Sound keyCmp := by
    refine run.invariant ?_ fun _ _ _ h hfits hstep => step_sound h hfits hstep
    refine ⟨AvlTree.ordered_nil, ?_⟩
    rintro p ⟨li, hli, -⟩
    cases hli
  exact (maskedCovered_iff hsound.wellFormed).mpr hsound.covered

end Coverage

/-- The texts `/a` and `/a/b`. -/
def pathA : Bytes := [47, 97]

def pathAB : Bytes := [47, 97, 47, 98]

/-- A refused request that fits: the item is masked when its refusal arrives. -/
theorem masked_items_covered_late_refusal :
    ∃ ctx, runSteps (ListenCtx.step strcmp) RefusalFits listenRegistryNew
        [.handshake, .watch pathAB 1, .watch pathA 2, .response 1 false, .cnxLost] = some ctx ∧
      ctx.MaskedCovered := by
  have hrun : ∃ ctx, runSteps (ListenCtx.step strcmp) RefusalFits listenRegistryNew
      [.handshake, .watch pathAB 1, .watch pathA 2, .response 1 false, .cnxLost] = some ctx :=
    ⟨_, rfl⟩
  obtain ⟨ctx, hctx⟩ := hrun
  exact ⟨ctx, hctx, masked_items_covered (Reach.of_runSteps .start hctx)⟩

/-- `/a/b` is watched under `/a`, then the server refuses `/a`: `/a/b` stays
masked. -/
theorem refused_ancestor_uncovers :
    ¬ ∀ ctx, Reach (ListenCtx.step strcmp) (fun _ _ => True) listenRegistryNew ctx →
      ctx.MaskedCovered := by
  intro hall
  have hrun : ∃ ctx, runSteps (ListenCtx.step strcmp) (fun _ _ => True) listenRegistryNew
      [.handshake, .watch pathA 1, .watch pathAB 2, .response 1 false] = some ctx ∧
      ¬ ctx.MaskedCovered := ⟨_, rfl, by decide⟩
  obtain ⟨ctx, hctx, hnot⟩ := hrun
  exact hnot (hall ctx (Reach.of_runSteps .start hctx))

end WebcomSdk.Datasync
