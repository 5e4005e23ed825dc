import WebcomSdk.Datasync.ListenRefs

/-!
The item of the root. No path is above the root, so its item is never masked: it
listens, or the server has refused it. Once the root is watched it listens, and
`wc_is_listening` holds of every other path.
-/

namespace WebcomSdk.Datasync

open WebcomSdk.Collection Std

/-- The item of the root is not masked. -/
structure ListenCtx.RootHeard (keyCmp : Key → Key → Ordering) (ctx : ListenCtx) : Prop where
  wellFormed : ctx.WellFormed keyCmp
  root : ∀ li, ctx.item keyCmp [] = some li → li.status.listens ∨ li.status = .failed

section

variable {keyCmp : Key → Key → Ordering} {ctx ctx' : ListenCtx}

theorem not_above_root (p : Path) : ¬ Above p [] := fun h => h.2 (List.prefix_nil.mp h.1)

/-- The status of the root item is written. -/
theorem ListenCtx.RootHeard.map (h : ctx.RootHeard keyCmp) (hwf : ctx'.WellFormed keyCmp)
    {f : ListenItem → ListenItem} (hitem : ctx'.item keyCmp [] = (ctx.item keyCmp []).map f)
    (hf : ∀ li, li.status.listens ∨ li.status = .failed →
      (f li).status.listens ∨ (f li).status = .failed) : ctx'.RootHeard keyCmp := by
  refine ⟨hwf, fun li hli => ?_⟩
  rw [hitem, Option.map_eq_some_iff] at hli
  obtain ⟨li', hli', rfl⟩ := hli
  exact hf li' (h.root li' hli')

theorem ListenCtx.RootHeard.congr (h : ctx.RootHeard keyCmp) (hlist : ctx'.list = ctx.list) :
    ctx'.RootHeard keyCmp := by
  refine ⟨?_, fun li hli => h.root li ?_⟩
  · rw [ListenCtx.WellFormed, hlist]
    exact h.wellFormed
  · rwa [ListenCtx.item, hlist] at hli

variable [TransCmp keyCmp] [LawfulEqCmp keyCmp]

theorem listenRegistryAddEx_rootHeard (h : ctx.RootHeard keyCmp) (p : Path) (addr : Addr) :
    (listenRegistryAddEx keyCmp p addr ctx).1.RootHeard keyCmp := by
  obtain ⟨hwf, hitem, hnew⟩ := listenRegistryAddEx_spec h.wellFormed p addr
  refine ⟨hwf, fun li hli => ?_⟩
  rw [hitem] at hli
  split at hli
  next hp =>
    obtain rfl := Option.some.inj hli
    rw [hnew, ← hp]
    cases hroot : ctx.item keyCmp [] with
    | none => exact .inl rfl
    | some li => exact h.root li hroot
  next => exact h.root li hli

theorem requestListen_rootHeard (h : ctx.RootHeard keyCmp) (p : Path) (addr : Addr) :
    (requestListen keyCmp p addr ctx).RootHeard keyCmp := by
  obtain ⟨hwf, s, hs, hitem⟩ := requestListen_spec h.wellFormed p addr
  refine h.map hwf (hitem []) fun li hli => ?_
  split
  · exact .inl hs
  · exact hli

/-- `mask_listen_request` leaves the root alone. -/
theorem item_root_maskListenRequest (hwf : ctx.WellFormed keyCmp) {p : Path}
    (hp : ctx.item keyCmp p ≠ none) :
    (maskListenRequest keyCmp p ctx).WellFormed keyCmp ∧
      (maskListenRequest keyCmp p ctx).item keyCmp [] = ctx.item keyCmp [] := by
  obtain ⟨hwf', hitem⟩ := maskListenRequest_spec hwf hp
  refine ⟨hwf', ?_⟩
  simp only [hitem, if_neg (not_above_root p), Option.map_id']

/-- **Watching a path**: the root stays heard, and listens if it is the path. -/
theorem wcDatasyncWatch_rootHeard (h : ctx.RootHeard keyCmp) (path : Bytes) (addr : Addr) :
    (wcDatasyncWatch keyCmp path addr ctx).RootHeard keyCmp ∧
      (wcDatasyncPathParse path = [] →
        (wcDatasyncWatch keyCmp path addr ctx).Listens keyCmp []) := by
  set p := wcDatasyncPathParse path with hp
  obtain ⟨-, hadded, -⟩ := listenRegistryAddEx_spec h.wellFormed p addr
  have hadd := listenRegistryAddEx_rootHeard h p addr
  rw [wcDatasyncWatch, ← hp]
  generalize listenRegistryAddEx keyCmp p addr ctx = r at hadded hadd ⊢
  obtain ⟨ctx₁, li⟩ := r
  dsimp only at hadded hadd ⊢
  have hown : ctx₁.item keyCmp p = some li := (hadded p).trans (if_pos rfl)
  split
  next hst =>
    obtain ⟨hwf₂, s, hs, hitem₂⟩ := requestListen_spec hadd.wellFormed p li.addr
    have hheard := requestListen_rootHeard hadd p li.addr
    have hsome : (requestListen keyCmp p li.addr ctx₁).item keyCmp p ≠ none := by
      rw [hitem₂, hown]
      simp
    obtain ⟨hwf₃, hroot⟩ := item_root_maskListenRequest hwf₂ hsome
    refine ⟨hheard.map hwf₃ (f := id) (by rw [hroot, Option.map_id_fun, id]) fun _ => id, ?_⟩
    intro hnil
    rw [hnil] at hown hitem₂ hroot ⊢
    exact ⟨{ li with status := s }, by rw [hroot, hitem₂, hown]; rfl, hs⟩
  next hst =>
    refine ⟨hadd, fun hnil => ⟨li, hnil ▸ hown, ?_⟩⟩
    exact (hadd.root li (hnil ▸ hown)).resolve_right fun hfailed => hst (.inr hfailed)

theorem wcDatasyncUnwatchEx_rootHeard (h : ctx.RootHeard keyCmp) {p : Path} {refDec : ℕ}
    (hstep : wcDatasyncUnwatchEx keyCmp p refDec ctx = some ctx') : ctx'.RootHeard keyCmp := by
  rcases wcDatasyncUnwatchEx_cases h.wellFormed hstep with
    ⟨-, rfl⟩ | ⟨li, -, -, hwf, -, hitem⟩ | ⟨li, -, -, rfl⟩
  · exact h
  · refine h.map hwf (hitem []) fun li hli => ?_
    split <;> exact hli
  · set out := wcDatasyncUnlisten p (ctx.without keyCmp p) with hout
    have hwf : out.WellFormed keyCmp := h.wellFormed.without p
    have hitem : out.item keyCmp [] = if [] = p then none else ctx.item keyCmp [] :=
      item_without h.wellFormed p []
    obtain ⟨hwf', hsame, -, -⟩ := unmaskListenRequest_spec hwf p
    refine ⟨hwf', fun li hli => ?_⟩
    by_cases hp : p = []
    · -- the item of the root is gone
      have href : (unmaskListenRequest keyCmp p out).ref keyCmp [] = out.ref keyCmp [] :=
        ref_congr (refs_unmaskListenRequest p) []
      rw [ref_eq, hli, ref_eq, hitem, if_pos hp.symm] at href
      cases href
    · rw [hsame [] fun hpre => hp (List.prefix_nil.mp hpre), hitem, if_neg (Ne.symm hp)] at hli
      exact h.root li hli

theorem wcDatasyncReqResponseDispatch_rootHeard (h : ctx.RootHeard keyCmp) (id : ℕ) (ok : Bool) :
    (wcDatasyncReqResponseDispatch keyCmp id ok ctx).RootHeard keyCmp := by
  have hlist := list_wcDatasyncReqResponseDispatch keyCmp ctx id ok
  cases he : answeredItem ctx id with
  | none =>
      rw [he] at hlist
      exact h.congr hlist
  | some e =>
      rw [he] at hlist
      have hset :
          (setStatus keyCmp e.1 (if ok then .active else .failed) ctx).RootHeard keyCmp := by
        refine h.map (h.wellFormed.setStatus e.1 _) (item_setStatus h.wellFormed e.1 [] _)
          fun li hli => ?_
        split
        · cases ok
          · exact .inr rfl
          · exact .inl rfl
        · exact hli
      exact hset.congr hlist

theorem step_rootHeard (h : ctx.RootHeard keyCmp) {op : ListenOp}
    (hstep : ctx.step keyCmp op = some ctx') : ctx'.RootHeard keyCmp := by
  have hrewrite : ∀ {hit : ListenStatus → Option ListenStatus} {c : ListenCtx},
      (hit = suspendHit ∨ hit = resumeHit) → ctx'.WellFormed keyCmp → c.RootHeard keyCmp →
        (∀ q, ctx'.item keyCmp q = (c.item keyCmp q).map (ListenItem.rewritten hit)) →
        ctx'.RootHeard keyCmp := by
    intro hit c hhit hwf hc hitem
    refine hc.map hwf (hitem []) ?_
    rintro ⟨s, r, a⟩ hst
    rcases hhit with rfl | rfl <;> cases s <;>
      simp_all [ListenItem.rewritten, suspendHit, resumeHit, ListenStatus.listens]
  cases op with
  | watch path addr =>
      simp only [ListenCtx.step] at hstep
      split at hstep
      · cases hstep
      · exact Option.some.inj hstep ▸ (wcDatasyncWatch_rootHeard h path addr).1
  | unwatchEx path refDec => exact wcDatasyncUnwatchEx_rootHeard h hstep
  | cnxLost =>
      obtain rfl := Option.some.inj hstep
      have hlost : ({ ctx with state := .disconnected } : ListenCtx).RootHeard keyCmp := h.congr rfl
      obtain ⟨hwf, hitem⟩ := rewrites_suspendItem.foldl_all hlost.wellFormed
      exact hrewrite (.inl rfl) hwf hlost hitem
  | handshake =>
      obtain rfl := Option.some.inj hstep
      have hopen : ({ ctx with state := .connected } : ListenCtx).RootHeard keyCmp := h.congr rfl
      obtain ⟨hwf, hitem⟩ := rewrites_resumeItem.foldl_all hopen.wellFormed
      exact hrewrite (.inr rfl) hwf hopen hitem
  | response id ok =>
      exact Option.some.inj hstep ▸ wcDatasyncReqResponseDispatch_rootHeard h id ok
  | connect =>
      obtain rfl := Option.some.inj hstep
      split
      · exact h.congr rfl
      · exact h
  | closeCnx =>
      obtain rfl := Option.some.inj hstep
      split
      · exact h.congr rfl
      · exact h

omit [TransCmp keyCmp] [LawfulEqCmp keyCmp] in
theorem rootHeard_new : listenRegistryNew.RootHeard keyCmp :=
  ⟨List.Pairwise.nil, fun _ hli => by cases hli⟩

omit [TransCmp keyCmp] [LawfulEqCmp keyCmp] in
/-- Below a root that listens every path counts as listened to. -/
theorem wcIsListening_of_root (h : ctx.Listens keyCmp []) {p : Path} (hp : p ≠ []) :
    wcIsListening keyCmp ctx p = true :=
  isMasked_eq_true_iff.mpr ⟨[], ⟨List.nil_prefix, Ne.symm hp⟩, h⟩

end

end WebcomSdk.Datasync
