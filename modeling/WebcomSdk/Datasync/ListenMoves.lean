import WebcomSdk.Datasync.ListenCoverage

/-!
The loops of the listen registry taken apart. Once the item of a path is added,
counted or removed, what is left of each function is a sequence of moves: a
status is written, and a request may go with it.
-/

namespace WebcomSdk.Datasync

open WebcomSdk.Lib WebcomSdk.Collection Std

/-- The items that the loop of `unmask_listen_request` asks the server for. -/
def unmaskedItems (top : Option Path) : List (Path × ListenItem) → List (Path × ListenItem)
  | [] => []
  | e :: rest =>
      if top.any (wcDatasyncPathStartsWith e.1) then unmaskedItems top rest
      else if e.2.status = .masked then e :: unmaskedItems (some e.1) rest
      else unmaskedItems top rest

section Unmasked

variable {keyCmp : Key → Key → Ordering} {items : List (Path × ListenItem)} {top : Option Path}

theorem unmaskLoop_eq (ctx : ListenCtx) :
    unmaskLoop keyCmp top ctx items =
      (unmaskedItems top items).foldl (fun ctx e => requestListen keyCmp e.1 e.2.addr ctx) ctx := by
  induction items generalizing top ctx with
  | nil => rfl
  | cons e items ih =>
      obtain ⟨p, li⟩ := e
      rw [unmaskLoop, unmaskedItems]
      split
      · exact ih ctx
      · split
        · rw [List.foldl_cons, ih]
        · exact ih ctx

theorem unmaskedItems_sublist : (unmaskedItems top items).Sublist items := by
  induction items generalizing top with
  | nil => exact List.Sublist.slnil
  | cons e items ih =>
      rw [unmaskedItems]
      split
      · exact ih.cons e
      · split
        · exact ih.cons_cons e
        · exact ih.cons e

theorem masked_of_mem_unmaskedItems {e : Path × ListenItem} (he : e ∈ unmaskedItems top items) :
    e.2.status = .masked := by
  induction items generalizing top with
  | nil => exact absurd he List.not_mem_nil
  | cons e' items ih =>
      rw [unmaskedItems] at he
      split at he
      · exact ih he
      · split at he
        next hmasked =>
          rcases List.mem_cons.mp he with rfl | he
          · exact hmasked
          · exact ih he
        next => exact ih he

variable [TransCmp keyCmp] [LawfulEqCmp keyCmp]

/-- No masked item of the walk is above one that is asked for. `seen` are the
masked items already visited; those of them that have an item left below are
covered by `top`. -/
theorem unmaskedItems_topmost {seen : List Path}
    (hsorted : items.Pairwise fun a b => wcDatasyncPathCmp keyCmp a.1 b.1 = .lt)
    (htop : ∀ t ∈ top, ∀ e ∈ items, wcDatasyncPathCmp keyCmp t e.1 = .lt)
    (hseen : ∀ v ∈ seen, ∀ e ∈ items, v <+: e.1 → ∃ t ∈ top, t <+: e.1) :
    ∀ q ∈ unmaskedItems top items,
      (∀ v ∈ seen, ¬ v <+: q.1) ∧ ∀ e ∈ items, e.2.status = .masked → ¬ Above e.1 q.1 := by
  induction items generalizing top seen with
  | nil => exact fun q hq => absurd hq List.not_mem_nil
  | cons e items ih =>
      obtain ⟨p, li⟩ := e
      obtain ⟨hfirst, hsorted⟩ := List.pairwise_cons.mp hsorted
      have hin : ∀ {e}, e ∈ items → e ∈ (p, li) :: items := List.mem_cons_of_mem _
      -- an item that the loop passes over is not masked, or `top` is above it
      have hpass : (li.status = .masked → ∃ t ∈ top, t <+: p) → ∀ q ∈ unmaskedItems top items,
          (∀ v ∈ seen, ¬ v <+: q.1) ∧
            ∀ e ∈ (p, li) :: items, e.2.status = .masked → ¬ Above e.1 q.1 := by
        intro hcover q hq
        have hseen' : ∀ v ∈ if li.status = .masked then p :: seen else seen,
            ∀ e ∈ items, v <+: e.1 → ∃ t ∈ top, t <+: e.1 := by
          intro v hv e he hpre
          split at hv
          next hmasked =>
            rcases List.mem_cons.mp hv with rfl | hv
            · obtain ⟨t, ht, htv⟩ := hcover hmasked
              exact ⟨t, ht, htv.trans hpre⟩
            · exact hseen v hv e (hin he) hpre
          next => exact hseen v hv e (hin he) hpre
        obtain ⟨hnot, hmask⟩ := ih hsorted (fun t ht e he => htop t ht e (hin he)) hseen' q hq
        refine ⟨fun v hv => hnot v ?_, ?_⟩
        · split
          · exact List.mem_cons_of_mem _ hv
          · exact hv
        · refine List.forall_mem_cons.mpr ⟨fun hmasked habove => hnot p ?_ habove.1, hmask⟩
          rw [if_pos hmasked]
          exact List.mem_cons_self
      intro q hq
      rw [unmaskedItems] at hq
      split at hq
      next hskip =>
        obtain ⟨t, ht, hpre⟩ := (Option.any_eq_true _ _).mp hskip
        exact hpass (fun _ => ⟨t, ht, wcDatasyncPathStartsWith_iff.mp hpre⟩) q hq
      next hskip =>
        have htopmost : ∀ t ∈ top, ¬ t <+: p := fun t ht hpre =>
          hskip ((Option.any_eq_true _ _).mpr ⟨t, ht, wcDatasyncPathStartsWith_iff.mpr hpre⟩)
        split at hq
        next hmasked =>
          rcases List.mem_cons.mp hq with rfl | hq
          · refine ⟨fun v hv hpre => ?_, List.forall_mem_cons.mpr ⟨fun _ h => h.2 rfl, ?_⟩⟩
            · obtain ⟨t, ht, htq⟩ := hseen v hv (p, li) List.mem_cons_self hpre
              exact htopmost t ht htq
            · intro e he _ habove
              exact pathCmp_ne_gt_of_prefix habove.1 (OrientedCmp.gt_of_lt (hfirst e he))
          · have hseen' : ∀ v ∈ p :: seen, ∀ e ∈ items, v <+: e.1 →
                ∃ t ∈ some p, t <+: e.1 := by
              intro v hv e he hpre
              rcases List.mem_cons.mp hv with rfl | hv
              · exact ⟨v, rfl, hpre⟩
              · -- what starts with `t` is contiguous, and `p` would be in between
                obtain ⟨t, ht, hte⟩ := hseen v hv e (hin he) hpre
                have htp : wcDatasyncPathCmp keyCmp t p ≠ .gt := by
                  rw [htop t ht (p, li) List.mem_cons_self]
                  decide
                have hpe : wcDatasyncPathCmp keyCmp p e.1 ≠ .gt := by
                  rw [hfirst e he]
                  decide
                rw [wcDatasyncPathCmp_eq] at htp hpe
                exact absurd (prefix_of_between List.prefix_rfl hte htp hpe) (htopmost t ht)
            obtain ⟨hnot, hmask⟩ := ih hsorted
              (fun t ht e he => Option.mem_some_iff.mp ht ▸ hfirst e he) hseen' q hq
            refine ⟨fun v hv => hnot v (List.mem_cons_of_mem _ hv), ?_⟩
            exact List.forall_mem_cons.mpr
              ⟨fun _ habove => hnot p List.mem_cons_self habove.1, hmask⟩
        next hmasked => exact hpass (fun hst => absurd hst hmasked) q hq

/-- Removing the item of `p` asks for the masked items below it that have no
other masked item between. -/
theorem mem_unmaskedItems_walkBelow {ctx : ListenCtx} (hwf : ctx.WellFormed keyCmp) {p : Path}
    (hp : ctx.item keyCmp p = none) {e : Path × ListenItem}
    (he : e ∈ unmaskedItems none (walkBelow keyCmp p ctx.list)) :
    ctx.item keyCmp e.1 = some e.2 ∧ e.2.status = .masked ∧ Above p e.1 ∧
      ∀ m, ctx.IsMasked keyCmp m → Above p m → ¬ Above m e.1 := by
  have hsub : (walkBelow keyCmp p ctx.list).Sublist ctx.list.toList := sublist_walkBelow hwf
  have hnone : ∀ t ∈ (none : Option Path), ∀ e ∈ walkBelow keyCmp p ctx.list,
      wcDatasyncPathCmp keyCmp t e.1 = .lt := nofun
  have hseen : ∀ v ∈ ([] : List Path), ∀ e ∈ walkBelow keyCmp p ctx.list, v <+: e.1 →
      ∃ t ∈ (none : Option Path), t <+: e.1 := nofun
  obtain ⟨-, hmask⟩ :=
    unmaskedItems_topmost (List.Pairwise.sublist hsub hwf) hnone hseen e he
  obtain ⟨hmem, hpre⟩ := (mem_walkBelow hwf).mp (unmaskedItems_sublist.subset he)
  have hitem := hwf.item_eq_some_iff.mpr hmem
  refine ⟨hitem, masked_of_mem_unmaskedItems he, ⟨hpre, ?_⟩, ?_⟩
  · rintro rfl
    rw [hp] at hitem
    cases hitem
  · rintro m ⟨lm, hlm, hstm⟩ hpm
    exact hmask (m, lm) ((mem_walkBelow hwf).mpr ⟨hwf.item_eq_some_iff.mp hlm, hpm.1⟩) hstm

end Unmasked

/-! ### Moves -/

/-- A status written, with the request that goes with it. `ps` bounds the paths
asked for. In a connected context only a request and what masks an item write
statuses. -/
inductive Move (keyCmp : Key → Key → Ordering) (ps : List Path) (ctx : ListenCtx) :
    ListenCtx → Prop
  | quiet {p : Path} {li : ListenItem} {s : ListenStatus} (hitem : ctx.item keyCmp p = some li)
      (hs : s ≠ .active)
      (hmask : ctx.state = .connected →
        (li.status = .pending ∨ li.status = .required) ∧ s = .masked) :
      Move keyCmp ps ctx (setStatus keyCmp p s ctx)
  | listen {p : Path} {li : ListenItem} (hitem : ctx.item keyCmp p = some li) (hp : p ∈ ps)
      (hstate : ctx.state = .connected) (hst : li.status ≠ .active) :
      Move keyCmp ps ctx (wcDatasyncListen p li.addr (setStatus keyCmp p .pending ctx))
  | unlisten {p : Path} {li : ListenItem} (hitem : ctx.item keyCmp p = some li)
      (hst : li.status = .active) :
      Move keyCmp ps ctx (wcDatasyncUnlisten p (setStatus keyCmp p .masked ctx))

/-- Moves one after the other, each path asked for once in `ps`. -/
inductive Moves (keyCmp : Key → Key → Ordering) : List Path → ListenCtx → ListenCtx → Prop
  | refl {ctx : ListenCtx} : Moves keyCmp [] ctx ctx
  | step {ps qs : List Path} {ctx ctx' ctx'' : ListenCtx} (run : Moves keyCmp ps ctx ctx')
      (move : Move keyCmp qs ctx' ctx'') : Moves keyCmp (ps ++ qs) ctx ctx''

section Moves

variable {keyCmp : Key → Key → Ordering} {ctx ctx' ctx'' : ListenCtx} {ps qs : List Path}

theorem Move.moves (move : Move keyCmp ps ctx ctx') : Moves keyCmp ps ctx ctx' := .step .refl move

theorem Moves.append (run : Moves keyCmp ps ctx ctx') (run' : Moves keyCmp qs ctx' ctx'') :
    Moves keyCmp (ps ++ qs) ctx ctx'' := by
  induction run' with
  | refl => rwa [List.append_nil]
  | step _ move ih =>
      rw [← List.append_assoc]
      exact .step (ih run) move

/-- A move writes one status and nothing else of the registry. -/
theorem Move.frame (move : Move keyCmp ps ctx ctx') :
    ctx'.state = ctx.state ∧ ∃ p s, ctx'.list = (setStatus keyCmp p s ctx).list := by
  cases move with
  | quiet => exact ⟨rfl, _, _, rfl⟩
  | listen => exact ⟨rfl, _, _, rfl⟩
  | unlisten => exact ⟨rfl, _, _, rfl⟩

theorem Moves.state (run : Moves keyCmp ps ctx ctx') : ctx'.state = ctx.state := by
  induction run with
  | refl => rfl
  | step _ move ih => exact move.frame.1.trans ih

variable [TransCmp keyCmp] [LawfulEqCmp keyCmp]

omit [TransCmp keyCmp] [LawfulEqCmp keyCmp] in
/-- A loop makes the moves of its body. -/
theorem Moves.foldl {body : ListenCtx → Path × ListenItem → ListenCtx}
    (asks : Path × ListenItem → List Path) {state : CnxState}
    (hbody : ∀ ctx e, ctx.state = state → ctx.item keyCmp e.1 = some e.2 →
      Moves keyCmp (asks e) ctx (body ctx e))
    (hstate : ∀ ctx e, (body ctx e).state = ctx.state)
    (hother : ∀ ctx e, ctx.WellFormed keyCmp → ctx.item keyCmp e.1 = some e.2 →
      (body ctx e).WellFormed keyCmp ∧
        ∀ q, q ≠ e.1 → (body ctx e).item keyCmp q = ctx.item keyCmp q)
    {items : List (Path × ListenItem)} (hnodup : (items.map Prod.fst).Nodup)
    (hctx : ctx.state = state) (hwf : ctx.WellFormed keyCmp)
    (hin : ∀ e ∈ items, ctx.item keyCmp e.1 = some e.2) :
    Moves keyCmp (items.flatMap asks) ctx (items.foldl body ctx) := by
  induction items generalizing ctx with
  | nil => exact .refl
  | cons e items ih =>
      rw [List.map_cons, List.nodup_cons] at hnodup
      rw [List.forall_mem_cons] at hin
      obtain ⟨hwf', hsame⟩ := hother ctx e hwf hin.1
      refine (hbody ctx e hctx hin.1).append (ih hnodup.2 ((hstate ctx e).trans hctx) hwf' ?_)
      intro e' he'
      have hne : e'.1 ≠ e.1 := fun heq => hnodup.1 (heq ▸ List.mem_map_of_mem he')
      rw [hsame e'.1 hne, hin.2 e' he']

theorem Rewrites.other {body : ListenCtx → Path × ListenItem → ListenCtx}
    {hit : ListenStatus → Option ListenStatus} (hbody : Rewrites keyCmp body hit)
    (hwf : ctx.WellFormed keyCmp) {e : Path × ListenItem} (he : ctx.item keyCmp e.1 = some e.2) :
    (body ctx e).WellFormed keyCmp ∧
      ∀ q, q ≠ e.1 → (body ctx e).item keyCmp q = ctx.item keyCmp q := by
  obtain ⟨hwf', hitem⟩ := hbody.body hwf he
  refine ⟨hwf', fun q hq => ?_⟩
  simp [hitem, hq]

/-! ### The functions of the registry -/

omit [TransCmp keyCmp] [LawfulEqCmp keyCmp] in
theorem maskItem_moves {e : Path × ListenItem} (he : ctx.item keyCmp e.1 = some e.2) :
    Moves keyCmp [] ctx (maskItem keyCmp ctx e) := by
  obtain ⟨p, li⟩ := e
  rw [maskItem]
  split
  next hst => exact (Move.unlisten he hst).moves
  next hst => exact (Move.quiet he (by decide) fun _ => ⟨.inl hst, rfl⟩).moves
  next hst => exact (Move.quiet he (by decide) fun _ => ⟨.inr hst, rfl⟩).moves
  next => exact .refl

omit [TransCmp keyCmp] [LawfulEqCmp keyCmp] in
theorem suspendItem_moves (hstate : ctx.state ≠ .connected) {e : Path × ListenItem}
    (he : ctx.item keyCmp e.1 = some e.2) : Moves keyCmp [] ctx (suspendItem keyCmp ctx e) := by
  obtain ⟨p, li⟩ := e
  rw [suspendItem]
  split
  next => exact (Move.quiet he (by decide) fun h => absurd h hstate).moves
  next => exact .refl

/-- The items that `wc_listen_resume_all` asks for. -/
abbrev resumes (li : ListenItem) : Prop := li.status = .required ∨ li.status = .pending

omit [TransCmp keyCmp] [LawfulEqCmp keyCmp] in
theorem resumeItem_moves (hstate : ctx.state = .connected) {e : Path × ListenItem}
    (he : ctx.item keyCmp e.1 = some e.2) :
    Moves keyCmp (if resumes e.2 then [e.1] else []) ctx (resumeItem keyCmp ctx e) := by
  obtain ⟨p, li⟩ := e
  rw [resumeItem]
  by_cases hst : resumes li
  · rw [if_pos hst, if_pos hst]
    refine (Move.listen he List.mem_cons_self hstate ?_).moves
    rcases hst with hst | hst <;> rw [hst] <;> decide
  · rw [if_neg hst, if_neg hst]
    exact .refl

omit [TransCmp keyCmp] [LawfulEqCmp keyCmp] in
theorem requestListen_moves {p : Path} {li : ListenItem} (hp : ctx.item keyCmp p = some li)
    (hst : li.status ≠ .active) : Moves keyCmp [p] ctx (requestListen keyCmp p li.addr ctx) := by
  rw [requestListen]
  split
  next hstate => exact (Move.listen hp List.mem_cons_self hstate hst).moves
  next hstate => exact (Move.quiet hp (by decide) fun h => absurd h hstate).moves

omit [TransCmp keyCmp] [LawfulEqCmp keyCmp] in
theorem state_maskItem (e : Path × ListenItem) : (maskItem keyCmp ctx e).state = ctx.state := by
  rw [maskItem]
  split <;> rfl

omit [TransCmp keyCmp] [LawfulEqCmp keyCmp] in
theorem state_suspendItem (e : Path × ListenItem) :
    (suspendItem keyCmp ctx e).state = ctx.state := by
  rw [suspendItem]
  split <;> rfl

omit [TransCmp keyCmp] [LawfulEqCmp keyCmp] in
theorem state_resumeItem (e : Path × ListenItem) :
    (resumeItem keyCmp ctx e).state = ctx.state := by
  rw [resumeItem]
  split <;> rfl

/-- A loop that asks for nothing. -/
theorem Moves.foldl_quiet {body : ListenCtx → Path × ListenItem → ListenCtx}
    {hit : ListenStatus → Option ListenStatus} {state : CnxState}
    (hbody : ∀ ctx e, ctx.state = state → ctx.item keyCmp e.1 = some e.2 →
      Moves keyCmp [] ctx (body ctx e))
    (hstate : ∀ ctx e, (body ctx e).state = ctx.state) (hhit : Rewrites keyCmp body hit)
    {items : List (Path × ListenItem)} (hsub : items.Sublist ctx.list.toList)
    (hctx : ctx.state = state) (hwf : ctx.WellFormed keyCmp) :
    Moves keyCmp [] ctx (items.foldl body ctx) := by
  have hrun := Moves.foldl (fun _ => []) hbody hstate (fun _ _ hwf he => hhit.other hwf he)
    (hwf.nodup_keys hsub) hctx hwf (hwf.item_of_sublist hsub)
  rwa [List.flatMap_eq_nil_iff.mpr fun _ _ => rfl] at hrun

theorem maskListenRequest_moves (hwf : ctx.WellFormed keyCmp) (p : Path) :
    Moves keyCmp [] ctx (maskListenRequest keyCmp p ctx) :=
  Moves.foldl_quiet (fun _ _ _ => maskItem_moves) (fun _ => state_maskItem) rewrites_maskItem
    (sublist_walkStrictlyBelow hwf) rfl hwf

theorem wcListenSuspendAll_moves (hwf : ctx.WellFormed keyCmp)
    (hstate : ctx.state = .disconnected) : Moves keyCmp [] ctx (wcListenSuspendAll keyCmp ctx) := by
  refine Moves.foldl_quiet (fun ctx e hctx he => suspendItem_moves ?_ he)
    (fun _ => state_suspendItem) rewrites_suspendItem (List.Sublist.refl _) hstate hwf
  rw [hctx]
  decide

/-- The paths asked for after a handshake. -/
def resumedPaths (ctx : ListenCtx) : List Path :=
  ctx.list.toList.flatMap fun e => if resumes e.2 then [e.1] else []

theorem mem_resumedPaths (hwf : ctx.WellFormed keyCmp) {p : Path} :
    p ∈ resumedPaths ctx ↔ ∃ li, ctx.item keyCmp p = some li ∧ resumes li := by
  simp only [resumedPaths, List.mem_flatMap, hwf.item_eq_some_iff]
  constructor
  · rintro ⟨e, he, hp⟩
    split at hp
    next hst =>
      obtain rfl := List.mem_singleton.mp hp
      exact ⟨e.2, he, hst⟩
    next => exact absurd hp List.not_mem_nil
  · rintro ⟨li, hli, hst⟩
    exact ⟨(p, li), hli, by rw [if_pos hst]; exact List.mem_cons_self⟩

omit [TransCmp keyCmp] in
theorem nodup_resumedPaths (hwf : ctx.WellFormed keyCmp) : (resumedPaths ctx).Nodup := by
  have hkeys := hwf.nodup_keys (List.Sublist.refl ctx.list.toList)
  rw [resumedPaths]
  generalize ctx.list.toList = items at hkeys
  have hsub : (items.flatMap fun e => if resumes e.2 then [e.1] else []).Sublist
      (items.map Prod.fst) := by
    clear hkeys
    induction items with
    | nil => exact List.Sublist.slnil
    | cons e items ih =>
        rw [List.flatMap_cons, List.map_cons]
        split
        · exact ih.cons_cons e.1
        · exact ih.cons e.1
  exact hsub.nodup hkeys

theorem wcListenResumeAll_moves (hwf : ctx.WellFormed keyCmp) (hstate : ctx.state = .connected) :
    Moves keyCmp (resumedPaths ctx) ctx (wcListenResumeAll keyCmp ctx) := by
  have hsub := List.Sublist.refl ctx.list.toList
  exact Moves.foldl _ (fun _ _ hctx he => resumeItem_moves hctx he) (fun _ => state_resumeItem)
    (fun _ _ hwf he => rewrites_resumeItem.other hwf he) (hwf.nodup_keys hsub) hstate hwf
    (hwf.item_of_sublist hsub)

theorem nodup_unmaskedItems (hwf : ctx.WellFormed keyCmp) (p : Path) :
    ((unmaskedItems none (walkBelow keyCmp p ctx.list)).map Prod.fst).Nodup :=
  hwf.nodup_keys (unmaskedItems_sublist.trans (sublist_walkBelow hwf))

theorem unmaskListenRequest_moves (hwf : ctx.WellFormed keyCmp) (p : Path) :
    Moves keyCmp ((unmaskedItems none (walkBelow keyCmp p ctx.list)).map Prod.fst) ctx
      (unmaskListenRequest keyCmp p ctx) := by
  have hsub : (unmaskedItems none (walkBelow keyCmp p ctx.list)).Sublist ctx.list.toList :=
    unmaskedItems_sublist.trans (sublist_walkBelow hwf)
  have hmasked := @masked_of_mem_unmaskedItems (walkBelow keyCmp p ctx.list) none
  rw [unmaskListenRequest, unmaskLoop_eq]
  generalize unmaskedItems none (walkBelow keyCmp p ctx.list) = items at hsub hmasked ⊢
  have hnodup := hwf.nodup_keys hsub
  have hin := hwf.item_of_sublist hsub
  clear hsub
  induction items generalizing ctx with
  | nil => exact .refl
  | cons e items ih =>
      rw [List.map_cons, List.nodup_cons] at hnodup
      rw [List.forall_mem_cons] at hin
      obtain ⟨hwf', s, -, hitem⟩ := requestListen_spec hwf e.1 e.2.addr
      have hst : e.2.status ≠ .active := by
        rw [hmasked List.mem_cons_self]
        decide
      refine (requestListen_moves hin.1 hst).append (ih hwf'
        (fun he' => hmasked (List.mem_cons_of_mem _ he')) hnodup.2 fun e' he' => ?_)
      have hne : e'.1 ≠ e.1 := fun heq => hnodup.1 (heq ▸ List.mem_map_of_mem he')
      simp [hitem, hne, hin.2 e' he']

/-- Once its item is added or counted, `wc_datasync_watch` asks for it unless it
is pending, active or masked. -/
theorem wcDatasyncWatch_moves (hwf : ctx.WellFormed keyCmp) (path : Bytes) (addr : Addr) :
    let r := listenRegistryAddEx keyCmp (wcDatasyncPathParse path) addr ctx
    (Moves keyCmp [wcDatasyncPathParse path] r.1 (wcDatasyncWatch keyCmp path addr ctx) ∧
        (r.2.status = .required ∨ r.2.status = .failed)) ∨
      wcDatasyncWatch keyCmp path addr ctx = r.1 := by
  obtain ⟨hwf₁, hitem, -⟩ := listenRegistryAddEx_spec hwf (wcDatasyncPathParse path) addr
  rw [wcDatasyncWatch]
  generalize wcDatasyncPathParse path = p at hwf₁ hitem ⊢
  generalize listenRegistryAddEx keyCmp p addr ctx = r at hwf₁ hitem ⊢
  obtain ⟨ctx₁, li⟩ := r
  dsimp only at hwf₁ hitem ⊢
  split
  next hst =>
    have hp : ctx₁.item keyCmp p = some li := (hitem p).trans (if_pos rfl)
    have hactive : li.status ≠ .active := by
      rcases hst with hst | hst <;> rw [hst] <;> decide
    have hrun := (requestListen_moves hp hactive).append
      (maskListenRequest_moves (requestListen_spec hwf₁ p li.addr).1 p)
    exact .inl ⟨hrun, hst⟩
  next => exact .inr rfl

end Moves

end WebcomSdk.Datasync
