import WebcomSdk.Datasync.ListenCoverage

/-!
The reference counts of the listen registry. Only `listen_registry_add_ex` and
`listen_registry_unref` touch them; every other function of the registry writes
statuses, whatever the requests it sends.
-/

namespace WebcomSdk.Datasync

open WebcomSdk.Collection Std

/-- The items of the registry, each as its reference count. -/
def ListenCtx.refs (ctx : ListenCtx) : AvlTree Path ℕ := ctx.list.map ListenItem.ref

section Refs

variable {keyCmp : Key → Key → Ordering} {ctx : ListenCtx}

/-! ### Functions that write statuses -/

@[simp] theorem refs_setStatus (p : Path) (s : ListenStatus) :
    (setStatus keyCmp p s ctx).refs = ctx.refs := map_avlModify p ctx.list fun _ => rfl

@[simp] theorem refs_wcDatasyncListen (p : Path) (a : Addr) :
    (wcDatasyncListen p a ctx).refs = ctx.refs := rfl

@[simp] theorem refs_wcDatasyncUnlisten (p : Path) : (wcDatasyncUnlisten p ctx).refs = ctx.refs :=
  rfl

theorem refs_foldl {body : ListenCtx → Path × ListenItem → ListenCtx}
    (hbody : ∀ ctx e, (body ctx e).refs = ctx.refs) (items : List (Path × ListenItem)) :
    (items.foldl body ctx).refs = ctx.refs := by
  induction items generalizing ctx with
  | nil => rfl
  | cons e items ih => rw [List.foldl_cons, ih, hbody]

theorem Rewrites.refs {body : ListenCtx → Path × ListenItem → ListenCtx}
    {hit : ListenStatus → Option ListenStatus} (hbody : Rewrites keyCmp body hit) (ctx : ListenCtx)
    (e : Path × ListenItem) : (body ctx e).refs = ctx.refs := by
  have hlist := hbody ctx e
  cases hhit : hit e.2.status with
  | none =>
      rw [hhit] at hlist
      rw [ListenCtx.refs, hlist, ListenCtx.refs]
  | some s =>
      rw [hhit] at hlist
      rw [ListenCtx.refs, hlist]
      exact refs_setStatus e.1 s

@[simp] theorem refs_requestListen (p : Path) (a : Addr) :
    (requestListen keyCmp p a ctx).refs = ctx.refs := by
  rw [requestListen]
  split
  · rw [refs_wcDatasyncListen, refs_setStatus]
  · exact refs_setStatus p _

@[simp] theorem refs_maskListenRequest (p : Path) :
    (maskListenRequest keyCmp p ctx).refs = ctx.refs := refs_foldl rewrites_maskItem.refs _

theorem refs_unmaskLoop (top : Option Path) (items : List (Path × ListenItem)) :
    (unmaskLoop keyCmp top ctx items).refs = ctx.refs := by
  induction items generalizing top ctx with
  | nil => rfl
  | cons e items ih =>
      rw [unmaskLoop]
      split
      · exact ih top
      · split
        · rw [ih, refs_requestListen]
        · exact ih top

@[simp] theorem refs_unmaskListenRequest (p : Path) :
    (unmaskListenRequest keyCmp p ctx).refs = ctx.refs := refs_unmaskLoop none _

/-- Losing, making or using a connection. -/
theorem refs_step {op : ListenOp} (hwatch : ∀ path addr, op ≠ .watch path addr)
    (hunwatch : ∀ p n, op ≠ .unwatchEx p n) {ctx' : ListenCtx}
    (hstep : ctx.step keyCmp op = some ctx') : ctx'.refs = ctx.refs := by
  cases op with
  | watch path addr => exact absurd rfl (hwatch path addr)
  | unwatchEx p n => exact absurd rfl (hunwatch p n)
  | cnxLost =>
      obtain rfl := Option.some.inj hstep
      exact refs_foldl rewrites_suspendItem.refs _
  | handshake =>
      obtain rfl := Option.some.inj hstep
      exact refs_foldl rewrites_resumeItem.refs _
  | response id ok =>
      obtain rfl := Option.some.inj hstep
      rw [ListenCtx.refs, list_wcDatasyncReqResponseDispatch]
      cases answeredItem ctx id with
      | none => rfl
      | some e => exact refs_setStatus e.1 _
  | connect =>
      obtain rfl := Option.some.inj hstep
      split <;> rfl
  | closeCnx =>
      obtain rfl := Option.some.inj hstep
      split <;> rfl

/-! ### Functions that count -/

/-- The reference count of the item of a path. -/
def ListenCtx.ref (keyCmp : Key → Key → Ordering) (ctx : ListenCtx) (path : Path) : Option ℕ :=
  avlFind (wcDatasyncPathCmp keyCmp) path ctx.refs

theorem ref_eq (path : Path) : ctx.ref keyCmp path = (ctx.item keyCmp path).map ListenItem.ref :=
  avlFind_map path ctx.list

theorem ref_congr {ctx' : ListenCtx} (h : ctx'.refs = ctx.refs) (path : Path) :
    ctx'.ref keyCmp path = ctx.ref keyCmp path := by
  rw [ListenCtx.ref, h, ListenCtx.ref]

theorem wellFormed_congr {ctx' : ListenCtx} (h : ctx'.refs = ctx.refs) :
    ctx'.WellFormed keyCmp ↔ ctx.WellFormed keyCmp := by
  have hrefs : ∀ c : ListenCtx, c.WellFormed keyCmp ↔ c.refs.Ordered (wcDatasyncPathCmp keyCmp) :=
    fun _ => ordered_map.symm
  rw [hrefs, h, hrefs]

variable [TransCmp keyCmp] [LawfulEqCmp keyCmp]

theorem wcDatasyncWatch_ref (hwf : ctx.WellFormed keyCmp) (path : Bytes) (addr : Addr) :
    (wcDatasyncWatch keyCmp path addr ctx).WellFormed keyCmp ∧
      ∀ q, (wcDatasyncWatch keyCmp path addr ctx).ref keyCmp q =
        if q = wcDatasyncPathParse path then some ((ctx.ref keyCmp q).getD 0 + 1)
        else ctx.ref keyCmp q := by
  set p := wcDatasyncPathParse path with hp
  have hrefs : (wcDatasyncWatch keyCmp path addr ctx).refs =
      (listenRegistryAddEx keyCmp p addr ctx).1.refs := by
    simp only [wcDatasyncWatch]
    split
    · rw [refs_maskListenRequest, refs_requestListen]
    · rfl
  rw [wellFormed_congr hrefs]
  simp only [ref_congr hrefs, ref_eq]
  rw [listenRegistryAddEx]
  cases hitem : avlFind (wcDatasyncPathCmp keyCmp) p ctx.list with
  | none =>
      refine ⟨ordered_avlInsertRec hwf _ (avlFind_eq_none_iff.mp hitem), fun q => ?_⟩
      rw [ListenCtx.item, ListenCtx.item, avlFind_avlInsertRec hwf _ hitem]
      simp only [pathCmp_eq_iff]
      by_cases hq : q = p
      · simp [hq, hitem]
      · simp [hq]
  | some li =>
      refine ⟨ordered_avlModify hwf p _, fun q => ?_⟩
      rw [ListenCtx.item, ListenCtx.item, avlFind_avlModify hwf]
      simp only [pathCmp_eq_iff]
      by_cases hq : q = p
      · simp [hq, hitem]
      · simp [hq]

/-- The assertion holds when no more references are given back than there
are. -/
theorem wcDatasyncUnwatchEx_ref (hwf : ctx.WellFormed keyCmp) {p : Path} {n : ℕ}
    (hle : ∀ r ∈ ctx.ref keyCmp p, n ≤ r) :
    ∃ ctx', wcDatasyncUnwatchEx keyCmp p n ctx = some ctx' ∧ ctx'.WellFormed keyCmp ∧
      ∀ q, ctx'.ref keyCmp q =
        if q = p then (ctx.ref keyCmp q).bind fun r => if r - n = 0 then none else some (r - n)
        else ctx.ref keyCmp q := by
  rw [wcDatasyncUnwatchEx, listenRegistryUnref]
  cases hitem : avlFind (wcDatasyncPathCmp keyCmp) p ctx.list with
  | none =>
      refine ⟨ctx, rfl, hwf, fun q => ?_⟩
      by_cases hq : q = p
      · simp [hq, ref_eq, ListenCtx.item, hitem]
      · simp [hq]
  | some li =>
      have hn : ¬ li.ref < n := by
        have := hle li.ref (by simp [ref_eq, ListenCtx.item, hitem])
        omega
      simp only [hn, if_false]
      by_cases hpos : li.ref - n > 0
      · simp only [hpos, if_true]
        refine ⟨_, rfl, ordered_avlModify hwf p _, fun q => ?_⟩
        rw [ref_eq, ref_eq, ListenCtx.item, ListenCtx.item, avlFind_avlModify hwf]
        simp only [pathCmp_eq_iff]
        by_cases hq : q = p
        · have : li.ref - n ≠ 0 := by omega
          simp [hq, hitem, this]
        · simp [hq]
      · simp only [hpos, if_false]
        set ctx₁ : ListenCtx := wcDatasyncUnlisten p
          { ctx with list := avlRemove (wcDatasyncPathCmp keyCmp) p ctx.list } with hctx₁
        have hwf₁ : ctx₁.WellFormed keyCmp := ordered_avlRemove hwf p
        have hrefs : (unmaskListenRequest keyCmp p ctx₁).refs = ctx₁.refs :=
          refs_unmaskListenRequest p
        refine ⟨_, rfl, ?_, fun q => ?_⟩
        · rwa [wellFormed_congr hrefs]
        · rw [ref_congr hrefs, ref_eq, ref_eq]
          show (avlFind _ q (avlRemove _ p ctx.list)).map ListenItem.ref = _
          rw [avlFind_avlRemove hwf]
          simp only [pathCmp_eq_iff]
          by_cases hq : q = p
          · have : li.ref - n = 0 := by omega
            simp [hq, ListenCtx.item, hitem, this]
          · simp [hq, ListenCtx.item]

end Refs

end WebcomSdk.Datasync
