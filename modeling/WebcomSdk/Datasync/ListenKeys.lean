import WebcomSdk.Datasync.KeyOrder
import WebcomSdk.Datasync.ListenCoverage
import WebcomSdk.Datasync.PathKeys

/-!
The listen registry under comparators that agree on the keys that occur. Every
operation does the same under both, so a run under `wc_datasync_key_cmp` whose
keys are strictly ordered is a run under a total order (`agreeOn_keyOrder`).
-/

namespace WebcomSdk.Datasync

open WebcomSdk.Lib WebcomSdk.Collection Std

/-- The parts of the path of a call are in `S`. -/
def ListenOp.KeysIn (S : Set Key) : ListenOp → Prop
  | .watch path _ => PathIn S (wcDatasyncPathParse path)
  | .unwatchEx path _ => PathIn S path
  | _ => True

instance {S : Set Key} [DecidablePred (· ∈ S)] (op : ListenOp) : Decidable (op.KeysIn S) :=
  match op with
  | .watch path _ => inferInstanceAs (Decidable (∀ part ∈ wcDatasyncPathParse path, part ∈ S))
  | .unwatchEx path _ => inferInstanceAs (Decidable (∀ part ∈ path, part ∈ S))
  | .response _ _ | .cnxLost | .handshake | .connect | .closeCnx =>
      inferInstanceAs (Decidable True)

/-- The same registry, with its paths in `S`. -/
structure SameIn (S : Set Key) (ctx ctx' : ListenCtx) : Prop where
  eq : ctx = ctx'
  paths : PathsIn S ctx.list

theorem pathsIn_new {S : Set Key} : PathsIn S listenRegistryNew.list :=
  fun _ he => absurd he List.not_mem_nil

section Agree

variable {S : Set Key} {cmp cmp' : Key → Key → Ordering} {ctx : ListenCtx} {path : Path}

/-- Loops over items whose paths are in `S`. -/
theorem foldl_agree {f g : ListenCtx → Path × ListenItem → ListenCtx}
    (hbody : ∀ (ctx : ListenCtx) (e : Path × ListenItem), PathsIn S ctx.list → PathIn S e.1 →
      SameIn S (f ctx e) (g ctx e)) {items : List (Path × ListenItem)}
    (hitems : ∀ e ∈ items, PathIn S e.1) (h : PathsIn S ctx.list) :
    SameIn S (items.foldl f ctx) (items.foldl g ctx) := by
  induction items generalizing ctx with
  | nil => exact ⟨rfl, h⟩
  | cons e items ih =>
      rw [List.forall_mem_cons] at hitems
      obtain ⟨heq, hin⟩ := hbody ctx e h hitems.1
      rw [List.foldl_cons, List.foldl_cons, ← heq]
      exact ih hitems.2 hin

variable (hagree : AgreeOn S cmp cmp')

include hagree

theorem isMasked_agree {list : AvlTree Path ListenItem} (hpath : PathIn S path)
    (hlist : PathsIn S list) : isMasked cmp list path = isMasked cmp' list path := by
  have hfind : ∀ nparts, avlFind (wcDatasyncPathCmp cmp) (path.take nparts) list =
      avlFind (wcDatasyncPathCmp cmp') (path.take nparts) list := fun nparts =>
    avlFind_agree (agreeOn_pathCmp hagree) (hpath.take nparts) hlist
  simp only [isMasked, hfind]

theorem item_agree (hpath : PathIn S path) (h : PathsIn S ctx.list) :
    ctx.item cmp path = ctx.item cmp' path :=
  avlFind_agree (agreeOn_pathCmp hagree) hpath h

/-! ### Statuses and requests -/

theorem setStatus_agree (hpath : PathIn S path) (status : ListenStatus) (h : PathsIn S ctx.list) :
    SameIn S (setStatus cmp path status ctx) (setStatus cmp' path status ctx) := by
  refine ⟨?_, h.modify _⟩
  rw [setStatus, setStatus, avlModify_agree (agreeOn_pathCmp hagree) hpath h]

theorem requestListen_agree (hpath : PathIn S path) (addr : Addr) (h : PathsIn S ctx.list) :
    SameIn S (requestListen cmp path addr ctx) (requestListen cmp' path addr ctx) := by
  rw [requestListen, requestListen]
  split
  · obtain ⟨heq, hin⟩ := setStatus_agree hagree hpath .pending h
    rw [← heq]
    exact ⟨rfl, hin⟩
  · exact setStatus_agree hagree hpath .required h

theorem maskItem_agree {e : Path × ListenItem} (h : PathsIn S ctx.list) (he : PathIn S e.1) :
    SameIn S (maskItem cmp ctx e) (maskItem cmp' ctx e) := by
  obtain ⟨heq, hin⟩ := setStatus_agree hagree he .masked h
  rw [maskItem, maskItem, ← heq]
  split
  · exact ⟨rfl, hin⟩
  · exact ⟨rfl, hin⟩
  · exact ⟨rfl, hin⟩
  · exact ⟨rfl, h⟩

theorem maskListenRequest_agree (hpath : PathIn S path) (h : PathsIn S ctx.list) :
    SameIn S (maskListenRequest cmp path ctx) (maskListenRequest cmp' path ctx) := by
  obtain ⟨heq, hin⟩ := walkStrictlyBelow_agree hagree hpath h
  rw [maskListenRequest, maskListenRequest, ← heq]
  exact foldl_agree (fun ctx e h he => maskItem_agree hagree h he) hin h

theorem unmaskLoop_agree {items : List (Path × ListenItem)} (hitems : ∀ e ∈ items, PathIn S e.1)
    (top : Option Path) (h : PathsIn S ctx.list) :
    SameIn S (unmaskLoop cmp top ctx items) (unmaskLoop cmp' top ctx items) := by
  induction items generalizing top ctx with
  | nil => exact ⟨rfl, h⟩
  | cons e items ih =>
      rw [List.forall_mem_cons] at hitems
      obtain ⟨p, li⟩ := e
      rw [unmaskLoop, unmaskLoop]
      split
      · exact ih hitems.2 top h
      · split
        · obtain ⟨heq, hin⟩ := requestListen_agree hagree hitems.1 li.addr h
          rw [← heq]
          exact ih hitems.2 (some p) hin
        · exact ih hitems.2 top h

theorem unmaskListenRequest_agree (hpath : PathIn S path) (h : PathsIn S ctx.list) :
    SameIn S (unmaskListenRequest cmp path ctx) (unmaskListenRequest cmp' path ctx) := by
  obtain ⟨heq, hin⟩ := walkBelow_agree hagree hpath h
  rw [unmaskListenRequest, unmaskListenRequest, ← heq]
  exact unmaskLoop_agree hagree hin none h

theorem suspendItem_agree {e : Path × ListenItem} (h : PathsIn S ctx.list) (he : PathIn S e.1) :
    SameIn S (suspendItem cmp ctx e) (suspendItem cmp' ctx e) := by
  rw [suspendItem, suspendItem]
  split
  · exact setStatus_agree hagree he .required h
  · exact ⟨rfl, h⟩

theorem resumeItem_agree {e : Path × ListenItem} (h : PathsIn S ctx.list) (he : PathIn S e.1) :
    SameIn S (resumeItem cmp ctx e) (resumeItem cmp' ctx e) := by
  obtain ⟨heq, hin⟩ := setStatus_agree hagree he .pending h
  rw [resumeItem, resumeItem, ← heq]
  split
  · exact ⟨rfl, hin⟩
  · exact ⟨rfl, h⟩

/-! ### Items -/

theorem listenRegistryAddEx_agree (hpath : PathIn S path) (addr : Addr) (h : PathsIn S ctx.list) :
    listenRegistryAddEx cmp path addr ctx = listenRegistryAddEx cmp' path addr ctx ∧
      PathsIn S (listenRegistryAddEx cmp path addr ctx).1.list := by
  have hpaths := agreeOn_pathCmp hagree
  rw [listenRegistryAddEx, listenRegistryAddEx, ← avlFind_agree hpaths hpath h,
    ← isMasked_agree hagree hpath h]
  cases avlFind (wcDatasyncPathCmp cmp) path ctx.list with
  | none =>
      refine ⟨?_, fun e he => ?_⟩
      · simp only [avlInsertRec_agree hpaths hpath h]
      · rcases (mem_avlInsertRec path _ ctx.list).mp he with rfl | he
        · exact hpath
        · exact h e he
  | some li =>
      refine ⟨?_, h.modify _⟩
      simp only [avlModify_agree hpaths hpath h]

theorem listenRegistryUnref_agree (hpath : PathIn S path) (nUnref : ℕ) (h : PathsIn S ctx.list) :
    listenRegistryUnref cmp path nUnref ctx = listenRegistryUnref cmp' path nUnref ctx ∧
      ∀ r ∈ listenRegistryUnref cmp path nUnref ctx, PathsIn S r.1.list := by
  have hpaths := agreeOn_pathCmp hagree
  rw [listenRegistryUnref, listenRegistryUnref, ← avlFind_agree hpaths hpath h,
    ← avlModify_agree hpaths hpath h, ← avlRemove_agree hpaths hpath h]
  refine ⟨rfl, fun r hr => ?_⟩
  split at hr
  · exact Option.some.inj hr ▸ h
  · split at hr
    · cases hr
    · split at hr
      · exact Option.some.inj hr ▸ h.modify _
      · exact Option.some.inj hr ▸ h.remove

/-! ### Operations -/

theorem wcDatasyncWatch_agree {text : Bytes} (hpath : PathIn S (wcDatasyncPathParse text))
    (addr : Addr) (h : PathsIn S ctx.list) :
    SameIn S (wcDatasyncWatch cmp text addr ctx) (wcDatasyncWatch cmp' text addr ctx) := by
  obtain ⟨heq, hin⟩ := listenRegistryAddEx_agree hagree hpath addr h
  rw [wcDatasyncWatch, wcDatasyncWatch, ← heq]
  generalize listenRegistryAddEx cmp (wcDatasyncPathParse text) addr ctx = r at hin ⊢
  obtain ⟨ctx₁, li⟩ := r
  dsimp only at hin ⊢
  split
  · obtain ⟨heq, hin⟩ := requestListen_agree hagree hpath li.addr hin
    rw [← heq]
    exact maskListenRequest_agree hagree hpath hin
  · exact ⟨rfl, hin⟩

theorem wcDatasyncUnwatchEx_agree (hpath : PathIn S path) (refDec : ℕ) (h : PathsIn S ctx.list) :
    wcDatasyncUnwatchEx cmp path refDec ctx = wcDatasyncUnwatchEx cmp' path refDec ctx ∧
      ∀ ctx' ∈ wcDatasyncUnwatchEx cmp path refDec ctx, PathsIn S ctx'.list := by
  obtain ⟨heq, hin⟩ := listenRegistryUnref_agree hagree hpath refDec h
  rw [wcDatasyncUnwatchEx, wcDatasyncUnwatchEx, ← heq]
  cases hr : listenRegistryUnref cmp path refDec ctx with
  | none => exact ⟨rfl, fun ctx' hctx' => by cases hctx'⟩
  | some r =>
      obtain ⟨ctx₁, removed⟩ := r
      have hin₁ : PathsIn S (wcDatasyncUnlisten path ctx₁).list := hin _ hr
      cases removed with
      | false => exact ⟨rfl, fun ctx' hctx' => Option.some.inj hctx' ▸ hin₁⟩
      | true =>
          obtain ⟨heq, hin⟩ := unmaskListenRequest_agree hagree hpath hin₁
          dsimp only
          rw [← heq]
          exact ⟨rfl, fun ctx' hctx' => Option.some.inj hctx' ▸ hin⟩

theorem wcDatasyncReqResponseDispatch_agree (id : ℕ) (ok : Bool) (h : PathsIn S ctx.list) :
    SameIn S (wcDatasyncReqResponseDispatch cmp id ok ctx)
      (wcDatasyncReqResponseDispatch cmp' id ok ctx) := by
  rw [wcDatasyncReqResponseDispatch, wcDatasyncReqResponseDispatch]
  split
  · exact ⟨rfl, h⟩
  · split
    · rw [onListenResult, onListenResult]
      split
      next e hfind =>
        exact setStatus_agree hagree (h _ (List.mem_of_find?_eq_some hfind)) _ h
      next => exact ⟨rfl, h⟩
    · exact ⟨rfl, h⟩

/-! ### Runs -/

theorem listenStep_agree {op : ListenOp} (hop : op.KeysIn S) (h : PathsIn S ctx.list) :
    ctx.step cmp op = ctx.step cmp' op ∧ ∀ ctx' ∈ ctx.step cmp op, PathsIn S ctx'.list := by
  have hdone : ∀ {ctx₁ ctx₂ : ListenCtx}, SameIn S ctx₁ ctx₂ →
      some ctx₁ = some ctx₂ ∧ ∀ ctx' ∈ some ctx₁, PathsIn S ctx'.list := by
    rintro ctx₁ ctx₂ ⟨rfl, hin⟩
    exact ⟨rfl, fun ctx' hctx' => Option.some.inj hctx' ▸ hin⟩
  cases op with
  | watch text addr =>
      rw [ListenCtx.step, ListenCtx.step]
      split
      · exact ⟨rfl, fun ctx' hctx' => by cases hctx'⟩
      · exact hdone (wcDatasyncWatch_agree hagree hop addr h)
  | unwatchEx path refDec => exact wcDatasyncUnwatchEx_agree hagree hop refDec h
  | cnxLost => exact hdone (foldl_agree (fun ctx e h he => suspendItem_agree hagree h he) h h)
  | handshake => exact hdone (foldl_agree (fun ctx e h he => resumeItem_agree hagree h he) h h)
  | response id ok => exact hdone (wcDatasyncReqResponseDispatch_agree hagree id ok h)
  | connect =>
      refine hdone ⟨rfl, ?_⟩
      split <;> exact h
  | closeCnx =>
      refine hdone ⟨rfl, ?_⟩
      split <;> exact h

end Agree

end WebcomSdk.Datasync
