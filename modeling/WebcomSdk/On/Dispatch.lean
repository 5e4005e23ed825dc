import WebcomSdk.Datasync.PathTree
import WebcomSdk.On.OnRegistry

/-!
A dispatch whose callbacks register nothing. Each trigger is then a list of
invocations and a write to the `on_sub`, both functions of the cached value and
of the `on_sub` alone, and the dispatch is the sequence of these over the
subscriptions above, at and below the path.
-/

namespace WebcomSdk.On

open WebcomSdk.Collection WebcomSdk.Datasync WebcomSdk.Cache Std

def CbRun.keeps : CbRun → Bool
  | .ret keep => keep
  | .register .. => true

/-- The callbacks register nothing. -/
def OnlyReturn (answers : ℕ → CbRun) : Prop := ∀ n, ∃ keep, answers n = .ret keep

/-- One invocation of a callback that registers nothing. -/
def invoke (answers : ℕ → CbRun) (ctx : OnCtx) (c : Call) : OnCtx :=
  { ctx with
    deletedCbList :=
      if (answers ctx.log.length).keeps then ctx.deletedCbList else c.pCb :: ctx.deletedCbList
    log := ctx.log ++ [.call c] }

def OnCtx.withOnReg (reg : AvlTree Path OnSub) (ctx : OnCtx) : OnCtx := { ctx with onReg := reg }

def invokeAll (answers : ℕ → CbRun) (calls : List Call) (ctx : OnCtx) : OnCtx :=
  calls.foldl (invoke answers) ctx

section

variable (wcSHA1 : SHA1) (keyCmp : Key → Key → Ordering)

/-! ### What a trigger does -/

/-- `on_val_trig` has something to tell. -/
def OnSub.valueStale (cached : Option Treenode) (sub : OnSub) : Bool :=
  !((sub.cbList .value).isEmpty || treenodeHashEq (valueHash wcSHA1 cached) (some sub.hash))

def valCalls (cached : Option Treenode) (sub : OnSub) : List Call :=
  if sub.valueStale wcSHA1 cached then
    (sub.cbList .value).map fun pCb => ⟨pCb, .value, cached, none, none⟩
  else []

def valSub (cached : Option Treenode) (sub : OnSub) : OnSub :=
  if sub.valueStale wcSHA1 cached then
    { sub with hash := treenodeHashCopy (valueHash wcSHA1 cached) }
  else sub

def OnSub.childTriggers (cached : Option Treenode) (sub : OnSub) : List ChildTrigger :=
  match cached with
  | some (.internal children _) =>
      On.childTriggers wcSHA1 keyCmp children.toList sub.childrenHashes.toList none
  | _ => childrenRemoved none sub.childrenHashes.toList

def childCalls (cached : Option Treenode) (sub : OnSub) : List Call :=
  (sub.childTriggers wcSHA1 keyCmp cached).flatMap fun t => (sub.cbList t.type).map t.call

def childSub (cached : Option Treenode) (sub : OnSub) : OnSub :=
  match cached with
  | some (.internal children _) =>
      if (sub.childTriggers wcSHA1 keyCmp cached).isEmpty then sub
      else refreshOnChildSubHashes wcSHA1 keyCmp children sub
  | _ => sub.clearHashes

def trigCalls (cached : Option Treenode) (sub : OnSub) : List Call :=
  (if sub.hasChildCb then childCalls wcSHA1 keyCmp cached sub else []) ++
    valCalls wcSHA1 cached sub

def trigSub (cached : Option Treenode) (sub : OnSub) : OnSub :=
  valSub wcSHA1 cached (if sub.hasChildCb then childSub wcSHA1 keyCmp cached sub else sub)

end

variable {wcSHA1 : SHA1} {keyCmp : Key → Key → Ordering} {answers : ℕ → CbRun}

theorem internal_or_not (cached : Option Treenode) :
    (∃ children hash, cached = some (.internal children hash)) ∨
      ∀ children hash, cached ≠ some (.internal children hash) := by
  by_cases h : ∃ children hash, cached = some (.internal children hash)
  · exact .inl h
  · exact .inr fun children hash heq => h ⟨children, hash, heq⟩

theorem childTriggers_internal (children : Children) (hash : Option TreenodeHash) (sub : OnSub) :
    sub.childTriggers wcSHA1 keyCmp (some (.internal children hash)) =
      childTriggers wcSHA1 keyCmp children.toList sub.childrenHashes.toList none := rfl

theorem childTriggers_of_not_internal {cached : Option Treenode}
    (h : ∀ children hash, cached ≠ some (.internal children hash)) (sub : OnSub) :
    sub.childTriggers wcSHA1 keyCmp cached = childrenRemoved none sub.childrenHashes.toList := by
  unfold OnSub.childTriggers
  split
  next heq => exact absurd rfl (h _ _)
  next => rfl

@[simp] theorem cbList_valSub (cached : Option Treenode) (sub : OnSub) :
    (valSub wcSHA1 cached sub).cbList = sub.cbList := by
  rw [valSub]
  split <;> rfl

@[simp] theorem cbList_childSub (cached : Option Treenode) (sub : OnSub) :
    (childSub wcSHA1 keyCmp cached sub).cbList = sub.cbList := by
  unfold childSub
  split
  · split <;> rfl
  · rfl

@[simp] theorem hash_childSub (cached : Option Treenode) (sub : OnSub) :
    (childSub wcSHA1 keyCmp cached sub).hash = sub.hash := by
  unfold childSub
  split
  · split <;> rfl
  · rfl

@[simp] theorem cbList_trigSub (cached : Option Treenode) (sub : OnSub) :
    (trigSub wcSHA1 keyCmp cached sub).cbList = sub.cbList := by
  rw [trigSub, cbList_valSub]
  split
  · exact cbList_childSub cached sub
  · rfl

/-! ### Writes to one `on_sub` -/

theorem modifySub_congr {ctx : OnCtx} {path : Path} {sub : OnSub} {f g : OnSub → OnSub}
    (hsub : ctx.sub keyCmp path = some sub) (h : f sub = g sub) :
    ctx.modifySub keyCmp path f = ctx.modifySub keyCmp path g := by
  rw [OnCtx.modifySub, OnCtx.modifySub]
  congr 2
  refine avlModify_congr _ fun v hv => ?_
  obtain rfl : sub = v := Option.some.inj (hsub.symm.trans hv)
  exact h

theorem modifySub_eq_self {ctx : OnCtx} {path : Path} {sub : OnSub} {f : OnSub → OnSub}
    (hsub : ctx.sub keyCmp path = some sub) (h : f sub = sub) :
    ctx.modifySub keyCmp path f = ctx := by
  rw [modifySub_congr hsub (g := id) h, OnCtx.modifySub, avlModify_id]

theorem modifySub_modifySub (ctx : OnCtx) (path : Path) (f g : OnSub → OnSub) :
    (ctx.modifySub keyCmp path f).modifySub keyCmp path g =
      ctx.modifySub keyCmp path (g ∘ f) := by
  rw [OnCtx.modifySub, OnCtx.modifySub, OnCtx.modifySub, avlModify_avlModify]

theorem sub_modifySub_self (ctx : OnCtx) (path : Path) (f : OnSub → OnSub) :
    (ctx.modifySub keyCmp path f).sub keyCmp path = (ctx.sub keyCmp path).map f :=
  avlFind_avlModify_self f path ctx.onReg

@[simp] theorem cached_modifySub (ctx : OnCtx) (path q : Path) (f : OnSub → OnSub) :
    (ctx.modifySub keyCmp path f).cached keyCmp q = ctx.cached keyCmp q := rfl

/-! ### Invocations -/

section Invoke

variable (calls : List Call) (ctx : OnCtx)

@[simp] theorem onReg_invokeAll : (invokeAll answers calls ctx).onReg = ctx.onReg := by
  induction calls generalizing ctx with
  | nil => rfl
  | cons c calls ih => exact ih _

@[simp] theorem cache_invokeAll : (invokeAll answers calls ctx).cache = ctx.cache := by
  induction calls generalizing ctx with
  | nil => rfl
  | cons c calls ih => exact ih _

@[simp] theorem listen_invokeAll : (invokeAll answers calls ctx).listen = ctx.listen := by
  induction calls generalizing ctx with
  | nil => rfl
  | cons c calls ih => exact ih _

@[simp] theorem alloc_invokeAll : (invokeAll answers calls ctx).alloc = ctx.alloc := by
  induction calls generalizing ctx with
  | nil => rfl
  | cons c calls ih => exact ih _

@[simp] theorem fault_invokeAll : (invokeAll answers calls ctx).fault = ctx.fault := by
  induction calls generalizing ctx with
  | nil => rfl
  | cons c calls ih => exact ih _

@[simp] theorem log_invokeAll :
    (invokeAll answers calls ctx).log = ctx.log ++ calls.map .call := by
  induction calls generalizing ctx with
  | nil => simp [invokeAll]
  | cons c calls ih =>
      show (invokeAll answers calls (invoke answers ctx c)).log = _
      rw [ih]
      simp [invoke]

theorem invokeAll_append (calls' : List Call) :
    invokeAll answers (calls ++ calls') ctx =
      invokeAll answers calls' (invokeAll answers calls ctx) := List.foldl_append

theorem withOnReg_invokeAll (reg : AvlTree Path OnSub) :
    (invokeAll answers calls ctx).withOnReg reg = invokeAll answers calls (ctx.withOnReg reg) := by
  induction calls generalizing ctx with
  | nil => rfl
  | cons c calls ih => exact ih _

theorem modifySub_invokeAll (path : Path) (f : OnSub → OnSub) :
    (invokeAll answers calls ctx).modifySub keyCmp path f =
      invokeAll answers calls (ctx.modifySub keyCmp path f) := by
  induction calls generalizing ctx with
  | nil => rfl
  | cons c calls ih => exact ih _

@[simp] theorem sub_invokeAll (path : Path) :
    (invokeAll answers calls ctx).sub keyCmp path = ctx.sub keyCmp path := by
  rw [OnState.sub, onReg_invokeAll, OnState.sub]

@[simp] theorem cached_invokeAll (path : Path) :
    (invokeAll answers calls ctx).cached keyCmp path = ctx.cached keyCmp path := by
  rw [OnState.cached, cache_invokeAll, OnState.cached]

@[simp] theorem rebuilt_invokeAll (path : Path) :
    (invokeAll answers calls ctx).rebuilt keyCmp path = ctx.rebuilt keyCmp path := by
  rw [OnState.rebuilt, sub_invokeAll, OnState.rebuilt]

end Invoke

/-! ### Triggers -/

/-- The next `m` invocations register nothing. -/
def ReturnFor (answers : ℕ → CbRun) (m : ℕ) (ctx : OnCtx) : Prop :=
  ∀ n < m, ∃ keep, answers (ctx.log.length + n) = .ret keep

section Triggers

theorem OnlyReturn.returnFor (h : OnlyReturn answers) (m : ℕ) (ctx : OnCtx) :
    ReturnFor answers m ctx := fun _ _ => h _

theorem ReturnFor.zero (answers : ℕ → CbRun) (ctx : OnCtx) : ReturnFor answers 0 ctx :=
  fun _ hn => absurd hn (Nat.not_lt_zero _)

theorem ReturnFor.mono {m n : ℕ} {ctx : OnCtx} (h : ReturnFor answers m ctx) (hle : n ≤ m) :
    ReturnFor answers n ctx := fun k hk => h k (hk.trans_le hle)

theorem ReturnFor.invokeAll {m : ℕ} {ctx : OnCtx} {calls : List Call}
    (h : ReturnFor answers (calls.length + m) ctx) :
    ReturnFor answers m (invokeAll answers calls ctx) := by
  intro n hn
  rw [log_invokeAll, List.length_append, List.length_map, Nat.add_assoc]
  exact h _ (Nat.add_lt_add_left hn _)

theorem ReturnFor.one {m : ℕ} {ctx : OnCtx} (h : ReturnFor answers (m + 1) ctx) :
    ReturnFor answers 1 ctx := h.mono (Nat.le_add_left 1 m)

theorem ReturnFor.invoke {m : ℕ} {ctx : OnCtx} (h : ReturnFor answers (m + 1) ctx) (c : Call) :
    ReturnFor answers m (On.invoke answers ctx c) := by
  rw [Nat.add_comm] at h
  have hcalls : ReturnFor answers ([c].length + m) ctx := h
  exact hcalls.invokeAll

theorem callCb_eq {ctx : OnCtx} (hret : ReturnFor answers 1 ctx) (dispatch : Dispatch) (c : Call) :
    callCb wcSHA1 keyCmp answers dispatch ctx c = invoke answers ctx c := by
  obtain ⟨keep, hkeep⟩ := hret 0 Nat.one_pos
  rw [Nat.add_zero] at hkeep
  cases keep <;>
    simp [callCb, invoke, hkeep, CbRun.run, CbRun.keeps, OnCtx.emit, markCbForDeletion]

theorem foldl_callCb {calls : List Call} {ctx : OnCtx} (hret : ReturnFor answers calls.length ctx)
    (dispatch : Dispatch) :
    calls.foldl (callCb wcSHA1 keyCmp answers dispatch) ctx = invokeAll answers calls ctx := by
  induction calls generalizing ctx with
  | nil => rfl
  | cons c calls ih =>
      rw [List.length_cons] at hret
      rw [List.foldl_cons, callCb_eq hret.one]
      exact ih (hret.invoke c)

theorem onValTrig_eq (walking : Bool) (path : Path) {ctx : OnCtx} {sub : OnSub}
    (hsub : ctx.sub keyCmp path = some sub)
    (hret : ReturnFor answers (valCalls wcSHA1 (ctx.cached keyCmp path) sub).length ctx) :
    onValTrig wcSHA1 keyCmp answers walking path ctx =
      (invokeAll answers (valCalls wcSHA1 (ctx.cached keyCmp path) sub) ctx).modifySub keyCmp path
        (valSub wcSHA1 (ctx.cached keyCmp path)) := by
  have hsub' : (invokeAll answers (valCalls wcSHA1 (ctx.cached keyCmp path) sub) ctx).sub keyCmp
      path = some sub := by rwa [sub_invokeAll]
  rw [onValTrig, hsub]
  simp only
  cases hstale : sub.valueStale wcSHA1 (ctx.cached keyCmp path) with
  | false =>
      have hquiet : ((sub.cbList .value).isEmpty ||
          treenodeHashEq (valueHash wcSHA1 (ctx.cached keyCmp path)) (some sub.hash)) = true := by
        rwa [OnSub.valueStale, Bool.not_eq_false'] at hstale
      rw [if_pos hquiet, modifySub_eq_self hsub' (by simp [valSub, hstale]), valCalls, hstale]
      rfl
  | true =>
      have htell : ((sub.cbList .value).isEmpty ||
          treenodeHashEq (valueHash wcSHA1 (ctx.cached keyCmp path)) (some sub.hash)) = false := by
        rwa [OnSub.valueStale, Bool.not_eq_true'] at hstale
      rw [if_neg (by simp [htell]), ← modifySub_congr hsub' (f := fun sub => { sub with
        hash := treenodeHashCopy (valueHash wcSHA1 (ctx.cached keyCmp path)) })
        (by simp [valSub, hstale]), ← foldl_callCb hret ⟨walking, .value path⟩, valCalls,
        if_pos hstale, List.foldl_map]

theorem triggerLoop_eq (walking : Bool) (path : Path) (t : ChildTrigger) {cbs : List OnCb}
    {ctx : OnCtx} (hret : ReturnFor answers cbs.length ctx) :
    triggerLoop wcSHA1 keyCmp answers walking path t cbs ctx =
      invokeAll answers (cbs.map t.call) ctx := by
  induction cbs generalizing ctx with
  | nil => rfl
  | cons pCb rest ih =>
      rw [List.length_cons] at hret
      -- the invocation leaves the tables alone
      have hrebuilt : (invoke answers ctx (t.call pCb)).rebuilt keyCmp path =
          ctx.rebuilt keyCmp path := rfl
      rw [triggerLoop]
      simp only [callCb_eq hret.one, hrebuilt, bne_self_eq_false, Bool.and_false, Bool.or_false]
      exact ih (hret.invoke _)

theorem foldl_triggerOnChildCbList (walking : Bool) (path : Path) {sub : OnSub}
    {triggers : List ChildTrigger} {ctx : OnCtx} (hsub : ctx.sub keyCmp path = some sub)
    (hret : ReturnFor answers
      (triggers.flatMap fun t => (sub.cbList t.type).map t.call).length ctx) :
    triggers.foldl (triggerOnChildCbList wcSHA1 keyCmp answers walking path) ctx =
      invokeAll answers (triggers.flatMap fun t => (sub.cbList t.type).map t.call) ctx := by
  induction triggers generalizing ctx with
  | nil => rfl
  | cons t triggers ih =>
      rw [List.flatMap_cons, List.length_append] at hret
      have hhead : ReturnFor answers (sub.cbList t.type).length ctx := fun n hn =>
        hret n (by rw [List.length_map]; omega)
      rw [List.flatMap_cons, invokeAll_append, List.foldl_cons,
        ← ih (by rwa [sub_invokeAll]) hret.invokeAll, triggerOnChildCbList, hsub]
      simp only [triggerLoop_eq walking path t hhead]

theorem onChildTrig_eq (walking : Bool) (path : Path) {ctx : OnCtx} {sub : OnSub}
    (hsub : ctx.sub keyCmp path = some sub)
    (hret : ReturnFor answers
      (childCalls wcSHA1 keyCmp (ctx.cached keyCmp path) sub).length ctx) :
    onChildTrig wcSHA1 keyCmp answers walking path ctx =
      (invokeAll answers (childCalls wcSHA1 keyCmp (ctx.cached keyCmp path) sub) ctx).modifySub
        keyCmp path (childSub wcSHA1 keyCmp (ctx.cached keyCmp path)) := by
  have hsub' : (invokeAll answers (childCalls wcSHA1 keyCmp (ctx.cached keyCmp path) sub) ctx).sub
      keyCmp path = some sub := by rwa [sub_invokeAll]
  have hfold : (sub.childTriggers wcSHA1 keyCmp (ctx.cached keyCmp path)).foldl
      (triggerOnChildCbList wcSHA1 keyCmp answers walking path) ctx =
        invokeAll answers (childCalls wcSHA1 keyCmp (ctx.cached keyCmp path) sub) ctx :=
    foldl_triggerOnChildCbList walking path hsub hret
  rw [onChildTrig, hsub]
  dsimp only
  rcases internal_or_not (ctx.cached keyCmp path) with ⟨children, hash, hcached⟩ | hcached
  · rw [hcached] at hsub' hfold ⊢
    rw [childTriggers_internal] at hfold
    simp only [hfold]
    cases hempty : (childTriggers wcSHA1 keyCmp children.toList sub.childrenHashes.toList
        none).isEmpty with
    | true =>
        rw [if_pos rfl, modifySub_eq_self hsub'
          (by simp [childSub, childTriggers_internal, hempty])]
    | false =>
        rw [if_neg (by simp)]
        exact modifySub_congr hsub' (by simp [childSub, childTriggers_internal, hempty])
  · have hclear : childSub wcSHA1 keyCmp (ctx.cached keyCmp path) sub = sub.clearHashes := by
      unfold childSub
      split
      next heq => exact absurd heq (hcached _ _)
      next => rfl
    rw [childTriggers_of_not_internal hcached] at hfold
    rw [← modifySub_congr hsub' (f := OnSub.clearHashes) hclear.symm, ← hfold]
    split
    next heq => exact absurd heq (hcached _ _)
    next => rfl

variable (wcSHA1 keyCmp answers) in
/-- A trigger as invocations, then a write. -/
def fire (ctx : OnCtx) (path : Path) : OnCtx :=
  match ctx.sub keyCmp path with
  | none => ctx
  | some sub =>
      (invokeAll answers (trigCalls wcSHA1 keyCmp (ctx.cached keyCmp path) sub) ctx).modifySub
        keyCmp path (trigSub wcSHA1 keyCmp (ctx.cached keyCmp path))

variable (wcSHA1 keyCmp) in
/-- The invocations for one path. -/
def callsAt (ctx : OnState) (q : Path) : List Call :=
  match ctx.sub keyCmp q with
  | none => []
  | some sub => trigCalls wcSHA1 keyCmp (ctx.cached keyCmp q) sub

/-- **One trigger.** -/
theorem trig_eq (walking : Bool) (path : Path) {ctx : OnCtx}
    (hret : ReturnFor answers (callsAt wcSHA1 keyCmp ctx.toOnState path).length ctx) :
    trig wcSHA1 keyCmp answers walking path ctx = fire wcSHA1 keyCmp answers ctx path := by
  rw [trig, fire]
  rw [callsAt] at hret
  cases hsub : ctx.sub keyCmp path with
  | none => rfl
  | some sub =>
  rw [hsub] at hret
  simp only at hret ⊢
  cases hchild : sub.hasChildCb with
  | false =>
      rw [trigCalls, hchild, if_neg (by simp), List.nil_append] at hret
      rw [if_neg (by simp), onValTrig_eq walking path hsub hret, trigCalls, hchild]
      exact modifySub_congr (by rwa [sub_invokeAll]) (by simp [trigSub, hchild])
  | true =>
      set cached := ctx.cached keyCmp path with hcached
      rw [trigCalls, hchild, if_pos rfl, List.length_append] at hret
      -- `on_val_trig` reads nothing that `on_child_trig` wrote
      have hstale : (childSub wcSHA1 keyCmp cached sub).valueStale wcSHA1 cached =
          sub.valueStale wcSHA1 cached := by simp [OnSub.valueStale]
      have hcalls : valCalls wcSHA1 cached (childSub wcSHA1 keyCmp cached sub) =
          valCalls wcSHA1 cached sub := by simp [valCalls, hstale]
      have hfirst : ReturnFor answers (childCalls wcSHA1 keyCmp cached sub).length ctx :=
        fun n hn => hret n (hn.trans_le (Nat.le_add_right _ _))
      set ctx' := (invokeAll answers (childCalls wcSHA1 keyCmp cached sub) ctx).modifySub keyCmp
        path (childSub wcSHA1 keyCmp cached) with hctx'
      have hsub' : ctx'.sub keyCmp path = some (childSub wcSHA1 keyCmp cached sub) := by
        rw [hctx', sub_modifySub_self, sub_invokeAll, hsub, Option.map_some]
      have hcached' : ctx'.cached keyCmp path = cached := by
        rw [hctx', cached_modifySub, cached_invokeAll]
      have hsecond : ReturnFor answers (valCalls wcSHA1 (ctx'.cached keyCmp path)
          (childSub wcSHA1 keyCmp cached sub)).length ctx' := by
        rw [hcached', hcalls]
        exact hret.invokeAll
      rw [if_pos rfl, onChildTrig_eq walking path hsub hfirst, ← hctx',
        onValTrig_eq walking path hsub' hsecond, hcached', hcalls, trigCalls, hchild, if_pos rfl,
        invokeAll_append, hctx', ← modifySub_invokeAll, modifySub_modifySub]
      exact modifySub_congr (by rwa [sub_invokeAll, sub_invokeAll]) (by simp [trigSub, hchild])

theorem OnlyReturn.trig_eq (hret : OnlyReturn answers) (walking : Bool) (path : Path)
    (ctx : OnCtx) :
    trig wcSHA1 keyCmp answers walking path ctx = fire wcSHA1 keyCmp answers ctx path :=
  On.trig_eq walking path (hret.returnFor _ ctx)

end Triggers

/-! ### The subscriptions of a dispatch -/

theorem map_cbList_modifySub (ctx : OnCtx) (path : Path) {f : OnSub → OnSub}
    (hf : ∀ sub, (f sub).cbList = sub.cbList) :
    (ctx.modifySub keyCmp path f).onReg.map OnSub.cbList = ctx.onReg.map OnSub.cbList :=
  map_avlModify path ctx.onReg hf

/-- A dispatch whose callbacks register nothing leaves the callbacks alone. -/
theorem map_cbList_fire (ctx : OnCtx) (path : Path) :
    (fire wcSHA1 keyCmp answers ctx path).onReg.map OnSub.cbList =
      ctx.onReg.map OnSub.cbList := by
  rw [fire]
  split
  · rfl
  · rw [map_cbList_modifySub _ _ (cbList_trigSub _), onReg_invokeAll]

theorem map_cbList_foldl_fire (paths : List Path) (ctx : OnCtx) :
    (paths.foldl (fire wcSHA1 keyCmp answers) ctx).onReg.map OnSub.cbList =
      ctx.onReg.map OnSub.cbList := by
  induction paths using List.reverseRecOn with
  | nil => rfl
  | append_singleton paths p ih => rw [List.foldl_concat, map_cbList_fire, ih]

/-- The paths that a dispatch looks at. -/
def dispatchPaths (keyCmp : Key → Key → Ordering) (path : Path) (onReg : AvlTree Path OnSub) :
    List Path :=
  (List.range path.length).map path.take ++ (walkBelow keyCmp path onReg).map Prod.fst

section Paths

variable [TransCmp keyCmp]

omit [TransCmp keyCmp] in
theorem dispatchBelow_eq_loop (path : Path) (fuel : ℕ) (it : List Path) (ctx : OnCtx) :
    dispatchBelow wcSHA1 keyCmp answers path fuel it ctx =
      avlItLoop (wcDatasyncPathCmp keyCmp) (fun ctx : OnCtx => ctx.onReg)
        (fun q => wcDatasyncPathStartsWith q path) (trig wcSHA1 keyCmp answers true) fuel it
          ctx := by
  induction fuel generalizing it ctx with
  | zero => rfl
  | succ fuel ih =>
      rw [dispatchBelow, avlItLoop]
      cases avlItNext (wcDatasyncPathCmp keyCmp) ctx.onReg it with
      | none => rfl
      | some next =>
          simp only
          split
          · exact ih _ _
          · rfl

theorem dispatchBelow_eq (hret : OnlyReturn answers) {path : Path} {reg : AvlTree Path OnSub}
    (hreg : reg.Ordered (wcDatasyncPathCmp keyCmp)) (fuel : ℕ) (it : List Path) (ctx : OnCtx)
    (hctx : ctx.onReg.map OnSub.cbList = reg.map OnSub.cbList) :
    let paths := (avlPending (wcDatasyncPathCmp keyCmp) reg it).takeWhile
      fun q => wcDatasyncPathStartsWith q path
    dispatchBelow wcSHA1 keyCmp answers path fuel it ctx =
      if paths.length < fuel then some (paths.foldl (fire wcSHA1 keyCmp answers) ctx)
      else none := by
  have htrig : (fun ctx q => trig wcSHA1 keyCmp answers true q ctx) =
      fire wcSHA1 keyCmp answers := by
    funext ctx q
    exact hret.trig_eq true q ctx
  have hkeep : ∀ q ctx, (trig wcSHA1 keyCmp answers true q ctx).onReg.map OnSub.cbList =
      ctx.onReg.map OnSub.cbList := by
    intro q ctx
    rw [hret.trig_eq, map_cbList_fire]
  rw [dispatchBelow_eq_loop, avlItLoop_eq OnSub.cbList hreg hkeep fuel it ctx hctx, htrig]

variable [LawfulEqCmp keyCmp]

theorem nodup_dispatchPaths {path : Path} {reg : AvlTree Path OnSub}
    (hreg : reg.Ordered (wcDatasyncPathCmp keyCmp)) : (dispatchPaths keyCmp path reg).Nodup := by
  rw [dispatchPaths, List.nodup_append]
  refine ⟨?_, ?_, ?_⟩
  · rw [List.nodup_map_iff_inj_on List.nodup_range]
    intro m hm n hn h
    have := congrArg List.length h
    simp only [List.mem_range] at hm hn
    rw [List.length_take, List.length_take] at this
    omega
  · have hlt : (walkBelow keyCmp path reg).Pairwise fun a b =>
        wcDatasyncPathCmp keyCmp a.1 b.1 = .lt :=
      List.Pairwise.sublist (sublist_walkBelow hreg) hreg
    refine List.pairwise_map.mpr (hlt.imp fun {a b} h heq => ?_)
    have hself : wcDatasyncPathCmp keyCmp a.1 b.1 = .eq := pathCmp_eq_iff.mpr heq
    rw [hself] at h
    cases h
  · intro q hq r hr heq
    subst heq
    rw [List.mem_map] at hq hr
    obtain ⟨n, hn, rfl⟩ := hq
    obtain ⟨e, he, heq⟩ := hr
    have hlen := ((mem_walkBelow hreg).mp he).2.length_le
    rw [heq, List.length_take] at hlen
    rw [List.mem_range] at hn
    omega

theorem mem_dispatchPaths {path q : Path} {reg : AvlTree Path OnSub} {sub : OnSub}
    (hreg : reg.Ordered (wcDatasyncPathCmp keyCmp))
    (hq : avlFind (wcDatasyncPathCmp keyCmp) q reg = some sub) :
    q ∈ dispatchPaths keyCmp path reg ↔ Related path q := by
  have hmem := (avlFind_eq_some_iff hreg).mp hq
  rw [dispatchPaths, List.mem_append, List.mem_map, List.mem_map, Related]
  constructor
  · rintro (⟨n, -, rfl⟩ | ⟨e, he, rfl⟩)
    · exact .inl (List.take_prefix n path)
    · exact .inr ((mem_walkBelow hreg).mp he).2
  · rintro (hpre | hpre)
    · by_cases hlen : q.length < path.length
      · exact .inl ⟨q.length, List.mem_range.mpr hlen, (List.prefix_iff_eq_take.mp hpre).symm⟩
      · have heq : q = path := hpre.eq_of_length_le (by omega)
        exact .inr ⟨(q, sub), (mem_walkBelow hreg).mpr ⟨hmem, heq ▸ List.prefix_rfl⟩, rfl⟩
    · exact .inr ⟨(q, sub), (mem_walkBelow hreg).mpr ⟨hmem, hpre⟩, rfl⟩

theorem sub_modifySub {ctx : OnCtx} (hreg : ctx.onReg.Ordered (wcDatasyncPathCmp keyCmp))
    (path q : Path) (f : OnSub → OnSub) :
    (ctx.modifySub keyCmp path f).sub keyCmp q =
      if q = path then (ctx.sub keyCmp q).map f else ctx.sub keyCmp q := by
  rw [OnCtx.modifySub, OnState.sub, avlFind_avlModify hreg]
  simp only [pathCmp_eq_iff]
  rfl

/-- The triggers of a list of paths do not see each other. -/
theorem foldl_fire {paths : List Path} (hnodup : paths.Nodup) {ctx : OnCtx}
    (hreg : ctx.onReg.Ordered (wcDatasyncPathCmp keyCmp)) :
    ∃ reg, paths.foldl (fire wcSHA1 keyCmp answers) ctx =
        (invokeAll answers (paths.flatMap (callsAt wcSHA1 keyCmp ctx.toOnState)) ctx).withOnReg
          reg ∧
      reg.map OnSub.cbList = ctx.onReg.map OnSub.cbList ∧
      ∀ q, avlFind (wcDatasyncPathCmp keyCmp) q reg = (ctx.sub keyCmp q).map fun sub =>
        if q ∈ paths then trigSub wcSHA1 keyCmp (ctx.cached keyCmp q) sub else sub := by
  induction paths generalizing ctx with
  | nil => exact ⟨ctx.onReg, rfl, rfl, fun q => by simp [OnState.sub]⟩
  | cons p paths ih =>
      rw [List.nodup_cons] at hnodup
      have hreg' : (fire wcSHA1 keyCmp answers ctx p).onReg.Ordered (wcDatasyncPathCmp keyCmp) := by
        rw [← ordered_map (g := OnSub.cbList), map_cbList_fire, ordered_map]
        exact hreg
      have hcached : ∀ q, (fire wcSHA1 keyCmp answers ctx p).cached keyCmp q =
          ctx.cached keyCmp q := by
        intro q
        rw [fire]
        split
        · rfl
        · rw [cached_modifySub, cached_invokeAll]
      have hsub : ∀ q, (fire wcSHA1 keyCmp answers ctx p).sub keyCmp q =
          (ctx.sub keyCmp q).map fun sub =>
            if q = p then trigSub wcSHA1 keyCmp (ctx.cached keyCmp q) sub else sub := by
        intro q
        rw [fire]
        cases hp : ctx.sub keyCmp p with
        | none =>
            by_cases hq : q = p
            · simp [hq, hp]
            · simp [hq]
        | some sub =>
            rw [sub_modifySub (by rwa [onReg_invokeAll]), sub_invokeAll]
            by_cases hq : q = p
            · simp [hq]
            · simp [hq]
      have hcalls : ∀ q ∈ paths,
        callsAt wcSHA1 keyCmp (fire wcSHA1 keyCmp answers ctx p).toOnState q =
          callsAt wcSHA1 keyCmp ctx.toOnState q := by
        intro q hq
        have hne : q ≠ p := fun h => hnodup.1 (h ▸ hq)
        simp [callsAt, hsub, hcached, hne]
      have hfire : ∃ reg, fire wcSHA1 keyCmp answers ctx p =
          (invokeAll answers (callsAt wcSHA1 keyCmp ctx.toOnState p) ctx).withOnReg reg := by
        rw [fire, callsAt]
        cases ctx.sub keyCmp p with
        | none => exact ⟨ctx.onReg, rfl⟩
        | some sub => exact ⟨_, rfl⟩
      obtain ⟨reg, hfold, hmap, hfind⟩ := ih hnodup.2 hreg'
      refine ⟨reg, ?_, hmap.trans (map_cbList_fire ctx p), fun q => ?_⟩
      · obtain ⟨reg₁, hreg₁⟩ := hfire
        rw [List.foldl_cons, hfold, List.flatMap_congr hcalls, List.flatMap_cons, invokeAll_append,
          hreg₁, ← withOnReg_invokeAll]
        rfl
      · rw [hfind, hsub, hcached, Option.map_map]
        refine Option.map_congr fun sub _ => ?_
        by_cases hq : q = p
        · simp [hq, hnodup.1]
        · simp [hq]

omit [LawfulEqCmp keyCmp] in
/-- The second loop of a dispatch, on a registry that keeps its keys. -/
theorem pending_eq_walkBelow {path : Path} {reg : AvlTree Path OnSub}
    (hreg : reg.Ordered (wcDatasyncPathCmp keyCmp)) :
    (avlPending (wcDatasyncPathCmp keyCmp) reg
        (avlItStartAt (wcDatasyncPathCmp keyCmp) path reg [])).takeWhile
        (fun q => wcDatasyncPathStartsWith q path) =
      (walkBelow keyCmp path reg).map Prod.fst := by
  rw [avlPending_startAt hreg .refl, avlPending_nil, List.append_nil, List.takeWhile_map, walkBelow]
  rfl

omit [LawfulEqCmp keyCmp] in
/-- **A dispatch whose callbacks register nothing**, before the cancellations. -/
theorem dispatch_eq (hret : OnlyReturn answers) (path : Path) (fuel : ℕ) {ctx : OnCtx}
    (hreg : ctx.onReg.Ordered (wcDatasyncPathCmp keyCmp)) :
    onRegistryDispatchOnEvent wcSHA1 keyCmp answers path fuel ctx =
      if (walkBelow keyCmp path ctx.onReg).length < fuel then
        some (deletedCbGc keyCmp
          ((dispatchPaths keyCmp path ctx.onReg).foldl (fire wcSHA1 keyCmp answers) ctx))
      else none := by
  have habove : dispatchAbove wcSHA1 keyCmp answers path ctx =
      ((List.range path.length).map path.take).foldl (fire wcSHA1 keyCmp answers) ctx := by
    rw [dispatchAbove, List.foldl_map]
    congr 1
    funext ctx n
    exact hret.trig_eq false _ ctx
  rw [onRegistryDispatchOnEvent, habove, ← avlItStartAt_map OnSub.cbList, map_cbList_foldl_fire,
    avlItStartAt_map, dispatchBelow_eq hret hreg fuel _ _ (map_cbList_foldl_fire _ _),
    pending_eq_walkBelow hreg, List.length_map, ← List.foldl_append]
  split <;> rfl

/-- Such a dispatch makes the calls that the registry and the cache ask for at its
start, on every path that it comes to. -/
theorem dispatch_spec (hret : OnlyReturn answers) {path : Path} {fuel : ℕ} {ctx ctx' : OnCtx}
    (hreg : ctx.onReg.Ordered (wcDatasyncPathCmp keyCmp))
    (hdispatch : onRegistryDispatchOnEvent wcSHA1 keyCmp answers path fuel ctx = some ctx') :
    ∃ reg, ctx' = deletedCbGc keyCmp ((invokeAll answers
          ((dispatchPaths keyCmp path ctx.onReg).flatMap (callsAt wcSHA1 keyCmp ctx.toOnState))
          ctx).withOnReg reg) ∧
      reg.map OnSub.cbList = ctx.onReg.map OnSub.cbList ∧
      ∀ q, avlFind (wcDatasyncPathCmp keyCmp) q reg = (ctx.sub keyCmp q).map fun sub =>
        if q ∈ dispatchPaths keyCmp path ctx.onReg
          then trigSub wcSHA1 keyCmp (ctx.cached keyCmp q) sub else sub := by
  rw [dispatch_eq hret path fuel hreg] at hdispatch
  split at hdispatch
  case isFalse => cases hdispatch
  have hnodup : (dispatchPaths keyCmp path ctx.onReg).Nodup := nodup_dispatchPaths hreg
  obtain ⟨reg, hfold, hcbs, hfind⟩ : ∃ reg, _ = _ ∧ _ := foldl_fire hnodup hreg
  refine ⟨reg, ?_, hcbs, hfind⟩
  rw [← hfold]
  exact (Option.some.inj hdispatch).symm

variable (wcSHA1 keyCmp) in
omit [TransCmp keyCmp] [LawfulEqCmp keyCmp] in
/-- Every push is processed to its end, whatever its callbacks return. -/
def OnCtx.DispatchesEnd (ctx : OnCtx) : Prop :=
  ∀ path data answers, OnlyReturn answers →
    (∃ fuel, (ctx.step wcSHA1 keyCmp (.updatePut path data answers fuel)).isSome) ∧
      ∃ fuel, (ctx.step wcSHA1 keyCmp (.updateMerge path data answers fuel)).isSome

omit [LawfulEqCmp keyCmp] in
theorem dispatchesEnd {ctx : OnCtx} (hreg : ctx.onReg.Ordered (wcDatasyncPathCmp keyCmp))
    (hfault : ctx.fault = false) : ctx.DispatchesEnd wcSHA1 keyCmp := by
  intro path data answers hret
  set n := (walkBelow keyCmp (wcDatasyncPathParse path) ctx.onReg).length with hn
  have hend : ∀ cache : Treenode, (onRegistryDispatchOnEvent wcSHA1 keyCmp answers
      (wcDatasyncPathParse path) (n + 1) { ctx with cache }).isSome := by
    intro cache
    have hn' : n < n + 1 := Nat.lt_succ_self n
    rw [dispatch_eq hret]
    · rw [if_pos hn']
      rfl
    · exact hreg
  have hnot : ¬ ctx.fault = true := by simp [hfault]
  refine ⟨⟨n + 1, ?_⟩, n + 1, ?_⟩
  · rw [OnCtx.step, if_neg hnot]
    exact hend _
  · rw [OnCtx.step, if_neg hnot]
    exact hend _

end Paths

end WebcomSdk.On
