import WebcomSdk.On.TriggerEffects

/-!
What a dispatch is going to do, read off the state in which it starts: the
invocations in the order in which the registry and the cache ask for them, each
with the trigger that makes it. As long as the callbacks register nothing, the
dispatch follows this schedule.
-/

namespace WebcomSdk.On

open WebcomSdk.Lib WebcomSdk.Collection WebcomSdk.Datasync WebcomSdk.Cache Std

/-- The invocations of `trigger_on_child_cb_list`, each with whether
`on_child_trig` or the loop itself reads a node of `children_hashes` after it. -/
def heldCalls (q : Path) (t : ChildTrigger) : List OnCb → List (Trigger × Call)
  | [] => []
  | pCb :: rest =>
      (.child q (t.held || (t.keyHeld && !rest.isEmpty)), t.call pCb) :: heldCalls q t rest

section

variable (wcSHA1 : SHA1) (keyCmp : Key → Key → Ordering)

def childSchedule (q : Path) (cached : Option Treenode) (sub : OnSub) : List (Trigger × Call) :=
  if sub.hasChildCb then
    (sub.childTriggers wcSHA1 keyCmp cached).flatMap fun t => heldCalls q t (sub.cbList t.type)
  else []

def valueSchedule (q : Path) (cached : Option Treenode) (sub : OnSub) : List (Trigger × Call) :=
  (valCalls wcSHA1 cached sub).map fun c => (.value q, c)

/-- What `trig` is going to do for one path. -/
def OnState.scheduleAt (ctx : OnState) (q : Path) : List (Trigger × Call) :=
  match ctx.sub keyCmp q with
  | none => []
  | some sub =>
      childSchedule wcSHA1 keyCmp q (ctx.cached keyCmp q) sub ++
        valueSchedule wcSHA1 q (ctx.cached keyCmp q) sub

/-- What the dispatch for a path is going to do. -/
def OnState.schedule (ctx : OnState) (path : Path) : List (Trigger × Call) :=
  (dispatchPaths keyCmp path ctx.onReg).flatMap (ctx.scheduleAt wcSHA1 keyCmp)

end

variable {wcSHA1 : SHA1} {keyCmp : Key → Key → Ordering} {answers : ℕ → CbRun}
  {ctx ctx' : OnCtx} {path q : Path} {cached : Option Treenode} {sub : OnSub}

/-! ### The entries of a schedule -/

@[simp] theorem map_snd_heldCalls (t : ChildTrigger) (cbs : List OnCb) :
    (heldCalls q t cbs).map Prod.snd = cbs.map t.call := by
  induction cbs with
  | nil => rfl
  | cons pCb rest ih => rw [heldCalls, List.map_cons, ih, List.map_cons]

theorem length_heldCalls (t : ChildTrigger) (cbs : List OnCb) :
    (heldCalls q t cbs).length = cbs.length := by
  rw [← List.length_map (f := Prod.snd), map_snd_heldCalls, List.length_map]

theorem trigger_of_mem_heldCalls {t : ChildTrigger} {cbs : List OnCb} {x : Trigger × Call}
    (hx : x ∈ heldCalls q t cbs) : ∃ held, x.1 = .child q held := by
  induction cbs with
  | nil => cases hx
  | cons pCb rest ih =>
      rcases List.mem_cons.mp hx with rfl | hx
      · exact ⟨_, rfl⟩
      · exact ih hx

theorem map_snd_flatMap_heldCalls (ts : List ChildTrigger) (cbs : OnEventType → List OnCb) :
    (ts.flatMap fun t => heldCalls q t (cbs t.type)).map Prod.snd =
      ts.flatMap fun t => (cbs t.type).map t.call := by
  rw [List.map_flatMap]
  simp only [map_snd_heldCalls]

theorem trigger_of_mem_childSchedule {x : Trigger × Call}
    (hx : x ∈ childSchedule wcSHA1 keyCmp q cached sub) : ∃ held, x.1 = .child q held := by
  rw [childSchedule] at hx
  split at hx
  · obtain ⟨t, -, hx⟩ := List.mem_flatMap.mp hx
    exact trigger_of_mem_heldCalls hx
  · cases hx

theorem trigger_of_mem_valueSchedule {x : Trigger × Call}
    (hx : x ∈ valueSchedule wcSHA1 q cached sub) : x.1 = .value q := by
  obtain ⟨c, -, rfl⟩ := List.mem_map.mp hx
  rfl

theorem type_of_mem_childSchedule {x : Trigger × Call}
    (hx : x ∈ childSchedule wcSHA1 keyCmp q cached sub) : x.2.type ≠ .value := by
  rw [childSchedule] at hx
  split at hx
  · obtain ⟨t, ht, hx⟩ := List.mem_flatMap.mp hx
    have hcall := List.mem_map_of_mem (f := Prod.snd) hx
    rw [map_snd_heldCalls] at hcall
    obtain ⟨pCb, -, heq⟩ := List.mem_map.mp hcall
    rw [← heq]
    exact type_ne_value ht
  · cases hx

theorem map_snd_childSchedule : (childSchedule wcSHA1 keyCmp q cached sub).map Prod.snd =
    if sub.hasChildCb then childCalls wcSHA1 keyCmp cached sub else [] := by
  rw [childSchedule]
  split
  · exact map_snd_flatMap_heldCalls _ _
  · rfl

theorem map_snd_valueSchedule :
    (valueSchedule wcSHA1 q cached sub).map Prod.snd = valCalls wcSHA1 cached sub := by
  rw [valueSchedule, List.map_map]
  exact List.map_id _

/-- The schedule has the invocations of a dispatch that registers nothing. -/
theorem map_snd_scheduleAt (ctx : OnState) (q : Path) :
    (ctx.scheduleAt wcSHA1 keyCmp q).map Prod.snd = callsAt wcSHA1 keyCmp ctx q := by
  rw [OnState.scheduleAt, callsAt]
  cases ctx.sub keyCmp q with
  | none => rfl
  | some sub =>
      simp only [trigCalls]
      rw [List.map_append, map_snd_childSchedule, map_snd_valueSchedule]

theorem length_scheduleAt (ctx : OnState) (q : Path) :
    (ctx.scheduleAt wcSHA1 keyCmp q).length = (callsAt wcSHA1 keyCmp ctx q).length := by
  rw [← map_snd_scheduleAt, List.length_map]

theorem scheduleAt_of_sub {ctx : OnState} (hsub : ctx.sub keyCmp q = some sub) :
    ctx.scheduleAt wcSHA1 keyCmp q =
      childSchedule wcSHA1 keyCmp q (ctx.cached keyCmp q) sub ++
        valueSchedule wcSHA1 q (ctx.cached keyCmp q) sub := by
  rw [OnState.scheduleAt, hsub]

/-- The child callbacks of a path and its table decide what it has to tell them. -/
theorem childSchedule_congr {sub' : OnSub}
    (htable : sub'.childrenHashes.toList = sub.childrenHashes.toList)
    (hcbs : ∀ type, type ≠ .value → sub'.cbList type = sub.cbList type) :
    childSchedule wcSHA1 keyCmp q cached sub' = childSchedule wcSHA1 keyCmp q cached sub := by
  have hchild : sub'.hasChildCb = sub.hasChildCb := by
    rw [OnSub.hasChildCb, hcbs _ (by decide), hcbs _ (by decide), hcbs _ (by decide),
      OnSub.hasChildCb]
  have htriggers : sub'.childTriggers wcSHA1 keyCmp cached =
      sub.childTriggers wcSHA1 keyCmp cached := by
    unfold OnSub.childTriggers
    rw [htable]
  rw [childSchedule, childSchedule, hchild, htriggers]
  split
  · refine List.flatMap_congr fun t ht => ?_
    rw [hcbs t.type (type_ne_value ht)]
  · rfl

theorem scheduleAt_congr {ctx ctx' : OnState} (hsub : ctx'.sub keyCmp q = ctx.sub keyCmp q)
    (hcached : ctx'.cached keyCmp q = ctx.cached keyCmp q) :
    ctx'.scheduleAt wcSHA1 keyCmp q = ctx.scheduleAt wcSHA1 keyCmp q := by
  rw [OnState.scheduleAt, OnState.scheduleAt, hsub, hcached]

/-- An entry is of its path. -/
theorem trigger_of_mem_scheduleAt {ctx : OnState} {x : Trigger × Call}
    (hx : x ∈ ctx.scheduleAt wcSHA1 keyCmp q) :
    (∃ held, x.1 = .child q held) ∨ x.1 = .value q := by
  rw [OnState.scheduleAt] at hx
  cases hsub : ctx.sub keyCmp q with
  | none => simp [hsub] at hx
  | some sub =>
      simp only [hsub] at hx
      rcases List.mem_append.mp hx with hx | hx
      · exact .inl (trigger_of_mem_childSchedule hx)
      · exact .inr (trigger_of_mem_valueSchedule hx)

theorem eq_of_mem_scheduleAt {ctx : OnState} {r : Path} {c : Call}
    (hx : (Trigger.value r, c) ∈ ctx.scheduleAt wcSHA1 keyCmp q) : q = r := by
  rcases trigger_of_mem_scheduleAt hx with ⟨held, h⟩ | h
  · cases h
  · cases h
    rfl

variable (wcSHA1 keyCmp) in
/-- The `ON_VALUE` callbacks of a path come last. -/
theorem pairwise_scheduleAt (ctx : OnState) (q : Path) :
    (ctx.scheduleAt wcSHA1 keyCmp q).Pairwise fun x y => x.1 = .value q → y.1 = .value q := by
  rw [OnState.scheduleAt]
  cases ctx.sub keyCmp q with
  | none => exact List.Pairwise.nil
  | some sub =>
      refine List.pairwise_append.mpr ⟨?_, ?_, fun x hx y hy _ => trigger_of_mem_valueSchedule hy⟩
      · refine List.pairwise_of_forall_mem_list fun x hx y _ hvalue => ?_
        obtain ⟨held, h⟩ := trigger_of_mem_childSchedule hx
        rw [h] at hvalue
        cases hvalue
      · exact List.pairwise_of_forall_mem_list fun x _ y hy _ => trigger_of_mem_valueSchedule hy

/-- Whom an entry invokes. -/
theorem pCb_of_mem_scheduleAt {ctx : OnState} {x : Trigger × Call}
    (hx : x ∈ ctx.scheduleAt wcSHA1 keyCmp q) :
    x.2.pCb ∈ ctx.cbs keyCmp q x.2.type ∧ (x.2.type = .value → x.1 = .value q) := by
  have hcall := List.mem_map_of_mem (f := Prod.snd) hx
  rw [map_snd_scheduleAt] at hcall
  refine ⟨mem_cbs_of_mem_callsAt hcall, fun htype => ?_⟩
  rw [OnState.scheduleAt] at hx
  cases hsub : ctx.sub keyCmp q with
  | none => simp [hsub] at hx
  | some sub =>
      simp only [hsub] at hx
      rcases List.mem_append.mp hx with hx | hx
      · exact absurd htype (type_of_mem_childSchedule hx)
      · exact trigger_of_mem_valueSchedule hx

/-- An element of two lists in a row is in the one or in the other. -/
theorem append_eq_split {α : Type} {l l' before after : List α} {x : α}
    (h : l ++ l' = before ++ x :: after) :
    (∃ before', before = l ++ before' ∧ l' = before' ++ x :: after) ∨
      ∃ after', l = before ++ x :: after' ∧ after = after' ++ l' := by
  rcases List.append_eq_append_iff.mp h with hlater | ⟨tail, rfl, htail⟩
  · exact .inl hlater
  · cases tail with
    | nil => exact .inl ⟨[], by simp, htail.symm⟩
    | cons y after' =>
        obtain ⟨rfl, rfl⟩ := List.cons.inj htail
        exact .inr ⟨after', rfl, rfl⟩

/-- What a list begins with after some of its elements. -/
theorem exists_cons_drop {α : Type} {l : List α} {m : ℕ} (h : m < l.length) :
    ∃ x ∈ l, ∃ tail, l.drop m = x :: tail :=
  ⟨l[m], List.getElem_mem h, _, List.drop_eq_getElem_cons h⟩

/-- The `ON_VALUE` callbacks of a path are told in a row. -/
theorem schedule_contiguous {ctx : OnState} {paths : List Path} (hnodup : paths.Nodup)
    {before after : List (Trigger × Call)} {x y z : Trigger × Call}
    (hsplit : paths.flatMap (ctx.scheduleAt wcSHA1 keyCmp) = before ++ x :: after)
    (hy : y ∈ before) (hyq : y.1 = .value q) (hz : z ∈ after) (hzq : z.1 = .value q) :
    x.1 = .value q := by
  have hown : ∀ {p : Path} {w : Trigger × Call}, w ∈ ctx.scheduleAt wcSHA1 keyCmp p →
      w.1 = .value q → p = q := by
    rintro p ⟨trigger, call⟩ hw rfl
    exact eq_of_mem_scheduleAt hw
  induction paths generalizing before with
  | nil => cases before <;> cases hsplit
  | cons p paths ih =>
      rw [List.nodup_cons] at hnodup
      rw [List.flatMap_cons] at hsplit
      rcases append_eq_split hsplit with ⟨before', rfl, hrest⟩ | ⟨after', hhead, -⟩
      · rcases List.mem_append.mp hy with hy | hy
        · obtain rfl := hown hy hyq
          have hz' : z ∈ paths.flatMap (ctx.scheduleAt wcSHA1 keyCmp) := by
            rw [hrest]
            exact List.mem_append_right _ (List.mem_cons_of_mem _ hz)
          obtain ⟨r, hr, hz'⟩ := List.mem_flatMap.mp hz'
          obtain rfl := hown hz' hzq
          exact absurd hr hnodup.1
        · exact ih hnodup.2 hrest hy
      · have hpairs := pairwise_scheduleAt wcSHA1 keyCmp ctx p
        rw [hhead] at hpairs
        have hy' : y ∈ ctx.scheduleAt wcSHA1 keyCmp p := by
          rw [hhead]
          exact List.mem_append_left _ hy
        obtain rfl := hown hy' hyq
        exact (List.pairwise_append.mp hpairs).2.2 y hy x List.mem_cons_self hyq

/-! ### What `on_child_trig` holds -/

/-- Nothing is held when this callback is called, nor later. -/
def ChildTrigger.Free (t : ChildTrigger) : Prop := t.held = false ∧ t.keyHeld = false

/-- Once the nodes are used up, none is held any more. -/
def HeldFirst (ts : List ChildTrigger) : Prop :=
  ts.Pairwise fun t t' => t.held = false → t'.Free

theorem heldFirst_childrenRemoved (prev : Option Key) (subs : List (Key × TreenodeHash)) :
    HeldFirst (childrenRemoved prev subs) ∧
      (subs = [] → ∀ t ∈ childrenRemoved prev subs, t.Free) := by
  induction subs with
  | nil => exact ⟨List.Pairwise.nil, fun _ t ht => absurd ht List.not_mem_nil⟩
  | cons sub subs ih =>
      refine ⟨List.Pairwise.cons (fun t ht hheld => ?_) ih.1, fun hnil => by cases hnil⟩
      have hnil : subs = [] := by simpa using hheld
      exact ih.2 hnil t ht

theorem heldFirst_childPasses {key : Key} {node : Treenode}
    {next : List (Key × TreenodeHash) → Option Key → List ChildTrigger}
    (hnext : ∀ subs prev,
      HeldFirst (next subs prev) ∧ (subs = [] → ∀ t ∈ next subs prev, t.Free))
    (subs : List (Key × TreenodeHash)) (prev : Option Key) :
    HeldFirst (childPasses wcSHA1 keyCmp key node next subs prev) ∧
      (subs = [] → ∀ t ∈ childPasses wcSHA1 keyCmp key node next subs prev, t.Free) := by
  induction subs generalizing prev with
  | nil =>
      have hrest := (hnext [] (some key)).2 rfl
      refine ⟨List.Pairwise.cons (fun t ht _ => hrest t ht) (hnext [] (some key)).1, fun _ => ?_⟩
      exact List.forall_mem_cons.mpr ⟨⟨rfl, rfl⟩, hrest⟩
  | cons sub subs ih =>
      refine ⟨?_, fun hnil => by cases hnil⟩
      rw [childPasses]
      split
      · refine List.Pairwise.cons (fun t _ hheld => ?_) (hnext _ _).1
        cases hheld
      · split
        · exact (hnext _ _).1
        · refine List.Pairwise.cons (fun t ht hheld => ?_) (hnext _ _).1
          have hnil : subs = [] := by simpa using hheld
          exact (hnext _ _).2 hnil t ht
      · refine List.Pairwise.cons (fun t ht hheld => ?_) (ih _).1
        have hnil : subs = [] := by simpa using hheld
        exact (ih _).2 hnil t ht

theorem heldFirst_childTriggers (sub : OnSub) :
    HeldFirst (sub.childTriggers wcSHA1 keyCmp cached) := by
  have hmerge : ∀ caches subs prev,
      HeldFirst (childTriggers wcSHA1 keyCmp caches subs prev) ∧
        (subs = [] → ∀ t ∈ childTriggers wcSHA1 keyCmp caches subs prev, t.Free) := by
    intro caches
    induction caches with
    | nil => exact fun subs prev => heldFirst_childrenRemoved prev subs
    | cons child caches ih => exact fun subs prev => heldFirst_childPasses ih subs prev
  unfold OnSub.childTriggers
  split
  · exact (hmerge _ _ _).1
  · exact (heldFirst_childrenRemoved _ _).1

/-! ### A dispatch, up to some point -/

section Until

variable {I : List Path → OnCtx → Prop} {F : OnCtx → Prop} {paths : List Path}

theorem dispatchAbove_until
    (hstep : ∀ done q rest c, paths = done ++ q :: rest → I done c →
      I (done ++ [q]) (trig wcSHA1 keyCmp answers false q c) ∨
        F (trig wcSHA1 keyCmp answers false q c))
    (hkeep : ∀ q c, Related path q → F c → F (trig wcSHA1 keyCmp answers false q c))
    (ns : List ℕ) {done rest : List Path} {c : OnCtx}
    (hpaths : paths = done ++ (ns.map path.take ++ rest)) (h : I done c ∨ F c) :
    I (done ++ ns.map path.take)
        (ns.foldl (fun c n => trig wcSHA1 keyCmp answers false (path.take n) c) c) ∨
      F (ns.foldl (fun c n => trig wcSHA1 keyCmp answers false (path.take n) c) c) := by
  induction ns generalizing done c with
  | nil =>
      rw [List.map_nil, List.append_nil]
      exact h
  | cons n ns ih =>
      rw [List.map_cons, List.cons_append] at hpaths
      have hone : I (done ++ [path.take n]) (trig wcSHA1 keyCmp answers false (path.take n) c) ∨
          F (trig wcSHA1 keyCmp answers false (path.take n) c) := by
        rcases h with h | h
        · exact hstep _ _ _ c hpaths h
        · exact .inr (hkeep _ c (.inl (List.take_prefix n path)) h)
      have hpaths' : paths = (done ++ [path.take n]) ++ (ns.map path.take ++ rest) := by
        simpa using hpaths
      have hrest := ih hpaths' hone
      rwa [List.append_assoc] at hrest

variable [TransCmp keyCmp] {reg : AvlTree Path OnSub}

/-- The walk, as long as it is over the registry of the start. -/
theorem dispatchBelow_until (hreg : reg.Ordered (wcDatasyncPathCmp keyCmp))
    (hstep : ∀ done q rest c, paths = done ++ q :: rest → I done c →
      I (done ++ [q]) (trig wcSHA1 keyCmp answers true q c) ∨
        F (trig wcSHA1 keyCmp answers true q c))
    (hkeep : ∀ q c, Related path q → F c → F (trig wcSHA1 keyCmp answers true q c))
    (hsame : ∀ done c, I done c → c.onReg.map OnSub.cbList = reg.map OnSub.cbList)
    {fuel : ℕ} {it : List Path} {done : List Path} {c c' : OnCtx}
    (h : I done c ∧ paths = done ++ (avlPending (wcDatasyncPathCmp keyCmp) reg it).takeWhile
      (fun q => wcDatasyncPathStartsWith q path) ∨ F c)
    (hbelow : dispatchBelow wcSHA1 keyCmp answers path fuel it c = some c') :
    I paths c' ∨ F c' := by
  induction fuel generalizing it done c with
  | zero => cases hbelow
  | succ fuel ih =>
      cases it with
      | nil =>
          obtain rfl := Option.some.inj hbelow
          refine h.imp_left fun hrest => ?_
          obtain ⟨hI, hpaths⟩ := hrest
          rw [avlPending_nil, List.takeWhile_nil, List.append_nil] at hpaths
          exact hpaths ▸ hI
      | cons top stack =>
          rw [dispatchBelow, avlItNext] at hbelow
          simp only at hbelow
          cases hgo : wcDatasyncPathStartsWith top path with
          | true =>
              rw [if_pos hgo] at hbelow
              refine @ih _ (done ++ [top]) _ ?_ hbelow
              rcases h with ⟨hI, hpaths⟩ | hF
              · rw [avlPending_next hreg top stack, List.takeWhile_cons_of_pos (by simpa using hgo)]
                  at hpaths
                have hnext : pushLeft (avlNode (wcDatasyncPathCmp keyCmp) top reg).right stack =
                    pushLeft (avlNode (wcDatasyncPathCmp keyCmp) top c.onReg).right stack := by
                  rw [← pushLeft_map (g := OnSub.cbList), ← right_map, ← avlNode_map,
                    ← hsame done c hI, avlNode_map, right_map, pushLeft_map]
                rw [hnext] at hpaths
                refine (hstep done top _ c hpaths hI).imp_left fun hI => ⟨hI, ?_⟩
                rw [List.append_assoc]
                exact hpaths
              · exact .inr (hkeep top c (.inr (wcDatasyncPathStartsWith_iff.mp hgo)) hF)
          | false =>
              rw [if_neg (by simp [hgo])] at hbelow
              obtain rfl := Option.some.inj hbelow
              refine h.imp_left fun hrest => ?_
              obtain ⟨hI, hpaths⟩ := hrest
              rw [avlPending_cons, List.cons_append, List.takeWhile_cons_of_neg (by simp [hgo]),
                List.append_nil] at hpaths
              exact hpaths ▸ hI

/-- **A dispatch, up to some point**: what holds while it goes through the paths in
turn, until something else does that the rest of it keeps. -/
theorem dispatch_until {fuel : ℕ} (hreg : ctx.onReg.Ordered (wcDatasyncPathCmp keyCmp))
    (hstep : ∀ walking done q rest c,
      dispatchPaths keyCmp path ctx.onReg = done ++ q :: rest → I done c →
        I (done ++ [q]) (trig wcSHA1 keyCmp answers walking q c) ∨
          F (trig wcSHA1 keyCmp answers walking q c))
    (hkeep : ∀ walking q c, Related path q → F c → F (trig wcSHA1 keyCmp answers walking q c))
    (hsame : ∀ done c, I done c → c.onReg.map OnSub.cbList = ctx.onReg.map OnSub.cbList)
    (hstart : I [] ctx)
    (hdispatch : onRegistryDispatchOnEvent wcSHA1 keyCmp answers path fuel ctx = some ctx') :
    ∃ ctx₁, ctx' = deletedCbGc keyCmp ctx₁ ∧
      (I (dispatchPaths keyCmp path ctx.onReg) ctx₁ ∨ F ctx₁) := by
  rw [onRegistryDispatchOnEvent] at hdispatch
  obtain ⟨ctx₁, hbelow, rfl⟩ := Option.map_eq_some_iff.mp hdispatch
  have habove : I ([] ++ (List.range path.length).map path.take)
      (dispatchAbove wcSHA1 keyCmp answers path ctx) ∨
        F (dispatchAbove wcSHA1 keyCmp answers path ctx) :=
    dispatchAbove_until (hstep false) (hkeep false) (List.range path.length) rfl (.inl hstart)
  rw [List.nil_append] at habove
  set mid := dispatchAbove wcSHA1 keyCmp answers path ctx with hmid
  have hwalk : ∀ done, I done mid → avlItStartAt (wcDatasyncPathCmp keyCmp) path mid.onReg [] =
      avlItStartAt (wcDatasyncPathCmp keyCmp) path ctx.onReg [] := by
    intro done hI
    rw [← avlItStartAt_map OnSub.cbList, hsame done mid hI, avlItStartAt_map]
  refine ⟨ctx₁, rfl, dispatchBelow_until hreg (hstep true) (hkeep true) hsame
    (habove.imp_left fun hI => ⟨hI, ?_⟩) hbelow⟩
  rw [hwalk _ hI, pending_eq_walkBelow hreg, dispatchPaths]

end Until

/-! ### A dispatch that follows its schedule -/

variable (wcSHA1 keyCmp answers) in
/-- The dispatch has gone through these paths and made the invocations of the
schedule, `n` at most. -/
structure Followed (n : ℕ) (ctx : OnCtx) (done : List Path) (c : OnCtx) : Prop where
  eq : c = done.foldl (fire wcSHA1 keyCmp answers) ctx
  short : (done.flatMap (ctx.scheduleAt wcSHA1 keyCmp)).length ≤ n

section Followed

variable [TransCmp keyCmp] [LawfulEqCmp keyCmp] {n : ℕ} {done rest : List Path} {c : OnCtx}

theorem Followed.state (h : Followed wcSHA1 keyCmp answers n ctx done c)
    (hreg : ctx.onReg.Ordered (wcDatasyncPathCmp keyCmp)) (hnodup : done.Nodup) : ∃ reg,
    c = (invokeAll answers ((done.flatMap (ctx.scheduleAt wcSHA1 keyCmp)).map Prod.snd)
        ctx).withOnReg reg ∧
      reg.map OnSub.cbList = ctx.onReg.map OnSub.cbList ∧
      ∀ q ∉ done, avlFind (wcDatasyncPathCmp keyCmp) q reg = ctx.sub keyCmp q := by
  obtain ⟨reg, heq, hmap, hfind⟩ : ∃ reg, _ = _ ∧ _ := foldl_fire hnodup hreg
  have hcalls : (done.flatMap (ctx.scheduleAt wcSHA1 keyCmp)).map Prod.snd =
      done.flatMap (callsAt wcSHA1 keyCmp ctx.toOnState) := by
    rw [List.map_flatMap]
    simp only [map_snd_scheduleAt]
  refine ⟨reg, ?_, hmap, fun q hq => ?_⟩
  · rw [h.eq, hcalls]
    exact heq
  · rw [hfind q]
    simp [hq]

/-- The next path of the schedule. -/
theorem Followed.next (h : Followed wcSHA1 keyCmp answers n ctx done c)
    (hreg : ctx.onReg.Ordered (wcDatasyncPathCmp keyCmp))
    (hpaths : dispatchPaths keyCmp path ctx.onReg = done ++ q :: rest) :
    c.log = ctx.log ++ ((done.flatMap (ctx.scheduleAt wcSHA1 keyCmp)).map Prod.snd).map .call ∧
      c.listen = ctx.listen ∧ c.sub keyCmp q = ctx.sub keyCmp q ∧
      c.scheduleAt wcSHA1 keyCmp q = ctx.scheduleAt wcSHA1 keyCmp q ∧
      (∀ m, ReturnFor answers m ctx → ReturnFor answers
        (m - (done.flatMap (ctx.scheduleAt wcSHA1 keyCmp)).length) c) := by
  have hnodup : (dispatchPaths keyCmp path ctx.onReg).Nodup := nodup_dispatchPaths hreg
  rw [hpaths] at hnodup
  obtain ⟨hdone, -, hdisjoint⟩ := List.nodup_append.mp hnodup
  have hq : q ∉ done := fun hq => hdisjoint q hq q List.mem_cons_self rfl
  obtain ⟨reg, rfl, -, hfind⟩ := h.state hreg hdone
  have hlog : ((invokeAll answers ((done.flatMap (ctx.scheduleAt wcSHA1 keyCmp)).map Prod.snd)
      ctx).withOnReg reg).log = _ := log_invokeAll _ _
  refine ⟨hlog, listen_invokeAll _ _, hfind q hq, scheduleAt_congr (hfind q hq) ?_, ?_⟩
  · exact cached_invokeAll _ _ q
  · intro m hret k hk
    rw [hlog, List.length_append, List.length_map, List.length_map, Nat.add_assoc]
    exact hret _ (by omega)

/-- **A dispatch that follows its schedule** for `n` invocations, and from then on
keeps what the rest of a trigger leaves. -/
theorem dispatch_followed {J : List Path → OnCtx → Prop} {F : OnCtx → Prop} {fuel : ℕ}
    (hreg : ctx.onReg.Ordered (wcDatasyncPathCmp keyCmp)) (hret : ReturnFor answers n ctx)
    (hquiet : ∀ walking done q rest c, dispatchPaths keyCmp path ctx.onReg = done ++ q :: rest →
      Followed wcSHA1 keyCmp answers n ctx done c → J done c →
        Followed wcSHA1 keyCmp answers n ctx (done ++ [q])
          (trig wcSHA1 keyCmp answers walking q c) →
            J (done ++ [q]) (trig wcSHA1 keyCmp answers walking q c))
    (hloud : ∀ walking done q rest c, dispatchPaths keyCmp path ctx.onReg = done ++ q :: rest →
      Followed wcSHA1 keyCmp answers n ctx done c → J done c →
        n < ((done ++ [q]).flatMap (ctx.scheduleAt wcSHA1 keyCmp)).length →
          F (trig wcSHA1 keyCmp answers walking q c))
    (hkeep : ∀ walking q c, Related path q → F c → F (trig wcSHA1 keyCmp answers walking q c))
    (hstart : J [] ctx)
    (hdispatch : onRegistryDispatchOnEvent wcSHA1 keyCmp answers path fuel ctx = some ctx') :
    ∃ ctx₁, ctx' = deletedCbGc keyCmp ctx₁ ∧
      (Followed wcSHA1 keyCmp answers n ctx (dispatchPaths keyCmp path ctx.onReg) ctx₁ ∧
        J (dispatchPaths keyCmp path ctx.onReg) ctx₁ ∨ F ctx₁) := by
  refine dispatch_until (I := fun done c => Followed wcSHA1 keyCmp answers n ctx done c ∧ J done c)
    hreg ?_ hkeep ?_ ⟨⟨rfl, Nat.zero_le n⟩, hstart⟩ hdispatch
  · rintro walking done q rest c hpaths ⟨hfollowed, hJ⟩
    rcases Nat.lt_or_ge n ((done ++ [q]).flatMap (ctx.scheduleAt wcSHA1 keyCmp)).length with
      hlt | hle
    · exact .inr (hloud walking done q rest c hpaths hfollowed hJ hlt)
    · have hnext : Followed wcSHA1 keyCmp answers n ctx (done ++ [q])
          (trig wcSHA1 keyCmp answers walking q c) := by
        refine ⟨?_, hle⟩
        obtain ⟨-, -, -, hsched, hleft⟩ := hfollowed.next hreg hpaths
        rw [List.flatMap_append, List.flatMap_singleton, List.length_append] at hle
        have hcalls : ReturnFor answers (callsAt wcSHA1 keyCmp c.toOnState q).length c := by
          rw [← length_scheduleAt, hsched]
          exact fun m hm => hleft n hret m (by omega)
        rw [List.foldl_concat, ← hfollowed.eq, trig_eq walking q hcalls]
      exact .inl ⟨hnext, hquiet walking done q rest c hpaths hfollowed hJ hnext⟩
  · rintro done c ⟨hfollowed, -⟩
    rw [hfollowed.eq, map_cbList_foldl_fire]

end Followed

end WebcomSdk.On
