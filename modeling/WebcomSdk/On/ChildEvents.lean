import WebcomSdk.On.OnChild
import WebcomSdk.On.Reentrancy

/-!
What `on_child_trig` fires, for any table of remembered hashes and any cached
value: the events of the children in the order of the keys, with the child and
the key before it where there is one, and what is remembered in the end.
-/

namespace WebcomSdk.On

open WebcomSdk.Lib WebcomSdk.Collection WebcomSdk.Datasync WebcomSdk.Cache Std

/-- The children of a cached value: none when it is not an object. -/
def childrenOf (cached : Option Treenode) : List (Key × Treenode) :=
  match cached with
  | some (.internal children _) => children.toList
  | _ => []

/-- The child of the trigger and the key before it, where `prev` stands before
the first of the children. -/
def Placed (children : List (Key × Treenode)) (prev : Option Key) (t : ChildTrigger) : Prop :=
  ∃ before node after, children = before ++ (t.curKey, node) :: after ∧
    t.snapshot = some node ∧ t.prevKey = ((before.map Prod.fst).getLast?).or prev

section

variable (wcSHA1 : SHA1) (keyCmp : Key → Key → Ordering)

/-- The triggers `ts` tell what has happened since the hashes `old` were
remembered. -/
structure ChildrenFired (old : List (Key × TreenodeHash)) (cached : Option Treenode)
    (ts : List ChildTrigger) : Prop where
  increasing : ts.Pairwise fun t t' => keyCmp t.curKey t'.curKey = .lt
  added : ∀ key, (key, .childAdded) ∈ ts.map ChildTrigger.event ↔
    key ∈ (childrenOf cached).map Prod.fst ∧ key ∉ old.map Prod.fst
  removed : ∀ key, (key, .childRemoved) ∈ ts.map ChildTrigger.event ↔
    key ∈ old.map Prod.fst ∧ key ∉ (childrenOf cached).map Prod.fst
  changed : ∀ key, (key, .childChanged) ∈ ts.map ChildTrigger.event ↔
    ∃ node hash, (key, node) ∈ childrenOf cached ∧ (key, hash) ∈ old ∧
      treenodeHashEq (scratchHash wcSHA1 node) (some hash) = false
  noValue : ∀ t ∈ ts, t.type ≠ .value
  placed : ∀ t ∈ ts, t.type = .childAdded ∨ t.type = .childChanged →
    Placed (childrenOf cached) none t
  gone : ∀ t ∈ ts, t.type = .childRemoved → t.snapshot = none

end

variable {wcSHA1 : SHA1} {keyCmp : Key → Key → Ordering} {ctx : OnCtx}

theorem childHashes_eq_map (cached : Option Treenode) :
    childHashes wcSHA1 cached = (childrenOf cached).map (childEntry wcSHA1) := by
  rcases internal_or_not cached with ⟨children, hash, rfl⟩ | hcached
  · rfl
  · have hnone : childrenOf cached = [] := by
      unfold childrenOf
      split
      next => exact absurd rfl (hcached _ _)
      next => rfl
    rw [childHashes_of_not_internal hcached, hnone]
    rfl

/-! ### Children and the keys before them -/

/-- The trigger of a removal has no snapshot, any other one is placed. -/
def WellPlaced (children : List (Key × Treenode)) (prev : Option Key) (t : ChildTrigger) : Prop :=
  (t.type = .childRemoved ∧ t.snapshot = none) ∨
    (t.type ≠ .childRemoved ∧ Placed children prev t)

theorem placed_head (key : Key) (node : Treenode) (children : List (Key × Treenode))
    (prev : Option Key) (type : OnEventType) (held keyHeld : Bool) :
    Placed ((key, node) :: children) prev ⟨type, some node, key, prev, held, keyHeld⟩ :=
  ⟨[], node, children, rfl, rfl, rfl⟩

theorem WellPlaced.cons {key : Key} {children : List (Key × Treenode)} {t : ChildTrigger}
    (h : WellPlaced children (some key) t) (node : Treenode) (prev : Option Key) :
    WellPlaced ((key, node) :: children) prev t := by
  rcases h with h | ⟨htype, before, n, after, rfl, hsnapshot, hprev⟩
  · exact .inl h
  · refine .inr ⟨htype, (key, node) :: before, n, after, rfl, hsnapshot, ?_⟩
    rw [hprev, List.map_cons, List.getLast?_cons]
    cases (before.map Prod.fst).getLast? <;> rfl

theorem wellPlaced_childrenRemoved {children : List (Key × Treenode)} {prev : Option Key}
    (subs : List (Key × TreenodeHash)) (p : Option Key) :
    ∀ t ∈ childrenRemoved p subs, WellPlaced children prev t := by
  induction subs with
  | nil => simp [childrenRemoved]
  | cons sub subs ih =>
      rw [childrenRemoved]
      exact List.forall_mem_cons.mpr ⟨.inl ⟨rfl, rfl⟩, ih⟩

theorem wellPlaced_childPasses {key : Key} {node : Treenode} {children : List (Key × Treenode)}
    {next : List (Key × TreenodeHash) → Option Key → List ChildTrigger}
    (hnext : ∀ subs, ∀ t ∈ next subs (some key), WellPlaced children (some key) t)
    (subs : List (Key × TreenodeHash)) (prev : Option Key) :
    ∀ t ∈ childPasses wcSHA1 keyCmp key node next subs prev,
      WellPlaced ((key, node) :: children) prev t := by
  have hrest : ∀ subs, ∀ t ∈ next subs (some key), WellPlaced ((key, node) :: children) prev t :=
    fun subs t ht => (hnext subs t ht).cons node prev
  induction subs with
  | nil =>
      rw [childPasses]
      exact List.forall_mem_cons.mpr ⟨.inr ⟨by simp, placed_head ..⟩, hrest []⟩
  | cons sub subs ih =>
      rw [childPasses]
      cases keyCmp key sub.1 with
      | lt => exact List.forall_mem_cons.mpr ⟨.inr ⟨by simp, placed_head ..⟩, hrest _⟩
      | eq =>
          simp only
          split
          · exact hrest subs
          · exact List.forall_mem_cons.mpr ⟨.inr ⟨by simp, placed_head ..⟩, hrest subs⟩
      | gt => exact List.forall_mem_cons.mpr ⟨.inl ⟨rfl, rfl⟩, ih⟩

theorem wellPlaced_childTriggers (children : List (Key × Treenode)) :
    ∀ subs prev, ∀ t ∈ childTriggers wcSHA1 keyCmp children subs prev,
      WellPlaced children prev t := by
  induction children with
  | nil => exact fun subs prev => wellPlaced_childrenRemoved subs prev
  | cons child children ih =>
      exact fun subs prev => wellPlaced_childPasses (fun subs => ih subs _) subs prev

theorem wellPlaced_triggers {cached : Option Treenode} {sub : OnSub} {t : ChildTrigger}
    (ht : t ∈ sub.childTriggers wcSHA1 keyCmp cached) : WellPlaced (childrenOf cached) none t := by
  rcases internal_or_not cached with ⟨children, hash, rfl⟩ | hcached
  · rw [childTriggers_internal] at ht
    exact wellPlaced_childTriggers children.toList _ none t ht
  · rw [childTriggers_of_not_internal hcached] at ht
    exact wellPlaced_childrenRemoved _ none t ht

/-! ### Events -/

section Fired

variable [TransCmp keyCmp] [LawfulEqCmp keyCmp]

theorem childTriggers_fired {cached : Option Treenode} {sub : OnSub}
    (hcache : ∀ n ∈ cached, n.Forall (NodeOk wcSHA1 keyCmp))
    (htable : sub.childrenHashes.Ordered keyCmp) :
    ChildrenFired wcSHA1 keyCmp sub.childrenHashes.toList cached
      (sub.childTriggers wcSHA1 keyCmp cached) := by
  have hnew : SortedKeys keyCmp (childHashes wcSHA1 cached) := sortedKeys_childHashes hcache
  have hold : SortedKeys keyCmp sub.childrenHashes.toList := htable
  have hkeys : (childHashes wcSHA1 cached).map Prod.fst = (childrenOf cached).map Prod.fst := by
    rw [childHashes_eq_map, List.map_map]
    rfl
  have hevent (key : Key) : ∃ x y, HasValue (childHashes wcSHA1 cached) key x ∧
      HasValue sub.childrenHashes.toList key y ∧
      ∀ type, (key, type) ∈ (sub.childTriggers wcSHA1 keyCmp cached).map ChildTrigger.event ↔
        hashEvent x y = some type := by
    obtain ⟨x, hx⟩ := hnew.exists_hasValue key
    obtain ⟨y, hy⟩ := hold.exists_hasValue key
    refine ⟨x, y, hx, hy, fun type => ?_⟩
    rw [OnSub.childTriggers_event]
    exact mem_events hnew hold hx hy
  constructor
  case increasing =>
    have hsorted := sortedKeys_events hnew hold
    rw [← OnSub.childTriggers_event] at hsorted
    exact List.pairwise_map.mp hsorted
  case added =>
    intro key
    obtain ⟨x, y, hx, hy, hiff⟩ := hevent key
    rw [hiff, ← hkeys, ← hy.eq_none_iff, ← not_not (a := key ∈ _), ← hx.eq_none_iff]
    cases x <;> cases y <;> simp [hashEvent]
  case removed =>
    intro key
    obtain ⟨x, y, hx, hy, hiff⟩ := hevent key
    rw [hiff, ← hkeys, ← hx.eq_none_iff, ← not_not (a := key ∈ _), ← hy.eq_none_iff]
    cases x <;> cases y <;> simp [hashEvent]
  case changed =>
    intro key
    obtain ⟨x, y, hx, hy, hiff⟩ := hevent key
    have hchanged : hashEvent x y = some .childChanged ↔
        ∃ a b, x = some a ∧ y = some b ∧ a ≠ b := by
      cases x <;> cases y <;> simp [hashEvent]
    have hdiffer (node : Treenode) (hash : TreenodeHash) :
        treenodeHashEq (scratchHash wcSHA1 node) (some hash) = false ↔
          (childEntry wcSHA1 (key, node)).2 ≠ hash := by
      rw [← Bool.not_eq_true, treenodeHashEq_iff]
      rfl
    rw [hiff, hchanged]
    simp only [hdiffer, hx _, hy _, childHashes_eq_map, List.mem_map]
    constructor
    · rintro ⟨a, b, ⟨child, hchild, hentry⟩, hb, hne⟩
      obtain ⟨rfl, rfl⟩ := Prod.mk.inj hentry
      exact ⟨child.2, b, hchild, hb, hne⟩
    · rintro ⟨node, b, hnode, hb, hne⟩
      exact ⟨_, b, ⟨_, hnode, rfl⟩, hb, hne⟩
  case noValue => exact fun t ht => type_ne_value ht
  case placed =>
    intro t ht htype
    rcases wellPlaced_triggers ht with ⟨hremoved, -⟩ | ⟨-, hplaced⟩
    · rw [hremoved] at htype
      exact absurd htype (by simp)
    · exact hplaced
  case gone =>
    intro t ht htype
    rcases wellPlaced_triggers ht with ⟨-, hsnapshot⟩ | ⟨hnot, -⟩
    · exact hsnapshot
    · exact absurd htype hnot

/-- Nothing is told when nothing has changed. -/
theorem table_of_no_triggers {cached : Option Treenode} {sub : OnSub}
    (hcache : ∀ n ∈ cached, n.Forall (NodeOk wcSHA1 keyCmp))
    (htable : sub.childrenHashes.Ordered keyCmp)
    (hnil : sub.childTriggers wcSHA1 keyCmp cached = []) :
    sub.childrenHashes.toList = childHashes wcSHA1 cached := by
  have hevents : (sub.childTriggers wcSHA1 keyCmp cached).map ChildTrigger.event = _ :=
    OnSub.childTriggers_event cached sub
  rw [hnil] at hevents
  exact (eq_of_no_events (sortedKeys_childHashes hcache) htable hevents.symm).symm

theorem table_onChildTrig {path : Path} {sub sub' : OnSub} (answers : ℕ → CbRun) (walking : Bool)
    (hcache : ∀ n ∈ ctx.cached keyCmp path, n.Forall (NodeOk wcSHA1 keyCmp))
    (hsub : ctx.sub keyCmp path = some sub) (htable : sub.childrenHashes.Ordered keyCmp)
    (hsub' : (onChildTrig wcSHA1 keyCmp answers walking path ctx).sub keyCmp path = some sub') :
    sub'.childrenHashes.toList = childHashes wcSHA1 (ctx.cached keyCmp path) := by
  rcases onChildTrig_spec answers hcache walking hsub with ⟨hnil, heq⟩ | ⟨f, heq, hf⟩
  · rw [heq, hsub] at hsub'
    obtain rfl := Option.some.inj hsub'
    exact table_of_no_triggers hcache htable hnil
  · rw [heq, sub_modifySub_self, Option.map_eq_some_iff] at hsub'
    obtain ⟨sub'', -, rfl⟩ := hsub'
    exact (hf sub'').2.2

end Fired

/-- The children `x` and `y` have come under `/a`, where nothing is remembered. -/
def twoNewChildren : OnCtx :=
  { wcDatasyncOnChildAdded zeroSHA1 strcmp (fun c ctx => ctx.emit (.call c)) pathA onCtxNew with
    cache := dataCacheSet strcmp pathA twoChildren dataCacheNew }

end WebcomSdk.On
