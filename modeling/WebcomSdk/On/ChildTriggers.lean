import WebcomSdk.Cache.CacheHash
import WebcomSdk.Lib.OuterJoin
import WebcomSdk.On.Dispatch

/-!
What `on_child_trig` finds out. Its loop is the outer join of the children in
the cache with the entries of `children_hashes`: a key of one side only was
added or removed, a key of both was changed when the hashes differ.
-/

namespace WebcomSdk.On

open WebcomSdk.Lib WebcomSdk.Collection WebcomSdk.Datasync WebcomSdk.Cache Std

/-- What has happened to a child, from its hash now and before. -/
def hashEvent : Option TreenodeHash → Option TreenodeHash → Option OnEventType
  | some _, none => some .childAdded
  | none, some _ => some .childRemoved
  | some new, some old => if new = old then none else some .childChanged
  | none, none => none

def keyEvent (e : Key × Option TreenodeHash × Option TreenodeHash) : Option (Key × OnEventType) :=
  (hashEvent e.2.1 e.2.2).map (e.1, ·)

def ChildTrigger.event (t : ChildTrigger) : Key × OnEventType := (t.curKey, t.type)

section

variable (wcSHA1 : SHA1)

/-- The entry of `children_hashes` for a child. -/
def childEntry (child : Key × Treenode) : Key × TreenodeHash :=
  (child.1, treenodeHashCopy (scratchHash wcSHA1 child.2))

/-- What `children_hashes` holds when it is up to date. -/
def childHashes (cached : Option Treenode) : List (Key × TreenodeHash) :=
  match cached with
  | some (.internal children _) => children.toList.map (childEntry wcSHA1)
  | _ => []

end

variable {wcSHA1 : SHA1} {keyCmp : Key → Key → Ordering}

theorem childHashes_of_not_internal {cached : Option Treenode}
    (h : ∀ children hash, cached ≠ some (.internal children hash)) :
    childHashes wcSHA1 cached = [] := by
  unfold childHashes
  split
  next heq => exact absurd rfl (h _ _)
  next => rfl

/-! ### The loop as a join -/

theorem childrenRemoved_event (prev : Option Key) (subs : List (Key × TreenodeHash)) :
    (childrenRemoved prev subs).map ChildTrigger.event =
      (outerJoin keyCmp ([] : List (Key × TreenodeHash)) subs).filterMap keyEvent := by
  rw [outerJoin]
  induction subs with
  | nil => rfl
  | cons sub subs ih =>
      rw [childrenRemoved, List.map_cons, ih]
      rfl

/-- The passes up to the child, given what those after it do. -/
theorem childPasses_event (child : Key × Treenode) {caches : List (Key × TreenodeHash)}
    {next : List (Key × TreenodeHash) → Option Key → List ChildTrigger}
    (hnext : ∀ subs prev, (next subs prev).map ChildTrigger.event =
      (outerJoin keyCmp caches subs).filterMap keyEvent) :
    ∀ subs prev, (childPasses wcSHA1 keyCmp child.1 child.2 next subs prev).map
        ChildTrigger.event =
      (outerJoin keyCmp (childEntry wcSHA1 child :: caches) subs).filterMap keyEvent := by
  intro subs
  induction subs with
  | nil =>
      intro prev
      rw [childPasses, outerJoin, List.map_cons, hnext]
      rfl
  | cons sub subs ih =>
      intro prev
      rw [childPasses, outerJoin]
      have hkey : (childEntry wcSHA1 child).1 = child.1 := rfl
      rw [hkey]
      cases keyCmp child.1 sub.1 with
      | lt =>
          simp only [List.map_cons, hnext]
          rfl
      | gt =>
          simp only [List.map_cons, ih]
          rfl
      | eq =>
          simp only
          rw [List.filterMap_cons]
          by_cases heq : treenodeHashEq (scratchHash wcSHA1 child.2) (some sub.2) = true
          · have hsame : (childEntry wcSHA1 child).2 = sub.2 := treenodeHashEq_iff.mp heq
            rw [if_pos heq, hnext]
            simp [keyEvent, hashEvent, hsame]
          · have hdiff : (childEntry wcSHA1 child).2 ≠ sub.2 := fun h =>
              heq (treenodeHashEq_iff.mpr h)
            rw [if_neg heq, List.map_cons, hnext]
            simp [keyEvent, hashEvent, hdiff, ChildTrigger.event]

theorem childTriggers_event (caches : List (Key × Treenode)) :
    ∀ subs prev, (childTriggers wcSHA1 keyCmp caches subs prev).map ChildTrigger.event =
      (outerJoin keyCmp (caches.map (childEntry wcSHA1)) subs).filterMap keyEvent := by
  induction caches with
  | nil => exact fun subs prev => childrenRemoved_event prev subs
  | cons child caches ih => exact childPasses_event child ih

/-- **What the loop of `on_child_trig` tells**, for any cached value. -/
theorem OnSub.childTriggers_event (cached : Option Treenode) (sub : OnSub) :
    (sub.childTriggers wcSHA1 keyCmp cached).map ChildTrigger.event =
      (outerJoin keyCmp (childHashes wcSHA1 cached) sub.childrenHashes.toList).filterMap
        keyEvent := by
  rcases internal_or_not cached with ⟨children, hash, rfl⟩ | hcached
  · exact On.childTriggers_event children.toList sub.childrenHashes.toList none
  · rw [childTriggers_of_not_internal hcached, childHashes_of_not_internal hcached]
    exact childrenRemoved_event none sub.childrenHashes.toList

theorem hashEvent_ne_value {new old : Option TreenodeHash} {type : OnEventType}
    (h : hashEvent new old = some type) : type ≠ .value := by
  rintro rfl
  cases new <;> cases old <;> simp [hashEvent] at h

theorem type_ne_value {cached : Option Treenode} {sub : OnSub} {t : ChildTrigger}
    (ht : t ∈ sub.childTriggers wcSHA1 keyCmp cached) : t.type ≠ .value := by
  have hevent : t.event ∈ (sub.childTriggers wcSHA1 keyCmp cached).map ChildTrigger.event :=
    List.mem_map_of_mem ht
  rw [OnSub.childTriggers_event, List.mem_filterMap] at hevent
  obtain ⟨e, -, he⟩ := hevent
  obtain ⟨type, htype, heq⟩ := Option.map_eq_some_iff.mp he
  obtain rfl : type = t.type := congrArg Prod.snd heq
  exact hashEvent_ne_value htype

/-- `on_child_trig` calls no `ON_VALUE` callback. -/
theorem type_of_mem_childCalls {cached : Option Treenode} {sub : OnSub} {c : Call}
    (hc : c ∈ childCalls wcSHA1 keyCmp cached sub) : c.type ≠ .value := by
  simp only [childCalls, List.mem_flatMap, List.mem_map] at hc
  obtain ⟨t, ht, pCb, -, rfl⟩ := hc
  exact type_ne_value ht

theorem childTriggers_congr {sub sub' : OnSub} (cached : Option Treenode)
    (h : sub'.childrenHashes.toList = sub.childrenHashes.toList) :
    sub'.childTriggers wcSHA1 keyCmp cached = sub.childTriggers wcSHA1 keyCmp cached := by
  unfold OnSub.childTriggers
  rw [h]

/-- Nothing is found when the table is up to date. -/
theorem childTriggers_eq_nil [ReflCmp keyCmp] {cached : Option Treenode} {sub : OnSub}
    (h : sub.childrenHashes.toList = childHashes wcSHA1 cached) :
    sub.childTriggers wcSHA1 keyCmp cached = [] := by
  have hevent : (sub.childTriggers wcSHA1 keyCmp cached).map ChildTrigger.event = _ :=
    OnSub.childTriggers_event cached sub
  have hnone : (outerJoin keyCmp (childHashes wcSHA1 cached) (childHashes wcSHA1 cached)).filterMap
      keyEvent = [] := by
    rw [outerJoin_self, List.filterMap_map, List.filterMap_eq_nil_iff]
    exact fun e _ => by simp [keyEvent, hashEvent]
  rw [h, hnone] at hevent
  exact List.map_eq_nil_iff.mp hevent

/-! ### The events of a join -/

section Events

variable [TransCmp keyCmp] [LawfulEqCmp keyCmp] {new old : List (Key × TreenodeHash)}

theorem sortedKeys_events (hnew : SortedKeys keyCmp new) (hold : SortedKeys keyCmp old) :
    SortedKeys keyCmp ((outerJoin keyCmp new old).filterMap keyEvent) := by
  refine List.Pairwise.filterMap _ ?_ (sortedKeys_outerJoin hnew hold)
  intro a b hab a' ha' b' hb'
  obtain ⟨_, -, rfl⟩ := Option.map_eq_some_iff.mp ha'
  obtain ⟨_, -, rfl⟩ := Option.map_eq_some_iff.mp hb'
  exact hab

/-- The event of a key is that of the hashes it has now and had before. -/
theorem mem_events (hnew : SortedKeys keyCmp new) (hold : SortedKeys keyCmp old) {key : Key}
    {type : OnEventType} {x y : Option TreenodeHash} (hx : HasValue new key x)
    (hy : HasValue old key y) :
    (key, type) ∈ (outerJoin keyCmp new old).filterMap keyEvent ↔ hashEvent x y = some type := by
  rw [List.mem_filterMap]
  constructor
  · rintro ⟨e, he, hevent⟩
    obtain ⟨t, ht, heq⟩ := Option.map_eq_some_iff.mp hevent
    obtain ⟨rfl, rfl⟩ := Prod.mk.inj heq
    obtain ⟨hx', hy'⟩ := hasValue_of_mem_outerJoin hnew hold e he
    rwa [hx.unique hx', hy.unique hy']
  · intro hevent
    refine ⟨(key, x, y), (mem_outerJoin hnew hold hx hy).mpr ?_, by simp [keyEvent, hevent]⟩
    by_contra hnone
    simp only [ne_eq, not_or, not_not] at hnone
    rw [hnone.1, hnone.2] at hevent
    cases hevent

end Events

/-! ### The table -/

theorem sortedKeys_childHashes {cached : Option Treenode}
    (h : ∀ n ∈ cached, n.Forall (NodeOk wcSHA1 keyCmp)) :
    SortedKeys keyCmp (childHashes wcSHA1 cached) := by
  rcases internal_or_not cached with ⟨children, hash, rfl⟩ | hcached
  · exact List.pairwise_map.mpr (h _ rfl).childrenOk.ordered
  · rw [childHashes_of_not_internal hcached]
    exact List.Pairwise.nil

/-- `refresh_on_child_sub_hashes` makes the table up to date. -/
theorem toList_refreshOnChildSubHashes [TransCmp keyCmp] {children : Children}
    (hash : Option TreenodeHash) (h : children.Ordered keyCmp) (sub : OnSub) :
    (refreshOnChildSubHashes wcSHA1 keyCmp children sub).childrenHashes.toList =
      childHashes wcSHA1 (some (.internal children hash)) := by
  have hsorted : SortedKeys keyCmp (children.toList.map (childEntry wcSHA1)) :=
    List.pairwise_map.mpr h
  have hall : (refreshOnChildSubHashes wcSHA1 keyCmp children sub).childrenHashes =
      avlInsertAll keyCmp .nil (children.toList.map (childEntry wcSHA1)) := by
    rw [avlInsertAll, List.foldl_map]
    rfl
  rw [hall, (toList_avlInsertAll_nil hsorted).2]
  rfl

end WebcomSdk.On
