import WebcomSdk.Collection.AvlIterator
import WebcomSdk.Collection.AvlSet

/-!
The whole iterator of `lib/collection/avl.c`: besides the stack it keeps the node
that was returned last, and the node where the path to it last went right, which
`avl_it_next` hands on one step late. `avl_it_peek_prev` finds the entry before
the current one with these.
-/

namespace WebcomSdk.Collection

open AvlTree Std

variable {κ β : Type}

def AvlTree.left : AvlTree κ β → AvlTree κ β
  | nil => nil
  | node l _ _ _ _ => l

/-- The data of a node. -/
def AvlTree.data : AvlTree κ β → Option (κ × β)
  | nil => none
  | node _ k v _ _ => some (k, v)

/-- The loop that follows the right children. -/
def AvlTree.rightmost : AvlTree κ β → AvlTree κ β
  | nil => nil
  | node l k v nil h => node l k v nil h
  | node _ _ _ (node rl rk rv rr rh) _ => rightmost (node rl rk rv rr rh)

/-- A `struct avl_it`; the stack has room for every path. -/
structure AvlIt (κ : Type) where
  sp : List κ
  /-- `_rt` -/
  rt : Option κ
  /-- `__rt` -/
  nextRt : Option κ
  c : Option κ

namespace AvlIt

def init : AvlIt κ := ⟨[], none, none, none⟩

/-- `avl_it_start`. -/
def start (t : AvlTree κ β) : AvlIt κ := { init with sp := pushLeft t [] }

/-- The loop of `avl_it_start_at`. -/
def startAtLoop (cmp : κ → κ → Ordering) (key : κ) : AvlTree κ β → AvlIt κ → AvlIt κ
  | nil, it => it
  | node l k _ r _, it =>
      let it := { it with c := some k, rt := it.nextRt }
      match cmp key k with
      | .lt => startAtLoop cmp key l { it with sp := k :: it.sp }
      | .gt => startAtLoop cmp key r { it with nextRt := some k }
      | .eq => { it with sp := k :: it.sp }

/-- `avl_it_start_at`. -/
def startAt (cmp : κ → κ → Ordering) (t : AvlTree κ β) (key : κ) : AvlIt κ :=
  startAtLoop cmp key t init

/-- `avl_it_next`: the data returned and the iterator. -/
def next (cmp : κ → κ → Ordering) (t : AvlTree κ β) (it : AvlIt κ) : Option (κ × β) × AvlIt κ :=
  match it.sp with
  | [] => (none, it)
  | top :: sp =>
      let it := { it with sp, rt := it.nextRt }
      let it := match (avlNode cmp top t).right with
        | nil => it
        | r@(node ..) => { it with nextRt := some top, sp := pushLeft r it.sp }
      ((avlNode cmp top t).data, { it with c := some top })

/-- `avl_it_peek_prev`. -/
def peekPrev (cmp : κ → κ → Ordering) (t : AvlTree κ β) (it : AvlIt κ) : Option (κ × β) :=
  match it.c with
  | none => none
  | some c =>
      match (avlNode cmp c t).left with
      | nil => it.rt.bind fun rt => (avlNode cmp rt t).data
      | l@(node ..) => l.rightmost.data

/-- The iterator after some calls of `avl_it_next`. -/
def nexts (cmp : κ → κ → Ordering) (t : AvlTree κ β) : ℕ → AvlIt κ → AvlIt κ
  | 0, it => it
  | n + 1, it => nexts cmp t n (next cmp t it).2

end AvlIt

variable {cmp : κ → κ → Ordering}

/-- The entry of the tree before those from a key on. -/
def entryBefore (cmp : κ → κ → Ordering) (t : AvlTree κ β) (key : κ) : Option (κ × β) :=
  (t.toList.filter fun e => cmp e.1 key == .lt).getLast?

/-! ### Places in the tree -/

theorem data_rightmost (t : AvlTree κ β) : t.rightmost.data = t.toList.getLast? := by
  fun_induction AvlTree.rightmost t with
  | case1 => rfl
  | case2 l k v h => simp [AvlTree.data]
  | case3 l k v h rl rk rv rr rh ih =>
      have hne : (node h rl rk rv rr).toList ≠ [] := by simp
      rw [ih, toList_node _ k, List.getLast?_append, List.getLast?_cons,
        List.getLast?_eq_some_getLast hne]
      rfl

/-- `s` hangs in `t` right after the entries `before`. -/
structure AvlTree.InPlace (s t : AvlTree κ β) (before : List (κ × β)) : Prop where
  subtree : Subtree s t
  toList : ∃ after, t.toList = before ++ (s.toList ++ after)

theorem AvlTree.InPlace.refl (t : AvlTree κ β) : t.InPlace t [] :=
  ⟨.refl, [], by simp⟩

theorem AvlTree.InPlace.left {l r t : AvlTree κ β} {k : κ} {v : β} {h : ℕ}
    {before : List (κ × β)} (hs : (node l k v r h).InPlace t before) : l.InPlace t before := by
  obtain ⟨after, hafter⟩ := hs.toList
  refine ⟨hs.subtree.trans_left, (k, v) :: r.toList ++ after, ?_⟩
  rw [hafter, toList_node, List.append_assoc]

theorem AvlTree.InPlace.right {l r t : AvlTree κ β} {k : κ} {v : β} {h : ℕ}
    {before : List (κ × β)} (hs : (node l k v r h).InPlace t before) :
    r.InPlace t (before ++ l.toList ++ [(k, v)]) := by
  obtain ⟨after, hafter⟩ := hs.toList
  refine ⟨hs.subtree.trans_right, after, ?_⟩
  rw [hafter, toList_node]
  simp

theorem AvlTree.Subtree.inPlace {s t : AvlTree κ β} (hs : Subtree s t) (hne : s ≠ .nil) :
    ∃ before, s.InPlace t before := by
  induction hs with
  | nil => exact absurd rfl hne
  | refl => exact ⟨[], .refl _⟩
  | @left s l r k v h hs ih =>
      obtain ⟨before, hplace⟩ := ih hne
      obtain ⟨after, hafter⟩ := hplace.toList
      refine ⟨before, .left hs, after ++ (k, v) :: r.toList, ?_⟩
      rw [toList_node, hafter]
      simp
  | @right s l r k v h hs ih =>
      obtain ⟨before, hplace⟩ := ih hne
      obtain ⟨after, hafter⟩ := hplace.toList
      refine ⟨l.toList ++ (k, v) :: before, .right hs, after, ?_⟩
      rw [toList_node, hafter]
      simp

variable [TransCmp cmp] {t : AvlTree κ β}

omit [TransCmp cmp] in
/-- The entries of a tree, cut where a key would stand. -/
theorem entryBefore_of_cut {key : κ} {before after : List (κ × β)}
    (hlist : t.toList = before ++ after) (hbefore : ∀ e ∈ before, cmp e.1 key = .lt)
    (hafter : ∀ e ∈ after, cmp e.1 key ≠ .lt) : entryBefore cmp t key = before.getLast? := by
  have hall : before.filter (fun e => cmp e.1 key == .lt) = before :=
    List.filter_eq_self.mpr fun e he => beq_iff_eq.mpr (hbefore e he)
  have hnone : after.filter (fun e => cmp e.1 key == .lt) = [] :=
    List.filter_eq_nil_iff.mpr fun e he h => hafter e he (beq_iff_eq.mp h)
  rw [entryBefore, hlist, List.filter_append, hall, hnone, List.append_nil]

/-- The entries before one in an ordered tree. -/
theorem entryBefore_eq (ht : t.Ordered cmp) {before after : List (κ × β)} {k : κ} {v : β}
    (hlist : t.toList = before ++ (k, v) :: after) : entryBefore cmp t k = before.getLast? := by
  have hsorted : (before ++ (k, v) :: after).Pairwise fun a b => cmp a.1 b.1 = .lt := hlist ▸ ht
  obtain ⟨-, hafter, hcross⟩ := List.pairwise_append.mp hsorted
  obtain ⟨hk, -⟩ := List.pairwise_cons.mp hafter
  apply entryBefore_of_cut hlist
  · exact fun e he => hcross e he (k, v) List.mem_cons_self
  · intro e he
    rcases List.mem_cons.mp he with rfl | he
    · have hself : cmp k k = .eq := ReflCmp.compare_self
      rw [hself]
      decide
    · rw [OrientedCmp.gt_of_lt (hk e he)]
      decide

theorem data_avlNode (ht : t.Ordered cmp) {k : κ} {v : β} (hmem : (k, v) ∈ t.toList) :
    (avlNode cmp k t).data = some (k, v) := by
  induction t with
  | nil => cases hmem
  | node l k' v' r h ihl ihr =>
      obtain ⟨hl, hr, hlk, hkr⟩ := ordered_node_iff.mp ht
      rw [toList_node, List.mem_append, List.mem_cons] at hmem
      rw [avlNode]
      rcases hmem with hmem | heq | hmem
      · rw [hlk _ hmem]
        exact ihl hl hmem
      · obtain ⟨rfl, rfl⟩ := Prod.mk.inj heq
        have hself : cmp k k = .eq := ReflCmp.compare_self
        rw [hself]
        rfl
      · rw [OrientedCmp.gt_of_lt (hkr _ hmem)]
        exact ihr hr hmem

/-! ### The invariant -/

/-- The stack `sp` holds nodes of the tree, all but the top one with a left child,
and if the top one has none, the entry before it is where the path last went right. -/
structure AvlIt.Ready (cmp : κ → κ → Ordering) (t : AvlTree κ β) (sp : List κ)
    (nextRt : Option κ) : Prop where
  below : ∀ k ∈ sp.tail, (avlNode cmp k t).left ≠ nil
  top : ∀ k ∈ sp.head?, (avlNode cmp k t).left = nil → ∃ before v after,
    t.toList = before ++ (k, v) :: after ∧ nextRt = before.getLast?.map Prod.fst

namespace AvlIt

variable {sp : List κ} {nextRt : Option κ}

omit [TransCmp cmp] in
theorem Ready.of_left (h : ∀ k ∈ sp, (avlNode cmp k t).left ≠ nil) : Ready cmp t sp nextRt := by
  refine ⟨fun k hk => h k (List.mem_of_mem_tail hk), fun k hk hleft => ?_⟩
  exact absurd hleft (h k (List.mem_of_mem_head? hk))

theorem Ready.push (ht : t.Ordered cmp) {l r : AvlTree κ β} {k : κ} {v : β} {h : ℕ}
    {before : List (κ × β)} (hs : (node l k v r h).InPlace t before)
    (hrt : nextRt = before.getLast?.map Prod.fst)
    (hsp : ∀ k ∈ sp, (avlNode cmp k t).left ≠ nil) : Ready cmp t (k :: sp) nextRt := by
  refine ⟨hsp, fun k' hk' hleft => ?_⟩
  obtain rfl := Option.some.inj hk'
  rw [avlNode_of_subtree ht hs.subtree] at hleft
  obtain rfl : l = nil := hleft
  obtain ⟨after, hafter⟩ := hs.toList
  exact ⟨before, v, r.toList ++ after, hafter, hrt⟩

theorem left_push (ht : t.Ordered cmp) {l r : AvlTree κ β} {k : κ} {v : β} {h : ℕ}
    (hs : Subtree (node l k v r h) t) (hl : l ≠ nil)
    (hsp : ∀ k ∈ sp, (avlNode cmp k t).left ≠ nil) :
    ∀ k' ∈ k :: sp, (avlNode cmp k' t).left ≠ nil := by
  rw [List.forall_mem_cons]
  refine ⟨?_, hsp⟩
  rw [avlNode_of_subtree ht hs]
  exact hl

theorem ready_pushLeft (ht : t.Ordered cmp) {s : AvlTree κ β} (hne : s ≠ nil)
    {before : List (κ × β)} (hs : s.InPlace t before)
    (hrt : nextRt = before.getLast?.map Prod.fst)
    (hsp : ∀ k ∈ sp, (avlNode cmp k t).left ≠ nil) : Ready cmp t (pushLeft s sp) nextRt := by
  induction s generalizing sp with
  | nil => exact absurd rfl hne
  | node l k v r h ihl _ =>
      rw [pushLeft]
      by_cases hl : l = nil
      · subst hl
        exact .push ht hs hrt hsp
      · exact ihl hl hs.left (left_push ht hs.subtree hl hsp)

/-- The loop goes on only below nodes it has gone left from. -/
theorem ready_startAtLoop (ht : t.Ordered cmp) (key : κ) {s : AvlTree κ β}
    {before : List (κ × β)} (hs : s.InPlace t before) (it : AvlIt κ)
    (hrt : it.nextRt = before.getLast?.map Prod.fst)
    (hsp : s ≠ nil → ∀ k ∈ it.sp, (avlNode cmp k t).left ≠ nil)
    (hnil : s = nil → Ready cmp t it.sp it.nextRt) :
    Ready cmp t (startAtLoop cmp key s it).sp (startAtLoop cmp key s it).nextRt := by
  induction s generalizing it before with
  | nil => exact hnil rfl
  | node l k v r h ihl ihr =>
      have hleft := hsp (by simp)
      rw [startAtLoop]
      cases cmp key k with
      | lt =>
          refine ihl hs.left { it with sp := k :: it.sp, c := some k, rt := it.nextRt } hrt ?_ ?_
          · intro hl
            exact left_push ht hs.subtree hl hleft
          · rintro rfl
            exact .push ht hs hrt hleft
      | gt =>
          refine ihr hs.right { it with c := some k, rt := it.nextRt, nextRt := some k } ?_ ?_ ?_
          · simp
          · exact fun _ => hleft
          · exact fun _ => .of_left hleft
      | eq => exact .push ht hs hrt hleft

omit [TransCmp cmp] in
theorem sp_startAtLoop (key : κ) (s : AvlTree κ β) (it : AvlIt κ) :
    (startAtLoop cmp key s it).sp = avlItStartAt cmp key s it.sp := by
  induction s generalizing it with
  | nil => rfl
  | node l k v r h ihl ihr =>
      rw [startAtLoop, avlItStartAt]
      cases cmp key k with
      | lt => exact ihl _
      | gt => exact ihr _
      | eq => rfl

/-- `rest` is what the iterator has left to return. -/
structure Pending (cmp : κ → κ → Ordering) (t : AvlTree κ β) (it : AvlIt κ)
    (rest : List (κ × β)) : Prop where
  keys : avlPending cmp t it.sp = rest.map Prod.fst
  suffix : rest <:+ t.toList
  ready : Ready cmp t it.sp it.nextRt

theorem pending_start (ht : t.Ordered cmp) : Pending cmp t (start t) t.toList := by
  refine ⟨?_, List.suffix_rfl, ?_⟩
  · show avlPending cmp t (pushLeft t []) = t.keys
    rw [avlPending_pushLeft ht .refl, avlPending_nil, List.append_nil]
  · show Ready cmp t (pushLeft t []) none
    by_cases hnil : t = nil
    · subst hnil
      exact .of_left (by simp [pushLeft])
    · exact ready_pushLeft ht hnil (.refl t) rfl (by simp)

theorem filter_suffix (key : κ) {l : List (κ × β)}
    (hl : l.Pairwise fun a b => cmp a.1 b.1 = .lt) :
    (l.filter fun e => cmp key e.1 != .gt) <:+ l := by
  induction l with
  | nil => exact List.suffix_rfl
  | cons e l ih =>
      obtain ⟨he, hl⟩ := List.pairwise_cons.mp hl
      by_cases hgt : cmp key e.1 = .gt
      · rw [List.filter_cons_of_neg (by simp [hgt])]
        exact (ih hl).trans (List.suffix_cons e l)
      · have hall : (e :: l).filter (fun e => cmp key e.1 != .gt) = e :: l := by
          refine List.filter_eq_self.mpr fun e' he' => ?_
          rcases List.mem_cons.mp he' with rfl | he'
          · simp [hgt]
          · have hlt : cmp key e'.1 = .lt := TransCmp.lt_of_isLE_of_lt
              (Ordering.isLE_iff_ne_gt.mpr hgt) (he e' he')
            simp [hlt]
        rw [hall]

theorem pending_startAt (ht : t.Ordered cmp) (key : κ) :
    Pending cmp t (startAt cmp t key) (t.toList.filter fun e => cmp key e.1 != .gt) := by
  refine ⟨?_, filter_suffix key ht, ?_⟩
  · rw [startAt, sp_startAtLoop, avlPending_startAt ht .refl, avlFrom_eq_filter ht]
    exact List.append_nil _
  · apply ready_startAtLoop ht key (.refl t) init rfl
    · simp [init]
    · exact fun _ => .of_left (by simp [init])

/-- What `avl_it_next` does when the stack is not empty. -/
structure Popped (cmp : κ → κ → Ordering) (t : AvlTree κ β) (it : AvlIt κ) (top : κ)
    (sp : List κ) : Prop where
  data : (next cmp t it).1 = (avlNode cmp top t).data
  sp_eq : (next cmp t it).2.sp = pushLeft (avlNode cmp top t).right sp
  rt : (next cmp t it).2.rt = it.nextRt
  c : (next cmp t it).2.c = some top
  nextRt_leaf : (avlNode cmp top t).right = nil → (next cmp t it).2.nextRt = it.nextRt
  nextRt_node : (avlNode cmp top t).right ≠ nil → (next cmp t it).2.nextRt = some top

omit [TransCmp cmp] in
theorem popped_next {it : AvlIt κ} {top : κ} (hsp : it.sp = top :: sp) :
    Popped cmp t it top sp := by
  have hnext : next cmp t it = ((avlNode cmp top t).data,
      { (match (avlNode cmp top t).right with
        | nil => { it with sp, rt := it.nextRt }
        | r@(node ..) => { it with sp := pushLeft r sp, rt := it.nextRt, nextRt := some top })
        with c := some top }) := by
    rw [next, hsp]
  cases hr : (avlNode cmp top t).right <;> rw [hr] at hnext <;> constructor <;>
    simp [hnext, hr, pushLeft]

omit [TransCmp cmp] in
theorem peekPrev_leaf {it : AvlIt κ} {c : κ} (hc : it.c = some c)
    (hleft : (avlNode cmp c t).left = nil) :
    peekPrev cmp t it = it.rt.bind fun rt => (avlNode cmp rt t).data := by
  rw [peekPrev, hc]
  simp only [hleft]

omit [TransCmp cmp] in
theorem peekPrev_node {it : AvlIt κ} {c : κ} (hc : it.c = some c)
    (hleft : (avlNode cmp c t).left ≠ nil) :
    peekPrev cmp t it = (avlNode cmp c t).left.rightmost.data := by
  rw [peekPrev, hc]
  cases hl : (avlNode cmp c t).left with
  | nil => exact absurd hl hleft
  | node l k v r h => simp only [hl]

/-- What is before the current node, when `rt` is where the path to it last went
right, or the node has a left child. -/
theorem peekPrev_at (ht : t.Ordered cmp) {l r : AvlTree κ β} {k : κ} {v : β} {h : ℕ}
    {before : List (κ × β)} (hs : (node l k v r h).InPlace t before) {it : AvlIt κ}
    (hc : it.c = some k) (hrt : l = nil → it.rt = before.getLast?.map Prod.fst) :
    peekPrev cmp t it = entryBefore cmp t k := by
  have hn : avlNode cmp k t = node l k v r h := avlNode_of_subtree ht hs.subtree
  obtain ⟨after, hlist⟩ := hs.toList
  have hsplit : t.toList = (before ++ l.toList) ++ (k, v) :: (r.toList ++ after) := by
    rw [hlist, toList_node]
    simp only [List.append_assoc, List.cons_append]
  have hleft : (avlNode cmp k t).left = l := by rw [hn, AvlTree.left]
  rw [entryBefore_eq ht hsplit]
  by_cases hl : l = nil
  · rw [peekPrev_leaf hc (hleft.trans hl), hrt hl, hl, toList_nil, List.append_nil]
    cases hlast : before.getLast? with
    | none => rfl
    | some e =>
        have he : e ∈ t.toList := by
          rw [hlist]
          exact List.mem_append_left _ (List.mem_of_getLast? hlast)
        exact data_avlNode ht he
  · have hne : l.toList ≠ [] := by
      cases l with
      | nil => exact absurd rfl hl
      | node => simp
    rw [peekPrev_node hc (hleft.symm ▸ hl), hleft, List.getLast?_append_of_ne_nil _ hne]
    exact data_rightmost l

/-- The entry before the one that `avl_it_next` has returned. -/
theorem peekPrev_next (ht : t.Ordered cmp) {it : AvlIt κ} {top : κ} (hsp : it.sp = top :: sp)
    (hready : Ready cmp t it.sp it.nextRt) {v : β} (hmem : (top, v) ∈ t.toList) :
    peekPrev cmp t (next cmp t it).2 = entryBefore cmp t top := by
  have hpop : Popped cmp t it top sp := popped_next hsp
  have hdata : (avlNode cmp top t).data = some (top, v) := data_avlNode ht hmem
  have hsub : Subtree (avlNode cmp top t) t := subtree_avlNode top t
  have htop := hready.top top (by simp [hsp])
  cases hn : avlNode cmp top t with
  | nil =>
      rw [hn] at hdata
      cases hdata
  | node l k v' r h =>
      rw [hn] at hdata hsub htop
      obtain ⟨rfl, rfl⟩ := Prod.mk.inj (Option.some.inj hdata)
      obtain ⟨before, hplace⟩ := hsub.inPlace (by simp)
      refine peekPrev_at ht hplace hpop.c fun hl => ?_
      obtain ⟨before', w, after', hlist', hrt⟩ := htop hl
      obtain ⟨after, hlist⟩ := hplace.toList
      rw [hl, toList_node, toList_nil, List.nil_append] at hlist
      -- both lists end where the entry stands
      have hsame : before.getLast? = before'.getLast? :=
        (entryBefore_eq ht hlist).symm.trans (entryBefore_eq ht hlist')
      rw [hpop.rt, hrt, hsame]

theorem ready_next (ht : t.Ordered cmp) {it : AvlIt κ} {top : κ} (hsp : it.sp = top :: sp)
    (hready : Ready cmp t it.sp it.nextRt) {v : β} (hmem : (top, v) ∈ t.toList) :
    Ready cmp t (next cmp t it).2.sp (next cmp t it).2.nextRt := by
  have hpop : Popped cmp t it top sp := popped_next hsp
  have hdata : (avlNode cmp top t).data = some (top, v) := data_avlNode ht hmem
  have hsub : Subtree (avlNode cmp top t) t := subtree_avlNode top t
  have hbelow : ∀ k ∈ sp, (avlNode cmp k t).left ≠ nil := by
    intro k hk
    exact hready.below k (by simp [hsp, hk])
  rw [hpop.sp_eq]
  by_cases hr : (avlNode cmp top t).right = nil
  · rw [hr]
    exact .of_left hbelow
  · rw [hpop.nextRt_node hr]
    cases hn : avlNode cmp top t with
    | nil =>
        rw [hn] at hdata
        cases hdata
    | node l k v' r h =>
        rw [hn] at hdata hsub hr
        obtain ⟨rfl, rfl⟩ := Prod.mk.inj (Option.some.inj hdata)
        obtain ⟨before, hplace⟩ := hsub.inPlace (by simp)
        exact ready_pushLeft ht hr hplace.right (by simp) hbelow

/-- **The step.** An iterator that has entries left returns the first of them. -/
theorem Pending.next (ht : t.Ordered cmp) {it : AvlIt κ} {e : κ × β} {rest : List (κ × β)}
    (h : Pending cmp t it (e :: rest)) :
    (next cmp t it).1 = some e ∧
      peekPrev cmp t (AvlIt.next cmp t it).2 = entryBefore cmp t e.1 ∧
      Pending cmp t (AvlIt.next cmp t it).2 rest := by
  obtain ⟨key, v⟩ := e
  have hmem : (key, v) ∈ t.toList := h.suffix.subset List.mem_cons_self
  have hkeys := h.keys
  cases hsp : it.sp with
  | nil =>
      rw [hsp] at hkeys
      cases hkeys
  | cons top sp =>
      rw [hsp, avlPending_next ht] at hkeys
      obtain ⟨rfl, hkeys'⟩ := List.cons.inj hkeys
      have hpop : Popped cmp t it top sp := popped_next hsp
      refine ⟨hpop.data.trans (data_avlNode ht hmem), peekPrev_next ht hsp h.ready hmem, ?_⟩
      refine ⟨?_, (List.suffix_cons _ rest).trans h.suffix, ready_next ht hsp h.ready hmem⟩
      rw [hpop.sp_eq]
      exact hkeys'

omit [TransCmp cmp] in
theorem Pending.next_nil {it : AvlIt κ} (h : Pending cmp t it []) :
    AvlIt.next cmp t it = (none, it) := by
  have hkeys := h.keys
  cases hsp : it.sp with
  | nil => rw [AvlIt.next, hsp]
  | cons top sp =>
      rw [hsp, avlPending_cons] at hkeys
      cases hkeys

theorem Pending.nexts (ht : t.Ordered cmp) {it : AvlIt κ} {rest : List (κ × β)}
    (h : Pending cmp t it rest) (n : ℕ) : Pending cmp t (nexts cmp t n it) (rest.drop n) := by
  induction n generalizing it rest with
  | zero => exact h
  | succ n ih =>
      rw [AvlIt.nexts]
      cases rest with
      | nil =>
          rw [h.next_nil, List.drop_nil]
          exact List.drop_nil ▸ ih h
      | cons e rest => exact ih (h.next ht).2.2

end AvlIt

/-- Call after call, `avl_it_next` returns the entries of the list, and then NULL;
after each entry, `avl_it_peek_prev` returns the one before it in the tree. -/
def AvlIt.Returns (cmp : κ → κ → Ordering) (t : AvlTree κ β) (it : AvlIt κ)
    (entries : List (κ × β)) : Prop :=
  ∀ n, (next cmp t (nexts cmp t n it)).1 = entries[n]? ∧
    ∀ e, (next cmp t (nexts cmp t n it)).1 = some e →
      peekPrev cmp t (next cmp t (nexts cmp t n it)).2 = entryBefore cmp t e.1

/-- **The run.** -/
theorem AvlIt.Pending.returns (ht : t.Ordered cmp) {it : AvlIt κ} {rest : List (κ × β)}
    (h : Pending cmp t it rest) : it.Returns cmp t rest := by
  intro n
  have hn := h.nexts ht n
  rw [← List.head?_drop]
  cases hdrop : rest.drop n with
  | nil =>
      rw [hdrop] at hn
      rw [hn.next_nil]
      refine ⟨rfl, fun e he => ?_⟩
      cases he
  | cons e rest =>
      rw [hdrop] at hn
      obtain ⟨hfst, hpeek, -⟩ := hn.next ht
      refine ⟨hfst, fun e' he' => ?_⟩
      rw [hfst] at he'
      obtain rfl := Option.some.inj he'
      exact hpeek

/-- **The iterator goes through the tree in order.** On every tree that calls have
built, an iterator started at a key returns the entries from the key on in
increasing order, one started without a key returns all of them, and both know
the entry before the one they have returned. -/
theorem avlIt_in_order (calls : List (AvlCall κ β)) (key : κ) :
    (AvlIt.startAt cmp ((avlNew : Avl κ β).run cmp calls).1.root key).Returns cmp
        ((avlNew : Avl κ β).run cmp calls).1.root
        (((avlNew : Avl κ β).run cmp calls).1.root.toList.filter fun e => cmp key e.1 != .gt) ∧
      (AvlIt.start ((avlNew : Avl κ β).run cmp calls).1.root).Returns cmp
        ((avlNew : Avl κ β).run cmp calls).1.root
        ((avlNew : Avl κ β).run cmp calls).1.root.toList ∧
      ((avlNew : Avl κ β).run cmp calls).1.root.toList.Pairwise fun a b => cmp a.1 b.1 = .lt := by
  have ht : ((avlNew : Avl κ β).run cmp calls).1.root.Ordered cmp :=
    (run_spec good_avlNew calls).2.ordered
  refine ⟨?_, ?_, ht⟩
  · exact (AvlIt.pending_startAt ht key).returns ht
  · exact (AvlIt.pending_start ht).returns ht

/-- From a key that is absent. -/
theorem avlIt_in_order_from_two :
    (AvlIt.startAt compare ((avlNew : Avl ℕ Unit).run compare
        [.insert 1 (), .insert 3 (), .insert 4 ()]).1.root 2).Returns compare
      ((avlNew : Avl ℕ Unit).run compare [.insert 1 (), .insert 3 (), .insert 4 ()]).1.root
      [(3, ()), (4, ())] :=
  (avlIt_in_order [.insert 1 (), .insert 3 (), .insert 4 ()] 2).1

end WebcomSdk.Collection
