import WebcomSdk.Collection.AvlMemoryTree

/-!
The recursive functions of the tree in memory, and runs of calls: no call reads, writes or
frees what is not allocated, each does to the entries in memory what it does to a set, and
an entry stays at its address until it is removed.
-/

namespace WebcomSdk.Collection.AvlMemory

open AvlTree Std WebcomSdk.Lib

variable {κ β : Type}

section Memory

variable {as bs : List ℕ} {m m' m'' : AvlMem κ β} {t l r : AvlTree κ (ℕ × β)} {p n q : ℕ}
  {link : AvlLink}

/-! ### The recursive functions -/

section Recursion

variable {cmp : κ → κ → Ordering} {key : κ} {val : β} {fuel : ℕ}

theorem avlGetFrom_spec (hold : Holds m.nodes n t) (hfuel : t.size < fuel) :
    ∃ q, avlGetFrom cmp key m fuel n = some q ∧
      match Collection.avlGet cmp key t with
      | none => q = 0
      | some e => q = e.2.1 ∧ q ≠ 0 ∧ ∃ node ∈ m.nodes q, node.key = e.1 ∧ node.val = e.2.2 := by
  induction hold generalizing fuel with
  | nil =>
      obtain _ | fuel := fuel
      · exact absurd hfuel (Nat.not_lt_zero _)
      · exact ⟨0, rfl, rfl⟩
  | @node n pl pr h k v l r hn cell _ _ ihl ihr =>
      obtain _ | fuel := fuel
      · exact absurd hfuel (Nat.not_lt_zero _)
      simp only [size] at hfuel
      simp only [avlGetFrom, if_neg hn, cell, Option.bind_eq_bind, Option.bind_some,
        Collection.avlGet]
      cases cmp key k with
      | lt => exact ihl (by omega)
      | gt => exact ihr (by omega)
      | eq => exact ⟨n, rfl, rfl, hn, _, cell, rfl, rfl⟩

theorem perm_avlInsertRec (e : ℕ × β) (t : AvlTree κ (ℕ × β)) :
    (Collection.avlInsertRec cmp key e t).toList.Perm ((key, e) :: t.toList) := by
  induction t with
  | nil => exact .refl _
  | node l k v r h ihl ihr =>
      rw [Collection.avlInsertRec]
      split
      · rw [toList_avlBalance]
        exact ihl.append_right _
      · rw [toList_avlBalance]
        exact ((ihr.cons _).trans (.swap ..)).append_left _ |>.trans List.perm_middle

theorem addresses_avlInsertRec (e : ℕ × β) (t : AvlTree κ (ℕ × β)) :
    (addresses (Collection.avlInsertRec cmp key e t)).Perm (e.1 :: addresses t) :=
  (perm_avlInsertRec e t).map _

/-- The recursion links the new node, which `avl_insert` has filled. -/
theorem avlInsertRec_spec {entry : ℕ} {ins : Bool} (hentry : entry ≠ 0)
    (hnew : ∃ node ∈ m.nodes entry, node.key = key ∧ node.val = val)
    (hload : m.load link = some n) (hold : Holds m.nodes n t)
    (hlink : link.Outside (entry :: addresses t)) (hnodup : (entry :: addresses t).Nodup)
    (hfuel : t.size < fuel) :
    ∃ p m', avlInsertRec cmp entry fuel link ins m = some (entry, true, m') ∧
      Relinked (entry :: addresses t) link p m m' ∧
      Holds m'.nodes p (Collection.avlInsertRec cmp key (entry, val) t) := by
  induction t generalizing m link n fuel with
  | nil =>
      obtain _ | fuel := fuel
      · exact absurd hfuel (Nat.not_lt_zero _)
      obtain _ | _ := hold
      obtain ⟨m₀, hstore⟩ := exists_store hload entry
      obtain ⟨⟨l, r, h, key, val⟩, hcell, rfl, rfl⟩ := hnew
      have hcell₀ : m₀.nodes entry = some ⟨l, r, h, key, val⟩ :=
        (nodes_store hlink hstore entry List.mem_cons_self).trans hcell
      refine ⟨entry, m₀.write entry ⟨0, 0, 1, key, val⟩, ?_, ⟨m₀, hstore, ?_⟩, ?_⟩
      · simp only [avlInsertRec, hload, Option.bind_eq_bind, Option.bind_some, if_true, hstore,
          modify_of_cell hcell₀]
        rfl
      · exact sameOutside_write List.mem_cons_self _
      · exact .node hentry (write_nodes_self _) .nil .nil
  | node l k v r h ihl ihr =>
      obtain _ | fuel := fuel
      · exact absurd hfuel (Nat.not_lt_zero _)
      simp only [size] at hfuel
      obtain _ | @⟨_, pl, pr, _, _, v, _, _, hn, cell, left, right⟩ := hold
      obtain ⟨hout, hnodup⟩ := List.nodup_cons.mp hnodup
      have hne : entry ≠ n ∧ entry ∉ addresses l ∧ entry ∉ addresses r := by
        simp only [addresses_node, List.mem_append, List.mem_cons, not_or] at hout
        exact ⟨hout.2.1, hout.1, hout.2.2⟩
      obtain ⟨hln, hrn, hnl, hnr, hl, hr⟩ := apart_of_nodup hnodup
      obtain ⟨node, hnode, hkey, hval⟩ := hnew
      simp only [avlInsertRec, hload, Option.bind_eq_bind, Option.bind_some, if_neg hn,
        Option.mem_def.mp hnode, cell, hkey, Collection.avlInsertRec]
      by_cases hlt : cmp key k = .lt
      · have hapart : n ∉ entry :: addresses l := List.not_mem_cons_of_ne_of_not_mem hne.1.symm hnl
        obtain ⟨p, m₁, hrun, hre, hold₁⟩ := ihl ⟨node, hnode, hkey, hval⟩
          (load_left cell) left hapart
          (List.nodup_cons.mpr ⟨hne.2.1, hln⟩) (show l.size < fuel by omega)
        obtain ⟨hold₂, hsame⟩ := hre.left hn cell right hold₁ hapart fun q hq =>
          ⟨List.not_mem_cons_of_ne_of_not_mem (fun heq => hne.2.2 (heq ▸ hq)) (hr q hq).1,
            (hr q hq).2⟩
        have hperm : (addresses (.node (Collection.avlInsertRec cmp key (entry, val) l) k (n, v) r
            h)).Perm (entry :: addresses (.node l k (n, v) r h)) := by
          simp only [addresses_node]
          exact (addresses_avlInsertRec (entry, val) l).append_right _
        obtain ⟨p', m₂, hrun', hre', hold', -⟩ := balanceIf_after
          (hsame.mono (cons_cons_subset entry cons_left_subset)) hlink hload hold₂ hn hperm.subset
          (hperm.nodup_iff.mpr (List.nodup_cons.mpr ⟨hout, hnodup⟩))
        refine ⟨p', m₂, ?_, hre', ?_⟩
        · rw [if_pos hlt, hrun, Option.bind_some]
          show (balanceIf true link m₁).bind _ = _
          rw [hrun']
          rfl
        · rwa [if_pos hlt]
      · have hapart : n ∉ entry :: addresses r := List.not_mem_cons_of_ne_of_not_mem hne.1.symm hnr
        obtain ⟨p, m₁, hrun, hre, hold₁⟩ := ihr ⟨node, hnode, hkey, hval⟩
          (load_right cell) right hapart
          (List.nodup_cons.mpr ⟨hne.2.2, hrn⟩) (show r.size < fuel by omega)
        obtain ⟨hold₂, hsame⟩ := hre.right hn cell left hold₁ hapart fun q hq =>
          ⟨List.not_mem_cons_of_ne_of_not_mem (fun heq => hne.2.1 (heq ▸ hq)) (hl q hq).1,
            (hl q hq).2⟩
        have hperm : (addresses (.node l k (n, v) (Collection.avlInsertRec cmp key (entry, val) r)
            h)).Perm (entry :: addresses (.node l k (n, v) r h)) := by
          simp only [addresses_node]
          exact ((((addresses_avlInsertRec (entry, val) r).cons n).trans (.swap ..)).append_left
            _).trans List.perm_middle
        obtain ⟨p', m₂, hrun', hre', hold', -⟩ := balanceIf_after
          (hsame.mono (cons_cons_subset entry cons_right_subset)) hlink hload hold₂ hn hperm.subset
          (hperm.nodup_iff.mpr (List.nodup_cons.mpr ⟨hout, hnodup⟩))
        refine ⟨p', m₂, ?_, hre', ?_⟩
        · rw [if_neg hlt, hrun, Option.bind_some]
          show (balanceIf true link m₁).bind _ = _
          rw [hrun']
          rfl
        · rwa [if_neg hlt]

theorem avlMovr_spec (hold : Holds m.nodes n l) (hr : Holds m.nodes q r)
    (hnodup : (addresses l ++ addresses r).Nodup) (hfuel : l.size < fuel) :
    Returns (addresses l ++ addresses r) m (avlMovr q fuel n m) (Collection.avlMovr l r) := by
  induction l generalizing n fuel with
  | nil =>
      obtain _ | fuel := fuel
      · exact absurd hfuel (Nat.not_lt_zero _)
      obtain _ | _ := hold
      exact ⟨q, m, rfl, hr, .refl m⟩
  | node ll k v lr h _ ih =>
      obtain _ | fuel := fuel
      · exact absurd hfuel (Nat.not_lt_zero _)
      simp only [size] at hfuel
      obtain _ | @⟨_, pl, pr, _, _, v, _, _, hn, cell, left, right⟩ := hold
      have hlist : addresses (.node ll k (n, v) lr h) ++ addresses r =
          addresses (.node ll k (n, v) (Collection.avlMovr lr r) h) := by
        simp [addresses]
      obtain ⟨-, hrn, -, hnr, hl, -⟩ := apart_of_nodup (hlist ▸ hnodup)
      have hmovr : addresses (Collection.avlMovr lr r) = addresses lr ++ addresses r := by
        simp [addresses]
      rw [hmovr] at hrn hnr hl
      obtain ⟨p, m₁, hrun, hold₁, hsame₁⟩ := ih right hrn (show lr.size < fuel by omega)
      obtain ⟨m₂, hstore, hre, hnodes⟩ := relinked_of_store (.right n) hsame₁ hnr
        (load_right cell) p
      obtain ⟨hold₂, hsame₂⟩ := hre.right hn cell left (hold₁.congr (hmovr ▸ hnodes)) hnr hl
      rw [hlist] at hnodup ⊢
      simp only [avlMovr, if_neg hn, cell, Option.bind_eq_bind, Option.bind_some, hrun, hstore]
      refine .after (hsame₂.mono ?_) (avlBalance_spec hold₂ hn hnodup)
      rw [← hmovr]
      exact cons_right_subset

theorem perm_avlRemove {e : κ × ℕ × β} {t : AvlTree κ (ℕ × β)}
    (h : Collection.avlGet cmp key t = some e) :
    t.toList.Perm (e :: (Collection.avlRemove cmp key t).toList) := by
  rw [Collection.avlRemove]
  induction t with
  | nil => simp [Collection.avlGet] at h
  | node l k v r height ihl ihr =>
      rw [Collection.avlGet] at h
      rw [Collection.avlRemoveRec]
      cases hc : cmp key k with
      | lt =>
          rw [hc] at h
          simp only [toList_rebalanced, toList_node]
          exact (ihl h).append_right _
      | gt =>
          rw [hc] at h
          simp only [toList_rebalanced, toList_node]
          exact ((((ihr h).cons _).trans (.swap ..)).append_left
            _).trans List.perm_middle
      | eq =>
          rw [hc] at h
          cases h
          simp only [toList_avlMovr, toList_node]
          exact List.perm_middle

/-- The entry is gone, as far as the counter and the calls of `data_cleanup` tell. -/
def AvlMem.forget (m : AvlMem κ β) (e : κ × ℕ × β) : AvlMem κ β :=
  { m with count := m.count - 1, cleaned := m.cleaned ++ [e] }

theorem store_forget (e : κ × ℕ × β) (h : m.store p link = some m') :
    (m.forget e).store p link = some (m'.forget e) := by
  cases link with
  | avlRoot =>
      cases h
      rfl
  | left n =>
      obtain ⟨node, hnode, rfl⟩ := Option.map_eq_some_iff.mp h
      exact modify_of_cell (m := m.forget e) hnode _
  | right n =>
      obtain ⟨node, hnode, rfl⟩ := Option.map_eq_some_iff.mp h
      exact modify_of_cell (m := m.forget e) hnode _

theorem avlRemoveRec_absent (h : Collection.avlGet cmp key t = none)
    (hload : m.load link = some n) (hold : Holds m.nodes n t) (hfuel : t.size < fuel)
    (parent : ℕ) : avlRemoveRec cmp key fuel link parent m = some (0, m) := by
  induction hold generalizing link fuel parent with
  | nil =>
      obtain _ | fuel := fuel
      · exact absurd hfuel (Nat.not_lt_zero _)
      · simp [avlRemoveRec, hload]
  | @node n pl pr height k v l r hn cell _ _ ihl ihr =>
      obtain _ | fuel := fuel
      · exact absurd hfuel (Nat.not_lt_zero _)
      simp only [size] at hfuel
      rw [Collection.avlGet] at h
      simp only [avlRemoveRec, hload, Option.bind_eq_bind, Option.bind_some, if_neg hn, cell]
      cases hc : cmp key k with
      | lt =>
          rw [hc] at h
          rw [ihl h (load_left cell) (show l.size < fuel by omega)]
          rfl
      | gt =>
          rw [hc] at h
          rw [ihr h (load_right cell) (show r.size < fuel by omega)]
          rfl
      | eq =>
          rw [hc] at h
          cases h

theorem addresses_avlRemove {e : κ × ℕ × β} (h : Collection.avlGet cmp key t = some e) :
    (addresses t).Perm (e.2.1 :: addresses (Collection.avlRemove cmp key t)) :=
  (perm_avlRemove h).map _

/-- What the removal of the entry `e` does: it is unlinked, cleaned and freed. -/
structure Removed (cmp : κ → κ → Ordering) (key : κ) (t : AvlTree κ (ℕ × β)) (link : AvlLink)
    (e : κ × ℕ × β) (m : AvlMem κ β) (run : Option (ℕ × AvlMem κ β)) (parent p : ℕ)
    (m' : AvlMem κ β) : Prop where
  run : run = some (parent, m')
  parent : parent ≠ 0
  relinked : Relinked (addresses t) link p (m.forget e) m'
  holds : Holds m'.nodes p (Collection.avlRemove cmp key t)
  freed : m'.nodes e.2.1 = none

/-- The node that holds the key. -/
theorem removed_here {pr h : ℕ} {v : β} {k : κ} {parent : ℕ} (hparent : parent ≠ 0)
    (hload : m.load link = some n) (hn : n ≠ 0) (cell : m.nodes n = some ⟨q, pr, h, k, v⟩)
    (left : Holds m.nodes q l) (right : Holds m.nodes pr r)
    (hlink : link.Outside (addresses (.node l k (n, v) r h)))
    (hnodup : (addresses (.node l k (n, v) r h)).Nodup) (hfuel : l.size < fuel)
    (hc : cmp key k = .eq) :
    ∃ p m', Removed cmp key (.node l k (n, v) r h) link (k, n, v) m
      (avlRemoveRec cmp key (fuel + 1) link parent m) parent p m' := by
  have hlist := addresses_node (l := l) (r := r) k (n, v) h
  have hout : n ∉ addresses l ++ addresses r := by
    rw [hlist, List.nodup_middle] at hnodup
    exact (List.nodup_cons.mp hnodup).1
  have hboth : (addresses l ++ addresses r).Nodup := by
    rw [hlist, List.nodup_middle] at hnodup
    exact (List.nodup_cons.mp hnodup).2
  have hsub : addresses l ++ addresses r ⊆ addresses (.node l k (n, v) r h) := by
    rw [hlist]
    exact List.append_subset.mpr ⟨List.subset_append_left ..,
      List.Subset.trans (List.subset_cons_self ..) (List.subset_append_right ..)⟩
  obtain ⟨p, m₁, hrun, hold₁, hsame₁⟩ := avlMovr_spec left right hboth hfuel
  obtain ⟨m₂, hstore, ⟨m₀, hstore₀, hsame₂⟩, hnodes⟩ :=
    relinked_of_store link (hsame₁.mono hsub) hlink hload p
  have hcell₂ : m₂.nodes n = some ⟨q, pr, h, k, v⟩ := by
    rw [hnodes n (by simp [hlist]), hsame₁.nodes n hout, cell]
  have hremove : Collection.avlRemove cmp key (.node l k (n, v) r h) = Collection.avlMovr l r := by
    rw [Collection.avlRemove, Collection.avlRemoveRec, hc]
  have hmovr : addresses (Collection.avlMovr l r) = addresses l ++ addresses r := by
    simp [addresses]
  let m₃ : AvlMem κ β := { m₂ with
    nodes := Function.update m₂.nodes n none
    count := m₂.count - 1
    cleaned := m₂.cleaned ++ [(k, n, v)] }
  refine ⟨p, m₃, ?_, hparent, ⟨_, store_forget _ hstore₀, ?_⟩, ?_, ?_⟩
  · simp only [avlRemoveRec, hload, Option.bind_eq_bind, Option.bind_some, if_neg hn, cell, hc,
      hrun,
      hstore, AvlMem.cleanFree, hcell₂, Option.map_some]
    rfl
  · refine ⟨fun q hq => ?_, hsame₂.root, congrArg (· - 1) hsame₂.count, hsame₂.copied,
      congrArg (· ++ [_]) hsame₂.cleaned⟩
    show Function.update m₂.nodes n none q = _
    rw [Function.update_of_ne fun heq => hq (by rw [heq, hlist]; simp)]
    exact hsame₂.nodes q hq
  · rw [hremove]
    refine hold₁.congr fun q hq => ?_
    rw [hmovr] at hq
    show Function.update m₂.nodes n none q = _
    rw [Function.update_of_ne (show q ≠ n from fun heq => hout (heq ▸ hq))]
    exact hnodes q (hsub hq)
  · exact Function.update_self ..

/-- The key is below, and the node is balanced when it is gone. -/
theorem removed_below {t' : AvlTree κ (ℕ × β)} {e : κ × ℕ × β}
    (hget : Collection.avlGet cmp key t = some e)
    (hload : m.load link = some n) (hn : n ≠ 0) (hlink : link.Outside (addresses t))
    (hnodup : (addresses t).Nodup) (hold : Holds m'.nodes n t')
    (hsame : SameOutside (addresses t) (m.forget e) m') (hfreed : m'.nodes e.2.1 = none)
    (hremove : Collection.avlRemove cmp key t = Collection.avlBalance t') :
    ∃ p m'', balanceIf true link m' = some m'' ∧ Relinked (addresses t) link p (m.forget e) m'' ∧
      Holds m''.nodes p (Collection.avlRemove cmp key t) ∧ m''.nodes e.2.1 = none := by
  have hperm : (addresses t).Perm (e.2.1 :: addresses t') := by
    have hlist := addresses_avlRemove hget
    rwa [hremove, addresses_congr (toList_avlBalance t')] at hlist
  obtain ⟨hout, hnodup'⟩ := List.nodup_cons.mp (hperm.nodup_iff.mp hnodup)
  have hloadForget : (m.forget e).load link = some n := by
    cases link <;> exact hload
  obtain ⟨p, m'', hrun, hre, hold', hrest⟩ := balanceIf_after hsame hlink hloadForget hold hn
    (List.Subset.trans (List.subset_cons_self ..) hperm.symm.subset) hnodup'
  refine ⟨p, m'', hrun, hre, hremove ▸ hold', ?_⟩
  exact (hrest e.2.1 (hperm.symm.subset List.mem_cons_self) hout).trans hfreed

theorem avlRemoveRec_found {e : κ × ℕ × β} {parent : ℕ}
    (h : Collection.avlGet cmp key t = some e) (hparent : parent ≠ 0)
    (hload : m.load link = some n) (hold : Holds m.nodes n t) (hlink : link.Outside (addresses t))
    (hnodup : (addresses t).Nodup) (hfuel : t.size < fuel) :
    ∃ parent' p m', Removed cmp key t link e m (avlRemoveRec cmp key fuel link parent m)
      parent' p m' := by
  induction hold generalizing link fuel parent with
  | nil => simp [Collection.avlGet] at h
  | @node n pl pr height k v l r hn cell left right ihl ihr =>
      obtain _ | fuel := fuel
      · exact absurd hfuel (Nat.not_lt_zero _)
      simp only [size] at hfuel
      have hget := h
      rw [Collection.avlGet] at h
      obtain ⟨hln, hrn, hnl, hnr, hl, hr⟩ := apart_of_nodup hnodup
      cases hc : cmp key k with
      | lt =>
          rw [hc] at h
          have hbelow : Collection.avlGet cmp key l = some e := h
          obtain ⟨parent', p, m₁, hrem⟩ := ihl hbelow hn (load_left cell) hnl hln
            (show l.size < fuel by omega)
          obtain ⟨hold₂, hsame⟩ := Relinked.left (m := m.forget e) hn cell right
            hrem.relinked hrem.holds hnl hr
          have hfound : (Collection.avlRemoveRec cmp key l).2 = true := by
            rw [found_avlRemoveRec, hbelow]
            rfl
          obtain ⟨p', m₂, hrun, hre, hold', hfreed⟩ := removed_below hget hload hn hlink hnodup
            hold₂ (hsame.mono cons_left_subset) hrem.freed (by
              simp only [Collection.avlRemove, Collection.avlRemoveRec, hc, hfound, if_true])
          refine ⟨parent', p', m₂, ?_, hrem.parent, hre, hold', hfreed⟩
          have hdecide : decide (parent' ≠ 0) = true := decide_eq_true hrem.parent
          simp only [avlRemoveRec, hload, Option.bind_eq_bind, Option.bind_some, if_neg hn, cell,
            hc, hrem.run, hdecide, hrun]
          rfl
      | gt =>
          rw [hc] at h
          have hbelow : Collection.avlGet cmp key r = some e := h
          obtain ⟨parent', p, m₁, hrem⟩ := ihr hbelow hn (load_right cell) hnr hrn
            (show r.size < fuel by omega)
          obtain ⟨hold₂, hsame⟩ := Relinked.right (m := m.forget e) hn cell left
            hrem.relinked hrem.holds hnr hl
          have hfound : (Collection.avlRemoveRec cmp key r).2 = true := by
            rw [found_avlRemoveRec, hbelow]
            rfl
          obtain ⟨p', m₂, hrun, hre, hold', hfreed⟩ := removed_below hget hload hn hlink hnodup
            hold₂ (hsame.mono cons_right_subset) hrem.freed (by
              simp only [Collection.avlRemove, Collection.avlRemoveRec, hc, hfound, if_true])
          refine ⟨parent', p', m₂, ?_, hrem.parent, hre, hold', hfreed⟩
          have hdecide : decide (parent' ≠ 0) = true := decide_eq_true hrem.parent
          simp only [avlRemoveRec, hload, Option.bind_eq_bind, Option.bind_some, if_neg hn, cell,
            hc, hrem.run, hdecide, hrun]
          rfl
      | eq =>
          rw [hc] at h
          cases h
          exact ⟨parent, removed_here hparent hload hn cell left right hlink hnodup
            (show l.size < fuel by omega) hc⟩

/-- What `avl_walk` in post-order does with the destroyer: all of the tree is freed. -/
theorem avlWalkRec_destroyer (hold : Holds m.nodes n t) (hnodup : (addresses t).Nodup)
    (hfuel : t.size < fuel) :
    ∃ nodes es, avlWalkRec .postorder avlDestroyerWalker fuel n m =
        some { m with nodes, cleaned := m.cleaned ++ es } ∧ es.Perm t.toList ∧
      ∀ q, nodes q = if q ∈ addresses t then none else m.nodes q := by
  induction t generalizing m n fuel with
  | nil =>
      obtain _ | fuel := fuel
      · exact absurd hfuel (Nat.not_lt_zero _)
      obtain _ | _ := hold
      exact ⟨m.nodes, [], by simp [avlWalkRec], .refl _, fun q => by simp⟩
  | node l k v r h ihl ihr =>
      obtain _ | fuel := fuel
      · exact absurd hfuel (Nat.not_lt_zero _)
      simp only [size] at hfuel
      obtain _ | @⟨_, pl, pr, _, _, v, _, _, hn, cell, left, right⟩ := hold
      obtain ⟨hln, hrn, hnl, hnr, hl, hr⟩ := apart_of_nodup hnodup
      obtain ⟨nodes₁, es₁, hrun₁, hperm₁, hnodes₁⟩ := ihl left hln (show l.size < fuel by omega)
      have hcell₁ : nodes₁ n = some ⟨pl, pr, h, k, v⟩ := by rw [hnodes₁, if_neg hnl, cell]
      have hright : Holds nodes₁ pr r := right.congr fun q hq => by
        rw [hnodes₁, if_neg (hr q hq).1]
      obtain ⟨nodes₂, es₂, hrun₂, hperm₂, hnodes₂⟩ :=
        ihr (m := { m with nodes := nodes₁, cleaned := m.cleaned ++ es₁ }) hright hrn
          (show r.size < fuel by omega)
      have hnodes₂ : ∀ q, nodes₂ q = if q ∈ addresses r then none else nodes₁ q := hnodes₂
      have hcell₂ : nodes₂ n = some ⟨pl, pr, h, k, v⟩ := by rw [hnodes₂, if_neg hnr, hcell₁]
      refine ⟨Function.update nodes₂ n none, es₁ ++ es₂ ++ [(k, n, v)], ?_, ?_, fun q => ?_⟩
      · simp only [avlWalkRec, if_neg hn, reduceCtorEq, if_false, if_true, Option.bind_eq_bind,
          Option.bind_some, cell, hrun₁, hcell₁, hrun₂]
        show Option.map _ (nodes₂ n) = _
        rw [hcell₂, Option.map_some, List.append_assoc, List.append_assoc]
      · rw [toList_node, List.append_assoc]
        exact hperm₁.append ((List.perm_append_singleton ..).trans (hperm₂.cons _))
      · by_cases hq : q = n
        · subst hq
          rw [Function.update_self, if_pos (by simp)]
        · rw [Function.update_of_ne hq, hnodes₂, hnodes₁]
          simp only [addresses_node, List.mem_append, List.mem_cons, hq, false_or]
          by_cases hql : q ∈ addresses l <;> by_cases hqr : q ∈ addresses r <;> simp [hql, hqr]

end Recursion

end Memory

/-! ### Calls and runs -/

/-- The entries whose nodes are allocated. -/
def AvlMem.entries (m : AvlMem κ β) : Set (κ × β) :=
  {e | ∃ q, ∃ node ∈ m.nodes q, node.key = e.1 ∧ node.val = e.2}

/-- The entry with this key goes. -/
def Removes (cmp : κ → κ → Ordering) (k : κ) : AvlCall κ β → Prop
  | .remove key => cmp key k = .eq
  | .removeAll => True
  | .insert .. | .get _ | .count => False

/-- A call, `malloc` returning the address. -/
def memStep (cmp : κ → κ → Ordering) (fuel : ℕ) (m : AvlMem κ β) (c : ℕ × AvlCall κ β) :
    Option (AvlMem κ β) :=
  (m.call cmp fuel c.1 c.2).map Prod.fst

/-- What `malloc` promises, and that the recursion is deep enough. -/
def Permitted (fuel : ℕ) (m : AvlMem κ β) (c : ℕ × AvlCall κ β) : Prop :=
  c.1 ≠ 0 ∧ m.nodes c.1 = none ∧ m.count < fuel

/-- The call with the address where `malloc` puts the new entry. -/
def callAt (ret : ℕ) : AvlCall κ β → AvlCall κ (ℕ × β)
  | .insert key val => .insert key (ret, val)
  | .remove key => .remove key
  | .get key => .get key
  | .count => .count
  | .removeAll => .removeAll

/-- The entry without its address. -/
def entryOf (e : κ × ℕ × β) : κ × β := (e.1, e.2.2)

def resultOf : AvlResult κ (ℕ × β) → AvlResult κ β
  | .inserted ok => .inserted ok
  | .found entry => .found (entry.map entryOf)
  | .number n => .number n
  | .done => .done

/-- The memory holds the tree and no other node. -/
structure AvlMem.Is (m : AvlMem κ β) (avl : Avl κ (ℕ × β)) : Prop where
  holds : Holds m.nodes m.root avl.root
  nodup : (addresses avl.root).Nodup
  only : ∀ q ∉ addresses avl.root, m.nodes q = none
  count : m.count = avl.count
  copied : m.copied.Perm (m.cleaned ++ avl.root.toList)

section Calls

variable {cmp : κ → κ → Ordering} {fuel ret : ℕ} {m m' : AvlMem κ β} {avl : Avl κ (ℕ × β)}

theorem is_avlNew : (avlNewMem : AvlMem κ β).Is avlNew where
  holds := .nil
  nodup := List.nodup_nil
  only _ _ := rfl
  count := rfl
  copied := .refl _

theorem mem_addresses {t : AvlTree κ (ℕ × β)} {q : ℕ} :
    q ∈ addresses t ↔ ∃ k v, (k, q, v) ∈ t.toList := by
  simp [addresses]

/-- The node of each entry. -/
theorem Holds.cell {nodes : ℕ → Option (AvlNode κ β)} {p : ℕ} {t : AvlTree κ (ℕ × β)}
    (h : Holds nodes p t) {e : κ × ℕ × β} (he : e ∈ t.toList) :
    ∃ node ∈ nodes e.2.1, node.key = e.1 ∧ node.val = e.2.2 := by
  induction h with
  | nil => cases he
  | node hp cell _ _ ihl ihr =>
      rw [toList_node, List.mem_append, List.mem_cons] at he
      obtain he | rfl | he := he
      · exact ihl he
      · exact ⟨_, cell, rfl, rfl⟩
      · exact ihr he

theorem AvlMem.Is.mem_iff (h : m.Is avl) {e : κ × ℕ × β} :
    e ∈ avl.root.toList ↔ ∃ node ∈ m.nodes e.2.1, node.key = e.1 ∧ node.val = e.2.2 := by
  refine ⟨h.holds.cell, fun ⟨c, hc, hkey, hval⟩ => ?_⟩
  by_cases hq : e.2.1 ∈ addresses avl.root
  · obtain ⟨k, v, hmem⟩ := mem_addresses.mp hq
    obtain ⟨c', hc', hkey', hval'⟩ := h.holds.cell hmem
    obtain rfl := Option.some.inj (hc.symm.trans hc')
    obtain rfl : e.1 = k := hkey.symm.trans hkey'
    obtain rfl : e.2.2 = v := hval.symm.trans hval'
    exact hmem
  · rw [h.only _ hq] at hc
    cases hc

variable (cmp) in
theorem exists_get (h : m.Is avl) (hfuel : avl.root.size < fuel) (key : κ) :
    ∃ q, avlGetFrom cmp key m fuel m.root = some q ∧
      match Collection.avlGet cmp key avl.root with
      | none => q = 0
      | some e => q = e.2.1 ∧ q ≠ 0 ∧ ∃ node ∈ m.nodes q, node.key = e.1 ∧ node.val = e.2.2 :=
  avlGetFrom_spec h.holds hfuel

/-- `avl_insert` of a new key. -/
theorem insert_is {key : κ} {val : β} (h : m.Is avl) (hfuel : avl.root.size < fuel)
    (hret : ret ≠ 0) (hfree : m.nodes ret = none)
    (hget : Collection.avlGet cmp key avl.root = none) :
    ∃ m', avlInsert cmp fuel ret key val m = some (ret, m') ∧
      m'.Is ⟨Collection.avlInsertRec cmp key (ret, val) avl.root, avl.count + 1⟩ := by
  obtain ⟨q, hrun, hq⟩ := exists_get cmp h hfuel key
  rw [hget] at hq
  obtain rfl : q = 0 := hq
  have hout : ret ∉ addresses avl.root := by
    intro hmem
    obtain ⟨k, v, hmem⟩ := mem_addresses.mp hmem
    obtain ⟨c, hc, -⟩ := h.holds.cell hmem
    rw [hfree] at hc
    cases hc
  -- the memory with the new node, before it is linked
  let m₁ : AvlMem κ β :=
    { m.write ret ⟨0, 0, 0, key, val⟩ with copied := m.copied ++ [(key, ret, val)] }
  have hold₁ : Holds m₁.nodes m₁.root avl.root := h.holds.congr fun q hq =>
    write_nodes_of_ne _ fun heq => hout (heq ▸ hq)
  obtain ⟨p, m₂, hrun₂, ⟨m₀, hstore, hsame⟩, hold₂⟩ : ∃ p m₂,
      avlInsertRec cmp ret fuel .avlRoot false m₁ = some (ret, true, m₂) ∧
      Relinked (ret :: addresses avl.root) .avlRoot p m₁ m₂ ∧
      Holds m₂.nodes p (Collection.avlInsertRec cmp key (ret, val) avl.root) :=
    avlInsertRec_spec hret ⟨_, write_nodes_self _, rfl, rfl⟩ rfl hold₁ trivial
      (List.nodup_cons.mpr ⟨hout, h.nodup⟩) hfuel
  cases hstore
  have hperm : (addresses (Collection.avlInsertRec cmp key (ret, val) avl.root)).Perm
      (ret :: addresses avl.root) := addresses_avlInsertRec (ret, val) avl.root
  refine ⟨{ m₂ with count := m₂.count + 1 }, ?_, ?_, ?_, fun q hq => ?_, ?_, ?_⟩
  · simp only [avlInsert, hrun, Option.bind_eq_bind, Option.bind_some, ne_eq, not_true_eq_false,
      if_false]
    show (avlInsertRec cmp ret fuel .avlRoot false m₁).bind _ = _
    rw [hrun₂]
    rfl
  · show Holds m₂.nodes m₂.root _
    rwa [hsame.root]
  · exact hperm.nodup_iff.mpr (List.nodup_cons.mpr ⟨hout, h.nodup⟩)
  · rw [hperm.mem_iff, List.mem_cons, not_or] at hq
    show m₂.nodes q = none
    rw [hsame.nodes q (List.not_mem_cons_of_ne_of_not_mem hq.1 hq.2)]
    exact (write_nodes_of_ne _ hq.1).trans (h.only q hq.2)
  · show m₂.count + 1 = avl.count + 1
    rw [hsame.count, ← h.count]
    rfl
  · show m₂.copied.Perm (m₂.cleaned ++ _)
    rw [hsame.copied, hsame.cleaned]
    have hlast : (m.copied ++ [(key, ret, val)]).Perm
        (m.cleaned ++ (avl.root.toList ++ [(key, ret, val)])) := by
      rw [← List.append_assoc]
      exact h.copied.append_right _
    have hfirst : (avl.root.toList ++ [(key, ret, val)]).Perm
        (Collection.avlInsertRec cmp key (ret, val) avl.root).toList :=
      (List.perm_append_singleton ..).trans (perm_avlInsertRec (ret, val) avl.root).symm
    exact hlast.trans (hfirst.append_left _)

theorem remove_is (h : m.Is avl) (hfuel : avl.root.size < fuel) (key : κ) :
    ∃ m', avlRemove cmp fuel key m = some m' ∧ m'.Is (avl.call cmp (.remove key)).1 := by
  have hfound : (Collection.avlRemoveRec cmp key avl.root).2 =
      (Collection.avlGet cmp key avl.root).isSome := found_avlRemoveRec key avl.root
  cases hget : Collection.avlGet cmp key avl.root with
  | none =>
      have hsame : (avl.call cmp (.remove key)).1 = avl := by
        have hroot := avlRemove_of_get_none hget
        rw [Collection.avlRemove] at hroot
        rw [hget] at hfound
        simp only [Avl.call, hroot, hfound]
        rfl
      refine ⟨m, ?_, ?_⟩
      · rw [avlRemove, avlRemoveRec_absent hget rfl h.holds hfuel]
        rfl
      · rw [hsame]
        exact h
  | some e =>
      rw [hget] at hfound
      have hroot : m.root ≠ 0 := h.holds.ne_zero fun hnil => by
        rw [hnil] at hget
        cases hget
      obtain ⟨parent, p, m', hrem⟩ := avlRemoveRec_found hget hroot rfl h.holds
        (show AvlLink.Outside _ .avlRoot from trivial) h.nodup hfuel
      obtain ⟨m₀, hstore, hsame⟩ := hrem.relinked
      cases hstore
      have hperm := addresses_avlRemove hget
      have hcall : (avl.call cmp (.remove key)).1 =
          ⟨Collection.avlRemove cmp key avl.root, avl.count - 1⟩ := by
        simp only [Avl.call, hfound, Collection.avlRemove]
        rfl
      rw [hcall]
      refine ⟨m', ?_, ?_, ?_, fun q hq => ?_, ?_, ?_⟩
      · rw [avlRemove, hrem.run]
        rfl
      · rw [hsame.root]
        exact hrem.holds
      · exact (List.nodup_cons.mp (hperm.nodup_iff.mp h.nodup)).2
      · by_cases hqe : q = e.2.1
        · rw [hqe, hrem.freed]
        · have hout : q ∉ addresses avl.root := fun hmem =>
            (List.mem_cons.mp (hperm.mem_iff.mp hmem)).elim hqe hq
          exact (hsame.nodes q hout).trans (h.only q hout)
      · rw [hsame.count]
        exact congrArg (· - 1) h.count
      · rw [hsame.copied, hsame.cleaned]
        show m.copied.Perm (m.cleaned ++ [e] ++ _)
        rw [List.append_assoc]
        exact h.copied.trans ((perm_avlRemove hget).append_left _)

theorem removeAll_is (h : m.Is avl) (hfuel : avl.root.size < fuel) :
    ∃ m', avlRemoveAll fuel m = some m' ∧ m'.Is avlNew ∧ m'.copied = m.copied := by
  obtain ⟨nodes, es, hrun, hperm, hnodes⟩ := avlWalkRec_destroyer h.holds h.nodup hfuel
  refine ⟨⟨nodes, 0, 0, m.copied, m.cleaned ++ es⟩, ?_,
    ⟨.nil, List.nodup_nil, fun q _ => ?_, rfl, ?_⟩, rfl⟩
  · rw [avlRemoveAll, hrun]
    rfl
  · show nodes q = none
    rw [hnodes]
    split
    next => rfl
    next hq => exact h.only q hq
  · rw [avlNew, toList_nil, List.append_nil]
    exact h.copied.trans (hperm.symm.append_left _)

variable (cmp) in
/-- **One call** on the memory does to the tree in it what the call of the pure model does. -/
theorem call_is (h : m.Is avl) (hfuel : avl.root.size < fuel) (hret : ret ≠ 0)
    (hfree : m.nodes ret = none) (c : AvlCall κ β) :
    ∃ m', m.call cmp fuel ret c = some (m', resultOf (avl.call cmp (callAt ret c)).2) ∧
      m'.Is (avl.call cmp (callAt ret c)).1 := by
  cases c with
  | insert key val =>
      rw [callAt, Avl.call, Collection.avlInsert]
      cases hget : Collection.avlGet cmp key avl.root with
      | none =>
          obtain ⟨m', hrun, his⟩ := insert_is h hfuel hret hfree hget
          refine ⟨m', ?_, his⟩
          rw [AvlMem.call, hrun]
          show some (m', AvlResult.inserted (decide (ret ≠ 0))) = _
          rw [decide_eq_true hret]
          rfl
      | some e =>
          obtain ⟨q, hrun, hq⟩ := exists_get cmp h hfuel key
          rw [hget] at hq
          refine ⟨m, ?_, h⟩
          have hinsert : avlInsert cmp fuel ret key val m = some (0, m) := by
            simp only [avlInsert, hrun, Option.bind_eq_bind, Option.bind_some, if_pos hq.2.1]
            rfl
          rw [AvlMem.call, hinsert]
          rfl
  | remove key =>
      obtain ⟨m', hrun, his⟩ := remove_is h hfuel key
      refine ⟨m', ?_, his⟩
      rw [AvlMem.call, hrun]
      rfl
  | get key =>
      obtain ⟨q, hrun, hq⟩ := exists_get cmp h hfuel key
      refine ⟨m, ?_, h⟩
      rw [AvlMem.call, hrun, callAt, Avl.call, resultOf]
      cases hget : Collection.avlGet cmp key avl.root with
      | none =>
          rw [hget] at hq
          obtain rfl : q = 0 := hq
          rfl
      | some e =>
          rw [hget] at hq
          obtain ⟨-, hne, c, hc, hkey, hval⟩ := hq
          simp only [Option.bind_eq_bind, Option.bind_some, if_neg hne, Option.mem_def.mp hc, hkey,
            hval]
          rfl
  | count =>
      refine ⟨m, ?_, h⟩
      rw [AvlMem.call, h.count]
      rfl
  | removeAll =>
      obtain ⟨m', hrun, his, -⟩ := removeAll_is h hfuel
      refine ⟨m', ?_, his⟩
      rw [AvlMem.call, hrun]
      rfl

/-! ### Sets of entries with and without addresses -/

theorem setCall_stays {s s' : Set (κ × ℕ × β)} {c : AvlCall κ β} {result : AvlResult κ (ℕ × β)}
    (h : SetCall cmp s (callAt ret c) result s') {e : κ × ℕ × β} (he : e ∈ s) :
    e ∈ s' ↔ ¬ Removes cmp e.1 c := by
  cases c with
  | insert key val =>
      cases result with
      | inserted ok =>
          obtain ⟨-, rfl⟩ := h
          refine iff_of_true ?_ id
          split
          · exact Set.mem_insert_of_mem _ he
          · exact he
      | _ => exact h.elim
  | remove key =>
      cases result with
      | done =>
          obtain rfl : s' = _ := h
          exact ⟨And.right, fun hne => ⟨he, hne⟩⟩
      | _ => exact h.elim
  | get key =>
      cases result with
      | found entry =>
          obtain ⟨-, rfl⟩ := h
          exact iff_of_true he id
      | _ => exact h.elim
  | count =>
      cases result with
      | number n =>
          obtain ⟨-, -, rfl⟩ := h
          exact iff_of_true he id
      | _ => exact h.elim
  | removeAll =>
      cases result with
      | done =>
          obtain rfl : s' = ∅ := h
          exact iff_of_false (Set.notMem_empty e) fun hno => hno trivial
      | _ => exact h.elim

theorem setCall_subset {s s' : Set (κ × ℕ × β)} {c : AvlCall κ β}
    {result : AvlResult κ (ℕ × β)} (h : SetCall cmp s (callAt ret c) result s') {k : κ}
    (hc : Removes cmp k c) : s' ⊆ s := by
  cases c with
  | remove key =>
      cases result with
      | done =>
          obtain rfl : s' = _ := h
          exact fun e he => he.1
      | _ => exact h.elim
  | removeAll =>
      cases result with
      | done =>
          obtain rfl : s' = ∅ := h
          exact Set.empty_subset s
      | _ => exact h.elim
  | _ => exact hc.elim

/-- The call on the set of the entries without their addresses. -/
theorem setCall_entryOf {s s' : Set (κ × ℕ × β)} (hs : Set.InjOn entryOf s) {c : AvlCall κ β}
    {result : AvlResult κ (ℕ × β)} (h : SetCall cmp s (callAt ret c) result s') :
    SetCall cmp (entryOf '' s) c (resultOf result) (entryOf '' s') := by
  cases c with
  | insert key val =>
      cases result with
      | inserted ok =>
          obtain ⟨hok, rfl⟩ := h
          refine ⟨hok.trans (Set.forall_mem_image (f := entryOf) (s := s)
            (p := fun e => cmp key e.1 ≠ .eq)).symm, ?_⟩
          split
          · exact Set.image_insert_eq
          · rfl
      | _ => exact h.elim
  | remove key =>
      cases result with
      | done =>
          obtain rfl : s' = _ := h
          ext e
          constructor
          · rintro ⟨e, ⟨he, hne⟩, rfl⟩
            exact ⟨⟨e, he, rfl⟩, hne⟩
          · rintro ⟨⟨e, he, rfl⟩, hne⟩
            exact ⟨e, ⟨he, hne⟩, rfl⟩
      | _ => exact h.elim
  | get key =>
      cases result with
      | found entry =>
          obtain ⟨hfound, rfl⟩ := h
          refine ⟨fun e => ?_, rfl⟩
          rw [Option.map_eq_some_iff]
          constructor
          · rintro ⟨e, he, rfl⟩
            obtain ⟨hmem, heq⟩ := (hfound e).mp he
            exact ⟨⟨e, hmem, rfl⟩, heq⟩
          · rintro ⟨⟨e, hmem, rfl⟩, heq⟩
            exact ⟨e, (hfound e).mpr ⟨hmem, heq⟩, rfl⟩
      | _ => exact h.elim
  | count =>
      cases result with
      | number n =>
          obtain ⟨hfinite, hn, rfl⟩ := h
          exact ⟨hfinite.image _, hn.trans hs.ncard_image.symm, rfl⟩
      | _ => exact h.elim
  | removeAll =>
      cases result with
      | done =>
          obtain rfl : s' = ∅ := h
          exact Set.image_empty _
      | _ => exact h.elim

theorem AvlMem.Is.entries (h : m.Is avl) : m.entries = entryOf '' avl.entries := by
  ext e
  constructor
  · rintro ⟨q, node, hnode, hkey, hval⟩
    exact ⟨(e.1, q, e.2), h.mem_iff.mpr ⟨node, hnode, hkey, hval⟩, rfl⟩
  · rintro ⟨e, he, rfl⟩
    exact ⟨e.2.1, h.mem_iff.mp he⟩

theorem injOn_entryOf [TransCmp cmp] (h : avl.Good cmp) : Set.InjOn entryOf avl.entries := by
  intro e he e' he' heq
  have hself : cmp e.1 e.1 = .eq := ReflCmp.compare_self
  have hkey : e.1 = e'.1 := (Prod.mk.inj heq).1
  have hget : Collection.avlGet cmp e.1 avl.root = some e :=
    (avlGet_eq_some_iff h.ordered).mpr ⟨he, hself⟩
  have hget' : Collection.avlGet cmp e.1 avl.root = some e' :=
    (avlGet_eq_some_iff h.ordered).mpr ⟨he', hkey ▸ hself⟩
  exact Option.some.inj (hget.symm.trans hget')

theorem size_lt_fuel (his : m.Is avl) (hgood : avl.Good cmp) (h : m.count < fuel) :
    avl.root.size < fuel := by
  rwa [← AvlTree.length_toList, ← hgood.count, ← his.count]

theorem is_of_reach [TransCmp cmp] (run : Reach (memStep cmp fuel) (Permitted fuel) avlNewMem m) :
    ∃ avl, m.Is avl ∧ avl.Good cmp := by
  apply run.invariant (I := fun m => ∃ avl : Avl κ (ℕ × β), m.Is avl ∧ avl.Good cmp)
    ⟨avlNew, is_avlNew, good_avlNew⟩
  rintro m ⟨ret, c⟩ m' ⟨avl, his, hgood⟩ ⟨hret, hfree, hfuel⟩ hstep
  obtain ⟨m₁, hrun, his'⟩ := call_is cmp his (size_lt_fuel his hgood hfuel) hret hfree c
  rw [memStep, hrun] at hstep
  obtain rfl := Option.some.inj hstep
  exact ⟨_, his', (call_spec hgood _).2⟩

/-- **The tree in memory is a set of entries.** In every run a call with an address from
`malloc` goes through: it reads, writes and frees only what is allocated. It does to the entries
in memory, and returns, what it does to a set and returns there. And an entry stays at its
address for as long as no call removes it; then its node is freed. -/
theorem avl_in_memory [TransCmp cmp]
    (run : Reach (memStep cmp fuel) (Permitted fuel) avlNewMem m) {c : AvlCall κ β}
    (hc : Permitted fuel m (ret, c)) :
    ∃ m' result, m.call cmp fuel ret c = some (m', result) ∧
      SetCall cmp m.entries c result m'.entries ∧
      ∀ q, ∀ node ∈ m.nodes q, (Removes cmp node.key c → m'.nodes q = none) ∧
        (¬ Removes cmp node.key c →
          ∃ node' ∈ m'.nodes q, node'.key = node.key ∧ node'.val = node.val) := by
  obtain ⟨avl, his, hgood⟩ := is_of_reach run
  obtain ⟨hret, hfree, hfuel⟩ := hc
  obtain ⟨m', hrun, his'⟩ := call_is cmp his (size_lt_fuel his hgood hfuel) hret hfree c
  obtain ⟨hcall, hgood'⟩ := call_spec hgood (callAt ret c)
  refine ⟨m', _, hrun, ?_, fun q node hnode => ?_⟩
  · rw [his.entries, his'.entries]
    exact setCall_entryOf (injOn_entryOf hgood) hcall
  have he : (node.key, q, node.val) ∈ avl.entries := his.mem_iff.mpr ⟨node, hnode, rfl, rfl⟩
  refine ⟨fun hremoves => ?_, fun hstays => his'.mem_iff.mp ((setCall_stays hcall he).mpr hstays)⟩
  -- what is at the address afterwards was there before
  cases hafter : m'.nodes q with
  | none => rfl
  | some node' =>
      have he' : (node'.key, q, node'.val) ∈ (avl.call cmp (callAt ret c)).1.entries :=
        his'.mem_iff.mpr ⟨node', hafter, rfl, rfl⟩
      obtain ⟨node'', hnode'', hkey, -⟩ := his.mem_iff.mp (setCall_subset hcall hremoves he')
      obtain rfl := Option.some.inj (hnode.symm.trans hnode'')
      have hkey : node.key = node'.key := hkey
      have hstays := (setCall_stays hcall (setCall_subset hcall hremoves he')).mp he'
      rw [← hkey] at hstays
      exact absurd hremoves hstays

/-- After the key 5 is put at the address 1, its removal goes through and frees the node. -/
theorem avl_in_memory_five : ∃ m m' : AvlMem ℕ Unit, ∃ result,
    memStep compare 4 avlNewMem (1, .insert 5 ()) = some m ∧
      m.call compare 4 2 (.remove 5) = some (m', result) ∧ m'.nodes 1 = none ∧
      SetCall compare m.entries (.remove 5) result m'.entries := by
  obtain ⟨m, hm⟩ : ∃ m, memStep compare 4 avlNewMem (1, .insert 5 ()) = some m := ⟨_, rfl⟩
  have hinsert : Permitted 4 (avlNewMem : AvlMem ℕ Unit) (1, .insert 5 ()) :=
    ⟨Nat.one_ne_zero, rfl, Nat.zero_lt_succ 3⟩
  have hremove : Permitted 4 m (2, .remove 5) ∧ ∃ node ∈ m.nodes 1, node.key = 5 := by
    cases hm
    exact ⟨⟨two_ne_zero, rfl, by decide⟩, _, rfl, rfl⟩
  obtain ⟨hpermitted, node, hnode, hkey⟩ := hremove
  obtain ⟨m', result, hrun, hcall, hstay⟩ :=
    avl_in_memory (.step .start hinsert hm) hpermitted
  refine ⟨m, m', result, hm, hrun, (hstay 1 node hnode).1 ?_, hcall⟩
  rw [hkey]
  rfl

/-- **Every entry is cleaned once.** In every run the entries that were copied into nodes are
those that have been cleaned and those whose nodes are allocated, each as often as it was copied;
and when `avl_destroy` is called, all of the rest are cleaned and no node is left. -/
theorem avl_cleans_once [TransCmp cmp]
    (run : Reach (memStep cmp fuel) (Permitted fuel) avlNewMem m) (hfuel : m.count < fuel) :
    (∃ there : List (κ × ℕ × β), m.copied.Perm (m.cleaned ++ there) ∧ there.Nodup ∧
      ∀ e, e ∈ there ↔ ∃ node ∈ m.nodes e.2.1, node.key = e.1 ∧ node.val = e.2.2) ∧
    ∃ m', avlRemoveAll fuel m = some m' ∧ (∀ q, m'.nodes q = none) ∧
      m'.copied.Perm m'.cleaned ∧ m'.copied = m.copied := by
  obtain ⟨avl, his, hgood⟩ := is_of_reach run
  obtain ⟨m', hrun, his', hsame⟩ := removeAll_is his (size_lt_fuel his hgood hfuel)
  refine ⟨⟨avl.root.toList, his.copied, nodup_toList hgood.ordered, fun e => his.mem_iff⟩,
    m', hrun, fun q => his'.only q List.not_mem_nil, ?_, hsame⟩
  have hcopied := his'.copied
  rwa [avlNew, toList_nil, List.append_nil] at hcopied

/-- An entry with the key 5 is put at the address 1 and cleaned at the end. -/
theorem avl_cleans_once_five : ∃ m m' : AvlMem ℕ Unit,
    memStep compare 4 avlNewMem (1, .insert 5 ()) = some m ∧ avlRemoveAll 4 m = some m' ∧
      (∀ q, m'.nodes q = none) ∧ (5, 1, ()) ∈ m'.cleaned := by
  obtain ⟨m, hm⟩ : ∃ m, memStep compare 4 avlNewMem (1, .insert 5 ()) = some m := ⟨_, rfl⟩
  have hpermitted : Permitted 4 (avlNewMem : AvlMem ℕ Unit) (1, .insert 5 ()) :=
    ⟨Nat.one_ne_zero, rfl, Nat.zero_lt_succ 3⟩
  have hcount : m.count < 4 ∧ m.copied = [(5, 1, ())] := by
    cases hm
    exact ⟨by decide, rfl⟩
  obtain ⟨-, m', hrun, hnone, hperm, hsame⟩ :=
    avl_cleans_once (.step .start hpermitted hm) hcount.1
  refine ⟨m, m', hm, hrun, hnone, hperm.mem_iff.mp ?_⟩
  rw [hsame, hcount.2]
  exact List.mem_cons_self

end Calls

end WebcomSdk.Collection.AvlMemory
