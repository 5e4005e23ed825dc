import Mathlib.Tactic

/-!
Maps from paths, the extensional form of a tree whose edges have labels. A graft
replaces all there is at and below a path and makes the nodes above it; grafts
at paths of which neither starts with the other commute.
-/

namespace WebcomSdk.Lib

/-- What each path leads to. -/
abbrev PathMap (κ α : Type*) := List κ → Option α

namespace PathMap

variable {κ α : Type*} [DecidableEq κ]

/-- There are inner nodes down to `path`. -/
def mkdir (inner : α) (path : List κ) (m : PathMap κ α) : PathMap κ α := fun q =>
  if q <+: path then some inner else m q

/-- `sub` is put at `path`. -/
def graft (inner : α) (path : List κ) (sub m : PathMap κ α) : PathMap κ α := fun q =>
  if path <+: q then sub (q.drop path.length) else if q <+: path then some inner else m q

variable {inner : α} {path path' q : List κ} {sub sub' m : PathMap κ α}

theorem graft_below (h : path <+: q) :
    graft inner path sub m q = sub (q.drop path.length) := by
  rw [graft, if_pos h]

@[simp] theorem graft_append (rest : List κ) :
    graft inner path sub m (path ++ rest) = sub rest := by
  rw [graft_below (List.prefix_append path rest), List.drop_left]

theorem graft_above (h : q <+: path) (hne : q ≠ path) :
    graft inner path sub m q = some inner := by
  have hbelow : ¬ path <+: q := fun hpre => hne (h.eq_of_length_le hpre.length_le)
  rw [graft, if_neg hbelow, if_pos h]

theorem graft_off (hbelow : ¬ path <+: q) (habove : ¬ q <+: path) :
    graft inner path sub m q = m q := by
  rw [graft, if_neg hbelow, if_neg habove]

/-- A graft makes the nodes above it by itself. -/
theorem graft_mkdir (h : path' <+: path) :
    graft inner path sub (mkdir inner path' m) = graft inner path sub m := by
  funext q
  by_cases hbelow : path <+: q
  · rw [graft_below hbelow, graft_below hbelow]
  by_cases habove : q <+: path
  · rw [graft, graft, if_neg hbelow, if_neg hbelow, if_pos habove, if_pos habove]
  have hoff : ¬ q <+: path' := fun hq => habove (hq.trans h)
  rw [graft_off hbelow habove, graft_off hbelow habove, mkdir, if_neg hoff]

theorem graft_comm (h : ¬ path <+: path') (h' : ¬ path' <+: path) :
    graft inner path sub (graft inner path' sub' m) =
      graft inner path' sub' (graft inner path sub m) := by
  have hcomm : ∀ {p p' : List κ} {s s' : PathMap κ α}, ¬ p <+: p' → ¬ p' <+: p → ∀ {q},
      p <+: q → graft inner p s (graft inner p' s' m) q =
        graft inner p' s' (graft inner p s m) q := by
    intro p p' s s' h h' q hq
    have hbelow : ¬ p' <+: q := fun hq' =>
      (List.prefix_or_prefix_of_prefix hq hq').elim h h'
    have habove : ¬ q <+: p' := fun hq' => h (hq.trans hq')
    rw [graft_off hbelow habove, graft_below hq, graft_below hq]
  funext q
  by_cases hq : path <+: q
  · exact hcomm h h' hq
  by_cases hq' : path' <+: q
  · exact (hcomm h' h hq').symm
  rw [graft, graft, graft, graft, if_neg hq, if_neg hq', if_neg hq, if_neg hq']
  split_ifs <;> rfl

/-! ### Grafts under one node -/

/-- Each entry is grafted under its own key. -/
def graftAll (inner : α) (path : List κ) (entries : List (κ × PathMap κ α)) (m : PathMap κ α) :
    PathMap κ α :=
  entries.foldl (fun m e => graft inner (path ++ [e.1]) e.2 m) m

omit [DecidableEq κ] in
theorem not_prefix_of_ne {k k' : κ} (h : k ≠ k') : ¬ path ++ [k] <+: path ++ [k'] := by
  intro hpre
  rw [List.prefix_append_right_inj, List.cons_prefix_cons] at hpre
  exact h hpre.1

variable {entries entries' : List (κ × PathMap κ α)}

/-- The order of the entries does not matter. -/
theorem graftAll_perm (hnodup : (entries.map Prod.fst).Nodup) (hperm : entries.Perm entries') :
    graftAll inner path entries m = graftAll inner path entries' m := by
  refine hperm.foldl_eq' (fun e he e' he' m => ?_) m
  rcases eq_or_ne e.1 e'.1 with hkey | hkey
  · rw [List.inj_on_of_nodup_map hnodup he he' hkey]
  · exact graft_comm (not_prefix_of_ne hkey.symm) (not_prefix_of_ne hkey)

/-- What is below none of the keys and not above the node stays. -/
theorem graftAll_off (habove : ¬ q <+: path) (hoff : ∀ e ∈ entries, ¬ path ++ [e.1] <+: q) :
    graftAll inner path entries m q = m q := by
  induction entries generalizing m with
  | nil => rfl
  | cons e entries ih =>
      rw [List.forall_mem_cons] at hoff
      have hup : ¬ q <+: path ++ [e.1] := by
        intro hq
        rcases List.prefix_concat_iff.mp hq with rfl | hq
        · exact hoff.1 List.prefix_rfl
        · exact habove hq
      rw [graftAll, List.foldl_cons]
      exact (ih hoff.2).trans (graft_off hoff.1 hup)

/-- An entry is found under its key. -/
theorem graftAll_entry (hnodup : (entries.map Prod.fst).Nodup) {e : κ × PathMap κ α}
    (he : e ∈ entries) (rest : List κ) :
    graftAll inner path entries m (path ++ e.1 :: rest) = e.2 rest := by
  induction entries generalizing m with
  | nil => cases he
  | cons a entries ih =>
      rw [List.map_cons, List.nodup_cons] at hnodup
      rw [graftAll, List.foldl_cons]
      rcases List.mem_cons.mp he with rfl | he
      · have hkeys : ∀ a ∈ entries, ¬ path ++ [a.1] <+: path ++ e.1 :: rest := by
          intro a ha hpre
          rw [List.prefix_append_right_inj, List.cons_prefix_cons] at hpre
          exact hnodup.1 (hpre.1 ▸ List.mem_map_of_mem ha)
        have habove : ¬ path ++ e.1 :: rest <+: path := by
          intro hpre
          have hlen := hpre.length_le
          rw [List.length_append, List.length_cons] at hlen
          omega
        have hread : graft inner (path ++ [e.1]) e.2 m (path ++ [e.1] ++ rest) = e.2 rest :=
          graft_append rest
        rw [List.append_assoc] at hread
        exact (graftAll_off habove hkeys).trans hread
      · exact ih hnodup.2 he

/-- Once there is an entry, the nodes down to the path are made. -/
theorem graftAll_above (hne : entries ≠ []) (h : q <+: path) :
    graftAll inner path entries m q = some inner := by
  obtain ⟨e, entries, rfl⟩ := List.exists_cons_of_ne_nil hne
  have hstep : ∀ (a : κ × PathMap κ α) (m : PathMap κ α),
      graft inner (path ++ [a.1]) a.2 m q = some inner := by
    intro a m
    refine graft_above (h.trans (List.prefix_append _ _)) ?_
    rintro rfl
    have hlen := h.length_le
    rw [List.length_append, List.length_singleton] at hlen
    omega
  have hkeep : ∀ (l : List (κ × PathMap κ α)) (m : PathMap κ α), m q = some inner →
      graftAll inner path l m q = some inner := by
    intro l
    induction l with
    | nil => exact fun m hm => hm
    | cons a l ih => exact fun m _ => ih _ (hstep a m)
  exact hkeep entries _ (hstep e m)

/-- The entries make the nodes down to the path by themselves. -/
theorem graftAll_mkdir (hne : entries ≠ []) :
    graftAll inner path entries (mkdir inner path m) = graftAll inner path entries m := by
  obtain ⟨e, entries, rfl⟩ := List.exists_cons_of_ne_nil hne
  rw [graftAll, graftAll, List.foldl_cons, List.foldl_cons, graft_mkdir (List.prefix_append _ _)]

end PathMap

end WebcomSdk.Lib
