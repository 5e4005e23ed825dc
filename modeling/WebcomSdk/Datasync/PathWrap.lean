import WebcomSdk.Datasync.PathOffsets

/-!
When the text of a path is parsed right, also where it has so many bytes that the
counter of the parser wraps and it reads its own edited copy from the begin again.
-/

namespace WebcomSdk.Datasync.PathBuffer

open WebcomSdk.Lib Scan

/-- Where the counter wraps, the parser begins again and takes the first part once
more. One part is left, and it is the same. -/
def FirstAgain (s : Bytes) : Prop :=
  ∃ first qs last, endedParts 0 [] (s.take unsignedSize) = first :: qs ∧
    (s.head? = some slash ∨ (s.take unsignedSize).getLast? = some slash) ∧
    (allParts s).take wcDsMaxDepth = first :: qs ++ [last] ∧ last.2 = first.2 ∧
    OffsetsFit s (first :: qs)

/-- The condition on a text. -/
def Parseable (s : Bytes) : Prop :=
  InReach s ∧ OffsetsFit s ((allParts s).take wcDsMaxDepth) ∨ ¬ InReach s ∧ FirstAgain s

variable {s : Bytes}

/-! ### A counter that wraps -/

/-- Slashes and the first part, which is empty only if there is no more. -/
theorem exists_firstPart (text : Bytes) : ∃ b part more,
    text = List.replicate b slash ++ part ++ more ∧ slash ∉ part ∧
      (more = [] ∨ part ≠ [] ∧ ∃ rest, more = slash :: rest) := by
  induction text with
  | nil => exact ⟨0, [], [], rfl, List.not_mem_nil, .inl rfl⟩
  | cons c text ih =>
      obtain ⟨b, part, more, rfl, hpart, hmore⟩ := ih
      by_cases hc : c = slash
      · refine ⟨b + 1, part, more, ?_, hpart, hmore⟩
        rw [hc, List.replicate_succ]
        rfl
      · cases b with
        | zero =>
            refine ⟨0, c :: part, more, rfl, by simp [Ne.symm hc, hpart], ?_⟩
            exact hmore.imp_right fun h => ⟨List.cons_ne_nil _ _, h.2⟩
        | succ b =>
            refine ⟨0, [c], List.replicate (b + 1) slash ++ part ++ more, rfl,
              by simp [Ne.symm hc], .inr ⟨List.cons_ne_nil _ _, ?_⟩⟩
            exact ⟨List.replicate b slash ++ part ++ more, by rw [List.replicate_succ]; rfl⟩

theorem scan_slashes (n b : ℕ) (text : Bytes) :
    endedParts n [] (List.replicate b slash ++ text) = endedParts (n + b) [] text ∧
      openPart n [] (List.replicate b slash ++ text) = openPart (n + b) [] text ∧
      zeroEnds false (List.replicate b slash ++ text) =
        List.replicate b slash ++ zeroEnds false text := by
  induction b generalizing n with
  | zero => exact ⟨rfl, rfl, rfl⟩
  | succ b ih =>
      obtain ⟨hended, hopen, hzero⟩ := ih (n + 1)
      rw [List.replicate_succ, List.cons_append, endedParts, openPart, zeroEnds, if_pos rfl,
        if_pos rfl, if_pos rfl, hended]
      refine ⟨by rw [Nat.add_right_comm, Nat.add_assoc], ?_, ?_⟩
      · rw [List.length_nil, Nat.add_zero, hopen, Nat.add_right_comm, Nat.add_assoc]
      · simp [hzero]

theorem scan_part {part : Key} (hpart : slash ∉ part) (n : ℕ) (acc : Key) (text : Bytes) :
    endedParts n acc (part ++ text) = endedParts n (acc ++ part) text ∧
      openPart n acc (part ++ text) = openPart n (acc ++ part) text ∧
      zeroEnds (acc ≠ []) (part ++ text) = part ++ zeroEnds (acc ++ part ≠ []) text := by
  induction part generalizing acc with
  | nil => simp
  | cons c part ih =>
      rw [List.mem_cons, not_or] at hpart
      have hc : c ≠ slash := Ne.symm hpart.1
      obtain ⟨hended, hopen, hzero⟩ := ih hpart.2 (acc ++ [c])
      rw [List.append_assoc, List.singleton_append] at hended hopen hzero
      rw [List.cons_append, endedParts, openPart, zeroEnds, if_neg hc, if_neg hc]
      refine ⟨hended, hopen, ?_⟩
      simpa [hc] using hzero

/-- The text up to the first part. -/
theorem scan_first {part : Key} (hpart : slash ∉ part) (b : ℕ) (text : Bytes) :
    endedParts 0 [] (List.replicate b slash ++ part ++ text) = endedParts b part text ∧
      openPart 0 [] (List.replicate b slash ++ part ++ text) = openPart b part text ∧
      zeroEnds false (List.replicate b slash ++ part ++ text) =
        List.replicate b slash ++ part ++ zeroEnds (part ≠ []) text := by
  obtain ⟨hended, hopen, hzero⟩ := scan_slashes 0 b (part ++ text)
  obtain ⟨hended', hopen', hzero'⟩ := scan_part hpart b [] text
  rw [Nat.zero_add] at hended hopen
  have hflag : decide (([] : Key) ≠ []) = false := rfl
  rw [hflag, List.nil_append] at hzero'
  rw [List.append_assoc, hended, hopen, hzero, hended', hopen', hzero']
  exact ⟨rfl, rfl, by rw [List.append_assoc]⟩

theorem openPart_eq_nil_iff {text : Bytes} (hne : text ≠ []) (n : ℕ) (acc : Key) :
    (openPart n acc text).2 = [] ↔ text.getLast? = some slash := by
  obtain ⟨text, c, rfl⟩ := (List.eq_nil_or_concat' text).resolve_left hne
  rw [openPart_append, openPart, List.getLast?_concat]
  by_cases hc : c = slash <;> simp [openPart, hc]

theorem partsFrom_ne_nil {part : Key} (hpart : part ≠ []) (n : ℕ) (text : Bytes) :
    partsFrom n part text ≠ [] := by
  rw [partsFrom]
  induction text generalizing part with
  | nil => simp [endedParts, openPart, hpart]
  | cons c text ih =>
      rw [endedParts, openPart]
      by_cases hc : c = slash
      · rw [if_pos hc, if_neg hpart]
        exact List.cons_ne_nil _ _
      · rw [if_neg hc, if_neg hc]
        exact ih (by simp)

section Wrap

variable {σ : Scan} {b : ℕ} {part : Key} {more : Bytes} {offsets : List ℕ}

/-- The parser is in the slashes that the text begins with. -/
theorem at_first {a : ℕ} (h : At σ (List.replicate a slash) a []
      (List.replicate b slash ++ part ++ more) offsets) (hpart : slash ∉ part) (hnul : 0 ∉ part)
    (hle : a + b + part.length ≤ unsignedSize) (hroom : offsets.length < wcDsMaxDepth) :
    ∃ σ', Advances Scan.step (b + part.length) σ σ' ∧
      At σ' (List.replicate (a + b) slash ++ part) (a + b) part more offsets := by
  obtain ⟨hended, hopen, hzero⟩ := scan_slashes a b part
  obtain ⟨hended', hopen', hzero'⟩ := scan_part hpart (a + b) [] []
  rw [List.append_nil] at hended' hopen' hzero'
  rw [hended'] at hended
  rw [hopen'] at hopen
  have hflag : decide (([] : Key) ≠ []) = false := rfl
  rw [hflag] at hzero'
  have hnul' : 0 ∉ List.replicate b slash ++ part := by
    rw [List.mem_append, not_or]
    exact ⟨fun h => absurd (List.eq_of_mem_replicate h) (by decide), hnul⟩
  obtain ⟨σ', hadv, hat⟩ := h.text hnul' (by simp; omega) (by rw [hended]; exact hroom)
  rw [hflag, hzero, hzero', hended, hopen] at hat
  refine ⟨σ', by simpa using hadv, ?_⟩
  simp only [endedParts, openPart, zeroEnds, stored, List.map_nil, List.append_nil,
    List.nil_append] at hat
  rw [List.replicate_add, List.append_assoc]
  exact hat

/-- After a wrap the parser goes to the end of the first part, unless it is inside
a part and no slash comes before the first one. -/
theorem restart (hcpy : σ.pathCpy = List.replicate b slash ++ part ++ more) (hi : σ.i = 0)
    (hpart : slash ∉ part) (hnul : 0 ∉ part) (hle : b + part.length ≤ unsignedSize)
    (hroom : σ.offsets.length < wcDsMaxDepth)
    (hstate : σ.state = .init ∨ σ.state = .insidePart ∧ b ≠ 0) :
    ∃ σ', Advances Scan.step (b + part.length) σ σ' ∧
      At σ' (List.replicate b slash ++ part) b part more σ.offsets := by
  rcases hstate with hinit | ⟨hinside, hb⟩
  · have hat : At σ (List.replicate 0 slash) 0 [] (List.replicate b slash ++ part ++ more)
        σ.offsets := ⟨hcpy, hi, rfl, fun _ => hinit, fun h => absurd rfl h, rfl⟩
    have h := at_first hat hpart hnul (by omega) hroom
    rwa [Nat.zero_add] at h
  · obtain ⟨b, rfl⟩ := Nat.exists_eq_succ_of_ne_zero hb
    have hchar : σ.char = slash := by
      rw [Scan.char, hcpy, hi]
      rfl
    have hstep : σ.step = some { σ with state := .init }.incr := by
      rw [Scan.step, if_neg (by omega), hinside]
      simp [hchar, hi]
    have hat : At { σ with state := .init }.incr (List.replicate 1 slash) 1 []
        (List.replicate b slash ++ part ++ more) σ.offsets := by
      refine ⟨?_, ?_, rfl, fun _ => rfl, fun h => absurd rfl h, rfl⟩
      · show σ.pathCpy = _
        rw [hcpy]
        rfl
      · show (σ.i + 1) % unsignedSize = _
        rw [hi]
        rfl
    obtain ⟨σ', hadv, hat'⟩ := at_first hat hpart hnul (by omega) hroom
    refine ⟨σ', ?_, ?_⟩
    · have h := (Advances.one hstep).trans hadv
      rwa [show b + part.length + 1 = b.succ + part.length by omega] at h
    · rwa [Nat.add_comm] at hat'

/-- Inside a part, the parser goes on to its end. -/
theorem skip {done : Bytes} (hcpy : σ.pathCpy = done ++ (part ++ more))
    (hi : σ.i = done.length % unsignedSize) (hstate : σ.state = .insidePart)
    (hpart : slash ∉ part) (hnul : 0 ∉ part) (hle : done.length + part.length ≤ unsignedSize)
    (hroom : σ.offsets.length < wcDsMaxDepth) :
    Advances Scan.step part.length σ
      { σ with i := (done.length + part.length) % unsignedSize } := by
  induction part generalizing σ done with
  | nil =>
      rw [List.length_nil, Nat.add_zero, ← hi]
      exact .refl σ
  | cons c part ih =>
      rw [List.mem_cons, not_or] at hpart hnul
      rw [List.length_cons] at hle
      have hi' : σ.i = done.length := by rw [hi, Nat.mod_eq_of_lt (by omega)]
      have hchar : σ.char = c := by
        rw [Scan.char, hcpy, hi']
        simp
      have hstep : σ.step = some σ.incr := by
        rw [Scan.step, if_neg (by omega), hstate]
        simp [hchar, Ne.symm hpart.1, Ne.symm hnul.1]
      have h := @ih σ.incr (done ++ [c]) (by simp [Scan.incr, hcpy]) (by simp [Scan.incr, hi'])
        hstate hpart.2 hnul.2 (by simp; omega) hroom
      have hadv := (Advances.one hstep).trans h
      simpa [Scan.incr, Nat.add_assoc, Nat.add_comm 1] using hadv

end Wrap

/-- The parser when its counter wraps for the first time. -/
structure Wrapped (s : Bytes) (σ : Scan) : Prop where
  advances : Advances Scan.step unsignedSize (Scan.start s) σ
  pathCpy : σ.pathCpy = zeroEnds false (s.take unsignedSize) ++ s.drop unsignedSize
  i : σ.i = 0
  offsets : σ.offsets = stored (endedParts 0 [] (s.take unsignedSize))
  init : (openPart 0 [] (s.take unsignedSize)).2 = [] → σ.state = .init
  inside : (openPart 0 [] (s.take unsignedSize)).2 ≠ [] →
    σ.state = .insidePart ∧ σ.partBegin = (openPart 0 [] (s.take unsignedSize)).1

theorem exists_wrapped (hnul : 0 ∉ s) (hlen : unsignedSize ≤ s.length)
    (hroom : (endedParts 0 [] (s.take unsignedSize)).length < wcDsMaxDepth) :
    ∃ σ, Wrapped s σ := by
  have hcount : (s.take unsignedSize).length = unsignedSize := List.length_take_of_le hlen
  have hstart : At (Scan.start s) [] 0 [] (s.take unsignedSize ++ s.drop unsignedSize) [] := by
    rw [List.take_append_drop]
    exact at_start s
  obtain ⟨σ, hadv, hat⟩ := hstart.text (fun hmem => hnul (List.mem_of_mem_take hmem))
    (by rw [List.length_nil, hcount, Nat.zero_add]) (by rw [List.length_nil]; omega)
  refine ⟨σ, by rwa [hcount] at hadv, hat.pathCpy, ?_, hat.offsets, hat.init, hat.inside⟩
  rw [hat.i, List.nil_append, length_zeroEnds, hcount, Nat.mod_self]

/-- Without an ended part the parser comes back to where it was. -/
theorem endless (hnul : 0 ∉ s) (hlen : unsignedSize ≤ s.length)
    (hnone : endedParts 0 [] (s.take unsignedSize) = []) (fuel : ℕ) :
    runLoop Scan.step fuel (Scan.start s) = none := by
  have hcount : (s.take unsignedSize).length = unsignedSize := List.length_take_of_le hlen
  have hnul' : 0 ∉ s.take unsignedSize := fun hmem => hnul (List.mem_of_mem_take hmem)
  have hs := (List.take_append_drop unsignedSize s).symm
  obtain ⟨b, part, more, htake, hpart, hmore⟩ := exists_firstPart (s.take unsignedSize)
  obtain ⟨hended, -, -⟩ := scan_first hpart b more
  have hnomore : more = [] := by
    refine hmore.resolve_right ?_
    rintro ⟨hne, rest, rfl⟩
    rw [htake, hended, endedParts, if_pos rfl, if_neg hne] at hnone
    cases hnone
  subst hnomore
  rw [List.append_nil] at htake
  rw [htake] at hs hcount hnul'
  have hnulpart : 0 ∉ part := fun hmem => hnul' (List.mem_append_right _ hmem)
  have hsize : b + part.length = unsignedSize := by simpa using hcount
  -- the same text, from its begin, in either state
  let I : Scan → Prop := fun σ => σ.pathCpy = s ∧ σ.i = 0 ∧ σ.offsets = [] ∧
    (σ.state = .init ∨ σ.state = .insidePart)
  refine @runLoop_eq_none _ Scan.step _ I unsignedSize (by decide) ?_ fuel
    ⟨rfl, rfl, rfl, .inl rfl⟩
  rintro σ ⟨hcpy, hi, hoffsets, hstate⟩
  have hroom : σ.offsets.length < wcDsMaxDepth := by rw [hoffsets]; decide
  by_cases hback : σ.state = .init ∨ σ.state = .insidePart ∧ b ≠ 0
  · obtain ⟨σ', hadv, hat⟩ := restart (hcpy.trans hs) hi hpart hnulpart (by omega) hroom hback
    refine ⟨σ', by rwa [hsize] at hadv, hat.pathCpy.trans hs.symm, ?_, ?_, ?_⟩
    · rw [hat.i, hcount, Nat.mod_self]
    · rw [hat.offsets, hoffsets]
    · by_cases hnil : part = []
      · exact .inl (hat.init hnil)
      · exact .inr (hat.inside hnil).1
  · have hinside : σ.state = .insidePart := by
      rcases hstate with h | h
      · exact absurd (.inl h) hback
      · exact h
    have hb : b = 0 := by
      by_contra hb
      exact hback (.inr ⟨hinside, hb⟩)
    subst hb
    rw [Nat.zero_add] at hsize
    have hskip := @skip σ part (s.drop unsignedSize) [] (hcpy.trans (by simpa using hs)) hi hinside
      hpart hnulpart (by simp; omega) hroom
    rw [hsize] at hskip
    refine ⟨_, hskip, hcpy, ?_, hoffsets, .inr hinside⟩
    show (([] : Bytes).length + unsignedSize) % unsignedSize = 0
    simp

/-- The text up to the wrap has an ended part, of which this is the first. -/
structure FirstEnded (s : Bytes) (first : ℕ × Key) (rest : Bytes) : Prop where
  text : s.take unsignedSize = List.replicate first.1 slash ++ (first.2 ++ slash :: rest)
  noSlash : slash ∉ first.2
  ne_nil : first.2 ≠ []

theorem exists_firstEnded {first : ℕ × Key} {qs : List (ℕ × Key)}
    (hended : endedParts 0 [] (s.take unsignedSize) = first :: qs) :
    ∃ rest, FirstEnded s first rest := by
  obtain ⟨b, part, more, htake, hpart, hmore⟩ := exists_firstPart (s.take unsignedSize)
  obtain ⟨hended', -, -⟩ := scan_first hpart b more
  rw [← htake] at hended'
  obtain ⟨hne, rest, rfl⟩ : part ≠ [] ∧ ∃ rest, more = slash :: rest := by
    refine hmore.resolve_left ?_
    rintro rfl
    rw [hended, endedParts] at hended'
    cases hended'
  rw [hended, endedParts, if_pos rfl, if_neg hne] at hended'
  obtain ⟨rfl, -⟩ := List.cons.inj hended'
  exact ⟨rest, by simpa using htake, hpart, hne⟩

namespace FirstEnded

variable {first : ℕ × Key} {rest : Bytes}

theorem lt_size (h : FirstEnded s first rest) (hlen : unsignedSize ≤ s.length) :
    first.1 + first.2.length < unsignedSize := by
  have hlength := congrArg List.length h.text
  rw [List.length_take_of_le hlen] at hlength
  simp only [List.length_append, List.length_replicate, List.length_cons] at hlength
  omega

theorem noNul (h : FirstEnded s first rest) (hnul : 0 ∉ s) : 0 ∉ first.2 := by
  have hnul' : 0 ∉ s.take unsignedSize := fun hmem => hnul (List.mem_of_mem_take hmem)
  rw [h.text] at hnul'
  exact fun hmem => hnul' (by simp [hmem])

/-- The copy of the text when the counter wraps. -/
theorem pathCpy (h : FirstEnded s first rest) {σ : Scan} (hwrap : Wrapped s σ) :
    σ.pathCpy = List.replicate first.1 slash ++ first.2 ++
      (0 :: (zeroEnds false rest ++ s.drop unsignedSize)) := by
  obtain ⟨-, -, hzero⟩ := scan_first h.noSlash first.1 (slash :: rest)
  have htext : s.take unsignedSize =
      List.replicate first.1 slash ++ first.2 ++ slash :: rest := by simpa using h.text
  rw [hwrap.pathCpy, htext, hzero]
  simp [h.ne_nil, zeroEnds]

theorem head_iff (h : FirstEnded s first rest) : s.head? = some slash ↔ first.1 ≠ 0 := by
  have hs := (List.take_append_drop unsignedSize s).symm
  have hnoSlash := h.noSlash
  obtain ⟨c, part, hcons⟩ := List.exists_cons_of_ne_nil h.ne_nil
  rw [hcons] at hnoSlash
  rw [hs, h.text, hcons]
  cases first.1 with
  | zero =>
      have hc : c ≠ slash := fun heq => hnoSlash (by simp [heq])
      simp [hc]
  | succ b => simp [List.replicate_succ]

theorem last_iff (h : FirstEnded s first rest) :
    (s.take unsignedSize).getLast? = some slash ↔
      (openPart 0 [] (s.take unsignedSize)).2 = [] := by
  refine (openPart_eq_nil_iff ?_ 0 []).symm
  rw [h.text]
  simp

end FirstEnded

section Again

variable {first : ℕ × Key} {qs : List (ℕ × Key)}

/-- Every part that has ended has a slash after it, before the wrap. -/
theorem slash_of_ended (hended : endedParts 0 [] (s.take unsignedSize) = first :: qs)
    {q : ℕ × Key} (hq : q ∈ first :: qs) : slash ∈ (s.take unsignedSize).drop q.1 := by
  rw [← hended] at hq
  exact slash_mem_of_endedParts hq

theorem Wrapped.room {σ : Scan} (hwrap : Wrapped s σ)
    (hended : endedParts 0 [] (s.take unsignedSize) = first :: qs)
    (hroom : (first :: qs).length < wcDsMaxDepth) : σ.offsets.length < wcDsMaxDepth := by
  rw [hwrap.offsets, stored, List.length_map, hended]
  exact hroom

/-- The parser reads the begin of the first part again, and is over at its end. -/
theorem parsed_twice (hnul : 0 ∉ s) (hlen : unsignedSize ≤ s.length)
    (hended : endedParts 0 [] (s.take unsignedSize) = first :: qs)
    (hroom : (first :: qs).length < wcDsMaxDepth)
    (hcond : s.head? = some slash ∨ (s.take unsignedSize).getLast? = some slash) :
    ∃ σ, Parsed s σ (first :: qs ++ [first]) := by
  obtain ⟨σ, hwrap⟩ := exists_wrapped hnul hlen (by rw [hended]; exact hroom)
  obtain ⟨rest, hfirst⟩ := exists_firstEnded hended
  have hsize := hfirst.lt_size hlen
  have hroom' := hwrap.room hended hroom
  have hcpy := hfirst.pathCpy hwrap
  have hstate : σ.state = .init ∨ σ.state = .insidePart ∧ first.1 ≠ 0 := by
    by_cases hnil : (openPart 0 [] (s.take unsignedSize)).2 = []
    · exact .inl (hwrap.init hnil)
    · have hb := hcond.resolve_right fun h => hnil (hfirst.last_iff.mp h)
      exact .inr ⟨(hwrap.inside hnil).1, hfirst.head_iff.mp hb⟩
  obtain ⟨σ', hadv, hat⟩ :=
    restart hcpy hwrap.i hfirst.noSlash (hfirst.noNul hnul) hsize.le hroom' hstate
  obtain ⟨σ'', hend, hover, hcpy'', hoffsets⟩ := hat.textEnd rfl (by simpa using hsize) hroom'
  refine ⟨σ'', ⟨1 + (1 + (first.1 + first.2.length) + unsignedSize), ?_, ?_⟩, ?_, _, _,
    (List.take_append_drop unsignedSize s).symm, ?_, ?_⟩
  · rw [passes]
    omega
  · exact ((hwrap.advances.trans (hadv.trans hend)) 1).trans (runLoop_done hover 0)
  · rw [hoffsets, hwrap.offsets, hended, if_neg hfirst.ne_nil]
    simp [stored]
  · rw [hcpy'', ← hcpy, hwrap.pathCpy]
  · intro q hq
    refine .inl (slash_of_ended hended ?_)
    rcases List.mem_append.mp hq with hq | hq
    · exact hq
    · obtain rfl := List.mem_singleton.mp hq
      exact List.mem_cons_self

/-- The parser is inside a part that begins behind the first one, and is over where
that one ended. -/
theorem parsed_once (hnul : 0 ∉ s) (hlen : unsignedSize ≤ s.length)
    (hended : endedParts 0 [] (s.take unsignedSize) = first :: qs)
    (hroom : (first :: qs).length < wcDsMaxDepth)
    (hcond : ¬ (s.head? = some slash ∨ (s.take unsignedSize).getLast? = some slash)) :
    ∃ σ, Parsed s σ (first :: qs) := by
  obtain ⟨σ, hwrap⟩ := exists_wrapped hnul hlen (by rw [hended]; exact hroom)
  obtain ⟨rest, hfirst⟩ := exists_firstEnded hended
  obtain ⟨b, part⟩ := first
  have hsize : b + part.length < unsignedSize := hfirst.lt_size hlen
  have hroom' := hwrap.room hended hroom
  have hcpy : σ.pathCpy = List.replicate b slash ++ part ++ _ := hfirst.pathCpy hwrap
  have htext : s.take unsignedSize = List.replicate b slash ++ (part ++ slash :: rest) :=
    hfirst.text
  have hnoSlash : slash ∉ part := hfirst.noSlash
  have hnoNul : 0 ∉ part := hfirst.noNul hnul
  rw [not_or, hfirst.head_iff, hfirst.last_iff, not_not] at hcond
  obtain ⟨rfl, hopen⟩ : b = 0 ∧ _ := hcond
  obtain ⟨hinside, hbegin⟩ := hwrap.inside hopen
  rw [Nat.zero_add] at hsize
  have hskip := @skip σ part (0 :: (zeroEnds false rest ++ s.drop unsignedSize)) []
    (by simpa using hcpy) hwrap.i hinside hnoSlash hnoNul (by simpa using hsize.le) hroom'
  have hi : (([] : Bytes).length + part.length) % unsignedSize = part.length := by
    rw [List.length_nil, Nat.zero_add, Nat.mod_eq_of_lt hsize]
  rw [hi] at hskip
  have hlater : ¬ σ.partBegin < part.length := by
    obtain ⟨-, hopen', -⟩ := scan_first hnoSlash 0 (slash :: rest)
    have hle := le_openPart (0 + part.length + 1) [] rest
    have htext' : s.take unsignedSize = List.replicate 0 slash ++ part ++ slash :: rest := by
      simpa using htext
    rw [htext', hopen', openPart, if_pos rfl] at hbegin
    omega
  have hchar : Scan.char { σ with i := part.length } = 0 := by
    show σ.pathCpy.getD part.length 0 = 0
    rw [hcpy]
    simp [List.getD_eq_getElem?_getD]
  obtain ⟨σ', hstep, hover, hcpy', hoffsets⟩ :=
    @Scan.step_nul { σ with i := part.length } hinside hchar hlater hroom'
  refine ⟨σ', ⟨1 + (1 + part.length + unsignedSize), ?_, ?_⟩, ?_, _, _,
    (List.take_append_drop unsignedSize s).symm, ?_, ?_⟩
  · rw [passes]
    omega
  · exact ((hwrap.advances.trans (hskip.trans (.one hstep))) 1).trans (runLoop_done hover 0)
  · rw [hoffsets, hwrap.offsets, hended]
  · exact hcpy'.trans hwrap.pathCpy
  · exact fun q hq => .inl (slash_of_ended hended hq)

end Again

theorem wrapped_iff (hnul : 0 ∉ s) (hreach : ¬ InReach s) :
    (∃ fuel path, wcDatasyncPathParse fuel s = some path ∧ parts path = firstParts s) ↔
      FirstAgain s := by
  rw [InReach, not_or, not_lt, not_le] at hreach
  obtain ⟨hlen, hroom⟩ := hreach
  have hs := (List.take_append_drop unsignedSize s).symm
  have hall := allParts_append (s.take unsignedSize) (s.drop unsignedSize)
  rw [← hs] at hall
  cases hended : endedParts 0 [] (s.take unsignedSize) with
  | nil =>
      refine iff_of_false ?_ ?_
      · rintro ⟨fuel, path, hpath, -⟩
        rw [wcDatasyncPathParse, endless hnul hlen hended] at hpath
        cases hpath
      · rintro ⟨first, qs, last, hcons, -⟩
        rw [hended] at hcons
        cases hcons
  | cons first qs =>
      rw [hended] at hall hroom
      have hparts : ∀ q ∈ first :: qs, IsPart q.2 := by
        intro q hq
        have hmem : q ∈ allParts s := by
          rw [hall]
          exact List.mem_append_left _ hq
        exact isPart_of_mem_allParts hmem
      have htake : (allParts s).take wcDsMaxDepth = first :: qs ++
          (partsFrom (openPart 0 [] (s.take unsignedSize)).1 (openPart 0 [] (s.take unsignedSize)).2
            (s.drop unsignedSize)).take (wcDsMaxDepth - (first :: qs).length) := by
        rw [hall, List.take_append, List.take_of_length_le hroom.le]
      by_cases hcond : s.head? = some slash ∨ (s.take unsignedSize).getLast? = some slash
      · obtain ⟨σ, h⟩ := parsed_twice hnul hlen hended hroom hcond
        have hfit := h.fit_iff hnul (List.subset_append_left _ _) hparts
        have hsplit : (stored (first :: qs ++ [first])).map (cString σ.pathCpy) =
            (stored (first :: qs)).map (cString σ.pathCpy) ++
              [cString σ.pathCpy (first.1 % uint16Size)] := by
          simp [stored]
        rw [h.exists_parts_iff, firstParts_eq, hsplit]
        constructor
        · intro heq
          rw [htake, List.map_append] at heq
          obtain ⟨hsame, hlast⟩ := List.append_inj heq (by simp [stored])
          obtain ⟨last, hone, hsnd⟩ := List.map_eq_singleton_iff.mp hlast.symm
          refine ⟨first, qs, last, hended, hcond, by rw [htake, hone], ?_, hfit.mp hsame⟩
          rw [hsnd]
          exact (List.cons.inj hsame).1
        · rintro ⟨first', qs', last, hcons, -, htake', hsnd, hfits⟩
          rw [hended] at hcons
          obtain ⟨rfl, rfl⟩ := List.cons.inj hcons
          have hsame := hfit.mpr hfits
          have hfirst : cString σ.pathCpy (first.1 % uint16Size) = first.2 :=
            (List.cons.inj hsame).1
          rw [htake', hsame, hfirst, ← hsnd, List.map_append]
          rfl
      · obtain ⟨σ, h⟩ := parsed_once hnul hlen hended hroom hcond
        rw [h.exists_parts_iff, firstParts_eq, htake]
        refine iff_of_false ?_ ?_
        · -- the part that is being read is lost
          intro heq
          have hopen : (openPart 0 [] (s.take unsignedSize)).2 ≠ [] := by
            intro hnil
            refine hcond (.inr ((openPart_eq_nil_iff ?_ 0 []).mp hnil))
            intro htext
            rw [htext] at hended
            cases hended
          have hleft := List.length_pos_of_ne_nil
            (partsFrom_ne_nil hopen (openPart 0 [] (s.take unsignedSize)).1 (s.drop unsignedSize))
          have hlength := congrArg List.length heq
          simp only [stored, List.length_map, List.length_append, List.length_take] at hlength
          omega
        · rintro ⟨first', qs', last, -, hcond', -⟩
          exact hcond hcond'

/-- The text is parsed into its parts exactly under the condition. -/
theorem parse_firstParts_iff (hnul : 0 ∉ s) :
    (∃ fuel path, wcDatasyncPathParse fuel s = some path ∧ parts path = firstParts s) ↔
      Parseable s := by
  by_cases hreach : InReach s
  · rw [inReach_iff hnul hreach, Parseable]
    simp [hreach]
  · rw [wrapped_iff hnul hreach, Parseable]
    simp [hreach]

/-- **The parser.** A text is parsed into its first parts, with their normal form
parsed into the same parts, exactly when both texts meet the condition. -/
theorem parsedRight_iff (hnul : 0 ∉ s) :
    ParsedRight s ↔ Parseable s ∧ Parseable (normalForm (firstParts s)) := by
  have hnorm := nul_notMem_normalForm hnul
  rw [← parse_firstParts_iff hnul, ← parse_firstParts_iff hnorm, firstParts_normalForm]
  constructor
  · rintro ⟨fuel, path, hpath, hparts, hstr, fuel', path', hpath', hparts'⟩
    rw [hstr] at hpath'
    exact ⟨⟨fuel, path, hpath, hparts⟩, fuel', path', hpath', hparts'.trans hparts⟩
  · rintro ⟨⟨fuel, path, hpath, hparts⟩, fuel', path', hpath', hparts'⟩
    have hstr : wcDatasyncPathToStr path = normalForm (firstParts s) := by
      obtain ⟨σ, -, rfl⟩ := Option.map_eq_some_iff.mp hpath
      rw [toStr_path, hparts]
    refine ⟨fuel, path, hpath, hparts, hstr, fuel', path', ?_, hparts'.trans hparts.symm⟩
    rw [hstr]
    exact hpath'

/-- `a/b`. -/
theorem parsedRight_two_parts : ParsedRight [97, slash, 98] := by
  have hcond : ∀ t : Bytes, t.length < 65536 → OffsetsFit t ((allParts t).take wcDsMaxDepth) →
      Parseable t := by
    intro t hlen hfit
    exact .inl ⟨.inl (by rw [unsignedSize]; omega), hfit⟩
  refine (parsedRight_iff (by decide)).mpr ⟨hcond _ (by decide) ?_, hcond _ (by decide) ?_⟩
  · intro q hq
    revert q
    decide
  · intro q hq
    revert q
    decide

/-- 65536 slashes and an `a`: the offset of the part is kept as 0. -/
theorem far_part_misread : ¬ ParsedRight (List.replicate 65536 slash ++ [97]) := by
  rintro ⟨fuel, path, hpath, hparts, -⟩
  have hnul : 0 ∉ List.replicate 65536 slash ++ [97] := by
    rw [List.mem_append, not_or]
    exact ⟨fun h => absurd (List.eq_of_mem_replicate h) (by decide), by decide⟩
  obtain ⟨hended, hopen, -⟩ := scan_slashes 0 65536 [97]
  have hall : allParts (List.replicate 65536 slash ++ [97]) = [(65536, [97])] := by
    rw [allParts, partsFrom, hended, hopen]
    rfl
  have hslashes : ∀ b, textAt (List.replicate (b + 1) slash ++ [97]) 0 = [] := by
    intro b
    rw [textAt, List.drop_zero, List.replicate_succ]
    rfl
  rcases (parse_firstParts_iff hnul).mp ⟨fuel, path, hpath, hparts⟩ with ⟨-, hfit⟩ | ⟨hreach, -⟩
  · rw [hall] at hfit
    have htext := hfit (65536, [97]) List.mem_cons_self
    have hzero : 65536 % uint16Size = 0 := rfl
    rw [hzero, hslashes 65535] at htext
    cases htext
  · refine hreach (.inl ?_)
    rw [List.length_append, List.length_replicate, unsignedSize]
    decide

end WebcomSdk.Datasync.PathBuffer
