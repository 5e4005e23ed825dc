import WebcomSdk.Datasync.PathBuffer

/-!
What is read at the stored offsets, once the parser is at its end: the parts of the
text, where 16 bits of their offsets are enough.
-/

namespace WebcomSdk.Datasync.PathBuffer

open WebcomSdk.Lib Scan

/-- The parts that end in a text or with it. -/
def partsFrom (n : ℕ) (part : Key) (s : Bytes) : List (ℕ × Key) :=
  endedParts n part s ++ [openPart n part s].filter (·.2 ≠ [])

/-- All the parts of a text, each with the offset at which it begins. -/
def allParts (s : Bytes) : List (ℕ × Key) := partsFrom 0 [] s

/-- What stands at an offset of a text, up to the next slash. -/
def textAt (s : Bytes) (offset : ℕ) : Key := (s.drop offset).takeWhile (· ≠ slash)

/-- The parts also stand at what 16 bits keep of their offsets. -/
def OffsetsFit (s : Bytes) (qs : List (ℕ × Key)) : Prop :=
  ∀ q ∈ qs, textAt s (q.1 % uint16Size) = q.2

/-- The parser is at its end before the counter wraps. -/
def InReach (s : Bytes) : Prop :=
  s.length < unsignedSize ∨ wcDsMaxDepth ≤ (endedParts 0 [] (s.take unsignedSize)).length

/-! ### The parts of a text -/

theorem splitOn_append {part : Key} (hpart : slash ∉ part) (n : ℕ) (s : Bytes) :
    ((part ++ s).splitOn slash).filter (· ≠ []) = (partsFrom n part s).map Prod.snd := by
  rw [partsFrom]
  induction s generalizing n part with
  | nil =>
      rw [List.append_nil, List.splitOn_eq_singleton hpart, endedParts, openPart]
      by_cases hnil : part = [] <;> simp [hnil]
  | cons c s ih =>
      rw [endedParts, openPart]
      by_cases hc : c = slash
      · subst hc
        rw [if_pos rfl, if_pos rfl, List.splitOn_append_cons_self_of_not_mem hpart]
        have hrest := ih List.not_mem_nil (n + part.length + 1)
        rw [List.nil_append] at hrest
        by_cases hnil : part = []
        · subst hnil
          rw [List.filter_cons_of_neg (by simp), if_pos rfl]
          exact hrest
        · rw [List.filter_cons_of_pos (by simpa using hnil), hrest, if_neg hnil]
          rfl
      · rw [if_neg hc, if_neg hc, ← ih (by simp [hpart, Ne.symm hc]) n]
        simp

theorem allParts_append (s t : Bytes) : allParts (s ++ t) =
    endedParts 0 [] s ++ partsFrom (openPart 0 [] s).1 (openPart 0 [] s).2 t := by
  rw [allParts, partsFrom, endedParts_append, openPart_append, List.append_assoc]
  rfl

theorem firstParts_eq (s : Bytes) :
    firstParts s = ((allParts s).take wcDsMaxDepth).map Prod.snd := by
  have h := splitOn_append List.not_mem_nil 0 s
  rw [List.nil_append] at h
  rw [firstParts, h, List.map_take]
  rfl

theorem drop_of_mem_allParts {s : Bytes} {q : ℕ × Key} (hq : q ∈ allParts s) :
    IsPart q.2 ∧ ∃ more, s.drop q.1 = q.2 ++ more ∧ (more = [] ∨ ∃ rest, more = slash :: rest) := by
  rcases List.mem_append.mp hq with hq | hq
  · obtain ⟨hpart, more, hdrop⟩ := @drop_of_mem_endedParts [] [] s List.not_mem_nil q hq
    exact ⟨hpart, slash :: more, hdrop, .inr ⟨more, rfl⟩⟩
  · obtain ⟨hq, hne⟩ := List.mem_filter.mp hq
    obtain rfl := List.mem_singleton.mp hq
    obtain ⟨hpart, hdrop⟩ := @drop_openPart [] [] s List.not_mem_nil
    exact ⟨⟨by simpa using hne, hpart⟩, [], by simpa using hdrop, .inl rfl⟩

theorem isPart_of_mem_allParts {s : Bytes} {q : ℕ × Key} (hq : q ∈ allParts s) : IsPart q.2 :=
  (drop_of_mem_allParts hq).1

/-- A part stands at its offset, and an offset that fits in 16 bits is kept. -/
theorem textAt_of_mem_allParts {s : Bytes} {q : ℕ × Key} (hq : q ∈ allParts s) :
    textAt s q.1 = q.2 ∧ q.1 < s.length := by
  obtain ⟨hpart, more, hdrop, hmore⟩ := drop_of_mem_allParts hq
  constructor
  · have hall : ∀ c ∈ q.2, decide (c ≠ slash) = true := by
      intro c hc
      rw [decide_eq_true_iff]
      rintro rfl
      exact hpart.2 hc
    rw [textAt, hdrop, List.takeWhile_append_of_pos hall]
    rcases hmore with rfl | ⟨rest, rfl⟩ <;> simp
  · have hlen := congrArg List.length hdrop
    have hpos := List.length_pos_of_ne_nil hpart.1
    rw [List.length_drop, List.length_append] at hlen
    omega

/-! ### Reading the buffer -/

theorem takeWhile_zeroEnds {done rest : Bytes} (hnul : 0 ∉ done)
    (hend : slash ∈ done ∨ rest = []) :
    (zeroEnds true done ++ rest).takeWhile (· ≠ 0) = (done ++ rest).takeWhile (· ≠ slash) := by
  induction done with
  | nil =>
      rcases hend with hmem | rfl
      · cases hmem
      · rfl
  | cons c done ih =>
      rw [List.mem_cons, not_or] at hnul
      rw [zeroEnds]
      by_cases hc : c = slash
      · simp [hc]
      · have hend' : slash ∈ done ∨ rest = [] := by simpa [Ne.symm hc] using hend
        simpa [hc, Ne.symm hnul.1] using ih hnul.2 hend'

/-- A part is read at an offset of the buffer if it stands there in the text. -/
theorem cString_zeroEnds {done rest : Bytes} {part : Key} (hpart : IsPart part) (hnul : 0 ∉ done)
    (inside : Bool) {offset : ℕ} (hend : slash ∈ done.drop offset ∨ rest = []) :
    cString (zeroEnds inside done ++ rest) offset = part ↔ textAt (done ++ rest) offset = part := by
  induction offset generalizing done inside with
  | zero =>
      cases done with
      | nil =>
          rcases hend with hmem | rfl
          · cases hmem
          · rfl
      | cons c done =>
          rw [List.mem_cons, not_or] at hnul
          rw [cString, textAt, List.drop_zero, List.drop_zero, zeroEnds]
          by_cases hc : c = slash
          · -- a slash, overwritten or not, is no part
            have hno : (c :: done ++ rest).takeWhile (· ≠ slash) ≠ part := by
              rintro rfl
              exact hpart.1 (by simp [hc])
            refine iff_of_false ?_ hno
            rintro rfl
            cases inside with
            | false => exact hpart.2 (by simp [hc, slash])
            | true => exact hpart.1 (by simp [hc])
          · have hend' : slash ∈ done ∨ rest = [] := by simpa [Ne.symm hc] using hend
            have h := takeWhile_zeroEnds hnul.2 hend'
            simp only [hc, false_and, if_false, ne_eq, not_false_eq_true, decide_true]
            rw [List.cons_append, List.cons_append,
              List.takeWhile_cons_of_pos (by simp [Ne.symm hnul.1]),
              List.takeWhile_cons_of_pos (by simp [hc]), h]
  | succ offset ih =>
      cases done with
      | nil =>
          rcases hend with hmem | rfl
          · cases hmem
          · rfl
      | cons c done =>
          rw [List.mem_cons, not_or] at hnul
          exact ih hnul.2 _ hend

theorem slash_mem_drop_mod {s : Bytes} {offset : ℕ} (h : slash ∈ s.drop offset) :
    slash ∈ s.drop (offset % uint16Size) := by
  have hle : offset % uint16Size ≤ offset := Nat.mod_le _ _
  have hdrop : (s.drop (offset % uint16Size)).drop (offset - offset % uint16Size) =
      s.drop offset := by
    rw [List.drop_drop]
    congr 1
    omega
  rw [← hdrop] at h
  exact List.mem_of_mem_drop h

/-- The strings that the stored offsets point at are the parts exactly when the
parts stand there. -/
theorem map_cString_iff {done rest : Bytes} (hnul : 0 ∉ done) {qs : List (ℕ × Key)}
    (hparts : ∀ q ∈ qs, IsPart q.2) (hend : ∀ q ∈ qs, slash ∈ done.drop q.1 ∨ rest = []) :
    (stored qs).map (cString (zeroEnds false done ++ rest)) = qs.map Prod.snd ↔
      OffsetsFit (done ++ rest) qs := by
  rw [stored, List.map_map, List.map_inj_left]
  refine forall₂_congr fun q hq => ?_
  exact cString_zeroEnds (hparts q hq) hnul false ((hend q hq).imp_left slash_mem_drop_mod)

theorem parts_path (σ : Scan) : parts σ.path = σ.offsets.map (cString σ.pathCpy) := by
  rw [Scan.path]
  split
  next hnil =>
    rw [hnil]
    rfl
  next =>
    rw [parts, wcDatasyncPathGetPartCount]
    apply List.ext_getElem
    · simp
    · intro i h h'
      have hi : i < σ.offsets.length := by simpa using h'
      simp [wcDatasyncPathGetPart, hi]

theorem normalForm_eq {p : Path} (hp : p ≠ []) :
    normalForm p = p.flatMap fun part => slash :: part := by
  induction p with
  | nil => exact absurd rfl hp
  | cons part p ih =>
      cases p with
      | nil => simp [normalForm]
      | cons part₂ p =>
          rw [List.flatMap_cons, ← ih (List.cons_ne_nil _ _), normalForm, normalForm,
            List.intercalate_cons_cons]
          simp

theorem toStr_path (σ : Scan) : wcDatasyncPathToStr σ.path = normalForm (parts σ.path) := by
  rw [parts_path]
  by_cases hnil : σ.offsets = []
  · rw [Scan.path, if_pos hnil, hnil]
    rfl
  · rw [normalForm_eq (by simpa using hnil), Scan.path, if_neg hnil, List.flatMap_map]
    rfl

/-! ### The end of the loop -/

variable {s : Bytes}

theorem exists_fullPath {k n : ℕ} {part : Key} (h : k < (endedParts n part s).length) :
    ∃ text rest, s = text ++ slash :: rest ∧ (endedParts n part text).length = k ∧
      (openPart n part text).2 ≠ [] := by
  induction s generalizing k n part with
  | nil => exact absurd h (Nat.not_lt_zero k)
  | cons c s ih =>
      rw [endedParts] at h
      by_cases hc : c = slash
      · subst hc
        rw [if_pos rfl] at h
        by_cases hpart : part = []
        · rw [if_pos hpart] at h
          obtain ⟨text, rest, hs, hlen, hopen⟩ := ih h
          refine ⟨slash :: text, rest, by rw [hs, List.cons_append], ?_, ?_⟩
          · rw [endedParts, if_pos rfl, if_pos hpart, hlen]
          · rw [openPart, if_pos rfl, hpart]
            exact hopen
        · rw [if_neg hpart, List.length_cons] at h
          cases k with
          | zero => exact ⟨[], s, rfl, rfl, hpart⟩
          | succ k =>
              obtain ⟨text, rest, hs, hlen, hopen⟩ := ih (Nat.lt_of_succ_lt_succ h)
              refine ⟨slash :: text, rest, by rw [hs, List.cons_append], ?_, ?_⟩
              · rw [endedParts, if_pos rfl, if_neg hpart, List.length_cons, hlen]
              · rw [openPart, if_pos rfl]
                exact hopen
      · rw [if_neg hc] at h
        obtain ⟨text, rest, hs, hlen, hopen⟩ := ih h
        refine ⟨c :: text, rest, by rw [hs, List.cons_append], ?_, ?_⟩
        · rw [endedParts, if_neg hc, hlen]
        · rw [openPart, if_neg hc]
          exact hopen

/-- More passes than the loop of the parser makes, if it ends. -/
def passes (s : Bytes) : ℕ := 2 * s.length + 2

/-- What the parser has when its loop is over. -/
structure Parsed (s : Bytes) (σ : Scan) (qs : List (ℕ × Key)) : Prop where
  loopEnd : ∃ fuel ≤ passes s, runLoop Scan.step fuel (Scan.start s) = some σ
  offsets : σ.offsets = stored qs
  pathCpy : ∃ done rest, s = done ++ rest ∧ σ.pathCpy = zeroEnds false done ++ rest ∧
    ∀ q ∈ qs, slash ∈ done.drop q.1 ∨ rest = []

/-- A text that does not fill up the path is read to its end. -/
theorem parsed_short (hnul : 0 ∉ s) (hlen : s.length < unsignedSize)
    (hroom : (endedParts 0 [] s).length < wcDsMaxDepth) :
    ∃ σ, Parsed s σ ((allParts s).take wcDsMaxDepth) := by
  have hstart : At (Scan.start s) [] 0 [] (s ++ []) [] := by
    rw [List.append_nil]
    exact at_start s
  obtain ⟨σ, hadv, hat⟩ := hstart.text hnul (by rw [List.length_nil]; omega)
    (by rw [List.length_nil]; omega)
  have hlength : (endedParts 0 [] s).length = ([] ++ stored (endedParts 0 [] s)).length := by
    rw [List.nil_append, stored, List.length_map]
  obtain ⟨σ', hend, hover, hcpy, hoffsets⟩ :=
    hat.textEnd rfl (by simp [length_zeroEnds, hlen]) (by omega)
  have hall : (allParts s).take wcDsMaxDepth = allParts s := by
    apply List.take_of_length_le
    rw [allParts, partsFrom, List.length_append]
    have hone : ([openPart 0 [] s].filter (·.2 ≠ [])).length ≤ 1 := List.length_filter_le _ _
    omega
  refine ⟨σ', ⟨1 + (1 + s.length), ?_, ?_⟩, ?_, s, [], (List.append_nil s).symm, hcpy,
    fun _ _ => .inr rfl⟩
  · rw [passes]
    omega
  · exact (hadv.trans hend 1).trans (runLoop_done hover 0)
  · rw [hoffsets, hall, allParts, partsFrom]
    by_cases hopen : (openPart 0 [] s).2 = [] <;> simp [hopen, stored]

/-- A text that fills up the path is read up to the last slash. -/
theorem parsed_full (hnul : 0 ∉ s)
    (hfull : wcDsMaxDepth ≤ (endedParts 0 [] (s.take unsignedSize)).length) :
    ∃ σ, Parsed s σ ((allParts s).take wcDsMaxDepth) := by
  have hk : 31 < (endedParts 0 [] (s.take unsignedSize)).length := hfull
  obtain ⟨text, rest', htake, hlen, hopen⟩ := exists_fullPath hk
  obtain ⟨rest, rfl⟩ : ∃ rest, s = text ++ slash :: rest := by
    refine ⟨rest' ++ s.drop unsignedSize, ?_⟩
    rw [← List.cons_append, ← List.append_assoc, ← htake, List.take_append_drop]
  have hle : text.length < unsignedSize := by
    have hlength := congrArg List.length htake
    simp only [List.length_take, List.length_append, List.length_cons] at hlength
    omega
  have hnul' : 0 ∉ text := fun hmem => hnul (List.mem_append_left _ hmem)
  obtain ⟨σ, hadv, hat⟩ := (at_start _).text hnul' (by rw [List.length_nil]; omega)
    (by rw [List.length_nil, hlen, wcDsMaxDepth]; omega)
  have hoffsets : (stored (endedParts 0 [] text)).length = 31 := by
    rw [stored, List.length_map, hlen]
  obtain ⟨σ', hstep, hat'⟩ := hat.partEnd hopen (by simp [length_zeroEnds, hle])
    (by rw [List.nil_append, hoffsets, wcDsMaxDepth]; omega)
  -- the parts are those that the text has up to that slash
  have hended : endedParts 0 [] (text ++ [slash]) =
      endedParts 0 [] text ++ [openPart 0 [] text] := by
    rw [endedParts_append, endedParts, if_pos rfl, if_neg hopen, endedParts]
  have hqs : (allParts (text ++ slash :: rest)).take wcDsMaxDepth =
      endedParts 0 [] (text ++ [slash]) := by
    have hcount : (endedParts 0 [] (text ++ [slash])).length = wcDsMaxDepth := by
      rw [hended, List.length_append, hlen]
      rfl
    have hcut : text ++ slash :: rest = text ++ [slash] ++ rest := by simp
    rw [hcut, allParts_append, List.take_left' hcount]
  refine ⟨σ', ⟨1 + (1 + text.length), ?_, ?_⟩, ?_, text ++ [slash], rest, by simp, ?_, ?_⟩
  · rw [passes, List.length_append]
    omega
  · refine (hadv.trans (.one hstep) 1).trans (runLoop_done ?_ 0)
    rw [step, hat'.offsets, if_pos]
    rw [List.length_append, List.nil_append, hoffsets]
    exact le_rfl
  · rw [hat'.offsets, hqs, hended]
    simp [stored]
  · have hzero := zeroEnds_append 0 [] text [slash]
    rw [hat'.pathCpy]
    simp only [ne_eq, not_true_eq_false, decide_false] at hzero ⊢
    rw [hzero]
    simp [hopen, zeroEnds]
  · intro q hq
    rw [hqs] at hq
    exact .inl (slash_mem_of_endedParts hq)

/-! ### The parts that are read -/

namespace Parsed

variable {σ : Scan} {qs : List (ℕ × Key)}

theorem parse_eq (h : Parsed s σ qs) : wcDatasyncPathParse (passes s) s = some σ.path := by
  obtain ⟨fuel, hle, hover⟩ := h.loopEnd
  have hmore := runLoop_mono hover (passes s - fuel)
  rw [Nat.add_sub_cancel' hle] at hmore
  rw [wcDatasyncPathParse, hmore, Option.map_some]

theorem exists_parts_iff (h : Parsed s σ qs) (p : Path) :
    (∃ fuel path, wcDatasyncPathParse fuel s = some path ∧ parts path = p) ↔
      (stored qs).map (cString σ.pathCpy) = p := by
  obtain ⟨fuel', -, hover⟩ := h.loopEnd
  constructor
  · rintro ⟨fuel, path, hpath, rfl⟩
    obtain ⟨σ', hσ', rfl⟩ := Option.map_eq_some_iff.mp hpath
    rw [runLoop_unique hσ' hover, parts_path, h.offsets]
  · rintro rfl
    refine ⟨passes s, σ.path, h.parse_eq, ?_⟩
    rw [parts_path, h.offsets]

theorem fit_iff (h : Parsed s σ qs) (hnul : 0 ∉ s) {qs' : List (ℕ × Key)} (hsub : qs' ⊆ qs)
    (hparts : ∀ q ∈ qs', IsPart q.2) :
    (stored qs').map (cString σ.pathCpy) = qs'.map Prod.snd ↔ OffsetsFit s qs' := by
  obtain ⟨done, rest, rfl, hcpy, hend⟩ := h.pathCpy
  rw [hcpy]
  refine map_cString_iff (fun hmem => hnul (List.mem_append_left _ hmem)) hparts ?_
  exact fun q hq => hend q (hsub hq)

end Parsed

theorem exists_parsed (hnul : 0 ∉ s) (hreach : InReach s) :
    ∃ σ, Parsed s σ ((allParts s).take wcDsMaxDepth) := by
  rcases hreach with hlen | hfull
  · by_cases hroom : (endedParts 0 [] s).length < wcDsMaxDepth
    · exact parsed_short hnul hlen hroom
    · apply parsed_full hnul
      rw [List.take_of_length_le hlen.le]
      exact Nat.le_of_not_lt hroom
  · exact parsed_full hnul hfull

theorem inReach_iff (hnul : 0 ∉ s) (hreach : InReach s) :
    (∃ fuel path, wcDatasyncPathParse fuel s = some path ∧ parts path = firstParts s) ↔
      OffsetsFit s ((allParts s).take wcDsMaxDepth) := by
  obtain ⟨σ, h⟩ := exists_parsed hnul hreach
  rw [h.exists_parts_iff, firstParts_eq]
  exact h.fit_iff hnul (List.Subset.refl _)
    fun q hq => isPart_of_mem_allParts (List.mem_of_mem_take hq)

/-! ### The normal form -/

theorem isPart_of_mem_firstParts {part : Key} (h : part ∈ firstParts s) : IsPart part := by
  rw [firstParts_eq] at h
  obtain ⟨q, hq, rfl⟩ := List.mem_map.mp h
  exact isPart_of_mem_allParts (List.mem_of_mem_take hq)

/-- The normal form has the same parts. -/
theorem firstParts_normalForm (s : Bytes) :
    firstParts (normalForm (firstParts s)) = firstParts s := by
  have hsplit : (normalForm (firstParts s)).splitOn slash =
      [] :: ([slash].intercalate (firstParts s)).splitOn slash :=
    List.splitOn_append_cons_self_of_not_mem List.not_mem_nil _
  have hfilter : ((normalForm (firstParts s)).splitOn slash).filter (· ≠ []) = firstParts s := by
    rw [hsplit, List.filter_cons_of_neg (by simp)]
    by_cases hnil : firstParts s = []
    · rw [hnil]
      rfl
    · rw [List.splitOn_intercalate slash (fun part h => (isPart_of_mem_firstParts h).2) hnil]
      exact List.filter_eq_self.mpr fun part h => by simpa using (isPart_of_mem_firstParts h).1
  have hlen : (firstParts s).length ≤ wcDsMaxDepth := by
    rw [firstParts]
    exact List.length_take_le _ _
  rw [firstParts, hfilter, List.take_of_length_le hlen]

theorem nul_notMem_normalForm (hnul : 0 ∉ s) : 0 ∉ normalForm (firstParts s) := by
  have hparts : ∀ part ∈ firstParts s, 0 ∉ part := by
    intro part h hmem
    rw [firstParts_eq] at h
    obtain ⟨q, hq, rfl⟩ := List.mem_map.mp h
    obtain ⟨-, more, hdrop, -⟩ := drop_of_mem_allParts (List.mem_of_mem_take hq)
    have hs : 0 ∈ s.drop q.1 := by
      rw [hdrop]
      exact List.mem_append_left _ hmem
    exact hnul (List.mem_of_mem_drop hs)
  have hslash : (0 : UInt8) ≠ slash := by decide
  by_cases hnil : firstParts s = []
  · rw [hnil]
    decide
  · rw [normalForm_eq hnil, List.mem_flatMap]
    rintro ⟨part, h, hmem⟩
    rcases List.mem_cons.mp hmem with h0 | h0
    · exact hslash h0
    · exact hparts part h h0

/-! ### Short texts -/

theorem components_eq (n : ℕ) (part : Key) (s : Bytes) :
    components part s = (partsFrom n part s).map Prod.snd := by
  rw [partsFrom]
  induction s generalizing n part with
  | nil => cases part <;> rfl
  | cons c s ih =>
      rw [endedParts, openPart]
      cases part with
      | nil =>
          rw [components]
          split
          · exact ih (n + 1) []
          · exact ih n [c]
      | cons b part =>
          rw [components]
          split
          · rw [if_neg (List.cons_ne_nil b part), ih (n + (b :: part).length + 1) []]
            rfl
          · exact ih n (b :: part ++ [c])

/-- A text of at most 64 KiB is parsed into the list of its parts. -/
theorem parse_short (hnul : 0 ∉ s) (hlen : s.length ≤ uint16Size) :
    ∃ fuel path, wcDatasyncPathParse fuel s = some path ∧
      parts path = Datasync.wcDatasyncPathParse s := by
  have hfirst : firstParts s = Datasync.wcDatasyncPathParse s := by
    rw [firstParts_eq, Datasync.wcDatasyncPathParse, pathScan_eq_take, components_eq 0,
      List.map_take]
    rfl
  have hshort : s.length < unsignedSize := hlen.trans_lt (by decide)
  rw [← hfirst, inReach_iff hnul (.inl hshort)]
  intro q hq
  obtain ⟨htext, hlt⟩ := textAt_of_mem_allParts (List.mem_of_mem_take hq)
  rw [Nat.mod_eq_of_lt (by omega), htext]

/-- `wc_datasync_path_new`: the parts that the parser leaves of a text. -/
def wcDatasyncPathNew (path : Bytes) : Path :=
  match wcDatasyncPathParse (passes path) path with
  | some parsed => parts parsed
  | none => []

/-- **The two views of the parser.** A text of at most 64 KiB is parsed into its
parts, whatever the parser does with its copy and with the offsets. -/
theorem wcDatasyncPathNew_short (hnul : 0 ∉ s) (hlen : s.length ≤ uint16Size) :
    wcDatasyncPathNew s = Datasync.wcDatasyncPathParse s := by
  have hreach : InReach s := .inl (hlen.trans_lt (by decide))
  obtain ⟨σ, h⟩ := exists_parsed hnul hreach
  have hparts := (h.exists_parts_iff _).mp (parse_short hnul hlen)
  rw [wcDatasyncPathNew, h.parse_eq, ← hparts]
  show parts σ.path = _
  rw [parts_path, h.offsets]

end WebcomSdk.Datasync.PathBuffer
