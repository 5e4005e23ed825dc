import WebcomSdk.Datasync.Path
import WebcomSdk.Lib.Loop

/-!
`wc_datasync_path_parse` as it works on its copy of the text: a counter and a
`part_begin` of type `unsigned`, the slash after each part overwritten with NUL,
and the begin of each part kept in 16 bits. The text is read again from these.
-/

namespace WebcomSdk.Datasync.PathBuffer

open WebcomSdk.Lib

/-- The number of values of an `unsigned`. -/
def unsignedSize : ℕ := 2 ^ 32

/-- The number of values of a `uint16_t`. -/
def uint16Size : ℕ := 2 ^ 16

/-- The states of the parser; `fin` is `end`. -/
inductive State
  | init
  | insidePart
  | fin
  deriving DecidableEq

/-- The local variables of `wc_datasync_path_parse`. The copy is kept without the
NUL that ends it. -/
structure Scan where
  pathCpy : Bytes
  i : ℕ
  partBegin : ℕ
  state : State
  offsets : List ℕ

namespace Scan

variable (σ : Scan)

/-- `path_cpy[i]`. -/
def char : UInt8 := σ.pathCpy.getD σ.i 0

/-- `i++`. -/
def incr : Scan := { σ with i := (σ.i + 1) % unsignedSize }

/-- `offsets[nparts++] = part_begin`. -/
def addPart : Scan := { σ with offsets := σ.offsets ++ [σ.partBegin % uint16Size] }

/-- One pass of the loop. -/
def step : Option Scan :=
  if wcDsMaxDepth ≤ σ.offsets.length then none else
    match σ.state with
    | .fin => none
    | .init =>
        if σ.char = slash then some σ.incr
        else if σ.char = 0 then some { σ with state := .fin }
        else some { σ with state := .insidePart, partBegin := σ.i }.incr
    | .insidePart =>
        if σ.char = slash then
          if σ.partBegin < σ.i then
            some { σ.addPart with pathCpy := σ.pathCpy.set σ.i 0, state := .init }.incr
          else some { σ with state := .init }.incr
        else if σ.char = 0 then
          if σ.partBegin < σ.i then some { σ.addPart with state := .fin }
          else some { σ with state := .fin }
        else some σ.incr

/-- The variables before the loop, `part_begin` with any value. -/
def start (path : Bytes) : Scan := ⟨path, 0, 0, .init, []⟩

end Scan

/-- The text that begins at an offset of a buffer. -/
def cString (buf : Bytes) (offset : ℕ) : Bytes := (buf.drop offset).takeWhile (· ≠ 0)

/-- A `struct wc_ds_path`; `nparts` is the length of `offsets`. -/
structure WcDsPath where
  buf : Bytes
  norm : Bytes
  offsets : List ℕ

/-- What stands after the label `end`. Without parts there is no buffer. -/
def Scan.path (σ : Scan) : WcDsPath :=
  if σ.offsets = [] then ⟨[], [slash], []⟩
  else ⟨σ.pathCpy, σ.offsets.flatMap fun offset => slash :: cString σ.pathCpy offset, σ.offsets⟩

/-- `none` says that the loop makes more than `fuel` passes. -/
def wcDatasyncPathParse (fuel : ℕ) (path : Bytes) : Option WcDsPath :=
  (runLoop Scan.step fuel (Scan.start path)).map Scan.path

def wcDatasyncPathGetPartCount (path : WcDsPath) : ℕ := path.offsets.length

def wcDatasyncPathGetPart (path : WcDsPath) (part : ℕ) : Key :=
  cString path.buf (path.offsets.getD part 0)

def wcDatasyncPathToStr (path : WcDsPath) : Bytes := path.norm

def parts (path : WcDsPath) : Path :=
  (List.range (wcDatasyncPathGetPartCount path)).map (wcDatasyncPathGetPart path)

/-! ### What the parser is for -/

/-- The non-empty components of a text, as many as a path has at most. -/
def firstParts (s : Bytes) : Path := ((s.splitOn slash).filter (· ≠ [])).take wcDsMaxDepth

/-- `/` and the parts with `/` between them. -/
def normalForm (path : Path) : Bytes := slash :: [slash].intercalate path

/-- The text is parsed into its parts and their normal form, and so is the normal
form. -/
def ParsedRight (s : Bytes) : Prop :=
  ∃ fuel path, wcDatasyncPathParse fuel s = some path ∧ parts path = firstParts s ∧
    wcDatasyncPathToStr path = normalForm (firstParts s) ∧
    ∃ fuel' path', wcDatasyncPathParse fuel' (wcDatasyncPathToStr path) = some path' ∧
      parts path' = parts path

/-! ### A text, part by part -/

/-- The parts that a slash ends, each with the offset at which it begins. `part`
is being read, from `n` on. -/
def endedParts : ℕ → Key → Bytes → List (ℕ × Key)
  | _, _, [] => []
  | n, part, c :: s =>
      if c = slash then
        if part = [] then endedParts (n + 1) [] s
        else (n, part) :: endedParts (n + part.length + 1) [] s
      else endedParts n (part ++ [c]) s

/-- The part that is being read at the end, with the offset at which it begins. -/
def openPart : ℕ → Key → Bytes → ℕ × Key
  | n, part, [] => (n, part)
  | n, part, c :: s =>
      if c = slash then openPart (n + part.length + 1) [] s else openPart n (part ++ [c]) s

/-- What the parser leaves of a text that it has read: the slash after a part is
overwritten. -/
def zeroEnds : Bool → Bytes → Bytes
  | _, [] => []
  | inside, c :: s => (if c = slash ∧ inside then 0 else c) :: zeroEnds (c ≠ slash) s

theorem length_zeroEnds (inside : Bool) (s : Bytes) : (zeroEnds inside s).length = s.length := by
  induction s generalizing inside with
  | nil => rfl
  | cons c s ih => rw [zeroEnds, List.length_cons, List.length_cons, ih]

namespace Scan

/-- The parser has read a text, of which `done` is left in the buffer, and has
`part` of the next part, which begins at `n`. -/
structure At (σ : Scan) (done : Bytes) (n : ℕ) (part : Key) (rest : Bytes)
    (offsets : List ℕ) : Prop where
  pathCpy : σ.pathCpy = done ++ rest
  i : σ.i = done.length % unsignedSize
  length : n + part.length = done.length
  init : part = [] → σ.state = .init
  inside : part ≠ [] → σ.state = .insidePart ∧ σ.partBegin = n
  offsets : σ.offsets = offsets

variable {σ : Scan} {done rest : Bytes} {n : ℕ} {part : Key} {offsets : List ℕ} {c : UInt8}

theorem at_start (s : Bytes) : At (start s) [] 0 [] s [] where
  pathCpy := rfl
  i := rfl
  length := rfl
  init := fun _ => rfl
  inside := fun h => absurd rfl h
  offsets := rfl

theorem At.char (h : At σ done n part (c :: rest) offsets) (hlt : done.length < unsignedSize) :
    σ.i = done.length ∧ σ.char = c := by
  have hi : σ.i = done.length := by rw [h.i, Nat.mod_eq_of_lt hlt]
  refine ⟨hi, ?_⟩
  rw [Scan.char, h.pathCpy, hi]
  simp

/-- A slash outside of the parts is skipped. -/
theorem At.slash (h : At σ done n [] (slash :: rest) offsets) (hlt : done.length < unsignedSize)
    (hroom : offsets.length < wcDsMaxDepth) :
    ∃ σ', σ.step = some σ' ∧ At σ' (done ++ [Datasync.slash]) (n + 1) [] rest offsets := by
  obtain ⟨hi, hchar⟩ := h.char hlt
  refine ⟨σ.incr, ?_, ?_⟩
  · rw [step, h.offsets, if_neg (by omega), h.init rfl]
    simp [hchar]
  · have hlen := h.length
    refine ⟨?_, ?_, ?_, fun _ => h.init rfl, fun hne => absurd rfl hne, h.offsets⟩
    · rw [incr, h.pathCpy]
      simp
    · rw [incr, hi, List.length_append, List.length_singleton]
    · rw [List.length_append, ← hlen]
      simp

/-- A slash ends the part, and it is overwritten. -/
theorem At.partEnd (h : At σ done n part (Datasync.slash :: rest) offsets) (hpart : part ≠ [])
    (hlt : done.length < unsignedSize) (hroom : offsets.length < wcDsMaxDepth) :
    ∃ σ', σ.step = some σ' ∧
      At σ' (done ++ [0]) (n + part.length + 1) [] rest (offsets ++ [n % uint16Size]) := by
  obtain ⟨hi, hchar⟩ := h.char hlt
  obtain ⟨hstate, hbegin⟩ := h.inside hpart
  have hlen := h.length
  have hpos := List.length_pos_of_ne_nil hpart
  have hlater : σ.partBegin < σ.i := by omega
  refine ⟨{ σ.addPart with pathCpy := σ.pathCpy.set σ.i 0, state := .init }.incr, ?_, ?_⟩
  · rw [step, h.offsets, if_neg (by omega), hstate]
    simp [hchar, hlater]
  · refine ⟨?_, ?_, ?_, fun _ => rfl, fun hne => absurd rfl hne, ?_⟩
    · show σ.pathCpy.set σ.i 0 = _
      rw [h.pathCpy, hi, List.set_append_right _ _ le_rfl]
      simp
    · show (σ.i + 1) % unsignedSize = _
      rw [hi, List.length_append, List.length_singleton]
    · rw [List.length_append, List.length_singleton, List.length_nil]
      omega
    · show σ.offsets ++ [σ.partBegin % uint16Size] = _
      rw [h.offsets, hbegin]

/-- Any other character belongs to a part. -/
theorem At.plain (h : At σ done n part (c :: rest) offsets) (hc : c ≠ Datasync.slash) (hnul : c ≠ 0)
    (hlt : done.length < unsignedSize) (hroom : offsets.length < wcDsMaxDepth) :
    ∃ σ', σ.step = some σ' ∧ At σ' (done ++ [c]) n (part ++ [c]) rest offsets := by
  obtain ⟨hi, hchar⟩ := h.char hlt
  have hlen := h.length
  have hlength : n + (part ++ [c]).length = (done ++ [c]).length := by
    rw [List.length_append, List.length_append, List.length_singleton]
    omega
  have hcpy : σ.pathCpy = done ++ [c] ++ rest := by
    rw [h.pathCpy]
    simp
  have hnext : (σ.i + 1) % unsignedSize = (done ++ [c]).length % unsignedSize := by
    rw [hi, List.length_append, List.length_singleton]
  by_cases hpart : part = []
  · subst hpart
    refine ⟨{ σ with state := .insidePart, partBegin := σ.i }.incr, ?_, ?_⟩
    · rw [step, h.offsets, if_neg (by omega), h.init rfl]
      simp [hchar, hc, hnul]
    · refine ⟨hcpy, hnext, hlength, fun hne => absurd hne (by simp), fun _ => ⟨rfl, ?_⟩, h.offsets⟩
      show σ.i = n
      rw [List.length_nil] at hlen
      omega
  · refine ⟨σ.incr, ?_, ?_⟩
    · rw [step, h.offsets, if_neg (by omega), (h.inside hpart).1]
      simp [hchar, hc, hnul]
    · exact ⟨hcpy, hnext, hlength, fun hne => absurd hne (by simp), fun _ => h.inside hpart,
        h.offsets⟩

/-- What the parser stores for a part. -/
def stored (parts : List (ℕ × Key)) : List ℕ := parts.map fun q => q.1 % uint16Size

/-- **The run.** The parser reads a text that does not fill up the path and on which
its counter does not wrap, but for the end. -/
theorem At.text {text : Bytes} (hnul : 0 ∉ text)
    (h : At σ done n part (text ++ rest) offsets)
    (hle : done.length + text.length ≤ unsignedSize)
    (hroom : offsets.length + (endedParts n part text).length < wcDsMaxDepth) :
    ∃ σ', Advances step text.length σ σ' ∧
      At σ' (done ++ zeroEnds (part ≠ []) text) (openPart n part text).1 (openPart n part text).2
        rest (offsets ++ stored (endedParts n part text)) := by
  induction text generalizing σ done n part offsets with
  | nil =>
      refine ⟨σ, .refl σ, ?_⟩
      rw [zeroEnds, List.append_nil, endedParts, stored, List.map_nil, List.append_nil]
      exact h
  | cons c text ih =>
      rw [List.mem_cons, not_or] at hnul
      rw [List.length_cons] at hle
      by_cases hc : c = Datasync.slash
      · subst hc
        by_cases hpart : part = []
        · subst hpart
          rw [endedParts, if_pos rfl, if_pos rfl] at hroom ⊢
          obtain ⟨σ₁, hstep, hat⟩ := h.slash (by omega) (by omega)
          obtain ⟨σ', hadv, hat'⟩ := ih hnul.2 hat (by simp; omega) hroom
          refine ⟨σ', (Advances.one hstep).trans hadv, ?_⟩
          rw [openPart, if_pos rfl, zeroEnds]
          simpa using hat'
        · rw [endedParts, if_pos rfl, if_neg hpart, List.length_cons] at hroom
          obtain ⟨σ₁, hstep, hat⟩ := h.partEnd hpart (by omega) (by omega)
          obtain ⟨σ', hadv, hat'⟩ := ih hnul.2 hat (by simp; omega) (by simp; omega)
          refine ⟨σ', (Advances.one hstep).trans hadv, ?_⟩
          rw [openPart, if_pos rfl, zeroEnds, endedParts, if_pos rfl, if_neg hpart, stored]
          simpa [hpart, stored] using hat'
      · rw [endedParts, if_neg hc] at hroom ⊢
        obtain ⟨σ₁, hstep, hat⟩ := h.plain hc (Ne.symm hnul.1) (by omega) (by omega)
        obtain ⟨σ', hadv, hat'⟩ := ih hnul.2 hat (by simp; omega) hroom
        refine ⟨σ', (Advances.one hstep).trans hadv, ?_⟩
        rw [openPart, if_neg hc, zeroEnds]
        simpa [hc] using hat'

/-- The end of the text ends the part. -/
theorem At.textEnd (h : At σ done n part rest offsets) (hrest : rest.headD 0 = 0)
    (hlt : done.length < unsignedSize) (hroom : offsets.length < wcDsMaxDepth) :
    ∃ σ', Advances step 1 σ σ' ∧ σ'.step = none ∧ σ'.pathCpy = done ++ rest ∧
      σ'.offsets = offsets ++ if part = [] then [] else [n % uint16Size] := by
  have hi : σ.i = done.length := by rw [h.i, Nat.mod_eq_of_lt hlt]
  have hchar : σ.char = 0 := by
    rw [Scan.char, h.pathCpy, hi]
    cases rest with
    | nil => simp
    | cons c rest => simpa using hrest
  by_cases hpart : part = []
  · refine ⟨{ σ with state := .fin }, .one ?_, by simp [step], h.pathCpy, ?_⟩
    · rw [step, h.offsets, if_neg (by omega), h.init hpart]
      simp [hchar, Datasync.slash]
    · rw [if_pos hpart, List.append_nil]
      exact h.offsets
  · obtain ⟨hstate, hbegin⟩ := h.inside hpart
    have hlen := h.length
    have hpos := List.length_pos_of_ne_nil hpart
    have hlater : σ.partBegin < σ.i := by omega
    refine ⟨{ σ.addPart with state := .fin }, .one ?_, by simp [step], h.pathCpy, ?_⟩
    · rw [step, h.offsets, if_neg (by omega), hstate]
      simp [hchar, hlater, Datasync.slash]
    · rw [if_neg hpart, ← h.offsets, ← hbegin]
      rfl

/-- A NUL that is not after the begin of the part ends the parser all the same. -/
theorem step_nul (hstate : σ.state = .insidePart) (hchar : σ.char = 0)
    (hbegin : ¬ σ.partBegin < σ.i) (hroom : σ.offsets.length < wcDsMaxDepth) :
    ∃ σ', σ.step = some σ' ∧ σ'.step = none ∧ σ'.pathCpy = σ.pathCpy ∧ σ'.offsets = σ.offsets := by
  refine ⟨{ σ with state := .fin }, ?_, by simp [step], rfl, rfl⟩
  rw [step, if_neg (by omega), hstate]
  simp [hchar, hbegin, Datasync.slash]

end Scan

/-! ### Where the parts are -/

theorem endedParts_append (n : ℕ) (part : Key) (s t : Bytes) :
    endedParts n part (s ++ t) = endedParts n part s ++
      endedParts (openPart n part s).1 (openPart n part s).2 t := by
  induction s generalizing n part with
  | nil => rfl
  | cons c s ih =>
      rw [List.cons_append, endedParts, endedParts, openPart]
      by_cases hc : c = slash
      · rw [if_pos hc, if_pos hc, if_pos hc]
        by_cases hpart : part = []
        · rw [if_pos hpart, if_pos hpart, ih, hpart]
          rfl
        · rw [if_neg hpart, if_neg hpart, ih, List.cons_append]
      · rw [if_neg hc, if_neg hc, if_neg hc, ih]

theorem openPart_append (n : ℕ) (part : Key) (s t : Bytes) :
    openPart n part (s ++ t) = openPart (openPart n part s).1 (openPart n part s).2 t := by
  induction s generalizing n part with
  | nil => rfl
  | cons c s ih =>
      rw [List.cons_append, openPart, openPart]
      split <;> exact ih _ _

theorem zeroEnds_append (n : ℕ) (part : Key) (s t : Bytes) :
    zeroEnds (part ≠ []) (s ++ t) =
      zeroEnds (part ≠ []) s ++ zeroEnds ((openPart n part s).2 ≠ []) t := by
  induction s generalizing n part with
  | nil => rfl
  | cons c s ih =>
      rw [List.cons_append, zeroEnds, zeroEnds, openPart, List.cons_append]
      congr 1
      by_cases hc : c = slash
      · have h := ih (n + part.length + 1) []
        simpa [hc] using h
      · have h := ih n (part ++ [c])
        simpa [hc] using h

theorem le_openPart (n : ℕ) (part : Key) (s : Bytes) : n ≤ (openPart n part s).1 := by
  induction s generalizing n part with
  | nil => exact le_rfl
  | cons c s ih =>
      rw [openPart]
      split
      · have hle := ih (n + part.length + 1) []
        omega
      · exact ih n _

/-- A part that a slash ends stands at its offset, with the slash behind it. -/
theorem drop_of_mem_endedParts {pre part text : Bytes} (hpart : slash ∉ part) {q : ℕ × Key}
    (hq : q ∈ endedParts pre.length part text) :
    IsPart q.2 ∧ ∃ more, (pre ++ part ++ text).drop q.1 = q.2 ++ slash :: more := by
  induction text generalizing pre part with
  | nil => cases hq
  | cons c text ih =>
      rw [endedParts] at hq
      by_cases hc : c = slash
      · subst hc
        rw [if_pos rfl] at hq
        have hrest : q ∈ endedParts (pre ++ part ++ [slash]).length [] text →
            IsPart q.2 ∧
              ∃ more, (pre ++ part ++ slash :: text).drop q.1 = q.2 ++ slash :: more := by
          intro hq
          have h := ih List.not_mem_nil hq
          simpa using h
        by_cases hnil : part = []
        · rw [if_pos hnil] at hq
          apply hrest
          simpa [hnil] using hq
        · rw [if_neg hnil] at hq
          rcases List.mem_cons.mp hq with rfl | hq
          · refine ⟨⟨hnil, hpart⟩, text, ?_⟩
            rw [List.append_assoc, List.drop_left]
          · apply hrest
            simpa [Nat.add_assoc] using hq
      · rw [if_neg hc] at hq
        have h := @ih pre (part ++ [c]) (by simp [hpart, Ne.symm hc]) hq
        simpa using h

theorem slash_mem_of_endedParts {text : Bytes} {q : ℕ × Key} (hq : q ∈ endedParts 0 [] text) :
    slash ∈ text.drop q.1 := by
  obtain ⟨-, more, hmore⟩ := @drop_of_mem_endedParts [] [] text List.not_mem_nil q hq
  rw [List.append_nil, List.nil_append] at hmore
  rw [hmore]
  simp

/-- The part that is being read stands at its offset. -/
theorem drop_openPart {pre part text : Bytes} (hpart : slash ∉ part) :
    slash ∉ (openPart pre.length part text).2 ∧
      (pre ++ part ++ text).drop (openPart pre.length part text).1 =
        (openPart pre.length part text).2 := by
  induction text generalizing pre part with
  | nil =>
      rw [openPart]
      exact ⟨hpart, by simp⟩
  | cons c text ih =>
      rw [openPart]
      by_cases hc : c = slash
      · rw [if_pos hc]
        have h := @ih (pre ++ part ++ [c]) [] List.not_mem_nil
        simpa [Nat.add_assoc] using h
      · rw [if_neg hc]
        have h := @ih pre (part ++ [c]) (by simp [hpart, Ne.symm hc])
        simpa using h

end WebcomSdk.Datasync.PathBuffer
