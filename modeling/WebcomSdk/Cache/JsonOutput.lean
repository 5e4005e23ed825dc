import WebcomSdk.Cache.EscapedStrings
import WebcomSdk.Cache.CacheView

/-!
What `treenode_to_json` writes, read as JSON. A comma is written after a child
when the iterator has a next one, but a null child is then skipped: the text is
malformed where null children come last after one that is not null.
-/

namespace WebcomSdk.Cache

open WebcomSdk.Lib WebcomSdk.Collection WebcomSdk.Datasync Std

/-! ### The value of a tree -/

section Value

variable {N : Type} (num : DoubleBits → N)

mutual

/-- A tree as a JSON value, its null children removed. -/
def treeValue : Treenode → JsonValue N
  | .leafNull => .null
  | .leafBool b => .bool b
  | .leafNumber d _ => .number (num d)
  | .leafString s _ => .string s
  | .internal children _ => .object (childrenValue children)

def childrenValue : Children → List (Key × JsonValue N)
  | .nil => []
  | .node l k n r _ =>
      childrenValue l ++ (if n.isNull then [] else [(k, treeValue n)]) ++ childrenValue r

end

/-- The members that a list of children comes to. -/
def entriesValue (entries : List (Key × Treenode)) : List (Key × JsonValue N) :=
  entries.flatMap fun e => if e.2.isNull then [] else [(e.1, treeValue num e.2)]

theorem childrenValue_eq (t : Children) : childrenValue num t = entriesValue num t.toList := by
  induction t with
  | nil => rfl
  | node l k n r h ihl ihr =>
      rw [childrenValue, ihl, ihr, AvlTree.toList_node, entriesValue, entriesValue, entriesValue,
        List.flatMap_append, List.flatMap_cons, List.append_assoc]

theorem entriesValue_cons_null {e : Key × Treenode} (entries : List (Key × Treenode))
    (h : e.2.isNull = true) : entriesValue num (e :: entries) = entriesValue num entries := by
  rw [entriesValue, List.flatMap_cons, if_pos h, List.nil_append, entriesValue]

theorem entriesValue_cons {e : Key × Treenode} (entries : List (Key × Treenode))
    (h : e.2.isNull = false) :
    entriesValue num (e :: entries) = (e.1, treeValue num e.2) :: entriesValue num entries := by
  rw [entriesValue, List.flatMap_cons, if_neg (by rw [h]; exact Bool.false_ne_true)]
  rfl

theorem entriesValue_of_nulls {entries : List (Key × Treenode)}
    (h : ∀ e ∈ entries, e.2.isNull = true) : entriesValue num entries = [] := by
  rw [entriesValue, List.flatMap_eq_nil_iff]
  exact fun e he => if_pos (h e he)

/-- The value is that of the tree in which the null children are dropped. -/
theorem treeValue_dropNulls {wcSHA1 : SHA1} {keyCmp : Key → Key → Ordering} [TransCmp keyCmp] :
    ∀ n : Treenode, n.Forall (NodeOk wcSHA1 keyCmp) →
      treeValue num (dropNulls keyCmp n) = treeValue num n := by
  refine Treenode.induct (fun _ => rfl) (fun _ _ => rfl) (fun _ _ _ => rfl) (fun _ _ _ => rfl)
    fun t h ih hok => ?_
  have hchildren := hok.childrenOk
  have hlevel : ∀ entries : List (Key × Treenode), (∀ e ∈ entries,
      treeValue num (dropNulls keyCmp e.2) = treeValue num e.2) →
        entriesValue num (entries.filterMap fun e => (live keyCmp e.2).map fun c => (e.1, c)) =
          entriesValue num entries := by
    intro entries
    induction entries with
    | nil => exact fun _ => rfl
    | cons e entries ih =>
        intro hentries
        obtain ⟨he, hentries⟩ := List.forall_mem_cons.mp hentries
        cases hnull : e.2.isNull with
        | true =>
            rw [List.filterMap_cons_none (by rw [live, if_pos hnull]; rfl), ih hentries,
              entriesValue_cons_null num entries hnull]
        | false =>
            have hsome : (live keyCmp e.2).map (fun c => (e.1, c)) =
                some (e.1, dropNulls keyCmp e.2) := by
              rw [live, if_neg (by rw [hnull]; exact Bool.false_ne_true)]
              rfl
            rw [List.filterMap_cons_some
                (f := fun e : Key × Treenode => (live keyCmp e.2).map fun c => (e.1, c)) hsome,
              entriesValue_cons num _ ((isNull_dropNulls e.2).trans hnull), ih hentries, he,
              entriesValue_cons num entries hnull]
  rw [dropNulls, treeValue, treeValue, childrenValue_eq, childrenValue_eq, dropNullChildren_eq,
    (toList_avlInsertAll_nil (sorted_readings _ hchildren.ordered)).2]
  exact congrArg _ (hlevel t.toList fun e he => ih e he (hchildren.all e he))

end Value

/-! ### Levels -/

/-- If the last of the children is null, all of them are. -/
def NullsEndNothing (entries : List (Key × Treenode)) : Prop :=
  (∀ e ∈ entries, e.2.isNull = true) ∨ ∀ e ∈ entries.getLast?, e.2.isNull = false

instance (entries : List (Key × Treenode)) : Decidable (NullsEndNothing entries) :=
  inferInstanceAs (Decidable (_ ∨ _))

/-- At no level of the tree do null children come last after one that is not
null. -/
def CommasFit (n : Treenode) : Prop :=
  n.Forall fun m => ∀ t h, m = .internal t h → NullsEndNothing t.toList

theorem commasFit_internal {t : Children} {h : Option TreenodeHash} :
    CommasFit (.internal t h) ↔ NullsEndNothing t.toList ∧ ∀ e ∈ t.toList, CommasFit e.2 := by
  rw [CommasFit, Treenode.Forall, childrenForall_iff]
  refine and_congr ⟨fun hlevel => hlevel t h rfl, ?_⟩ Iff.rfl
  rintro hlevel t' h' ⟨⟩
  exact hlevel

theorem commasFit_of_leaf {n : Treenode} (hleaf : ∀ t h, n ≠ .internal t h) : CommasFit n := by
  cases n with
  | internal t h => exact absurd rfl (hleaf t h)
  | leafNull | leafBool | leafNumber | leafString => exact fun t h heq => absurd heq (hleaf t h)

/-! ### The text of a level -/

section Text

variable (g16 : DoubleBits → Bytes)

/-- The members of an object, the commas where the loop puts them. -/
def levelText (entries : List (Key × Treenode)) : Bytes :=
  entriesText false (entries.map (shownEntry g16))

theorem levelText_cons_null {e : Key × Treenode} (entries : List (Key × Treenode))
    (h : e.2.isNull = true) : levelText g16 (e :: entries) = levelText g16 entries := by
  rw [levelText, List.map_cons, shownEntry, entriesText, if_pos h, List.nil_append, levelText]

theorem levelText_cons {e : Key × Treenode} (entries : List (Key × Treenode))
    (h : e.2.isNull = false) : levelText g16 (e :: entries) =
      jsonEscapeStr e.1 ++ (colon :: (treenodeToJson g16 e.2 ++
        ((if entries = [] then [] else [44]) ++ levelText g16 entries))) := by
  rw [levelText, List.map_cons, shownEntry, entriesText, h, levelText]
  cases entries <;> simp

theorem levelText_of_nulls {entries : List (Key × Treenode)}
    (h : ∀ e ∈ entries, e.2.isNull = true) : levelText g16 entries = [] := by
  induction entries with
  | nil => rfl
  | cons e entries ih =>
      obtain ⟨hnull, h⟩ := List.forall_mem_cons.mp h
      rw [levelText_cons_null g16 entries hnull, ih h]

/-- A member comes first where there is one. -/
theorem levelText_of_not_nulls {entries : List (Key × Treenode)}
    (h : ¬ ∀ e ∈ entries, e.2.isNull = true) : ∃ text, levelText g16 entries = 34 :: text := by
  induction entries with
  | nil => exact absurd (fun _ hmem => absurd hmem List.not_mem_nil) h
  | cons e entries ih =>
      cases hnull : e.2.isNull with
      | true =>
          rw [levelText_cons_null g16 entries hnull]
          exact ih fun hall => h (List.forall_mem_cons.mpr ⟨hnull, hall⟩)
      | false =>
          rw [levelText_cons g16 entries hnull, jsonEscapeStr_eq]
          exact ⟨_, rfl⟩

theorem treenodeToJson_internal (t : Children) (h : Option TreenodeHash) (rest : Bytes) :
    treenodeToJson g16 (.internal t h) ++ rest =
      123 :: (levelText g16 t.toList ++ 125 :: rest) := by
  rw [treenodeToJson, childrenToJson_eq]
  show ([123] ++ levelText g16 t.toList ++ [125]) ++ rest = _
  simp

end Text

/-! ### Reading the text back -/

section Reading

variable {g16 : DoubleBits → Bytes}

theorem nullsEndNothing_cons_null {e : Key × Treenode} {entries : List (Key × Treenode)}
    (hlive : ¬ ∀ e ∈ entries, e.2.isNull = true) :
    NullsEndNothing (e :: entries) ↔ NullsEndNothing entries := by
  obtain ⟨e', entries, rfl⟩ : ∃ e' rest, entries = e' :: rest := by
    refine List.exists_cons_of_ne_nil ?_
    rintro rfl
    exact hlive fun _ hmem => absurd hmem List.not_mem_nil
  rw [NullsEndNothing, NullsEndNothing, List.getLast?_cons_cons,
    or_iff_right (fun hall => hlive fun x hx => hall x (List.mem_cons_of_mem e hx)),
    or_iff_right hlive]

theorem nullsEndNothing_cons {e : Key × Treenode} {entries : List (Key × Treenode)}
    (hnull : e.2.isNull = false) (hne : entries ≠ []) :
    NullsEndNothing (e :: entries) ↔
      ¬ (∀ e ∈ entries, e.2.isNull = true) ∧ NullsEndNothing entries := by
  obtain ⟨e', entries, rfl⟩ := List.exists_cons_of_ne_nil hne
  have hfirst : ¬ ∀ x ∈ e :: e' :: entries, x.2.isNull = true := fun hall => by
    rw [hall e List.mem_cons_self] at hnull
    cases hnull
  rw [NullsEndNothing, NullsEndNothing, List.getLast?_cons_cons, or_iff_right hfirst]
  constructor
  · intro hlast
    refine ⟨fun hall => ?_, .inr hlast⟩
    have hmem := List.getLast_mem (List.cons_ne_nil e' entries)
    have hlive := hlast _ (List.getLast?_eq_some_getLast (List.cons_ne_nil e' entries))
    rw [hall _ hmem] at hlive
    cases hlive
  · rintro ⟨hlive, hall | hlast⟩
    · exact absurd hall hlive
    · exact hlast

/-- What the reader is to make of a node. -/
def ReadsBack (g16 : DoubleBits → Bytes) (n : Treenode) : Prop :=
  ∀ (fuel : ℕ) (rest : Bytes), (treenodeToJson g16 n).length < fuel → EndsToken rest →
    (CommasFit n → readValue fuel (treenodeToJson g16 n ++ rest) =
      some (treeValue g16 n, rest)) ∧
    (¬ CommasFit n → readValue fuel (treenodeToJson g16 n ++ rest) = none)

/-- What is printed after a member that is not null. -/
def levelTail (g16 : DoubleBits → Bytes) (entries : List (Key × Treenode)) (rest : Bytes) : Bytes :=
  (if entries = [] then [] else [44]) ++ levelText g16 entries ++ 125 :: rest

theorem levelText_cons_append (g16 : DoubleBits → Bytes) {e : Key × Treenode}
    (entries : List (Key × Treenode)) (hnull : e.2.isNull = false) (rest : Bytes) :
    levelText g16 (e :: entries) ++ 125 :: rest =
      34 :: (e.1.flatMap escapeChar ++ [34] ++
        58 :: (treenodeToJson g16 e.2 ++ levelTail g16 entries rest)) := by
  rw [levelText_cons g16 entries hnull, levelTail, jsonEscapeStr_eq]
  simp [colon]

theorem endsToken_levelTail (g16 : DoubleBits → Bytes) (entries : List (Key × Treenode))
    (rest : Bytes) : EndsToken (levelTail g16 entries rest) := by
  rw [levelTail]
  split
  next hnil =>
    subst hnil
    exact endsToken_cons rest rfl
  next => exact endsToken_cons _ rfl

/-- The members of one level, given what becomes of their values. -/
theorem readMembers_levelText {entries : List (Key × Treenode)} {fuel : ℕ} (rest : Bytes)
    (hread : ∀ e ∈ entries, ReadsBack g16 e.2) (hlive : ¬ ∀ e ∈ entries, e.2.isNull = true)
    (hfuel : (levelText g16 entries).length < fuel) :
    (NullsEndNothing entries ∧ (∀ e ∈ entries, CommasFit e.2) →
      readMembers fuel (levelText g16 entries ++ 125 :: rest) =
        some (entriesValue g16 entries, rest)) ∧
    (¬ (NullsEndNothing entries ∧ ∀ e ∈ entries, CommasFit e.2) →
      readMembers fuel (levelText g16 entries ++ 125 :: rest) = none) := by
  induction entries generalizing fuel with
  | nil => exact absurd (fun _ hmem => absurd hmem List.not_mem_nil) hlive
  | cons e entries ih =>
      obtain ⟨hreade, hread⟩ := List.forall_mem_cons.mp hread
      cases hnull : e.2.isNull with
      | true =>
          have hlive' : ¬ ∀ e ∈ entries, e.2.isNull = true := fun hall =>
            hlive (List.forall_mem_cons.mpr ⟨hnull, hall⟩)
          have hfit : CommasFit e.2 := commasFit_of_leaf fun t h hn => by
            rw [hn] at hnull
            cases hnull
          rw [levelText_cons_null g16 entries hnull] at hfuel ⊢
          rw [nullsEndNothing_cons_null hlive', List.forall_mem_cons,
            entriesValue_cons_null g16 entries hnull, and_iff_right hfit]
          exact ih hread hlive' hfuel
      | false =>
          obtain ⟨fuel, rfl⟩ :=
            Nat.exists_eq_succ_of_ne_zero (Nat.ne_of_gt (Nat.zero_lt_of_lt hfuel))
          rw [levelText_cons g16 entries hnull] at hfuel
          simp only [List.length_append, List.length_cons] at hfuel
          set more := treenodeToJson g16 e.2 ++ levelTail g16 entries rest with hmore
          have hkey : readString (34 :: (e.1.flatMap escapeChar ++ [34] ++ 58 :: more)) =
              some (e.1, 58 :: more) := readString_jsonEscapeStr e.1 (58 :: more)
          obtain ⟨hgood, hbad⟩ := hreade fuel (levelTail g16 entries rest) (by omega)
            (endsToken_levelTail g16 entries rest)
          rw [levelText_cons_append g16 entries hnull, ← hmore, List.forall_mem_cons]
          by_cases hfit : CommasFit e.2
          · have hv := hgood hfit
            rw [and_iff_right hfit]
            have hvalue := entriesValue_cons g16 entries hnull
            by_cases hnil : entries = []
            · subst hnil
              have hlevel : NullsEndNothing [e] := .inr fun x hx => by
                obtain rfl := Option.mem_some.mp hx
                exact hnull
              refine ⟨fun _ => ?_,
                fun h => absurd ⟨hlevel, fun _ hx => absurd hx List.not_mem_nil⟩ h⟩
              rw [readMembers_last hkey hv, hvalue]
              rfl
            · have hv : readValue fuel more =
                  some (treeValue g16 e.2, 44 :: (levelText g16 entries ++ 125 :: rest)) := by
                rw [hv, levelTail, if_neg hnil]
                rfl
              rw [readMembers_comma hkey hv, nullsEndNothing_cons hnull hnil]
              by_cases hall : ∀ e ∈ entries, e.2.isNull = true
              · -- a comma with only nulls after it
                rw [levelText_of_nulls g16 hall, List.nil_append, readMembers_brace]
                exact ⟨fun h => absurd hall h.1.1, fun _ => rfl⟩
              · rw [and_iff_right hall]
                have hlen : (levelText g16 entries).length < fuel := by omega
                obtain ⟨hgood, hbad⟩ := ih hread hall hlen
                exact ⟨fun h => by rw [hgood h, hvalue]; rfl, fun h => by rw [hbad h]; rfl⟩
          · rw [readMembers_none hkey (hbad hfit)]
            exact ⟨fun h => absurd h.2.1 hfit, fun _ => rfl⟩

theorem readsBack_token {n : Treenode} (htoken : ∀ c ∈ treenodeToJson g16 n, isTokenChar c = true)
    (hne : treenodeToJson g16 n ≠ []) (hleaf : CommasFit n)
    (hvalue : tokenValue (treenodeToJson g16 n) = some (treeValue g16 n)) : ReadsBack g16 n := by
  intro fuel rest hfuel hrest
  obtain ⟨fuel, rfl⟩ := Nat.exists_eq_succ_of_ne_zero (Nat.ne_of_gt (Nat.zero_lt_of_lt hfuel))
  refine ⟨fun _ => ?_, fun h => absurd hleaf h⟩
  rw [readValue_token fuel hne htoken hrest, hvalue]
  rfl

theorem readsBack (hg16 : ∀ d, IsNumberToken (g16 d)) : ∀ n : Treenode, ReadsBack g16 n := by
  refine Treenode.induct ?_ ?_ ?_ ?_ ?_
  · refine readsBack_token ?_ ?_ (commasFit_of_leaf (by simp)) rfl
    · rw [treenodeToJson]
      decide +kernel
    · rw [treenodeToJson]
      decide +kernel
  · intro b
    refine readsBack_token ?_ ?_ (commasFit_of_leaf (by simp)) ?_
    · rw [treenodeToJson]
      cases b <;> decide +kernel
    · rw [treenodeToJson]
      cases b <;> decide +kernel
    · cases b <;> rfl
  · intro d h
    have htoken := hg16 d
    refine readsBack_token htoken.chars htoken.ne_nil (commasFit_of_leaf (by simp)) ?_
    rw [treenodeToJson, tokenValue, if_neg htoken.ne_nil, if_neg htoken.ne_null,
      if_neg htoken.ne_true, if_neg htoken.ne_false]
    rfl
  · intro s h fuel rest hfuel _
    obtain ⟨fuel, rfl⟩ := Nat.exists_eq_succ_of_ne_zero (Nat.ne_of_gt (Nat.zero_lt_of_lt hfuel))
    refine ⟨fun _ => ?_, fun hbad => absurd (commasFit_of_leaf (by simp)) hbad⟩
    have hstring := readString_jsonEscapeStr s rest
    have htext : jsonEscapeStr s ++ rest = 34 :: (s.flatMap escapeChar ++ [34] ++ rest) := by
      rw [jsonEscapeStr_eq]
      simp
    rw [treenodeToJson, htext, readValue_string, ← htext, hstring]
    rfl
  · intro t h ih fuel rest hfuel _
    obtain ⟨fuel, rfl⟩ := Nat.exists_eq_succ_of_ne_zero (Nat.ne_of_gt (Nat.zero_lt_of_lt hfuel))
    have hlen := congrArg List.length (treenodeToJson_internal g16 t h [])
    simp only [List.length_append, List.length_cons, List.length_nil] at hlen
    rw [treenodeToJson_internal, commasFit_internal]
    by_cases hall : ∀ e ∈ t.toList, e.2.isNull = true
    · have hfit : NullsEndNothing t.toList ∧ ∀ e ∈ t.toList, CommasFit e.2 := by
        refine ⟨.inl hall, fun e he => commasFit_of_leaf fun t' h' hn => ?_⟩
        have hnull := hall e he
        rw [hn] at hnull
        cases hnull
      have hvalue : treeValue g16 (.internal t h) = .object [] := by
        rw [treeValue, childrenValue_eq, entriesValue_of_nulls g16 hall]
      refine ⟨fun _ => ?_, fun hbad => absurd hfit hbad⟩
      rw [levelText_of_nulls g16 hall, List.nil_append, readValue_object_nil, hvalue]
    · have hlen : (levelText g16 t.toList).length < fuel := by omega
      obtain ⟨hgood, hbad⟩ := readMembers_levelText rest ih hall hlen
      obtain ⟨text, htext⟩ := levelText_of_not_nulls g16 hall
      rw [htext, List.cons_append] at hgood hbad ⊢
      rw [readValue_object, treeValue, childrenValue_eq]
      exact ⟨fun h => by rw [hgood h]; rfl, fun h => by rw [hbad h]; rfl⟩

end Reading

/-! ### Whole texts -/

/-- `treenode_to_json` leaves in its buffer a text that is read as the tree without
its null children. -/
def PrintsValue (g16 : DoubleBits → Bytes) (n : Treenode) : Prop :=
  ∀ buf : Bytes, (treenodeToJson g16 n).length < buf.length →
    ∃ w, treenodeToJsonBuf g16 (some n) ⟨buf, 0⟩ = some w ∧
      readJson (w.buf.take w.pos) = some (treeValue g16 n)

theorem readJson_of_commasFit {g16 : DoubleBits → Bytes} (hg16 : ∀ d, IsNumberToken (g16 d))
    {n : Treenode} (h : CommasFit n) :
    readJson (treenodeToJson g16 n) = some (treeValue g16 n) := by
  have hgood := (readsBack hg16 n ((treenodeToJson g16 n).length + 1) []
    (Nat.lt_succ_self _) (by rintro c ⟨⟩)).1 h
  rw [List.append_nil] at hgood
  rw [readJson, hgood]
  rfl

theorem readJson_of_not_commasFit {g16 : DoubleBits → Bytes}
    (hg16 : ∀ d, IsNumberToken (g16 d)) {n : Treenode} (h : ¬ CommasFit n) :
    readJson (treenodeToJson g16 n) = none := by
  have hbad := (readsBack hg16 n ((treenodeToJson g16 n).length + 1) []
    (Nat.lt_succ_self _) (by rintro c ⟨⟩)).2 h
  rw [List.append_nil] at hbad
  rw [readJson, hbad]

/-- What is left in a buffer with room for it, while the counts are in range. -/
theorem exists_treenodeToJsonBuf {g16 : DoubleBits → Bytes} {n : Treenode}
    (hcounts : CountsFit g16 n) {buf : Bytes}
    (hroom : (treenodeToJson g16 n).length < buf.length) :
    ∃ w, treenodeToJsonBuf g16 (some n) ⟨buf, 0⟩ = some w ∧
      w.buf.take w.pos = treenodeToJson g16 n := by
  have hprint := treenodeToJsonBuf_eq g16 (some n) (by rintro m ⟨⟩; exact hcounts) hroom
  exact ⟨_, hprint, List.take_left' rfl⟩

/-- `{"a":"x","b":1}`, the number written as its real text. -/
def textAndNumber : Treenode :=
  treenodeFromJsonR strcmp (.object [([97], .string [120]), ([98], .int 1)])

end WebcomSdk.Cache
