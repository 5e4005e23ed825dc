import WebcomSdk.Cache.Base64
import WebcomSdk.Cache.JsonOutput

/-!
What the text fed to the digest says about a tree. The keys go into it as they
are, so that a key with a colon and 28 characters of the hash alphabet in it can
pass for a key, its hash and another key. The digest is that of the whole text;
`Cache.TreeDigest` has the context it is fed to, which takes lengths as `uint32_t`.
-/

namespace WebcomSdk.Cache

open WebcomSdk.Lib WebcomSdk.Collection WebcomSdk.Datasync Std

/-! ### Hashes as text -/

/-- 28 characters of padded base 64. -/
def HashLike (h : Bytes) : Prop := h.length = 28 ∧ ∀ c ∈ h, c ∈ base ∨ c = 61

/-- The key contains a colon followed by what looks like a hash. -/
def HidesHash (key : Key) : Prop :=
  ∃ before h after, key = before ++ colon :: (h ++ after) ∧ HashLike h

theorem baseAt_mem {i : UInt8} {v : ℕ} (hi : i.toNat = v) (hv : v < 64) : baseAt i ∈ base := by
  have hlen : i.toNat < base.length := by
    rw [hi, show base.length = 64 by decide]
    exact hv
  rw [baseAt, List.getD_eq_getElem?_getD, List.getElem?_eq_getElem hlen]
  exact List.getElem_mem hlen

theorem mem_base64Block (a b c : UInt8) : ∀ d ∈ base64Block a b c, d ∈ base := by
  have ha := a.toNat_lt
  have hb := b.toNat_lt
  have hc := c.toNat_lt
  simp only [base64Block, List.forall_mem_cons]
  exact ⟨baseAt_mem (toNat_high6 a) (by omega), baseAt_mem (toNat_mid4 a b) (by omega),
    baseAt_mem (toNat_mid2 b c) (by omega), baseAt_mem (toNat_low6 c) (by omega),
    List.forall_mem_nil _⟩

theorem hashLike_base64Enc20 (digest : Fin 20 → UInt8) : HashLike (base64Enc20 digest) := by
  refine ⟨rfl, ?_⟩
  have ha := (digest 18).toNat_lt
  have hb := (digest 19).toNat_lt
  have hlow := toNat_low4 (digest 19)
  have hblock (a b c : UInt8) : ∀ d ∈ base64Block a b c, d ∈ base ∨ d = 61 :=
    fun d hd => .inl (mem_base64Block a b c d hd)
  simp only [base64Enc20, List.forall_mem_append, List.forall_mem_cons]
  refine ⟨⟨⟨⟨⟨⟨?_, ?_⟩, ?_⟩, ?_⟩, ?_⟩, ?_⟩, ?_, ?_, ?_, .inr trivial, List.forall_mem_nil _⟩
  · exact hblock _ _ _
  · exact hblock _ _ _
  · exact hblock _ _ _
  · exact hblock _ _ _
  · exact hblock _ _ _
  · exact hblock _ _ _
  · exact .inl (baseAt_mem (toNat_high6 _) (by omega))
  · exact .inl (baseAt_mem (toNat_mid4 _ _) (by omega))
  · exact .inl (baseAt_mem hlow (by omega))

theorem hashLike_boolHash (b : Bool) : HashLike (boolHash b) := by
  cases b
  · exact ⟨by decide, by decide +kernel⟩
  · exact ⟨by decide, by decide +kernel⟩

theorem hashLike_scratchHash {wcSHA1 : SHA1} {n : Treenode} {h : TreenodeHash}
    (hn : scratchHash wcSHA1 n = some h) : HashLike h := by
  cases n with
  | leafNull => cases hn
  | leafBool b =>
      obtain rfl := Option.some.inj hn
      exact hashLike_boolHash b
  | leafNumber | leafString | internal =>
      obtain rfl := Option.some.inj hn
      exact hashLike_base64Enc20 _

theorem HashLike.colon_notMem {h : Bytes} (hh : HashLike h) : colon ∉ h := by
  intro hmem
  rcases hh.2 colon hmem with hbase | hpad
  · exact absurd hbase (by decide)
  · exact absurd hpad (by decide)

/-! ### The entries of a level -/

/-- Two keys in front of the same text; the first one is not the longer. -/
theorem key_eq_of_append {k extra h h' rest rest' : Bytes} (hh : HashLike h)
    (hkey : ¬ HidesHash (k ++ extra))
    (htext : colon :: (h ++ rest) = extra ++ colon :: (h' ++ rest')) : extra = [] := by
  cases extra with
  | nil => rfl
  | cons c extra =>
      obtain ⟨rfl, hextra⟩ := List.cons.inj htext
      exfalso
      rcases List.append_eq_append_iff.mp hextra with ⟨after, rfl, -⟩ | ⟨after, rfl, hcolon⟩
      · exact hkey ⟨k, h, after, rfl, hh⟩
      · cases after with
        | nil =>
            rw [List.append_nil] at hh
            exact hkey ⟨k, extra, [], by rw [List.append_nil], hh⟩
        | cons d after =>
            obtain ⟨rfl, -⟩ := List.cons.inj hcolon
            exact hh.colon_notMem (List.mem_append_right _ List.mem_cons_self)

/-- The text of the entries of a level gives the entries back. -/
theorem entries_eq_of_text {entries entries' : List (Key × TreenodeHash)}
    (hhash : ∀ e ∈ entries, HashLike e.2) (hhash' : ∀ e ∈ entries', HashLike e.2)
    (hkeys : ∀ e ∈ entries, ¬ HidesHash e.1) (hkeys' : ∀ e ∈ entries', ¬ HidesHash e.1)
    (htext : (entries.flatMap fun e => childText e.1 e.2) =
      entries'.flatMap fun e => childText e.1 e.2) : entries = entries' := by
  induction entries generalizing entries' with
  | nil =>
      cases entries' with
      | nil => rfl
      | cons e' entries' =>
          rw [List.flatMap_cons, childText] at htext
          cases htext
  | cons e entries ih =>
      cases entries' with
      | nil =>
          rw [List.flatMap_cons, childText] at htext
          cases htext
      | cons e' entries' =>
          obtain ⟨k, h⟩ := e
          obtain ⟨k', h'⟩ := e'
          obtain ⟨hh, hrests⟩ := List.forall_mem_cons.mp hhash
          obtain ⟨hh', hrests'⟩ := List.forall_mem_cons.mp hhash'
          obtain ⟨hk, hplain⟩ := List.forall_mem_cons.mp hkeys
          obtain ⟨hk', hplain'⟩ := List.forall_mem_cons.mp hkeys'
          rw [List.flatMap_cons, List.flatMap_cons, childText, childText] at htext
          simp only [List.cons_append, List.append_assoc, List.cons.injEq, true_and] at htext
          obtain rfl : k = k' := by
            rcases List.append_eq_append_iff.mp htext with
              ⟨extra, rfl, hextra⟩ | ⟨extra, rfl, hextra⟩
            · rw [key_eq_of_append hh hk' hextra, List.append_nil]
            · rw [key_eq_of_append hh' hk hextra, List.append_nil]
          have hrest := (List.cons.inj (List.append_cancel_left htext)).2
          obtain ⟨rfl, hentries⟩ := List.append_inj hrest (hh.1.trans hh'.1.symm)
          rw [ih hrests hrests' hplain hplain' hentries]

/-! ### The texts of a tree -/

mutual

/-- What is fed to the digest for the hash of a node, at all levels. -/
def hashTexts (wcSHA1 : SHA1) : Treenode → List Bytes
  | .leafNull => []
  | .leafBool _ => []
  | .leafNumber d _ => [numberText d]
  | .leafString s _ => [stringText s]
  | .internal children _ => childrenText wcSHA1 children :: childrenHashTexts wcSHA1 children

def childrenHashTexts (wcSHA1 : SHA1) : Children → List Bytes
  | .nil => []
  | .node l _ n r _ =>
      childrenHashTexts wcSHA1 l ++ hashTexts wcSHA1 n ++ childrenHashTexts wcSHA1 r

end

variable {wcSHA1 : SHA1}

theorem mem_childrenHashTexts {t : Children} {e : Key × Treenode} (he : e ∈ t.toList) {x : Bytes}
    (hx : x ∈ hashTexts wcSHA1 e.2) : x ∈ childrenHashTexts wcSHA1 t := by
  induction t with
  | nil => cases he
  | node l k n r h ihl ihr =>
      rw [AvlTree.toList_node, List.mem_append, List.mem_cons] at he
      rw [childrenHashTexts, List.mem_append, List.mem_append]
      rcases he with he | rfl | he
      · exact .inl (.inl (ihl he))
      · exact .inl (.inr hx)
      · exact .inr (ihr he)

/-- No key of a child that is not null hides a hash, at any level. -/
def PlainKeys (n : Treenode) : Prop :=
  n.Forall fun m => ∀ t h, m = .internal t h →
    ∀ e ∈ t.toList, e.2.isNull = false → ¬ HidesHash e.1

/-- The digest tells the texts of the two nodes apart, and apart from the
constants for booleans. -/
structure DigestApart (wcSHA1 : SHA1) (a b : Treenode) : Prop where
  inj : ∀ x ∈ hashTexts wcSHA1 a, ∀ y ∈ hashTexts wcSHA1 b,
    textHash wcSHA1 x = textHash wcSHA1 y → x = y
  left : ∀ x ∈ hashTexts wcSHA1 a, ∀ v, textHash wcSHA1 x ≠ boolHash v
  right : ∀ y ∈ hashTexts wcSHA1 b, ∀ v, textHash wcSHA1 y ≠ boolHash v

/-- Equal hashes of two nodes are those of one text. -/
theorem DigestApart.root {a b : Treenode} {x y : Bytes} {xs ys : List Bytes}
    (hdigest : DigestApart wcSHA1 a b) (hx : hashTexts wcSHA1 a = x :: xs)
    (hy : hashTexts wcSHA1 b = y :: ys)
    (h : some (textHash wcSHA1 x) = some (textHash wcSHA1 y)) : x = y := by
  have hmem : x ∈ hashTexts wcSHA1 a := hx ▸ List.mem_cons_self
  have hmem' : y ∈ hashTexts wcSHA1 b := hy ▸ List.mem_cons_self
  exact hdigest.inj x hmem y hmem' (Option.some.inj h)

theorem DigestApart.children {t t' : Children} {h h' : Option TreenodeHash}
    (hdigest : DigestApart wcSHA1 (.internal t h) (.internal t' h')) {e e' : Key × Treenode}
    (he : e ∈ t.toList) (he' : e' ∈ t'.toList) : DigestApart wcSHA1 e.2 e'.2 where
  inj x hx y hy := hdigest.inj x (List.mem_cons_of_mem _ (mem_childrenHashTexts he hx)) y
    (List.mem_cons_of_mem _ (mem_childrenHashTexts he' hy))
  left x hx := hdigest.left x (List.mem_cons_of_mem _ (mem_childrenHashTexts he hx))
  right y hy := hdigest.right y (List.mem_cons_of_mem _ (mem_childrenHashTexts he' hy))

/-! ### Levels with equal texts -/

/-- The children that count. -/
def liveEntries (t : Children) : List (Key × Treenode) := t.toList.filter fun e => !e.2.isNull

theorem mem_liveEntries {t : Children} {e : Key × Treenode} :
    e ∈ liveEntries t ↔ e ∈ t.toList ∧ e.2.isNull = false := by
  rw [liveEntries, List.mem_filter, Bool.not_eq_true']

variable (wcSHA1) in
theorem scratchHash_isSome {n : Treenode} (h : n.isNull = false) :
    ∃ hash, scratchHash wcSHA1 n = some hash := by
  cases n with
  | leafNull => cases h
  | leafBool | leafNumber | leafString | internal => exact ⟨_, rfl⟩

theorem readings_scratchHash (t : Children) : readings (scratchHash wcSHA1) t =
    (liveEntries t).map fun e => (e.1, (scratchHash wcSHA1 e.2).getD []) := by
  rw [readings, liveEntries]
  induction t.toList with
  | nil => rfl
  | cons e entries ih =>
      cases hnull : e.2.isNull with
      | true =>
          have hnone : scratchHash wcSHA1 e.2 = none := by
            cases hn : e.2 with
            | leafNull => rfl
            | leafBool | leafNumber | leafString | internal =>
                rw [hn] at hnull
                cases hnull
          simp [hnull, hnone, ih]
      | false =>
          obtain ⟨hash, hsome⟩ := scratchHash_isSome wcSHA1 hnull
          simp [hnull, hsome, ih]

theorem childrenValue_eq_live {N : Type} (num : DoubleBits → N) (t : Children) :
    childrenValue num t = (liveEntries t).map fun e => (e.1, treeValue num e.2) := by
  rw [childrenValue_eq, liveEntries]
  induction t.toList with
  | nil => rfl
  | cons e entries ih =>
      cases hnull : e.2.isNull with
      | true =>
          rw [entriesValue_cons_null num entries hnull, ih]
          simp [hnull]
      | false =>
          rw [entriesValue_cons num entries hnull, ih]
          simp [hnull]

theorem map_eq_of_map_eq {α β γ : Type} {f : α → β} {g : α → γ} {l l' : List α}
    (h : l.map f = l'.map f) (hfg : ∀ a ∈ l, ∀ b ∈ l', f a = f b → g a = g b) :
    l.map g = l'.map g := by
  induction l generalizing l' with
  | nil =>
      obtain rfl := List.map_eq_nil_iff.mp h.symm
      rfl
  | cons a l ih =>
      cases l' with
      | nil => cases h
      | cons b l' =>
          obtain ⟨hab, h⟩ := List.cons.inj h
          rw [List.map_cons, List.map_cons, hfg a List.mem_cons_self b List.mem_cons_self hab,
            ih h fun x hx y hy => hfg x (List.mem_cons_of_mem a hx) y (List.mem_cons_of_mem b hy)]

theorem plainKeys_internal {t : Children} {h : Option TreenodeHash} :
    PlainKeys (.internal t h) ↔
      (∀ e ∈ liveEntries t, ¬ HidesHash e.1) ∧ ∀ e ∈ t.toList, PlainKeys e.2 := by
  rw [PlainKeys, Treenode.Forall, childrenForall_iff]
  refine and_congr ⟨fun hkeys e he => ?_, fun hkeys t' h' heq e he hnull => ?_⟩ Iff.rfl
  · obtain ⟨he, hnull⟩ := mem_liveEntries.mp he
    exact hkeys t h rfl e he hnull
  · cases heq
    exact hkeys e (mem_liveEntries.mpr ⟨he, hnull⟩)

/-- Equal texts of two levels have the same keys, with the same hashes. -/
theorem live_eq_of_childrenText {t t' : Children}
    (hkeys : ∀ e ∈ liveEntries t, ¬ HidesHash e.1) (hkeys' : ∀ e ∈ liveEntries t', ¬ HidesHash e.1)
    (htext : childrenText wcSHA1 t = childrenText wcSHA1 t') :
    (liveEntries t).map (fun e => (e.1, (scratchHash wcSHA1 e.2).getD [])) =
      (liveEntries t').map fun e => (e.1, (scratchHash wcSHA1 e.2).getD []) := by
  have hhash : ∀ t : Children, ∀ e ∈ readings (scratchHash wcSHA1) t, HashLike e.2 := by
    intro t e he
    obtain ⟨e', -, he'⟩ := List.mem_filterMap.mp he
    obtain ⟨h, hsome, rfl⟩ := Option.map_eq_some_iff.mp he'
    exact hashLike_scratchHash hsome
  have hplain : ∀ t : Children, (∀ e ∈ liveEntries t, ¬ HidesHash e.1) →
      ∀ e ∈ readings (scratchHash wcSHA1) t, ¬ HidesHash e.1 := by
    intro t hkeys e he
    rw [readings_scratchHash] at he
    obtain ⟨e', he', rfl⟩ := List.mem_map.mp he
    exact hkeys e' he'
  rw [childrenText_eq, childrenText_eq] at htext
  rw [← readings_scratchHash, ← readings_scratchHash]
  exact entries_eq_of_text (hhash t) (hhash t') (hplain t hkeys) (hplain t' hkeys') htext

variable (wcSHA1) in
/-- A level does not begin like a leaf. -/
theorem childrenText_head (t : Children) : ∀ c ∈ (childrenText wcSHA1 t).head?, c = colon := by
  rw [childrenText_eq]
  cases readings (scratchHash wcSHA1) t with
  | nil => exact fun c hc => absurd hc (by simp)
  | cons e entries =>
      rw [List.flatMap_cons, childText]
      exact fun c hc => (Option.mem_some.mp hc).symm

/-! ### Values and hashes -/

theorem numberText_ne_stringText (d : DoubleBits) (s : Bytes) : numberText d ≠ stringText s := by
  intro h
  have hhead := congrArg List.head? h
  exact absurd hhead (by simp [numberText, stringText, ascii])

theorem numberText_ne_childrenText (d : DoubleBits) (t : Children) :
    numberText d ≠ childrenText wcSHA1 t := by
  intro h
  exact absurd (childrenText_head wcSHA1 t 110 (by rw [← h]; rfl)) (by decide)

theorem stringText_ne_childrenText (s : Bytes) (t : Children) :
    stringText s ≠ childrenText wcSHA1 t := by
  intro h
  exact absurd (childrenText_head wcSHA1 t 115 (by rw [← h]; rfl)) (by decide)

theorem boolHash_injective : Function.Injective boolHash := by
  intro b b' h
  cases b <;> cases b' <;> first | rfl | exact absurd h (by decide)

/-- The hash computed from scratch determines the value. -/
theorem treeValue_eq_of_scratchHash {N : Type} (num : DoubleBits → N) :
    ∀ a b : Treenode, PlainKeys a → PlainKeys b → DigestApart wcSHA1 a b →
      scratchHash wcSHA1 a = scratchHash wcSHA1 b → treeValue num a = treeValue num b := by
  refine Treenode.induct ?_ ?_ ?_ ?_ ?_
  · intro b _ _ _ h
    cases b with
    | leafNull => rfl
    | leafBool | leafNumber | leafString | internal => cases h
  · intro v b _ _ hdigest h
    cases b with
    | leafNull => cases h
    | leafBool v' => rw [boolHash_injective (Option.some.inj h)]
    | leafNumber | leafString | internal =>
        exact absurd (Option.some.inj h).symm (hdigest.right _ List.mem_cons_self v)
  · intro d hash b _ _ hdigest h
    cases b with
    | leafNull => cases h
    | leafBool v => exact absurd (Option.some.inj h) (hdigest.left _ List.mem_cons_self v)
    | leafNumber d' hash' =>
        have htext := hdigest.root rfl rfl h
        rw [treeValue, treeValue, numberText_inj htext]
    | leafString s hash' =>
        have htext := hdigest.root rfl rfl h
        exact absurd htext (numberText_ne_stringText d s)
    | internal t hash' =>
        have htext := hdigest.root rfl rfl h
        exact absurd htext (numberText_ne_childrenText d t)
  · intro s hash b _ _ hdigest h
    cases b with
    | leafNull => cases h
    | leafBool v => exact absurd (Option.some.inj h) (hdigest.left _ List.mem_cons_self v)
    | leafNumber d hash' =>
        have htext := hdigest.root rfl rfl h
        exact absurd htext.symm (numberText_ne_stringText d s)
    | leafString s' hash' =>
        have htext := hdigest.root rfl rfl h
        rw [treeValue, treeValue, List.append_cancel_left htext]
    | internal t hash' =>
        have htext := hdigest.root rfl rfl h
        exact absurd htext (stringText_ne_childrenText s t)
  · intro t hash ih b hplain hplain' hdigest h
    cases b with
    | leafNull => cases h
    | leafBool v => exact absurd (Option.some.inj h) (hdigest.left _ List.mem_cons_self v)
    | leafNumber d hash' =>
        have htext := hdigest.root rfl rfl h
        exact absurd htext.symm (numberText_ne_childrenText d t)
    | leafString s hash' =>
        have htext := hdigest.root rfl rfl h
        exact absurd htext.symm (stringText_ne_childrenText s t)
    | internal t' hash' =>
        have htext := hdigest.root rfl rfl h
        obtain ⟨hkeys, hbelow⟩ := plainKeys_internal.mp hplain
        obtain ⟨hkeys', hbelow'⟩ := plainKeys_internal.mp hplain'
        have hlive := live_eq_of_childrenText hkeys hkeys' htext
        rw [treeValue, treeValue, childrenValue_eq_live, childrenValue_eq_live]
        refine congrArg _ (map_eq_of_map_eq hlive fun e he e' he' heq => ?_)
        obtain ⟨hmem, hnull⟩ := mem_liveEntries.mp he
        obtain ⟨hmem', hnull'⟩ := mem_liveEntries.mp he'
        obtain ⟨hkey, hhash⟩ := Prod.mk.inj heq
        obtain ⟨x, hx⟩ := scratchHash_isSome wcSHA1 hnull
        obtain ⟨y, hy⟩ := scratchHash_isSome wcSHA1 hnull'
        rw [hx, hy, Option.getD_some, Option.getD_some] at hhash
        rw [hkey, ih e hmem e'.2 (hbelow e hmem) (hbelow' e' hmem') (hdigest.children hmem hmem')
          (by rw [hx, hy, hhash])]

theorem scratchHash_of_treenodeHashEq {a b : Treenode}
    (h : treenodeHashEq (scratchHash wcSHA1 a) (scratchHash wcSHA1 b) = true) :
    scratchHash wcSHA1 a = scratchHash wcSHA1 b := by
  have hne : ∀ {n : Treenode} {x : TreenodeHash}, scratchHash wcSHA1 n = some x → x ≠ nullHash := by
    rintro n x hx rfl
    rcases (hashLike_scratchHash hx).2 0 (by decide) with hbase | hpad
    · exact absurd hbase (by decide)
    · exact absurd hpad (by decide)
  rw [treenodeHashEq_iff] at h
  cases ha : scratchHash wcSHA1 a with
  | none =>
      cases hb : scratchHash wcSHA1 b with
      | none => rfl
      | some y =>
          rw [ha, hb] at h
          exact absurd h.symm (hne hb)
  | some x =>
      cases hb : scratchHash wcSHA1 b with
      | none =>
          rw [ha, hb] at h
          exact absurd h (hne ha)
      | some y =>
          rw [ha, hb] at h
          exact congrArg some h

variable {keyCmp : Key → Key → Ordering}

theorem not_hidesHash_of_length {key : Key} (h : key.length < 29) : ¬ HidesHash key := by
  rintro ⟨before, hash, after, rfl, hhash⟩
  have := hhash.1
  simp only [List.length_append, List.length_cons] at h
  omega

/-- One level of leaves under short keys. -/
theorem plainKeys_of_short {t : Children} {h : Option TreenodeHash}
    (hkeys : ∀ e ∈ t.toList, e.1.length < 29)
    (hleaf : ∀ e ∈ t.toList, ∀ t' h', e.2 ≠ .internal t' h') : PlainKeys (.internal t h) := by
  refine plainKeys_internal.mpr ⟨fun e he => ?_, fun e he => ?_⟩
  · exact not_hidesHash_of_length (hkeys e (mem_liveEntries.mp he).1)
  · have hne := hleaf e he
    cases hn : e.2 with
    | internal t' h' => exact absurd hn (hne t' h')
    | leafNull | leafBool | leafNumber | leafString => exact fun t' h' heq => by cases heq

theorem textHash_sampleSHA1 (x : Bytes) (v : Bool) : textHash sampleSHA1 x ≠ boolHash v := by
  show textHash sampleSHA1 [] ≠ boolHash v
  cases v <;> decide +kernel

/-- The key `a:` followed by the hash of `false` and `:b`. -/
def disguisedKey : Key := 97 :: colon :: (boolHash false ++ [colon, 98])

end WebcomSdk.Cache
