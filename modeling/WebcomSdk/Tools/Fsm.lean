import Mathlib.Data.List.GetD
import WebcomSdk.Datasync.Path

/-!
Table-driven machines, `tools/fsm.c`. The functions that a table names are a
type `A` of actions; `exec` says what each does to the user data. An action that
writes outside the data it is given is `none`, and so is the call.
-/

namespace WebcomSdk.Tools

open WebcomSdk.Datasync

inductive ParseResult where
  | parsing
  | ok
  | unexpectedEnd
  | unexpectedInput
  deriving DecidableEq

structure FsmTransitionInfos (S A : Type*) where
  next : S
  /-- `none` matches any character. -/
  «match» : Option Bytes
  exec : Option A

structure FsmStateInfos (S A : Type*) where
  accept : Bool
  transitions : List (FsmTransitionInfos S A)

/-- `WHEN (chars) EXEC (exec) GOTO (next)`. -/
def fsmWhen {S A : Type*} (chars : Bytes) (exec : Option A) (next : S) : FsmTransitionInfos S A :=
  ⟨next, some chars, exec⟩

/-- `ELSE EXEC (exec) GOTO (next)`. -/
def fsmElse {S A : Type*} (exec : Option A) (next : S) : FsmTransitionInfos S A :=
  ⟨next, none, exec⟩

/-! ### The search in a table -/

/-- A `char` promoted to `int`. -/
def charToInt (c : UInt8) : ℤ := c.toInt8.toInt

def binsearchLoop (needle : UInt8) (haystack : Bytes) (min max : ℤ) : Bool :=
  if min ≤ max then
    let mid := min + (max - min) / 2
    let cmp := charToInt (haystack.getD mid.toNat 0) - charToInt needle
    if cmp < 0 then binsearchLoop needle haystack (mid + 1) max
    else if cmp > 0 then binsearchLoop needle haystack min (mid - 1)
    else true
  else false
termination_by (max + 1 - min).toNat

def binsearch (needle : UInt8) (haystack : Bytes) : Bool :=
  if haystack.length ≠ 0 then binsearchLoop needle haystack 0 (haystack.length - 1) else false

theorem charToInt_injective : Function.Injective charToInt := by
  intro a b h
  have hbv := congrArg Int8.toUInt8 (Int8.toInt_inj.mp h)
  rwa [UInt8.toUInt8_toInt8, UInt8.toUInt8_toInt8] at hbv

/-- The characters of a table are in ascending order. -/
def SortedChars (haystack : Bytes) : Prop :=
  haystack.Pairwise fun a b => charToInt a < charToInt b

instance (haystack : Bytes) : Decidable (SortedChars haystack) :=
  inferInstanceAs (Decidable (List.Pairwise _ _))

theorem SortedChars.getElem_lt {haystack : Bytes} (h : SortedChars haystack) {i j : ℕ}
    (hj : j < haystack.length) (hij : i < j) :
    charToInt haystack[i] < charToInt haystack[j] :=
  List.pairwise_iff_getElem.mp h i j _ hj hij

/-- The needle comes after a character that is too small. -/
theorem SortedChars.lt_of_lt {needle : UInt8} {haystack : Bytes} (h : SortedChars haystack)
    {mid i : ℕ} (hmid : mid < haystack.length) (hlt : charToInt haystack[mid] < charToInt needle)
    (hi : haystack[i]? = some needle) : mid < i := by
  obtain ⟨hlen, rfl⟩ := List.getElem?_eq_some_iff.mp hi
  by_contra hle
  rcases Nat.lt_or_ge i mid with him | him
  · exact absurd (h.getElem_lt hmid him) (by omega)
  · obtain rfl : i = mid := by omega
    omega

/-- The needle comes before a character that is too large. -/
theorem SortedChars.lt_of_gt {needle : UInt8} {haystack : Bytes} (h : SortedChars haystack)
    {mid i : ℕ} (hmid : mid < haystack.length) (hgt : charToInt needle < charToInt haystack[mid])
    (hi : haystack[i]? = some needle) : i < mid := by
  obtain ⟨hlen, rfl⟩ := List.getElem?_eq_some_iff.mp hi
  by_contra hle
  rcases Nat.lt_or_ge mid i with him | him
  · exact absurd (h.getElem_lt hlen him) (by omega)
  · obtain rfl : i = mid := by omega
    omega

theorem binsearchLoop_iff {needle : UInt8} {haystack : Bytes} (h : SortedChars haystack)
    {min max : ℤ} (hmin : 0 ≤ min) (hmax : max < haystack.length) :
    binsearchLoop needle haystack min max = true ↔
      ∃ i : ℕ, min ≤ i ∧ i ≤ max ∧ haystack[i]? = some needle := by
  fun_induction binsearchLoop needle haystack min max with
  | case1 min max hle mid cmp hlt ih =>
      have hmid : mid.toNat < haystack.length := by omega
      simp only [cmp, List.getD_eq_getElem _ _ hmid] at hlt
      rw [ih (by omega) hmax]
      constructor
      · rintro ⟨i, hi, hi', hn⟩
        exact ⟨i, by omega, hi', hn⟩
      · rintro ⟨i, hi, hi', hn⟩
        have := h.lt_of_lt hmid (by omega) hn
        exact ⟨i, by omega, hi', hn⟩
  | case2 min max hle mid cmp hlt hgt ih =>
      have hmid : mid.toNat < haystack.length := by omega
      simp only [cmp, List.getD_eq_getElem _ _ hmid] at hgt
      rw [ih hmin (by omega)]
      constructor
      · rintro ⟨i, hi, hi', hn⟩
        exact ⟨i, hi, by omega, hn⟩
      · rintro ⟨i, hi, hi', hn⟩
        have := h.lt_of_gt hmid (by omega) hn
        exact ⟨i, hi, by omega, hn⟩
  | case3 min max hle mid cmp hlt hgt =>
      have hmid : mid.toNat < haystack.length := by omega
      simp only [cmp, List.getD_eq_getElem _ _ hmid] at hlt hgt
      refine iff_of_true rfl ⟨mid.toNat, by omega, by omega, ?_⟩
      rw [List.getElem?_eq_getElem hmid, Option.some_inj]
      apply charToInt_injective
      omega
  | case4 min max hle =>
      refine iff_of_false Bool.false_ne_true ?_
      rintro ⟨i, hi, hi', -⟩
      omega

/-- In a sorted table the search finds what is there. -/
theorem binsearch_iff {needle : UInt8} {haystack : Bytes} (h : SortedChars haystack) :
    binsearch needle haystack = true ↔ needle ∈ haystack := by
  rw [binsearch]
  split
  next hne =>
    rw [binsearchLoop_iff h le_rfl (by omega), List.mem_iff_getElem?]
    constructor
    · rintro ⟨i, -, -, hn⟩
      exact ⟨i, hn⟩
    · rintro ⟨i, hn⟩
      have := (List.getElem?_eq_some_iff.mp hn).1
      exact ⟨i, by omega, by omega, hn⟩
  next hnil =>
    obtain rfl := List.length_eq_zero_iff.mp (not_not.mp hnil)
    simp

/-! ### The machine -/

/-- The `user` data is not a pointer here but the data itself. -/
structure Fsm (S U : Type*) where
  ps : ParseResult
  state : S
  user : U
  streamIndex : UInt32
  line : UInt32
  col : UInt32

variable {S A U : Type*}

def fsmNew (initState : S) (user : U) : Fsm S U :=
  { ps := .parsing, state := initState, user, streamIndex := 0, line := 1, col := 0 }

/-- The counters of the loop. -/
def Fsm.count (f : Fsm S U) (c : UInt8) : Fsm S U :=
  let f := if c = 10 then { f with line := f.line + 1, col := 0 } else f
  { f with streamIndex := f.streamIndex + 1, col := f.col + 1 }

@[simp] theorem count_ps (f : Fsm S U) (c : UInt8) : (f.count c).ps = f.ps := by
  unfold Fsm.count
  split <;> rfl

@[simp] theorem count_state (f : Fsm S U) (c : UInt8) : (f.count c).state = f.state := by
  unfold Fsm.count
  split <;> rfl

@[simp] theorem count_user (f : Fsm S U) (c : UInt8) : (f.count c).user = f.user := by
  unfold Fsm.count
  split <;> rfl

def FsmTransitionInfos.accepts (tr : FsmTransitionInfos S A) (c : UInt8) : Bool :=
  match tr.match with
  | none => true
  | some chars => binsearch c chars

section Feed

variable (fsm : S → FsmStateInfos S A) (exec : A → UInt8 → U → Option U)

/-- The first transition that matches. -/
def fsmTransition (state : S) (c : UInt8) : Option (FsmTransitionInfos S A) :=
  (fsm state).transitions.find? fun tr => tr.accepts c

def FsmTransitionInfos.run (tr : FsmTransitionInfos S A) (c : UInt8) (user : U) : Option U :=
  match tr.exec with
  | some a => exec a c user
  | none => some user

/-- What `fsm_feed` returns is the field `ps`. -/
def fsmFeed (f : Fsm S U) : Bytes → Option (Fsm S U)
  | [] => some f
  | c :: buf =>
      match fsmTransition fsm f.state c with
      | some tr => (tr.run exec c f.user).bind fun user =>
          fsmFeed { f.count c with user, state := tr.next } buf
      | none => some { f.count c with ps := .unexpectedInput }

def fsmEnd (f : Fsm S U) : Fsm S U :=
  { f with ps := if (fsm f.state).accept then .ok else .unexpectedEnd }

/-- One call of `fsm_feed` for each chunk. -/
def feedChunks : Fsm S U → List Bytes → Option (Fsm S U)
  | f, [] => some f
  | f, chunk :: chunks => (fsmFeed fsm exec f chunk).bind fun f => feedChunks f chunks

end Feed

variable {fsm : S → FsmStateInfos S A} {exec : A → UInt8 → U → Option U} {f : Fsm S U}

theorem fsmFeed_of_transition {c : UInt8} {buf : Bytes} {tr : FsmTransitionInfos S A}
    (h : fsmTransition fsm f.state c = some tr) :
    fsmFeed fsm exec f (c :: buf) = (tr.run exec c f.user).bind fun user =>
      fsmFeed fsm exec { f.count c with user, state := tr.next } buf := by
  rw [fsmFeed, h]

theorem fsmFeed_of_unexpected {c : UInt8} {buf : Bytes}
    (h : fsmTransition fsm f.state c = none) :
    fsmFeed fsm exec f (c :: buf) = some { f.count c with ps := .unexpectedInput } := by
  rw [fsmFeed, h]

theorem fsmFeed_append {a b : Bytes} (hps : f.ps = .parsing) :
    fsmFeed fsm exec f (a ++ b) = (fsmFeed fsm exec f a).bind fun f' =>
      if f'.ps = .parsing then fsmFeed fsm exec f' b else some f' := by
  induction a generalizing f with
  | nil => simp [fsmFeed, hps]
  | cons c a ih =>
      rw [List.cons_append]
      cases htr : fsmTransition fsm f.state c with
      | none => simp [fsmFeed_of_unexpected htr]
      | some tr =>
          rw [fsmFeed_of_transition htr, fsmFeed_of_transition htr, Option.bind_assoc]
          refine Option.bind_congr fun user _ => ?_
          exact ih (by simpa using hps)

/-- The error stays. -/
theorem ps_fsmFeed {buf : Bytes} {f' : Fsm S U} (h : fsmFeed fsm exec f buf = some f') :
    f'.ps = f.ps ∨ f'.ps = .unexpectedInput := by
  induction buf generalizing f with
  | nil =>
      obtain rfl := Option.some.inj h
      exact .inl rfl
  | cons c buf ih =>
      cases htr : fsmTransition fsm f.state c with
      | none =>
          rw [fsmFeed_of_unexpected htr] at h
          obtain rfl := Option.some.inj h
          exact .inr rfl
      | some tr =>
          rw [fsmFeed_of_transition htr] at h
          obtain ⟨user, -, h⟩ := Option.bind_eq_some_iff.mp h
          simpa using ih h

theorem ps_feedChunks {chunks : List Bytes} {f' : Fsm S U}
    (h : feedChunks fsm exec f chunks = some f') : f'.ps = f.ps ∨ f'.ps = .unexpectedInput := by
  induction chunks generalizing f with
  | nil =>
      obtain rfl := Option.some.inj h
      exact .inl rfl
  | cons chunk chunks ih =>
      obtain ⟨f₁, hchunk, h⟩ := Option.bind_eq_some_iff.mp h
      rcases ih h with hps | hps
      · rw [hps]
        exact ps_fsmFeed hchunk
      · exact .inr hps

theorem feedChunks_append (pre post : List Bytes) :
    feedChunks fsm exec f (pre ++ post) =
      (feedChunks fsm exec f pre).bind fun f' => feedChunks fsm exec f' post := by
  induction pre generalizing f with
  | nil => rfl
  | cons chunk pre ih =>
      rw [List.cons_append, feedChunks, feedChunks, Option.bind_assoc]
      exact Option.bind_congr fun f' _ => ih

/-- What a call does can be seen at any cut: from there it goes on, or it had
stopped before. -/
theorem fsmFeed_prefix {cut rest : Bytes} {f' : Fsm S U}
    (h : fsmFeed fsm exec f (cut ++ rest) = some f') :
    ∃ f₁, fsmFeed fsm exec f cut = some f₁ ∧ (fsmFeed fsm exec f₁ rest = some f' ∨ f' = f₁) := by
  induction cut generalizing f with
  | nil => exact ⟨f, rfl, .inl h⟩
  | cons c cut ih =>
      rw [List.cons_append] at h
      cases htr : fsmTransition fsm f.state c with
      | none =>
          rw [fsmFeed_of_unexpected htr] at h ⊢
          exact ⟨_, rfl, .inr (Option.some.inj h).symm⟩
      | some tr =>
          rw [fsmFeed_of_transition htr] at h
          obtain ⟨user, hrun, h⟩ := Option.bind_eq_some_iff.mp h
          rw [fsmFeed_of_transition htr, hrun, Option.bind_some]
          exact ih h

/-- `part` is what has been fed at some moment while `chunks` are fed. -/
def FedOf (part chunks : List Bytes) : Prop :=
  ∃ pre cut rest post, chunks = pre ++ (cut ++ rest) :: post ∧ part = pre ++ [cut]

/-- What the actions keep, a run keeps. -/
theorem fsmFeed_keeps {P : U → Prop} (hexec : ∀ a c u u', P u → exec a c u = some u' → P u')
    {buf : Bytes} {f' : Fsm S U} (h0 : P f.user) (h : fsmFeed fsm exec f buf = some f') :
    P f'.user := by
  induction buf generalizing f with
  | nil =>
      obtain rfl := Option.some.inj h
      exact h0
  | cons c buf ih =>
      cases htr : fsmTransition fsm f.state c with
      | none =>
          rw [fsmFeed_of_unexpected htr] at h
          obtain rfl := Option.some.inj h
          simpa using h0
      | some tr =>
          rw [fsmFeed_of_transition htr] at h
          obtain ⟨user, hrun, h⟩ := Option.bind_eq_some_iff.mp h
          refine ih ?_ h
          rw [FsmTransitionInfos.run] at hrun
          split at hrun
          next a hact => exact hexec _ _ _ _ h0 hrun
          next hact =>
            obtain rfl := Option.some.inj hrun
            exact h0

theorem feedChunks_keeps {P : U → Prop} (hexec : ∀ a c u u', P u → exec a c u = some u' → P u')
    {chunks : List Bytes} {f' : Fsm S U} (h0 : P f.user)
    (h : feedChunks fsm exec f chunks = some f') : P f'.user := by
  induction chunks generalizing f with
  | nil =>
      obtain rfl := Option.some.inj h
      exact h0
  | cons chunk chunks ih =>
      obtain ⟨f₁, hchunk, h⟩ := Option.bind_eq_some_iff.mp h
      exact ih (fsmFeed_keeps hexec h0 hchunk) h

/-! ### Texts that are expected -/

/-- From the first state and data to the last, all characters are expected. -/
inductive Passes (fsm : S → FsmStateInfos S A) (exec : A → UInt8 → U → Option U) :
    S → U → Bytes → S → U → Prop
  | nil {s : S} {u : U} : Passes fsm exec s u [] s u
  | cons {s s' : S} {u u₁ u' : U} {c : UInt8} {buf : Bytes} {tr : FsmTransitionInfos S A}
      (htr : fsmTransition fsm s c = some tr) (hrun : tr.run exec c u = some u₁)
      (hbuf : Passes fsm exec tr.next u₁ buf s' u') : Passes fsm exec s u (c :: buf) s' u'

theorem Passes.append {s s₁ s' : S} {u u₁ u' : U} {a b : Bytes}
    (ha : Passes fsm exec s u a s₁ u₁) (hb : Passes fsm exec s₁ u₁ b s' u') :
    Passes fsm exec s u (a ++ b) s' u' := by
  induction ha with
  | nil => exact hb
  | cons htr hrun _ ih => exact .cons htr hrun (ih hb)

theorem fsmFeed_of_passes {s' : S} {u' : U} {buf : Bytes}
    (h : Passes fsm exec f.state f.user buf s' u') : ∃ f' : Fsm S U,
      f'.ps = f.ps ∧ f'.state = s' ∧ f'.user = u' ∧
        ∀ rest, fsmFeed fsm exec f (buf ++ rest) = fsmFeed fsm exec f' rest := by
  obtain ⟨s, hs⟩ : ∃ s, s = f.state := ⟨_, rfl⟩
  obtain ⟨u, hu⟩ : ∃ u, u = f.user := ⟨_, rfl⟩
  rw [← hs, ← hu] at h
  induction h generalizing f with
  | nil => exact ⟨f, rfl, hs.symm, hu.symm, fun _ => rfl⟩
  | @cons s s' u u₁ u' c buf tr htr hrun _ ih =>
      subst hs hu
      obtain ⟨f', hps, hstate, huser, hfeed⟩ :=
        ih (f := { f.count c with user := u₁, state := tr.next }) rfl rfl
      refine ⟨f', by simpa using hps, hstate, huser, fun rest => ?_⟩
      rw [List.cons_append, fsmFeed_of_transition htr, hrun, Option.bind_some]
      exact hfeed rest

theorem Passes.split {s s' : S} {u u' : U} {a b : Bytes} (h : Passes fsm exec s u (a ++ b) s' u') :
    ∃ s₁ u₁, Passes fsm exec s u a s₁ u₁ ∧ Passes fsm exec s₁ u₁ b s' u' := by
  induction a generalizing s u with
  | nil => exact ⟨s, u, .nil, h⟩
  | cons c a ih =>
      cases h with
      | cons htr hrun hrest =>
          obtain ⟨s₁, u₁, ha, hb⟩ := ih hrest
          exact ⟨s₁, u₁, .cons htr hrun ha, hb⟩

theorem Passes.unique {s s₁ s₂ : S} {u u₁ u₂ : U} {a : Bytes} (h₁ : Passes fsm exec s u a s₁ u₁)
    (h₂ : Passes fsm exec s u a s₂ u₂) : s₁ = s₂ ∧ u₁ = u₂ := by
  induction h₁ with
  | nil =>
      cases h₂
      exact ⟨rfl, rfl⟩
  | cons htr hrun _ ih =>
      cases h₂ with
      | cons htr' hrun' hrest =>
          obtain rfl := Option.some.inj (htr.symm.trans htr')
          obtain rfl := Option.some.inj (hrun.symm.trans hrun')
          exact ih hrest

/-- The state after a text, whatever the actions do; `none` when a character of it
is not expected. -/
def fsmPath (fsm : S → FsmStateInfos S A) : S → Bytes → Option S
  | s, [] => some s
  | s, c :: text => (fsmTransition fsm s c).bind fun tr => fsmPath fsm tr.next text

theorem fsmPath_append (s : S) (a b : Bytes) :
    fsmPath fsm s (a ++ b) = (fsmPath fsm s a).bind fun s' => fsmPath fsm s' b := by
  induction a generalizing s with
  | nil => rfl
  | cons c a ih =>
      rw [List.cons_append, fsmPath, fsmPath, Option.bind_assoc]
      exact Option.bind_congr fun tr _ => ih tr.next

theorem Passes.path {s s' : S} {u u' : U} {a : Bytes} (h : Passes fsm exec s u a s' u') :
    fsmPath fsm s a = some s' := by
  induction h with
  | nil => rfl
  | cons htr _ _ ih => rw [fsmPath, htr, Option.bind_some, ih]

/-- A call reads a chunk up to the first character that is not expected. -/
theorem fsmFeed_iff_passes {cut rest : Bytes} (hpath : (fsmPath fsm f.state cut).isSome)
    (hstop : ∀ c ∈ rest.head?, fsmPath fsm f.state (cut ++ [c]) = none) (s' : S) (u' : U) :
    (∃ f', fsmFeed fsm exec f (cut ++ rest) = some f' ∧ f'.state = s' ∧ f'.user = u') ↔
      Passes fsm exec f.state f.user cut s' u' := by
  induction cut generalizing f with
  | nil =>
      have hnil : Passes fsm exec f.state f.user [] s' u' ↔ f.state = s' ∧ f.user = u' :=
        ⟨fun h => h.unique .nil |>.imp Eq.symm Eq.symm, by rintro ⟨rfl, rfl⟩; exact .nil⟩
      rw [hnil, List.nil_append]
      cases rest with
      | nil => simp [fsmFeed]
      | cons c rest =>
          have htr : fsmTransition fsm f.state c = none := by
            have hnone := hstop c rfl
            rw [List.nil_append, fsmPath, Option.bind_eq_none_iff] at hnone
            by_contra htr
            obtain ⟨tr, htr⟩ := Option.ne_none_iff_exists'.mp htr
            cases hnone tr htr
          rw [fsmFeed_of_unexpected htr]
          simp
  | cons c cut ih =>
      obtain ⟨s₁, hs₁⟩ := Option.isSome_iff_exists.mp hpath
      obtain ⟨tr, htr, hrest⟩ := Option.bind_eq_some_iff.mp hs₁
      rw [List.cons_append, fsmFeed_of_transition htr]
      have hnext (user : U) := ih (f := { f.count c with user, state := tr.next })
        (Option.isSome_iff_exists.mpr ⟨s₁, hrest⟩) fun d hd => by
          have hnone := hstop d hd
          rwa [List.cons_append, fsmPath, htr, Option.bind_some] at hnone
      constructor
      · rintro ⟨f', hf', hends⟩
        obtain ⟨user, hrun, hf'⟩ := Option.bind_eq_some_iff.mp hf'
        exact .cons htr hrun ((hnext user).mp ⟨f', hf', hends⟩)
      · intro hpasses
        cases hpasses with
        | @cons _ _ _ u₁ _ _ _ _ htr' hrun hpasses =>
            obtain rfl := Option.some.inj (htr.symm.trans htr')
            obtain ⟨f', hf', hends⟩ := (hnext u₁).mpr hpasses
            exact ⟨f', by rw [hrun, Option.bind_some]; exact hf', hends⟩

/-! ### Two readings of the actions -/

/-- The machine with other data. -/
def Fsm.withUser {V : Type*} (f : Fsm S U) (user : V) : Fsm S V := { f with user }

theorem count_withUser {V : Type*} (f : Fsm S U) (user : V) (c : UInt8) :
    (f.withUser user).count c = (f.count c).withUser user := by
  unfold Fsm.count Fsm.withUser
  split <;> rfl

section Simulation

variable {V : Type*} {exec' : A → UInt8 → V → Option V} {R : U → V → Prop}

/-- Where every action that the second reading allows is one that the first
allows, with related results, so is every run. -/
theorem fsmFeed_simulates
    (hexec : ∀ a c u v v', R u v → exec' a c v = some v' → ∃ u', exec a c u = some u' ∧ R u' v')
    {g : Fsm S V} {buf : Bytes} {g' : Fsm S V} (huser : R f.user g.user)
    (hfg : g = f.withUser g.user) (h : fsmFeed fsm exec' g buf = some g') :
    ∃ f', fsmFeed fsm exec f buf = some f' ∧ R f'.user g'.user ∧ g' = f'.withUser g'.user := by
  induction buf generalizing f g with
  | nil =>
      obtain rfl := Option.some.inj h
      exact ⟨f, rfl, huser, hfg⟩
  | cons c buf ih =>
      have hstate : g.state = f.state := by rw [hfg]; rfl
      have hcount : g.count c = (f.count c).withUser g.user := by
        rw [hfg]
        exact count_withUser f _ c
      cases htr : fsmTransition fsm f.state c with
      | none =>
          rw [fsmFeed_of_unexpected (hstate ▸ htr)] at h
          obtain rfl := Option.some.inj h
          refine ⟨_, fsmFeed_of_unexpected htr, by simpa using huser, ?_⟩
          rw [hcount]
          rfl
      | some tr =>
          rw [fsmFeed_of_transition (hstate ▸ htr)] at h
          obtain ⟨v', hrun, h⟩ := Option.bind_eq_some_iff.mp h
          obtain ⟨u', hrun', hR⟩ : ∃ u', tr.run exec c f.user = some u' ∧ R u' v' := by
            unfold FsmTransitionInfos.run at hrun ⊢
            cases hact : tr.exec with
            | none =>
                rw [hact] at hrun
                obtain rfl := Option.some.inj hrun
                exact ⟨f.user, rfl, huser⟩
            | some a =>
                rw [hact] at hrun
                exact hexec a c f.user g.user v' huser hrun
          rw [fsmFeed_of_transition htr, hrun', Option.bind_some]
          refine ih ?_ ?_ h
          · exact hR
          · rw [hcount]
            rfl

theorem feedChunks_simulates
    (hexec : ∀ a c u v v', R u v → exec' a c v = some v' → ∃ u', exec a c u = some u' ∧ R u' v')
    {g : Fsm S V} {chunks : List Bytes} {g' : Fsm S V} (huser : R f.user g.user)
    (hfg : g = f.withUser g.user) (h : feedChunks fsm exec' g chunks = some g') :
    ∃ f', feedChunks fsm exec f chunks = some f' ∧ R f'.user g'.user ∧
      g' = f'.withUser g'.user := by
  induction chunks generalizing f g with
  | nil =>
      obtain rfl := Option.some.inj h
      exact ⟨f, rfl, huser, hfg⟩
  | cons chunk chunks ih =>
      obtain ⟨g₁, hchunk, h⟩ := Option.bind_eq_some_iff.mp h
      obtain ⟨f₁, hchunk', huser₁, hfg₁⟩ := fsmFeed_simulates hexec huser hfg hchunk
      obtain ⟨f', h', hend⟩ := ih huser₁ hfg₁ h
      exact ⟨f', by rw [feedChunks, hchunk', Option.bind_some, h'], hend⟩

/-- Where the first reading goes through states that meet `P` only, the second
follows it. -/
theorem fsmFeed_maps {g : U → V} {P : U → Prop}
    (hexec : ∀ a c u u', P u → exec a c u = some u' → P u' → exec' a c (g u) = some (g u'))
    {buf : Bytes}
    (h : ∀ cut rest, buf = cut ++ rest → ∃ f', fsmFeed fsm exec f cut = some f' ∧ P f'.user) :
    ∃ f', fsmFeed fsm exec f buf = some f' ∧
      fsmFeed fsm exec' (f.withUser (g f.user)) buf = some (f'.withUser (g f'.user)) := by
  induction buf generalizing f with
  | nil => exact ⟨f, rfl, rfl⟩
  | cons c buf ih =>
      obtain ⟨f₀, hf₀, hstart⟩ := h [] (c :: buf) rfl
      obtain rfl := Option.some.inj hf₀
      obtain ⟨f₁, hf₁, hP⟩ := h [c] buf rfl
      have hcount := count_withUser f (g f.user) c
      cases htr : fsmTransition fsm f.state c with
      | none =>
          refine ⟨_, fsmFeed_of_unexpected htr, ?_⟩
          rw [fsmFeed_of_unexpected (f := f.withUser (g f.user)) htr, hcount]
          simp [Fsm.withUser]
      | some tr =>
          rw [fsmFeed_of_transition htr] at hf₁
          obtain ⟨user, hrun, hf₁⟩ := Option.bind_eq_some_iff.mp hf₁
          obtain rfl := Option.some.inj hf₁
          have hrun' : tr.run exec' c (g f.user) = some (g user) := by
            unfold FsmTransitionInfos.run at hrun ⊢
            cases hact : tr.exec with
            | none =>
                rw [hact] at hrun
                obtain rfl := Option.some.inj hrun
                rfl
            | some a =>
                rw [hact] at hrun
                exact hexec a c f.user user hstart hrun hP
          have hrest : ∀ cut rest, buf = cut ++ rest → ∃ f',
              fsmFeed fsm exec { f.count c with user, state := tr.next } cut = some f' ∧
                P f'.user := by
            intro cut rest hbuf
            obtain ⟨f', hf', hP'⟩ := h (c :: cut) rest (by rw [hbuf, List.cons_append])
            rw [fsmFeed_of_transition htr, hrun, Option.bind_some] at hf'
            exact ⟨f', hf', hP'⟩
          obtain ⟨f', hf', hmap⟩ := ih hrest
          refine ⟨f', ?_, ?_⟩
          · rw [fsmFeed_of_transition htr, hrun, Option.bind_some]
            exact hf'
          · rw [fsmFeed_of_transition (f := f.withUser (g f.user)) htr, hcount]
            exact (congrArg (Option.bind · _) hrun').trans hmap

theorem feedChunks_maps {g : U → V} {P : U → Prop}
    (hexec : ∀ a c u u', P u → exec a c u = some u' → P u' → exec' a c (g u) = some (g u'))
    {chunks : List Bytes}
    (h : ∀ part, FedOf part chunks → ∃ f', feedChunks fsm exec f part = some f' ∧ P f'.user) :
    ∃ f', feedChunks fsm exec f chunks = some f' ∧
      feedChunks fsm exec' (f.withUser (g f.user)) chunks = some (f'.withUser (g f'.user)) := by
  induction chunks generalizing f with
  | nil => exact ⟨f, rfl, rfl⟩
  | cons chunk chunks ih =>
      have hcuts : ∀ cut rest, chunk = cut ++ rest →
          ∃ f', fsmFeed fsm exec f cut = some f' ∧ P f'.user := by
        intro cut rest hchunk
        obtain ⟨f', hf', hP⟩ := h [cut] ⟨[], cut, rest, chunks, by rw [hchunk]; rfl, rfl⟩
        obtain ⟨f₁, hcut, hnil⟩ := Option.bind_eq_some_iff.mp hf'
        obtain rfl := Option.some.inj hnil
        exact ⟨f₁, hcut, hP⟩
      obtain ⟨f₁, hf₁, hmap₁⟩ := fsmFeed_maps hexec hcuts
      have hrest : ∀ part, FedOf part chunks →
          ∃ f', feedChunks fsm exec f₁ part = some f' ∧ P f'.user := by
        rintro part ⟨pre, cut, rest, post, rfl, rfl⟩
        obtain ⟨f', hf', hP⟩ :=
          h (chunk :: (pre ++ [cut])) ⟨chunk :: pre, cut, rest, post, rfl, rfl⟩
        rw [feedChunks, hf₁] at hf'
        exact ⟨f', hf', hP⟩
      obtain ⟨f', hf', hmap⟩ := ih hrest
      exact ⟨f', by rw [feedChunks, hf₁]; exact hf', by rw [feedChunks, hmap₁]; exact hmap⟩

end Simulation

end WebcomSdk.Tools
