import WebcomSdk.Tools.Lexemes

/-!
The two arrays of the command parser. Nothing compares the counters with their
sizes, so that they hold what is fed exactly when its tokens and its commands are
short enough.
-/

namespace WebcomSdk.Tools

open WebcomSdk.Datasync

/-! ### The counters -/

/-- `token_len` and `token_list_len`. -/
structure WcshLens where
  tokenLen : ℕ
  tokenListLen : ℕ
  deriving DecidableEq

def WcshCmdParse.lens (user : WcshCmdParse) : WcshLens := ⟨user.token.length, user.tokenList.length⟩

def WcshLens.after (lens : WcshLens) : WcshAction → WcshLens
  | .onTokenStart => { lens with tokenLen := 1 }
  | .saveChar => { lens with tokenLen := lens.tokenLen + 1 }
  | .onGroupStart => { lens with tokenLen := 0 }
  | .saveToken => { lens with tokenListLen := lens.tokenListLen + 1 }
  | .onCommandEnd | .saveTokenEndCommand => { lens with tokenListLen := 0 }

/-- The writes of the action fall into the arrays. -/
def WcshLens.Fits (lens : WcshLens) : WcshAction → Prop
  | .saveChar => lens.tokenLen < tokenSize
  | .saveToken | .saveTokenEndCommand =>
      lens.tokenLen < tokenSize ∧ lens.tokenListLen < tokenListSize
  | .onTokenStart | .onGroupStart | .onCommandEnd => True

instance (lens : WcshLens) : DecidablePred lens.Fits
  | .saveChar => inferInstanceAs (Decidable (_ < _))
  | .saveToken | .saveTokenEndCommand => inferInstanceAs (Decidable (_ ∧ _))
  | .onTokenStart | .onGroupStart | .onCommandEnd => inferInstanceAs (Decidable True)

/-- The action hands a command over. -/
def WcshLens.Completes (lens : WcshLens) : WcshAction → Prop
  | .onCommandEnd => lens.tokenListLen > 0
  | .saveTokenEndCommand => True
  | .onTokenStart | .saveChar | .onGroupStart | .saveToken => False

instance (lens : WcshLens) : DecidablePred lens.Completes
  | .onCommandEnd => inferInstanceAs (Decidable (_ > _))
  | .saveTokenEndCommand => inferInstanceAs (Decidable True)
  | .onTokenStart | .saveChar | .onGroupStart | .saveToken => inferInstanceAs (Decidable False)

/-- The actions as far as the counters go, where `allowed` permits them. -/
def wcshExecLens (allowed : WcshLens → WcshAction → Prop) [∀ lens, DecidablePred (allowed lens)]
    (a : WcshAction) (_c : UInt8) (lens : WcshLens) : Option WcshLens :=
  if allowed lens a then some (lens.after a) else none

theorem execLens_eq_some {allowed : WcshLens → WcshAction → Prop}
    [∀ lens, DecidablePred (allowed lens)] {a : WcshAction} {c : UInt8} {lens lens' : WcshLens} :
    wcshExecLens allowed a c lens = some lens' ↔ allowed lens a ∧ lens' = lens.after a := by
  rw [wcshExecLens, Option.ite_none_right_eq_some, Option.some_inj]
  exact and_congr_right fun _ => eq_comm

theorem saveChar_eq_some {c : UInt8} {user user' : WcshCmdParse} :
    saveChar c user = some user' ↔
      user.lens.Fits .saveChar ∧ user' = { user with token := user.token ++ [c] } := by
  rw [saveChar, Option.ite_none_right_eq_some, Option.some_inj]
  exact and_congr Iff.rfl eq_comm

theorem saveToken_eq_some {c : UInt8} {user user' : WcshCmdParse} :
    saveToken c user = some user' ↔ user.lens.Fits .saveToken ∧
      user' = { user with tokenList := user.tokenList ++ [user.token.takeWhile (· ≠ 0)] } := by
  rw [saveToken, Option.ite_none_right_eq_some, Option.some_inj]
  exact and_congr Iff.rfl eq_comm

/-- What an action does: it succeeds where it fits, and the commands grow where
it completes one. -/
theorem execAction_eq_some {a : WcshAction} {c : UInt8} {user user' : WcshCmdParse}
    (h : wcshExecAction a c user = some user') :
    user.lens.Fits a ∧ user'.lens = user.lens.after a ∧
      ∃ more, user'.commands = user.commands ++ more ∧ (more = [] ↔ ¬ user.lens.Completes a) := by
  cases a with
  | onTokenStart | onGroupStart =>
      obtain rfl := Option.some.inj h
      exact ⟨trivial, rfl, [], (List.append_nil _).symm, by simp [WcshLens.Completes]⟩
  | saveChar =>
      obtain ⟨hfits, rfl⟩ := saveChar_eq_some.mp h
      refine ⟨hfits, ?_, [], (List.append_nil _).symm, by simp [WcshLens.Completes]⟩
      simp [WcshCmdParse.lens, WcshLens.after]
  | saveToken =>
      obtain ⟨hfits, rfl⟩ := (saveToken_eq_some (c := c)).mp h
      refine ⟨hfits, ?_, [], (List.append_nil _).symm, by simp [WcshLens.Completes]⟩
      simp [WcshCmdParse.lens, WcshLens.after]
  | onCommandEnd =>
      obtain rfl := Option.some.inj h
      refine ⟨trivial, rfl, if user.tokenList.length > 0 then [user.tokenList] else [], ?_, ?_⟩
      · split <;> simp
      · rw [WcshLens.Completes, WcshCmdParse.lens]
        split <;> simp_all
  | saveTokenEndCommand =>
      obtain ⟨user₁, hsave, hend⟩ := Option.bind_eq_some_iff.mp h
      obtain ⟨hfits, rfl⟩ := saveToken_eq_some.mp hsave
      obtain rfl := Option.some.inj hend
      exact ⟨hfits, rfl, [_], if_pos (by simp), by simp [WcshLens.Completes]⟩

theorem execAction_of_fits {a : WcshAction} (c : UInt8) {user : WcshCmdParse}
    (h : user.lens.Fits a) : ∃ user', wcshExecAction a c user = some user' := by
  cases a with
  | onTokenStart | onGroupStart | onCommandEnd => exact ⟨_, rfl⟩
  | saveChar | saveToken => exact ⟨_, if_pos h⟩
  | saveTokenEndCommand =>
      have hsave := (saveToken_eq_some (c := c)).mpr ⟨h, rfl⟩
      rw [wcshExecAction, saveTokenEndCommand, hsave]
      exact ⟨_, rfl⟩

/-! ### In range -/

/-- What the declarations of the two arrays promise. -/
structure WcshCmdParse.InRange (user : WcshCmdParse) : Prop where
  token : user.token.length < tokenSize
  tokenList : user.tokenList.length ≤ tokenListSize

/-- The actions, where they leave the machine in range. -/
abbrev wcshExecInRange : WcshAction → UInt8 → WcshCmdParse → Option WcshCmdParse :=
  wcshExecWithin (· < tokenSize) (· ≤ tokenListSize)

theorem one_lt_tokenSize : 1 < tokenSize := by decide

theorem execInRange_eq_some {a : WcshAction} {c : UInt8} {user user' : WcshCmdParse} :
    wcshExecInRange a c user = some user' ↔
      user.Room (· < tokenSize) (· ≤ tokenListSize) a ∧ a.apply c user = user' := by
  rw [wcshExecInRange, wcshExecWithin, Option.ite_none_right_eq_some, Option.some_inj]

theorem execInRange_of_exec {a : WcshAction} {c : UInt8} {user user' : WcshCmdParse}
    (h : wcshExecAction a c user = some user') (hin : user'.InRange) :
    wcshExecInRange a c user = some user' := by
  rw [execInRange_eq_some]
  cases a with
  | onTokenStart =>
      obtain rfl := Option.some.inj h
      exact ⟨one_lt_tokenSize, rfl⟩
  | onGroupStart =>
      obtain rfl := Option.some.inj h
      exact ⟨Nat.zero_lt_of_lt one_lt_tokenSize, rfl⟩
  | onCommandEnd =>
      obtain rfl := Option.some.inj h
      refine ⟨trivial, ?_⟩
      rw [WcshAction.apply]
      split <;> simp
  | saveChar =>
      obtain ⟨-, rfl⟩ := saveChar_eq_some.mp h
      have htoken := hin.token
      rw [List.length_append, List.length_singleton] at htoken
      exact ⟨htoken, rfl⟩
  | saveToken =>
      obtain ⟨hfits, rfl⟩ := (saveToken_eq_some (c := c)).mp h
      exact ⟨hfits.2, rfl⟩
  | saveTokenEndCommand =>
      obtain ⟨user₁, hsave, hend⟩ := Option.bind_eq_some_iff.mp h
      obtain ⟨hfits, rfl⟩ := saveToken_eq_some.mp hsave
      obtain rfl := Option.some.inj hend
      refine ⟨hfits.2, ?_⟩
      simp [WcshAction.apply]

theorem exec_of_execInRange {a : WcshAction} {c : UInt8} {user user' : WcshCmdParse}
    (hin : user.InRange) (h : wcshExecInRange a c user = some user') :
    wcshExecAction a c user = some user' ∧ user'.InRange := by
  obtain ⟨hroom, rfl⟩ := execInRange_eq_some.mp h
  cases a with
  | onTokenStart => exact ⟨rfl, one_lt_tokenSize, hin.tokenList⟩
  | onGroupStart => exact ⟨rfl, Nat.zero_lt_of_lt one_lt_tokenSize, hin.tokenList⟩
  | onCommandEnd =>
      refine ⟨?_, hin.token, Nat.zero_le _⟩
      rw [wcshExecAction, onCommandEnd, WcshAction.apply]
      split <;> simp
  | saveChar =>
      refine ⟨saveChar_eq_some.mpr ⟨hin.token, rfl⟩, ?_, hin.tokenList⟩
      show (user.token ++ [c]).length < tokenSize
      rw [List.length_append, List.length_singleton]
      exact hroom
  | saveToken =>
      refine ⟨(saveToken_eq_some (c := c)).mpr ⟨⟨hin.token, hroom⟩, rfl⟩, hin.token, ?_⟩
      show (user.tokenList ++ [_]).length ≤ tokenListSize
      rw [List.length_append, List.length_singleton]
      exact hroom
  | saveTokenEndCommand =>
      have hsave := (saveToken_eq_some (c := c)).mpr ⟨⟨hin.token, hroom⟩, rfl⟩
      refine ⟨?_, hin.token, Nat.zero_le _⟩
      rw [wcshExecAction, saveTokenEndCommand, hsave, Option.bind_some, onCommandEnd]
      simp [WcshAction.apply]

/-- No token of the text, nor the one it stops in, is longer than 1023 bytes, and no
command of it has more than 32 tokens. -/
def TokensFit (chunks : List Bytes) : Prop :=
  ∃ text lexemes, TakesAll [] chunks text ∧ Reads text lexemes ∧
    (∀ token ∈ tokens lexemes, token.length ≤ 1023) ∧
      ∀ command ∈ commandTokens lexemes, command.length ≤ 32

/-- What is fed is enough for its pieces. -/
theorem feedChunks_of_fedOf {S A U : Type*} {fsm : S → FsmStateInfos S A}
    {exec : A → UInt8 → U → Option U} {f : Fsm S U} {part chunks : List Bytes}
    (hpart : FedOf part chunks) (h : (feedChunks fsm exec f chunks).isSome) :
    (feedChunks fsm exec f part).isSome := by
  obtain ⟨pre, cut, rest, post, rfl, rfl⟩ := hpart
  obtain ⟨g, hg⟩ := Option.isSome_iff_exists.mp h
  rw [feedChunks_append] at hg
  obtain ⟨g₁, hpre, hg⟩ := Option.bind_eq_some_iff.mp hg
  obtain ⟨g₂, hchunk, -⟩ := Option.bind_eq_some_iff.mp hg
  obtain ⟨g₃, hcut, -⟩ := fsmFeed_prefix hchunk
  refine Option.isSome_iff_exists.mpr ⟨g₃, ?_⟩
  rw [feedChunks_append, hpre, Option.bind_some, feedChunks, hcut]
  rfl

theorem tokenSize_down (m n : ℕ) (hle : m ≤ n) (hlt : n < tokenSize) : m < tokenSize :=
  hle.trans_lt hlt

/-- A machine with bounds of its own does what the parser does. -/
theorem feedChunks_of_inRange {chunks : List Bytes} {g : WcshFsm}
    (h : feedChunks wcshParseScript wcshExecInRange wcshNew chunks = some g) :
    ∃ f, wcshFeedChunks wcshNew chunks = some f ∧ f.user = g.user ∧ f.user.InRange := by
  obtain ⟨f, hf, ⟨heq, hin⟩, -⟩ := feedChunks_simulates (f := wcshNew)
    (R := fun user user' => user = user' ∧ user.InRange)
    (fun a c user _ user' hR hexec => by
      obtain ⟨rfl, hin⟩ := hR
      obtain ⟨hexec', hin'⟩ := exec_of_execInRange hin hexec
      exact ⟨user', hexec', rfl, hin'⟩)
    ⟨rfl, by decide, by decide⟩ rfl h
  exact ⟨f, hf, heq, hin⟩

/-- The parser is never out of range when a machine with bounds of its own reads all
of the chunks. -/
theorem inRange_iff (chunks : List Bytes) :
    (∀ part, FedOf part chunks →
      ∃ f, wcshFeedChunks wcshNew part = some f ∧ f.user.InRange) ↔
      (feedChunks wcshParseScript wcshExecInRange wcshNew chunks).isSome := by
  constructor
  · intro h
    obtain ⟨f, -, hf⟩ := feedChunks_maps (g := id) (P := WcshCmdParse.InRange)
      (fun a c user user' _ hexec hin => execInRange_of_exec hexec hin) h
    exact Option.isSome_iff_exists.mpr ⟨_, hf⟩
  · intro h part hpart
    obtain ⟨g, hg⟩ := Option.isSome_iff_exists.mp (feedChunks_of_fedOf hpart h)
    obtain ⟨f, hf, -, hin⟩ := feedChunks_of_inRange hg
    exact ⟨f, hf, hin⟩

theorem inRange_iff_lexemes {chunks : List Bytes} {text : Bytes} {lexemes : List Lexeme}
    (htakes : TakesAll [] chunks text) (hreads : Reads text lexemes) :
    (feedChunks wcshParseScript wcshExecInRange wcshNew chunks).isSome ↔
      (∀ token ∈ tokens lexemes, token.length ≤ 1023) ∧
        ∀ command ∈ commandTokens lexemes, command.length ≤ 32 := by
  have hgoes : (feedChunks wcshParseScript wcshExecInRange wcshNew chunks).isSome ↔
      ∃ user', Goes (· < tokenSize) (· ≤ tokenListSize) .blank wcshNew.user text user' := by
    rw [Option.isSome_iff_exists]
    constructor
    · rintro ⟨f, hf⟩
      exact ⟨f.user, f.state, (feedChunks_of_takesAll htakes .nil _ _).mp ⟨f, hf, rfl, rfl⟩⟩
    · rintro ⟨user', s', hpasses⟩
      obtain ⟨f, hf, -⟩ := (feedChunks_of_takesAll (f := wcshNew) htakes .nil _ _).mpr hpasses
      exact ⟨f, hf⟩
  obtain ⟨first, others, heq⟩ := List.exists_cons_of_ne_nil (commandTokens_ne_nil lexemes)
  have hiff : FitsFrom (· < tokenSize) (· ≤ tokenListSize) 0 lexemes ↔ _ :=
    fitsFrom_iff (Nat.zero_le tokenListSize) lexemes
  rw [hgoes, (goes_of_reads tokenSize_down hreads wcshNew.user).1]
  rw [heq] at hiff ⊢
  refine hiff.trans (and_congr (forall₂_congr fun _ _ => Nat.lt_succ_iff) ?_)
  simp [tokenListSize]

/-- **The arrays of the parser.** All that is fed stays in range, at every
moment and with every write, exactly when no token is longer than 1023 bytes and
no command has more than 32 tokens. -/
theorem arrays_hold_iff (chunks : List Bytes) :
    (∀ part, FedOf part chunks →
      ∃ f, wcshFeedChunks wcshNew part = some f ∧ f.user.InRange) ↔ TokensFit chunks := by
  rw [inRange_iff]
  constructor
  · intro h
    obtain ⟨text, htakes, lexemes, hreads⟩ := exists_takesAll ⟨[], .nil⟩ chunks
    exact ⟨text, lexemes, htakes, hreads, (inRange_iff_lexemes htakes hreads).mp h⟩
  · rintro ⟨text, lexemes, htakes, hreads, hfit⟩
    exact (inRange_iff_lexemes htakes hreads).mpr hfit

/-- The tokens and the commands are those of the parser: while they fit, it hands
over the complete commands of the text. -/
theorem commands_of_reads {chunks : List Bytes} {text : Bytes} {lexemes : List Lexeme}
    (htakes : TakesAll [] chunks text) (hreads : Reads text lexemes)
    (htokens : ∀ token ∈ tokens lexemes, token.length ≤ 1023)
    (hcommands : ∀ command ∈ commandTokens lexemes, command.length ≤ 32) :
    ∃ f, wcshFeedChunks wcshNew chunks = some f ∧ f.user.commands = completed [] lexemes := by
  obtain ⟨g, hg⟩ := Option.isSome_iff_exists.mp
    ((inRange_iff_lexemes htakes hreads).mpr ⟨htokens, hcommands⟩)
  obtain ⟨f, hf, heq, -⟩ := feedChunks_of_inRange hg
  have hpasses := (feedChunks_of_takesAll htakes .nil _ _).mp ⟨g, hg, rfl, rfl⟩
  have hdone := (goes_of_reads tokenSize_down hreads wcshNew.user).2 g.user ⟨g.state, hpasses⟩
  exact ⟨f, hf, by rw [heq, hdone]; rfl⟩

/-- One token and a newline. -/
theorem commands_of_reads_token :
    ∃ f, wcshFeedChunks wcshNew [[97, 10]] = some f ∧ f.user.commands = [[[97]]] := by
  have htoken : BareToken [97] := by
    refine ⟨List.cons_ne_nil _ _, by simp [quote], fun c hc => ?_⟩
    rw [List.mem_singleton.mp hc]
    simp [IsBare, IsBlank, IsEnd, commentStart]
  have hreads : Reads [97, 10] [.token [97], .commandEnd] :=
    .bare htoken ⟨10, [], rfl, fun h => h.2.1 (.inl rfl)⟩ (.commandEnd (.inl rfl) .nil)
  have htakes : TakesAll [] [[97, 10]] [97, 10] :=
    .cons ⟨⟨_, hreads⟩, [97, 10], [], rfl, rfl, by simp⟩ .nil
  exact commands_of_reads htakes hreads (by decide) (by decide)

/-- 1024 characters and no blank. -/
theorem long_token_overruns : ¬ ∀ (chunks part : List Bytes), FedOf part chunks →
    ∃ f, wcshFeedChunks wcshNew part = some f ∧ f.user.InRange := by
  intro h
  obtain ⟨f, hf, hin⟩ := h [List.replicate 1024 97] [List.replicate 1024 97]
    ⟨[], List.replicate 1024 97, [], [], by rw [List.append_nil, List.nil_append], rfl⟩
  have hlen : (wcshFeedChunks wcshNew [List.replicate 1024 97]).map
      (fun f => f.user.token.length) = some 1024 := by decide +kernel
  rw [hf, Option.map_some, Option.some_inj] at hlen
  exact absurd hin.token (by rw [hlen]; decide)

end WebcomSdk.Tools
