import WebcomSdk.Tools.Quoting

/-!
The language that the command parser of the shell reads, without its machine. A
token stands between blanks or ends of commands, bare or in single quotes; a
comment goes on to the end of its line. A text may stop anywhere, in the middle of
a token as well.
-/

namespace WebcomSdk.Tools

open WebcomSdk.Datasync WebcomSdk.Cache

/-! ### The language -/

inductive Lexeme where
  | token (bytes : Bytes)
  /-- The text stops in this token. -/
  | openToken (bytes : Bytes)
  | commandEnd
  deriving DecidableEq

def IsBlank (c : UInt8) : Prop := c = 9 ∨ c = 32

/-- A newline or a semicolon. -/
def IsEnd (c : UInt8) : Prop := c = 10 ∨ c = 59

/-- `'#'`. -/
def commentStart : UInt8 := 35

def IsBare (c : UInt8) : Prop := ¬ IsBlank c ∧ ¬ IsEnd c ∧ c ≠ commentStart

/-- A token without quotes around it. One may stand in it, but not first. -/
structure BareToken (token : Bytes) : Prop where
  ne_nil : token ≠ []
  head : token.head? ≠ some quote
  bare : ∀ c ∈ token, IsBare c

/-- The text and its lexemes, from a place between tokens on. -/
inductive Reads : Bytes → List Lexeme → Prop
  | nil : Reads [] []
  | blank {c : UInt8} {text : Bytes} {lexemes : List Lexeme} (hc : IsBlank c)
      (rest : Reads text lexemes) : Reads (c :: text) lexemes
  | commandEnd {c : UInt8} {text : Bytes} {lexemes : List Lexeme} (hc : IsEnd c)
      (rest : Reads text lexemes) : Reads (c :: text) (.commandEnd :: lexemes)
  | comment {body text : Bytes} {lexemes : List Lexeme} (hbody : 10 ∉ body)
      (rest : Reads text lexemes) :
      Reads (commentStart :: (body ++ 10 :: text)) (.commandEnd :: lexemes)
  | openComment {body : Bytes} (hbody : 10 ∉ body) : Reads (commentStart :: body) []
  | bare {token text : Bytes} {lexemes : List Lexeme} (htoken : BareToken token)
      (hnext : ∃ c rest, text = c :: rest ∧ ¬ IsBare c) (rest : Reads text lexemes) :
      Reads (token ++ text) (.token token :: lexemes)
  | openBare {token : Bytes} (htoken : BareToken token) : Reads token [.openToken token]
  | quoted {token text : Bytes} {lexemes : List Lexeme} (htoken : quote ∉ token)
      (hnext : ∀ c ∈ text.head?, IsBlank c ∨ IsEnd c) (rest : Reads text lexemes) :
      Reads (quoteToken token ++ text) (.token token :: lexemes)
  | openQuoted {token : Bytes} (htoken : quote ∉ token) :
      Reads (quote :: token.flatMap quoteChar) [.openToken token]
  /-- The text stops after the first of two backslashes. -/
  | openEscape {token : Bytes} (htoken : quote ∉ token) :
      Reads (quote :: (token.flatMap quoteChar ++ [backslash])) [.openToken token]

def Readable (text : Bytes) : Prop := ∃ lexemes, Reads text lexemes

/-- Of a chunk, what can be read after the text is taken: up to the first
character after which nothing can be. -/
def Takes (text chunk text' : Bytes) : Prop :=
  Readable text' ∧ ∃ cut rest, chunk = cut ++ rest ∧ text' = text ++ cut ∧
    ∀ c ∈ rest.head?, ¬ Readable (text' ++ [c])

/-- What is taken of the chunks, one after the other. -/
inductive TakesAll : Bytes → List Bytes → Bytes → Prop
  | nil {text : Bytes} : TakesAll text [] text
  | cons {text chunk text' : Bytes} {chunks : List Bytes} {text'' : Bytes}
      (hchunk : Takes text chunk text') (rest : TakesAll text' chunks text'') :
      TakesAll text (chunk :: chunks) text''

/-- The tokens of each command of the text, the last of which may still be open. A
token in which the text stops is not counted. -/
def commandTokens : List Lexeme → List (List Bytes)
  | [] => [[]]
  | .token token :: lexemes => (commandTokens lexemes).modifyHead (token :: ·)
  | .openToken _ :: lexemes => commandTokens lexemes
  | .commandEnd :: lexemes => [] :: commandTokens lexemes

/-- All tokens, open ones included. -/
def tokens : List Lexeme → List Bytes
  | [] => []
  | .token token :: lexemes | .openToken token :: lexemes => token :: tokens lexemes
  | .commandEnd :: lexemes => tokens lexemes

/-- The commands that are complete, without the empty ones. A token is cut at its
first NUL. -/
def completed : List Bytes → List Lexeme → List (List Bytes)
  | _, [] => []
  | command, .token token :: lexemes => completed (command ++ [token.takeWhile (· ≠ 0)]) lexemes
  | command, .openToken _ :: lexemes => completed command lexemes
  | command, .commandEnd :: lexemes =>
      (if command.length > 0 then [command] else []) ++ completed [] lexemes

/-! ### The table of the machine -/

section Table

variable {c : UInt8}

theorem ascii_blanks : ascii "\t " = [9, 32] := rfl

theorem ascii_ends : ascii "\n;" = [10, 59] := rfl

theorem ascii_commentStart : ascii "#" = [commentStart] := rfl

theorem mem_blanks : c ∈ ascii "\t " ↔ IsBlank c := by simp [ascii_blanks, IsBlank]

theorem mem_ends : c ∈ ascii "\n;" ↔ IsEnd c := by simp [ascii_ends, IsEnd]

theorem mem_commentStart : c ∈ ascii "#" ↔ c = commentStart := by simp [ascii_commentStart]

theorem mem_quote : c ∈ ascii "'" ↔ c = quote := by simp [ascii_quote]

instance (c : UInt8) : Decidable (IsBlank c) := inferInstanceAs (Decidable (_ ∨ _))

instance (c : UInt8) : Decidable (IsEnd c) := inferInstanceAs (Decidable (_ ∨ _))

theorem transition_blank (c : UInt8) : fsmTransition wcshParseScript .blank c =
    if IsBlank c then some (fsmWhen (ascii "\t ") none .blank)
    else if c = quote then some (fsmWhen (ascii "'") (some .onGroupStart) .group)
    else if c = commentStart then some (fsmWhen (ascii "#") none .comment)
    else if IsEnd c then some (fsmWhen (ascii "\n;") (some .onCommandEnd) .blank)
    else some (fsmElse (some .onTokenStart) .token) := by
  rw [fsmTransition, wcshParseScript, find?_fsmWhen_cons (by decide),
    find?_fsmWhen_cons (by decide), find?_fsmWhen_cons (by decide),
    find?_fsmWhen_cons (by decide), find?_fsmElse]
  simp only [mem_blanks, mem_ends, mem_commentStart, mem_quote]

theorem transition_token (c : UInt8) : fsmTransition wcshParseScript .token c =
    if IsBlank c then some (fsmWhen (ascii "\t ") (some .saveToken) .blank)
    else if c = commentStart then some (fsmWhen (ascii "#") (some .saveToken) .comment)
    else if IsEnd c then some (fsmWhen (ascii "\n;") (some .saveTokenEndCommand) .blank)
    else some (fsmElse (some .saveChar) .token) := by
  rw [fsmTransition, wcshParseScript, find?_fsmWhen_cons (by decide),
    find?_fsmWhen_cons (by decide), find?_fsmWhen_cons (by decide), find?_fsmElse]
  simp only [mem_blanks, mem_ends, mem_commentStart]

theorem transition_comment (c : UInt8) : fsmTransition wcshParseScript .comment c =
    if c = 10 then some (fsmWhen (ascii "\n") (some .onCommandEnd) .blank)
    else some (fsmElse none .comment) := by
  rw [fsmTransition, wcshParseScript, find?_fsmWhen_cons (by decide), find?_fsmElse]
  have hmem : c ∈ ascii "\n" ↔ c = 10 := by simp [show ascii "\n" = [10] from rfl]
  simp only [hmem]

theorem transition_groupEnd (c : UInt8) : fsmTransition wcshParseScript .groupEnd c =
    if IsEnd c then some (fsmWhen (ascii "\n;") (some .onCommandEnd) .blank)
    else if IsBlank c then some (fsmWhen (ascii "\t ") none .blank)
    else none := by
  rw [fsmTransition, wcshParseScript, find?_fsmWhen_cons (by decide),
    find?_fsmWhen_cons (by decide)]
  simp only [mem_blanks, mem_ends]
  rfl

end Table

/-! ### A machine with bounds of its own -/

/-- What an action does when the arrays have no end. -/
def WcshAction.apply (c : UInt8) (user : WcshCmdParse) : WcshAction → WcshCmdParse
  | .onTokenStart => { user with token := [c] }
  | .saveChar => { user with token := user.token ++ [c] }
  | .onGroupStart => { user with token := [] }
  | .saveToken => { user with tokenList := user.tokenList ++ [user.token.takeWhile (· ≠ 0)] }
  | .onCommandEnd => { user with
      commands := user.commands ++ if user.tokenList.length > 0 then [user.tokenList] else []
      tokenList := [] }
  | .saveTokenEndCommand => { user with
      commands := user.commands ++ [user.tokenList ++ [user.token.takeWhile (· ≠ 0)]]
      tokenList := [] }

section Bounds

variable (okToken okCommand : ℕ → Prop)

/-- The lengths that the action comes to are allowed. -/
def WcshCmdParse.Room (user : WcshCmdParse) : WcshAction → Prop
  | .onTokenStart => okToken 1
  | .saveChar => okToken (user.token.length + 1)
  | .onGroupStart => okToken 0
  | .saveToken | .saveTokenEndCommand => okCommand (user.tokenList.length + 1)
  | .onCommandEnd => True

/-- The lexemes fit, after so many tokens of the command. -/
def FitsFrom : ℕ → List Lexeme → Prop
  | _, [] => True
  | n, .token token :: lexemes =>
      okToken token.length ∧ okCommand (n + 1) ∧ FitsFrom (n + 1) lexemes
  | n, .openToken token :: lexemes => okToken token.length ∧ FitsFrom n lexemes
  | _, .commandEnd :: lexemes => FitsFrom 0 lexemes

variable [DecidablePred okToken] [DecidablePred okCommand]

instance (user : WcshCmdParse) : DecidablePred (user.Room okToken okCommand)
  | .onTokenStart | .saveChar | .onGroupStart => inferInstanceAs (Decidable (okToken _))
  | .saveToken | .saveTokenEndCommand => inferInstanceAs (Decidable (okCommand _))
  | .onCommandEnd => inferInstanceAs (Decidable True)

def wcshExecWithin (a : WcshAction) (c : UInt8) (user : WcshCmdParse) : Option WcshCmdParse :=
  if user.Room okToken okCommand a then some (a.apply c user) else none

/-- The machine reads the text with every character expected. -/
def Goes (s : CmdlineParseState) (user : WcshCmdParse) (text : Bytes) (user' : WcshCmdParse) :
    Prop :=
  ∃ s', Passes wcshParseScript (wcshExecWithin okToken okCommand) s user text s' user'

end Bounds

section Goes

variable {okToken okCommand : ℕ → Prop} [DecidablePred okToken] [DecidablePred okCommand]
  {user user' : WcshCmdParse} {c : UInt8} {text : Bytes}

theorem goes_nil {s : CmdlineParseState} : Goes okToken okCommand s user [] user' ↔ user' = user :=
  ⟨fun ⟨_, h⟩ => by cases h; rfl, fun h => ⟨s, h ▸ .nil⟩⟩

theorem goes_cons {s : CmdlineParseState} {tr : FsmTransitionInfos CmdlineParseState WcshAction}
    (htr : fsmTransition wcshParseScript s c = some tr) :
    Goes okToken okCommand s user (c :: text) user' ↔
      ∃ user₁, tr.run (wcshExecWithin okToken okCommand) c user = some user₁ ∧
        Goes okToken okCommand tr.next user₁ text user' := by
  constructor
  · rintro ⟨s', h⟩
    cases h with
    | cons htr' hrun hrest =>
        obtain rfl := Option.some.inj (htr.symm.trans htr')
        exact ⟨_, hrun, s', hrest⟩
  · rintro ⟨user₁, hrun, s', hrest⟩
    exact ⟨s', .cons htr hrun hrest⟩

/-- A transition without an action. -/
theorem goes_none {s : CmdlineParseState} {chars : Option Bytes} {next : CmdlineParseState}
    (htr : fsmTransition wcshParseScript s c = some ⟨next, chars, none⟩) :
    Goes okToken okCommand s user (c :: text) user' ↔
      Goes okToken okCommand next user text user' := by
  rw [goes_cons htr]
  exact ⟨fun ⟨_, hrun, h⟩ => Option.some.inj hrun ▸ h, fun h => ⟨user, rfl, h⟩⟩

/-- A transition with an action. -/
theorem goes_some {s : CmdlineParseState} {chars : Option Bytes} {a : WcshAction}
    {next : CmdlineParseState}
    (htr : fsmTransition wcshParseScript s c = some ⟨next, chars, some a⟩) :
    Goes okToken okCommand s user (c :: text) user' ↔
      user.Room okToken okCommand a ∧
        Goes okToken okCommand next (a.apply c user) text user' := by
  rw [goes_cons htr]
  constructor
  · rintro ⟨user₁, hrun, h⟩
    obtain ⟨hroom, heq⟩ := Option.ite_none_right_eq_some.mp hrun
    exact ⟨hroom, Option.some.inj heq ▸ h⟩
  · rintro ⟨hroom, h⟩
    exact ⟨_, if_pos hroom, h⟩

/-! ### The pieces of a text -/

theorem goes_blank (hc : IsBlank c) :
    Goes okToken okCommand .blank user (c :: text) user' ↔
      Goes okToken okCommand .blank user text user' :=
  goes_none (by rw [transition_blank, if_pos hc]; rfl)

theorem IsEnd.not_blank (hc : IsEnd c) : ¬ IsBlank c := by
  rcases hc with rfl | rfl <;> decide

theorem IsEnd.ne_quote (hc : IsEnd c) : c ≠ quote := by
  rcases hc with rfl | rfl <;> decide

theorem IsEnd.ne_commentStart (hc : IsEnd c) : c ≠ commentStart := by
  rcases hc with rfl | rfl <;> decide

theorem goes_end (hc : IsEnd c) :
    Goes okToken okCommand .blank user (c :: text) user' ↔
      Goes okToken okCommand .blank (WcshAction.apply c user .onCommandEnd) text user' := by
  rw [goes_some (by rw [transition_blank, if_neg hc.not_blank, if_neg hc.ne_quote,
    if_neg hc.ne_commentStart, if_pos hc]; rfl)]
  exact and_iff_right trivial

theorem goes_commentStart :
    Goes okToken okCommand .blank user (commentStart :: text) user' ↔
      Goes okToken okCommand .comment user text user' :=
  goes_none (by rw [transition_blank]; rfl)

theorem goes_comment {body : Bytes} (hbody : 10 ∉ body) :
    Goes okToken okCommand .comment user (body ++ text) user' ↔
      Goes okToken okCommand .comment user text user' := by
  induction body with
  | nil => exact Iff.rfl
  | cons c body ih =>
      rw [List.mem_cons, not_or] at hbody
      rw [List.cons_append, goes_none (by rw [transition_comment, if_neg (Ne.symm hbody.1)]; rfl),
        ih hbody.2]

theorem goes_commentEnd :
    Goes okToken okCommand .comment user (10 :: text) user' ↔
      Goes okToken okCommand .blank (WcshAction.apply 10 user .onCommandEnd) text user' := by
  rw [goes_some (by rw [transition_comment, if_pos rfl]; rfl)]
  exact and_iff_right trivial

theorem goes_bareChars {token : Bytes} (htoken : ∀ c ∈ token, IsBare c) :
    Goes okToken okCommand .token user (token ++ text) user' ↔
      (∀ n < token.length, okToken (user.token.length + (n + 1))) ∧
        Goes okToken okCommand .token { user with token := user.token ++ token } text user' := by
  induction token generalizing user with
  | nil => simp
  | cons c token ih =>
      obtain ⟨⟨hblank, hend, hcomment⟩, htoken⟩ := List.forall_mem_cons.mp htoken
      have htr : fsmTransition wcshParseScript .token c =
          some (fsmElse (some .saveChar) .token) := by
        rw [transition_token, if_neg hblank, if_neg hcomment, if_neg hend]
      rw [List.cons_append, goes_some htr, ih htoken, List.length_cons, Nat.forall_lt_succ_left]
      simp only [WcshAction.apply, List.length_append, List.length_singleton, List.append_assoc,
        List.singleton_append, WcshCmdParse.Room, and_assoc, Nat.zero_add, Nat.add_assoc,
        Nat.add_comm 1]

theorem goes_quotedChars {token : Bytes} (htoken : quote ∉ token) :
    Goes okToken okCommand .group user (token.flatMap quoteChar ++ text) user' ↔
      (∀ n < token.length, okToken (user.token.length + (n + 1))) ∧
        Goes okToken okCommand .group { user with token := user.token ++ token } text user' := by
  induction token generalizing user with
  | nil => simp
  | cons c token ih =>
      rw [List.mem_cons, not_or] at htoken
      have hchar (text : Bytes) : Goes okToken okCommand .group user (quoteChar c ++ text) user' ↔
          okToken (user.token.length + 1) ∧ Goes okToken okCommand .group
            { user with token := user.token ++ [c] } text user' := by
        rw [quoteChar]
        split
        next h =>
          obtain rfl := h.resolve_left (Ne.symm htoken.1)
          rw [List.cons_append, List.singleton_append, goes_none transition_group_backslash,
            goes_some (transition_escape backslash)]
          rfl
        next h =>
          rw [not_or] at h
          rw [List.singleton_append, goes_some (transition_group h.1 h.2)]
          rfl
      rw [List.flatMap_cons, List.append_assoc, hchar, ih htoken.2, List.length_cons,
        Nat.forall_lt_succ_left]
      simp only [List.length_append, List.length_singleton, List.append_assoc,
        List.singleton_append, and_assoc, Nat.zero_add, Nat.add_assoc, Nat.add_comm 1]

/-- A token has ended: the machine is then in the place between tokens. -/
theorem goes_tokenEnd (hc : ¬ IsBare c) :
    Goes okToken okCommand .token user (c :: text) user' ↔
      okCommand (user.tokenList.length + 1) ∧ Goes okToken okCommand .blank
        (WcshAction.apply c user .saveToken) (c :: text) user' := by
  by_cases hblank : IsBlank c
  · have htr : fsmTransition wcshParseScript .token c =
        some (fsmWhen (ascii "\t ") (some .saveToken) .blank) := by
      rw [transition_token, if_pos hblank]
    rw [goes_some htr, goes_blank hblank]
    rfl
  · by_cases hcomment : c = commentStart
    · have htr : fsmTransition wcshParseScript .token c =
          some (fsmWhen (ascii "#") (some .saveToken) .comment) := by
        rw [transition_token, if_neg hblank, if_pos hcomment]
      subst hcomment
      rw [goes_some htr, goes_commentStart]
      rfl
    · have hend : IsEnd c := by
        by_contra hend
        exact hc ⟨hblank, hend, hcomment⟩
      have htr : fsmTransition wcshParseScript .token c =
          some (fsmWhen (ascii "\n;") (some .saveTokenEndCommand) .blank) := by
        rw [transition_token, if_neg hblank, if_neg hcomment, if_pos hend]
      have happly : WcshAction.apply c user .saveTokenEndCommand =
          WcshAction.apply c (WcshAction.apply c user .saveToken) .onCommandEnd := by
        simp [WcshAction.apply]
      rw [goes_some htr, goes_end hend, happly]
      rfl

/-- After the closing quote, only a blank or the end of the command is expected. -/
theorem goes_groupEnd (hnext : ∀ c ∈ text.head?, IsBlank c ∨ IsEnd c) :
    Goes okToken okCommand .groupEnd user text user' ↔
      Goes okToken okCommand .blank user text user' := by
  cases text with
  | nil => rw [goes_nil, goes_nil]
  | cons c text =>
      rcases hnext c rfl with hblank | hend
      · have htr : fsmTransition wcshParseScript .groupEnd c =
            some (fsmWhen (ascii "\t ") none .blank) := by
          rw [transition_groupEnd, if_neg fun hend => hend.not_blank hblank, if_pos hblank]
        rw [goes_none htr, goes_blank hblank]
      · have htr : fsmTransition wcshParseScript .groupEnd c =
            some (fsmWhen (ascii "\n;") (some .onCommandEnd) .blank) := by
          rw [transition_groupEnd, if_pos hend]
        rw [goes_some htr, goes_end hend]
        exact and_iff_right trivial

variable (hdown : ∀ m n, m ≤ n → okToken n → okToken m)
include hdown

theorem goes_bare {token : Bytes} (htoken : BareToken token) :
    Goes okToken okCommand .blank user (token ++ text) user' ↔
      okToken token.length ∧
        Goes okToken okCommand .token { user with token := token } text user' := by
  obtain ⟨c, chars, rfl⟩ := List.exists_cons_of_ne_nil htoken.ne_nil
  obtain ⟨⟨hblank, hend, hcomment⟩, hchars⟩ := List.forall_mem_cons.mp htoken.bare
  have hquote : c ≠ quote := fun h => htoken.head (congrArg some h)
  have htr : fsmTransition wcshParseScript .blank c =
      some (fsmElse (some .onTokenStart) .token) := by
    rw [transition_blank, if_neg hblank, if_neg hquote, if_neg hcomment, if_neg hend]
  have hlengths : okToken 1 ∧ (∀ n < chars.length, okToken (1 + (n + 1))) ↔
      okToken (c :: chars).length := by
    refine ⟨fun ⟨hone, hmore⟩ => ?_, fun h => ⟨hdown _ _ (Nat.succ_pos _) h, fun n hn => ?_⟩⟩
    · cases chars with
      | nil => exact hone
      | cons c' chars =>
          have := hmore chars.length (Nat.lt_succ_self _)
          rwa [Nat.add_comm] at this
    · exact hdown _ _ (by rw [List.length_cons]; omega) h
  rw [List.cons_append, goes_some htr, goes_bareChars hchars, ← hlengths, and_assoc]
  rfl

theorem goes_openQuoted {token : Bytes} (htoken : quote ∉ token) :
    Goes okToken okCommand .blank user (quote :: (token.flatMap quoteChar ++ text)) user' ↔
      okToken token.length ∧
        Goes okToken okCommand .group { user with token := token } text user' := by
  have hlengths : okToken 0 ∧ (∀ n < token.length, okToken (0 + (n + 1))) ↔
      okToken token.length := by
    refine ⟨fun ⟨hzero, hmore⟩ => ?_, fun h => ⟨hdown _ _ (Nat.zero_le _) h, fun n hn => ?_⟩⟩
    · cases token with
      | nil => exact hzero
      | cons c token =>
          have := hmore token.length (Nat.lt_succ_self _)
          rwa [Nat.zero_add] at this
    · exact hdown _ _ (by omega) h
  rw [goes_some transition_blank_quote, goes_quotedChars htoken, ← hlengths, and_assoc]
  rfl

theorem goes_quoted {token : Bytes} (htoken : quote ∉ token) :
    Goes okToken okCommand .blank user (quoteToken token ++ text) user' ↔
      okToken token.length ∧ okCommand (user.tokenList.length + 1) ∧
        Goes okToken okCommand .groupEnd
          (WcshAction.apply quote { user with token := token } .saveToken) text user' := by
  have htext : quoteToken token ++ text =
      quote :: (token.flatMap quoteChar ++ quote :: text) := by
    simp [quoteToken]
  rw [htext, goes_openQuoted hdown htoken, goes_some transition_group_quote]
  rfl

/-- **What the machine makes of a text.** With bounds of its own it reads to the end
exactly the texts whose lexemes fit, and hands over the complete commands. -/
theorem goes_of_reads {lexemes : List Lexeme} (h : Reads text lexemes) (user : WcshCmdParse) :
    ((∃ user', Goes okToken okCommand .blank user text user') ↔
      FitsFrom okToken okCommand user.tokenList.length lexemes) ∧
    ∀ user', Goes okToken okCommand .blank user text user' →
      user'.commands = user.commands ++ completed user.tokenList lexemes := by
  induction h generalizing user with
  | nil =>
      refine ⟨iff_of_true ⟨user, goes_nil.mpr rfl⟩ trivial, fun user' hgoes => ?_⟩
      rw [goes_nil.mp hgoes, completed, List.append_nil]
  | blank hc _ ih =>
      simp only [goes_blank hc]
      exact ih user
  | commandEnd hc _ ih =>
      obtain ⟨hfits, hcommands⟩ := ih (WcshAction.apply _ user .onCommandEnd)
      simp only [goes_end hc]
      refine ⟨hfits, fun user' hgoes => (hcommands user' hgoes).trans ?_⟩
      rw [completed, ← List.append_assoc]
      rfl
  | comment hbody _ ih =>
      obtain ⟨hfits, hcommands⟩ := ih (WcshAction.apply 10 user .onCommandEnd)
      simp only [goes_commentStart, goes_comment hbody, goes_commentEnd]
      refine ⟨hfits, fun user' hgoes => (hcommands user' hgoes).trans ?_⟩
      rw [completed, ← List.append_assoc]
      rfl
  | @openComment body hbody =>
      have hgoes (user' : WcshCmdParse) :
          Goes okToken okCommand .blank user (commentStart :: body) user' ↔ user' = user := by
        rw [← List.append_nil body, goes_commentStart, goes_comment hbody, goes_nil]
      simp only [hgoes]
      refine ⟨iff_of_true ⟨user, rfl⟩ trivial, fun user' heq => ?_⟩
      rw [heq, completed, List.append_nil]
  | bare htoken hnext _ ih =>
      obtain ⟨c, text, rfl, hc⟩ := hnext
      obtain ⟨hfits, hcommands⟩ := ih (WcshAction.apply c { user with token := _ } .saveToken)
      rw [WcshAction.apply, List.length_append, List.length_singleton] at hfits
      simp only [goes_bare hdown htoken, goes_tokenEnd hc, exists_and_left]
      exact ⟨and_congr_right fun _ => and_congr_right fun _ => hfits,
        fun user' hgoes => hcommands user' hgoes.2.2⟩
  | @openBare token htoken =>
      have hgoes (user' : WcshCmdParse) : Goes okToken okCommand .blank user token user' ↔
          okToken token.length ∧ user' = { user with token := token } := by
        conv_lhs => rw [← List.append_nil token]
        rw [goes_bare hdown htoken, goes_nil]
      simp only [hgoes, exists_and_left, exists_eq, and_true]
      refine ⟨(and_iff_left trivial).symm, fun user' heq => ?_⟩
      rw [heq.2, completed, completed, List.append_nil]
  | @quoted token _ _ htoken hnext _ ih =>
      obtain ⟨hfits, hcommands⟩ :=
        ih (WcshAction.apply quote { user with token := token } .saveToken)
      rw [WcshAction.apply, List.length_append, List.length_singleton] at hfits
      simp only [goes_quoted hdown htoken, goes_groupEnd hnext, exists_and_left]
      exact ⟨and_congr_right fun _ => and_congr_right fun _ => hfits,
        fun user' hgoes => hcommands user' hgoes.2.2⟩
  | @openQuoted token htoken =>
      have hgoes (user' : WcshCmdParse) :
          Goes okToken okCommand .blank user (quote :: token.flatMap quoteChar) user' ↔
            okToken token.length ∧ user' = { user with token := token } := by
        rw [← List.append_nil (token.flatMap quoteChar), goes_openQuoted hdown htoken, goes_nil]
      simp only [hgoes, exists_and_left, exists_eq, and_true]
      refine ⟨(and_iff_left trivial).symm, fun user' heq => ?_⟩
      rw [heq.2, completed, completed, List.append_nil]
  | @openEscape token htoken =>
      simp only [goes_openQuoted hdown htoken, goes_none transition_group_backslash, goes_nil,
        exists_and_left, exists_eq, and_true]
      refine ⟨(and_iff_left trivial).symm, fun user' heq => ?_⟩
      rw [heq.2, completed, completed, List.append_nil]

/-! ### Every text that the machine reads -/

/-- A text within quotes stops there, after a backslash or not, or comes to the
closing quote. -/
def Within (text : Bytes) : Prop :=
  ∃ token : Bytes, quote ∉ token ∧
    (text = token.flatMap quoteChar ∨ text = token.flatMap quoteChar ++ [backslash] ∨
      ∃ rest, text = token.flatMap quoteChar ++ quote :: rest)

omit hdown in
theorem within_of_goes (h : Goes okToken okCommand .group user text user') : Within text := by
  induction hn : text.length using Nat.strong_induction_on generalizing text user with
  | _ n ih =>
  subst hn
  cases text with
  | nil => exact ⟨[], List.not_mem_nil, .inl rfl⟩
  | cons c text =>
      -- one character of the token more
      have hmore : ∀ {user₁ : WcshCmdParse} {rest : Bytes}, c ≠ quote →
          c :: text = quoteChar c ++ rest → rest.length < (c :: text).length →
          Goes okToken okCommand .group user₁ rest user' → Within (c :: text) := by
        intro user₁ rest hc htext hlt hgoes
        obtain ⟨token, htoken, hcases⟩ := ih _ hlt hgoes rfl
        refine ⟨c :: token, List.not_mem_cons_of_ne_of_not_mem (Ne.symm hc) htoken, ?_⟩
        rw [htext, List.flatMap_cons]
        simpa only [List.append_assoc, List.append_right_inj] using hcases
      by_cases hquote : c = quote
      · subst hquote
        exact ⟨[], List.not_mem_nil, .inr (.inr ⟨text, rfl⟩)⟩
      · by_cases hbackslash : c = backslash
        · subst hbackslash
          rw [goes_none transition_group_backslash] at h
          cases text with
          | nil => exact ⟨[], List.not_mem_nil, .inr (.inl rfl)⟩
          | cons d text =>
              by_cases hd : d = backslash
              · subst hd
                rw [goes_some (transition_escape backslash)] at h
                exact hmore (by decide) rfl (by simp) h.2
              · obtain ⟨s', hpasses⟩ := h
                cases hpasses with
                | cons htr _ _ =>
                    rw [transition_escape, if_neg hd] at htr
                    cases htr
        · rw [goes_some (transition_group hquote hbackslash)] at h
          refine hmore hquote ?_ (Nat.lt_succ_self _) h.2
          rw [quoteChar, if_neg (not_or.mpr ⟨hquote, hbackslash⟩)]
          rfl

instance (c : UInt8) : Decidable (IsBare c) := inferInstanceAs (Decidable (_ ∧ _))

omit hdown in
theorem groupEnd_head (h : Goes okToken okCommand .groupEnd user text user') :
    ∀ c ∈ text.head?, IsBlank c ∨ IsEnd c := by
  cases text with
  | nil => rintro c ⟨⟩
  | cons c text =>
      rintro _ ⟨⟩
      obtain ⟨s', hpasses⟩ := h
      cases hpasses with
      | cons htr _ _ =>
          rw [transition_groupEnd] at htr
          split at htr
          next hend => exact .inr hend
          next =>
            split at htr
            next hblank => exact .inl hblank
            next => cases htr

theorem readable_of_goes (h : Goes okToken okCommand .blank user text user') : Readable text := by
  induction hn : text.length using Nat.strong_induction_on generalizing text user with
  | _ n ih =>
  subst hn
  cases text with
  | nil => exact ⟨[], .nil⟩
  | cons c text =>
      by_cases hblank : IsBlank c
      · rw [goes_blank hblank] at h
        obtain ⟨lexemes, hreads⟩ := ih _ (Nat.lt_succ_self _) h rfl
        exact ⟨_, .blank hblank hreads⟩
      by_cases hend : IsEnd c
      · rw [goes_end hend] at h
        obtain ⟨lexemes, hreads⟩ := ih _ (Nat.lt_succ_self _) h rfl
        exact ⟨_, .commandEnd hend hreads⟩
      by_cases hcomment : c = commentStart
      · subst hcomment
        by_cases hline : 10 ∈ text
        · obtain ⟨body, rest, rfl, hbody⟩ := List.eq_append_cons_of_mem hline
          rw [goes_commentStart, goes_comment hbody, goes_commentEnd] at h
          obtain ⟨lexemes, hreads⟩ := ih rest.length (by simp; omega) h rfl
          exact ⟨_, .comment hbody hreads⟩
        · exact ⟨_, .openComment hline⟩
      by_cases hquote : c = quote
      · subst hquote
        have hgroup := h
        rw [goes_some transition_blank_quote] at hgroup
        obtain ⟨token, htoken, rfl | rfl | ⟨rest, rfl⟩⟩ := within_of_goes hgroup.2
        · exact ⟨_, .openQuoted htoken⟩
        · exact ⟨_, .openEscape htoken⟩
        · have htext : quote :: (token.flatMap quoteChar ++ quote :: rest) =
              quoteToken token ++ rest := by
            simp [quoteToken]
          rw [htext] at h ⊢
          rw [goes_quoted hdown htoken] at h
          have hnext := groupEnd_head h.2.2
          rw [goes_groupEnd hnext] at h
          obtain ⟨lexemes, hreads⟩ := ih rest.length (by simp; omega) h.2.2 rfl
          exact ⟨_, .quoted htoken hnext hreads⟩
      · have hbare : IsBare c := ⟨hblank, hend, hcomment⟩
        set token := (c :: text).takeWhile (IsBare ·) with htoken
        set rest := (c :: text).dropWhile (IsBare ·) with hrest
        have htext : c :: text = token ++ rest := List.takeWhile_append_dropWhile.symm
        have hcons : token = c :: text.takeWhile (IsBare ·) := by
          rw [htoken, List.takeWhile_cons_of_pos (by simpa using hbare)]
        have hword : BareToken token := by
          refine ⟨by simp [hcons], by simpa [hcons] using hquote, fun d hd => ?_⟩
          simpa using List.mem_takeWhile_imp hd
        rw [htext] at h ⊢
        cases hrest' : rest with
        | nil => exact ⟨_, by rw [List.append_nil]; exact .openBare hword⟩
        | cons d rest₁ =>
            have hd : ¬ IsBare d := by
              have := List.head?_dropWhile_not (IsBare ·) (c :: text)
              rw [← hrest, hrest'] at this
              simpa using this
            rw [goes_bare hdown hword, hrest', goes_tokenEnd hd] at h
            have hlt : (d :: rest₁).length < (c :: text).length := by
              rw [htext, hrest', hcons]
              simp
            obtain ⟨lexemes, hreads⟩ := ih _ hlt h.2.2 rfl
            exact ⟨_, .bare hword ⟨d, rest₁, rfl, hd⟩ hreads⟩

end Goes

/-! ### Readable texts and chunks -/

/-- A text can be read when the machine expects all of its characters. -/
theorem readable_iff {text : Bytes} :
    Readable text ↔ (fsmPath wcshParseScript .blank text).isSome := by
  -- the machine with room for everything
  let room : ℕ → Prop := fun _ => True
  have hroom : DecidablePred room := fun _ => inferInstanceAs (Decidable True)
  constructor
  · rintro ⟨lexemes, hreads⟩
    have hfits : ∀ n, FitsFrom room room n lexemes := by
      clear hreads
      induction lexemes with
      | nil => exact fun _ => trivial
      | cons lexeme lexemes ih =>
          intro n
          cases lexeme with
          | token token => exact ⟨trivial, trivial, ih _⟩
          | openToken token => exact ⟨trivial, ih _⟩
          | commandEnd => exact ih 0
    obtain ⟨user', s', hpasses⟩ := ((goes_of_reads (fun _ _ _ _ => trivial) hreads
      wcshNew.user).1).mpr (hfits _)
    rw [hpasses.path]
    rfl
  · intro hpath
    have hgoes : ∀ (text : Bytes) (s : CmdlineParseState) (user : WcshCmdParse),
        (fsmPath wcshParseScript s text).isSome → ∃ user', Goes room room s user text user' := by
      intro text
      induction text with
      | nil => exact fun s user _ => ⟨user, goes_nil.mpr rfl⟩
      | cons c text ih =>
          intro s user hpath
          obtain ⟨s', hs'⟩ := Option.isSome_iff_exists.mp hpath
          obtain ⟨tr, htr, hrest⟩ := Option.bind_eq_some_iff.mp hs'
          have hrun : ∃ user₁, tr.run (wcshExecWithin room room) c user = some user₁ := by
            rw [FsmTransitionInfos.run]
            cases tr.exec with
            | none => exact ⟨user, rfl⟩
            | some a =>
                refine ⟨a.apply c user, if_pos ?_⟩
                cases a <;> trivial
          obtain ⟨user₁, hrun⟩ := hrun
          obtain ⟨user', hgoes⟩ := ih tr.next user₁ (Option.isSome_iff_exists.mpr ⟨s', hrest⟩)
          exact ⟨user', (goes_cons htr).mpr ⟨user₁, hrun, hgoes⟩⟩
    obtain ⟨user', hgoes⟩ := hgoes text .blank wcshNew.user hpath
    exact readable_of_goes (fun _ _ _ _ => trivial) hgoes

/-- Something is taken of every chunk, if only nothing. -/
theorem exists_takes {text : Bytes} (h : Readable text) (chunk : Bytes) :
    ∃ text', Takes text chunk text' := by
  induction chunk generalizing text with
  | nil => exact ⟨text, h, [], [], rfl, (List.append_nil text).symm, by rintro c ⟨⟩⟩
  | cons c chunk ih =>
      by_cases hc : Readable (text ++ [c])
      · obtain ⟨text', hread, cut, rest, rfl, rfl, hstop⟩ := ih hc
        exact ⟨_, hread, c :: cut, rest, rfl, List.append_assoc _ _ _, hstop⟩
      · refine ⟨text, h, [], c :: chunk, rfl, (List.append_nil text).symm, ?_⟩
        rintro _ ⟨⟩
        exact hc

theorem exists_takesAll {text : Bytes} (h : Readable text) (chunks : List Bytes) :
    ∃ text', TakesAll text chunks text' ∧ Readable text' := by
  induction chunks generalizing text with
  | nil => exact ⟨text, .nil, h⟩
  | cons chunk chunks ih =>
      obtain ⟨text₁, htakes⟩ := exists_takes h chunk
      obtain ⟨text', hrest, hread⟩ := ih htakes.1
      exact ⟨text', .cons htakes hrest, hread⟩

theorem TakesAll.grows {text text' : Bytes} {chunks : List Bytes}
    (h : TakesAll text chunks text') : text <+: text' := by
  induction h with
  | nil => exact List.prefix_rfl
  | cons hchunk _ ih =>
      obtain ⟨-, cut, rest, -, rfl, -⟩ := hchunk
      exact (List.prefix_append _ cut).trans ih

section Chunks

variable {exec : WcshAction → UInt8 → WcshCmdParse → Option WcshCmdParse} {f : WcshFsm}

/-- A call takes of its chunk what can be read after the text so far. -/
theorem feed_of_takes {start : WcshCmdParse} {text chunk text' : Bytes}
    (hso : Passes wcshParseScript exec .blank start text f.state f.user)
    (htakes : Takes text chunk text') (s' : CmdlineParseState) (user' : WcshCmdParse) :
    (∃ f', fsmFeed wcshParseScript exec f chunk = some f' ∧ f'.state = s' ∧ f'.user = user') ↔
      Passes wcshParseScript exec .blank start text' s' user' := by
  obtain ⟨hread, cut, rest, rfl, rfl, hstop⟩ := htakes
  have hpath (more : Bytes) : fsmPath wcshParseScript .blank (text ++ more) =
      fsmPath wcshParseScript f.state more := by
    rw [fsmPath_append, hso.path, Option.bind_some]
  rw [fsmFeed_iff_passes]
  · constructor
    · exact hso.append
    · intro h
      obtain ⟨s₁, user₁, htext, hcut⟩ := h.split
      obtain ⟨rfl, rfl⟩ := hso.unique htext
      exact hcut
  · rw [← hpath]
    exact readable_iff.mp hread
  · intro c hc
    have hnot := hstop c hc
    rw [readable_iff, List.append_assoc, hpath] at hnot
    exact Option.not_isSome_iff_eq_none.mp hnot

/-- So do the calls for all chunks. -/
theorem feedChunks_of_takesAll {start : WcshCmdParse} {text text' : Bytes} {chunks : List Bytes}
    (hall : TakesAll text chunks text')
    (hso : Passes wcshParseScript exec .blank start text f.state f.user) (s' : CmdlineParseState)
    (user' : WcshCmdParse) :
    (∃ f', feedChunks wcshParseScript exec f chunks = some f' ∧ f'.state = s' ∧
        f'.user = user') ↔
      Passes wcshParseScript exec .blank start text' s' user' := by
  induction hall generalizing f with
  | nil =>
      constructor
      · rintro ⟨f', hf', rfl, rfl⟩
        obtain rfl := Option.some.inj hf'
        exact hso
      · intro h
        obtain ⟨rfl, rfl⟩ := hso.unique h
        exact ⟨f, rfl, rfl, rfl⟩
  | cons hchunk hrest ih =>
      constructor
      · rintro ⟨f', hf', hends⟩
        obtain ⟨f₁, hf₁, hf'⟩ := Option.bind_eq_some_iff.mp hf'
        have hso₁ := (feed_of_takes hso hchunk _ _).mp ⟨f₁, hf₁, rfl, rfl⟩
        exact (ih hso₁).mp ⟨f', hf', hends⟩
      · intro h
        obtain ⟨more, rfl⟩ := hrest.grows
        obtain ⟨s₁, user₁, htext, -⟩ := h.split
        obtain ⟨f₁, hf₁, rfl, rfl⟩ := (feed_of_takes hso hchunk _ _).mpr htext
        obtain ⟨f', hf', hends⟩ := (ih htext).mpr h
        exact ⟨f', by rw [feedChunks, hf₁]; exact hf', hends⟩

end Chunks

/-! ### Bounds on lengths -/

theorem commandTokens_ne_nil (lexemes : List Lexeme) : commandTokens lexemes ≠ [] := by
  induction lexemes with
  | nil => exact List.cons_ne_nil _ _
  | cons lexeme lexemes ih =>
      cases lexeme with
      | token token =>
          obtain ⟨first, others, heq⟩ := List.exists_cons_of_ne_nil ih
          rw [commandTokens, heq]
          exact List.cons_ne_nil _ _
      | openToken token => exact ih
      | commandEnd => exact List.cons_ne_nil _ _

/-- The lexemes fit when each token and each command does. -/
theorem fitsFrom_iff {okToken : ℕ → Prop} {most n : ℕ} (hn : n ≤ most) (lexemes : List Lexeme) :
    FitsFrom okToken (· ≤ most) n lexemes ↔ (∀ token ∈ tokens lexemes, okToken token.length) ∧
      ∃ first others, commandTokens lexemes = first :: others ∧ n + first.length ≤ most ∧
        ∀ command ∈ others, command.length ≤ most := by
  induction lexemes generalizing n with
  | nil => simp [FitsFrom, tokens, commandTokens, hn]
  | cons lexeme lexemes ih =>
      obtain ⟨first, others, heq⟩ := List.exists_cons_of_ne_nil (commandTokens_ne_nil lexemes)
      cases lexeme with
      | token token =>
          rw [FitsFrom, tokens, List.forall_mem_cons, commandTokens, heq, and_assoc]
          refine and_congr_right fun _ => ?_
          by_cases hmost : n + 1 ≤ most
          · rw [ih hmost, heq]
            simp [hmost, Nat.add_assoc, Nat.add_comm 1]
          · simp [hmost]
            intro _ hle
            omega
      | openToken token =>
          rw [FitsFrom, tokens, List.forall_mem_cons, commandTokens, and_assoc, ih hn]
      | commandEnd =>
          rw [FitsFrom, tokens, commandTokens, ih (Nat.zero_le most), heq]
          simp [hn]

end WebcomSdk.Tools
