import Mathlib.Data.List.TakeWhile
import WebcomSdk.Tools.WcshParse

/-!
Commands written for the parser: every token between single quotes, with a
backslash before each quote and each backslash. The state `STATE_ESCAPE` has a
transition for the backslash only.
-/

namespace WebcomSdk.Tools

open WebcomSdk.Datasync WebcomSdk.Cache

/-! ### The text -/

/-- `'\''`. -/
def quote : UInt8 := 39

/-- `'\\'`. -/
def backslash : UInt8 := 92

def quoteChar (c : UInt8) : Bytes := if c = quote ∨ c = backslash then [backslash, c] else [c]

def quoteToken (token : Bytes) : Bytes := quote :: token.flatMap quoteChar ++ [quote]

def quoteTokens (sep : Bytes) : List Bytes → Bytes
  | [] => []
  | [token] => quoteToken token
  | token :: tokens => quoteToken token ++ sep ++ quoteTokens sep tokens

/-- The commands, each on a line of its own. -/
def quoteScript (sep : Bytes) (commands : List (List Bytes)) : Bytes :=
  commands.flatMap fun command => quoteTokens sep command ++ [10]

/-- Spaces and tabs. -/
def Blanks (sep : Bytes) : Prop := sep ≠ [] ∧ ∀ c ∈ sep, c = 32 ∨ c = 9

instance (sep : Bytes) : Decidable (Blanks sep) := inferInstanceAs (Decidable (_ ∧ _))

/-- At most 32 tokens of at most 1023 bytes, without a NUL. -/
def Passable (command : List Bytes) : Prop :=
  command.length ≤ 32 ∧ ∀ token ∈ command, token.length ≤ 1023 ∧ 0 ∉ token

instance (command : List Bytes) : Decidable (Passable command) :=
  inferInstanceAs (Decidable (_ ∧ _))

/-- No token has a single quote. -/
def Unquoted (command : List Bytes) : Prop := ∀ token ∈ command, quote ∉ token

instance (command : List Bytes) : Decidable (Unquoted command) :=
  inferInstanceAs (Decidable (∀ token ∈ command, quote ∉ token))

/-! ### Inside the quotes -/

abbrev WcshPasses := Passes wcshParseScript wcshExecAction

theorem ascii_quote : ascii "'" = [quote] := rfl

theorem ascii_backslash : ascii "\\" = [backslash] := rfl

theorem transition_group {c : UInt8} (hquote : c ≠ quote) (hbackslash : c ≠ backslash) :
    fsmTransition wcshParseScript .group c = some (fsmElse (some .saveChar) .group) := by
  rw [fsmTransition, wcshParseScript, find?_fsmWhen_cons (by decide),
    find?_fsmWhen_cons (by decide), ascii_quote, ascii_backslash,
    if_neg (List.mem_singleton.not.mpr hquote), if_neg (List.mem_singleton.not.mpr hbackslash),
    find?_fsmElse]

theorem transition_group_quote : fsmTransition wcshParseScript .group quote =
    some (fsmWhen (ascii "'") (some .saveToken) .groupEnd) := by
  rw [fsmTransition, wcshParseScript, find?_fsmWhen_cons (by decide)]
  rfl

theorem transition_group_backslash : fsmTransition wcshParseScript .group backslash =
    some (fsmWhen (ascii "\\") none .escape) := by
  rw [fsmTransition, wcshParseScript, find?_fsmWhen_cons (by decide),
    find?_fsmWhen_cons (by decide)]
  rfl

theorem transition_escape (c : UInt8) : fsmTransition wcshParseScript .escape c =
    if c = backslash then some (fsmWhen (ascii "\\") (some .saveChar) .group) else none := by
  rw [fsmTransition, wcshParseScript, find?_fsmWhen_cons (by decide), ascii_backslash]
  simp only [List.mem_singleton]
  rfl

variable {user : WcshCmdParse}

theorem passes_quoteChar {c : UInt8} (hc : c ≠ quote) (hlen : user.token.length < tokenSize) :
    WcshPasses .group user (quoteChar c) .group { user with token := user.token ++ [c] } := by
  have hsave : saveChar c user = some { user with token := user.token ++ [c] } := if_pos hlen
  rw [quoteChar]
  split
  next h =>
    obtain rfl := h.resolve_left hc
    exact .cons transition_group_backslash rfl
      (.cons (transition_escape backslash) hsave .nil)
  next h =>
    rw [not_or] at h
    exact .cons (transition_group h.1 h.2) hsave .nil

variable (user) in
theorem passes_quoteChars {chars : Bytes} (hchars : quote ∉ chars)
    (hlen : user.token.length + chars.length ≤ tokenSize) :
    WcshPasses .group user (chars.flatMap quoteChar) .group
      { user with token := user.token ++ chars } := by
  induction chars generalizing user with
  | nil =>
      rw [List.append_nil]
      exact .nil
  | cons c chars ih =>
      rw [List.mem_cons, not_or] at hchars
      rw [List.length_cons] at hlen
      rw [List.flatMap_cons]
      refine (passes_quoteChar (Ne.symm hchars.1) (by omega)).append ?_
      have hrest := ih { user with token := user.token ++ [c] } hchars.2
        (by simp only [List.length_append, List.length_singleton]; omega)
      rwa [List.append_assoc] at hrest

/-! ### Tokens and commands -/

theorem transition_blank_quote : fsmTransition wcshParseScript .blank quote =
    some (fsmWhen (ascii "'") (some .onGroupStart) .group) := by
  rw [fsmTransition, wcshParseScript, find?_fsmWhen_cons (by decide),
    find?_fsmWhen_cons (by decide)]
  rfl

theorem transition_blank_newline : fsmTransition wcshParseScript .blank 10 =
    some (fsmWhen (ascii "\n;") (some .onCommandEnd) .blank) := by
  rw [fsmTransition, wcshParseScript, find?_fsmWhen_cons (by decide),
    find?_fsmWhen_cons (by decide), find?_fsmWhen_cons (by decide),
    find?_fsmWhen_cons (by decide)]
  rfl

theorem transition_blank_blank {c : UInt8} (hc : c = 32 ∨ c = 9) :
    fsmTransition wcshParseScript .blank c = some (fsmWhen (ascii "\t ") none .blank) := by
  rw [fsmTransition, wcshParseScript, find?_fsmWhen_cons (by decide)]
  rcases hc with rfl | rfl <;> rfl

theorem transition_groupEnd_newline : fsmTransition wcshParseScript .groupEnd 10 =
    some (fsmWhen (ascii "\n;") (some .onCommandEnd) .blank) := by
  rw [fsmTransition, wcshParseScript, find?_fsmWhen_cons (by decide)]
  rfl

theorem transition_groupEnd_blank {c : UInt8} (hc : c = 32 ∨ c = 9) :
    fsmTransition wcshParseScript .groupEnd c = some (fsmWhen (ascii "\t ") none .blank) := by
  rw [fsmTransition, wcshParseScript, find?_fsmWhen_cons (by decide),
    find?_fsmWhen_cons (by decide)]
  rcases hc with rfl | rfl <;> rfl

variable (user) in
theorem passes_quoteToken {token : Bytes} (htoken : quote ∉ token) (hlen : token.length ≤ 1023)
    (hnul : 0 ∉ token) (hlist : user.tokenList.length < tokenListSize) :
    WcshPasses .blank user (quoteToken token) .groupEnd
      { user with token := token, tokenList := user.tokenList ++ [token] } := by
  have hchars := passes_quoteChars { user with token := [] } htoken
    (by rw [List.length_nil, tokenSize]; omega)
  have hcut : token.takeWhile (· ≠ 0) = token := by
    rw [List.takeWhile_eq_self_iff]
    intro c hc
    exact decide_eq_true fun h => hnul (h ▸ hc)
  have hsave : saveToken quote { user with token := token } =
      some { user with token := token, tokenList := user.tokenList ++ [token] } := by
    rw [saveToken, if_pos ⟨Nat.lt_succ_of_le hlen, hlist⟩, hcut]
  exact .cons transition_blank_quote rfl
    (hchars.append (.cons transition_group_quote hsave .nil))

theorem passes_blanks {sep : Bytes} (hsep : ∀ c ∈ sep, c = 32 ∨ c = 9) :
    WcshPasses .blank user sep .blank user := by
  induction sep with
  | nil => exact .nil
  | cons c sep ih =>
      rw [List.forall_mem_cons] at hsep
      exact .cons (transition_blank_blank hsep.1) rfl (ih hsep.2)

theorem passes_sep {sep : Bytes} (hsep : Blanks sep) :
    WcshPasses .groupEnd user sep .blank user := by
  obtain ⟨c, sep, rfl⟩ := List.exists_cons_of_ne_nil hsep.1
  obtain ⟨hc, hsep⟩ := List.forall_mem_cons.mp hsep.2
  exact .cons (transition_groupEnd_blank hc) rfl (passes_blanks hsep)

variable (user) in
theorem passes_quoteTokens {sep : Bytes} (hsep : Blanks sep) {tokens : List Bytes}
    (hne : tokens ≠ []) (hclean : Unquoted tokens)
    (htokens : ∀ token ∈ tokens, token.length ≤ 1023 ∧ 0 ∉ token)
    (hlist : user.tokenList.length + tokens.length ≤ tokenListSize) :
    ∃ token, WcshPasses .blank user (quoteTokens sep tokens) .groupEnd
      { user with token, tokenList := user.tokenList ++ tokens } := by
  induction tokens generalizing user with
  | nil => exact absurd rfl hne
  | cons token tokens ih =>
      rw [List.length_cons] at hlist
      obtain ⟨htoken, htokens⟩ := List.forall_mem_cons.mp htokens
      obtain ⟨hclean₁, hclean⟩ := List.forall_mem_cons.mp hclean
      have hfirst := passes_quoteToken user hclean₁ htoken.1 htoken.2 (by omega)
      cases tokens with
      | nil => exact ⟨token, hfirst⟩
      | cons token₂ tokens =>
          obtain ⟨last, hrest⟩ := ih
            { user with token := token, tokenList := user.tokenList ++ [token] }
            (List.cons_ne_nil _ _) hclean htokens
            (by simp only [List.length_append, List.length_singleton]; omega)
          rw [List.append_assoc] at hrest
          exact ⟨last, (hfirst.append (passes_sep hsep)).append hrest⟩

/-- A line without quotes in its tokens; an empty line hands nothing over. -/
theorem passes_command {sep : Bytes} (hsep : Blanks sep) {command : List Bytes}
    (hpass : Passable command) (hclean : Unquoted command) (huser : user.tokenList = []) :
    ∃ token, WcshPasses .blank user (quoteTokens sep command ++ [10]) .blank
      { token, tokenList := [], commands := user.commands ++ [command].filter (· ≠ []) } := by
  cases command with
  | nil =>
      refine ⟨user.token, .cons transition_blank_newline ?_ .nil⟩
      rw [FsmTransitionInfos.run]
      simp [fsmWhen, wcshExecAction, onCommandEnd, huser]
  | cons token tokens =>
      obtain ⟨last, hpasses⟩ := passes_quoteTokens user hsep (List.cons_ne_nil _ _)
        hclean hpass.2 (by simpa [huser, tokenListSize] using hpass.1)
      refine ⟨last, hpasses.append (.cons transition_groupEnd_newline ?_ .nil)⟩
      rw [FsmTransitionInfos.run]
      simp [fsmWhen, wcshExecAction, onCommandEnd, huser]

/-! ### Quotes -/

variable {f : WcshFsm}

/-- The quote after the backslash is an unexpected character. -/
theorem feed_quotedToken {token : Bytes} (hstate : f.state = .blank) (hquote : quote ∈ token)
    (hlen : token.length ≤ 1023) (rest : Bytes) :
    ∃ f', wcshFeed f (quoteToken token ++ rest) = some f' ∧
      f'.user.commands = f.user.commands := by
  obtain ⟨chars, token, rfl, hchars⟩ := List.eq_append_cons_of_mem hquote
  have hpasses : WcshPasses f.state f.user (quote :: chars.flatMap quoteChar ++ [backslash])
      .escape { f.user with token := chars } := by
    rw [hstate]
    refine .cons transition_blank_quote rfl ?_
    have hchars' := passes_quoteChars { f.user with token := [] } hchars
      (by
        rw [List.length_append] at hlen
        rw [List.length_nil, tokenSize]
        omega)
    exact hchars'.append (.cons transition_group_backslash rfl .nil)
  obtain ⟨f', -, hstate', huser', hfeed⟩ := fsmFeed_of_passes hpasses
  refine ⟨{ f'.count quote with ps := .unexpectedInput }, ?_, by simp [huser']⟩
  have htext : quoteToken (chars ++ quote :: token) ++ rest =
      (quote :: chars.flatMap quoteChar ++ [backslash]) ++
        (quote :: (token.flatMap quoteChar ++ [quote] ++ rest)) := by
    simp [quoteToken, quoteChar]
  rw [htext, wcshFeed, hfeed]
  refine fsmFeed_of_unexpected ?_
  rw [hstate', transition_escape]
  rfl

theorem feed_quotedTokens {sep : Bytes} (hsep : Blanks sep) {tokens : List Bytes}
    (hstate : f.state = .blank) (hquoted : ¬ Unquoted tokens)
    (htokens : ∀ token ∈ tokens, token.length ≤ 1023 ∧ 0 ∉ token)
    (hlist : f.user.tokenList.length + tokens.length ≤ tokenListSize) (rest : Bytes) :
    ∃ f', wcshFeed f (quoteTokens sep tokens ++ rest) = some f' ∧
      f'.user.commands = f.user.commands := by
  induction tokens generalizing f with
  | nil => exact absurd (fun _ h => absurd h List.not_mem_nil) hquoted
  | cons token tokens ih =>
      rw [List.length_cons] at hlist
      obtain ⟨htoken, htokens⟩ := List.forall_mem_cons.mp htokens
      have hsplit : ∃ rest', quoteTokens sep (token :: tokens) ++ rest =
          quoteToken token ++ rest' := by
        cases tokens with
        | nil => exact ⟨rest, rfl⟩
        | cons token₂ tokens =>
            refine ⟨sep ++ (quoteTokens sep (token₂ :: tokens) ++ rest), ?_⟩
            simp only [quoteTokens, List.append_assoc]
      by_cases hquote : quote ∈ token
      · obtain ⟨rest', hrest'⟩ := hsplit
        rw [hrest']
        exact feed_quotedToken hstate hquote htoken.1 rest'
      · have hquoted : ¬ Unquoted tokens := fun h =>
          hquoted (List.forall_mem_cons.mpr ⟨hquote, h⟩)
        cases tokens with
        | nil => exact absurd (fun _ h => absurd h List.not_mem_nil) hquoted
        | cons token₂ tokens =>
            have hpasses : WcshPasses f.state f.user (quoteToken token ++ sep) .blank
                { f.user with token := token, tokenList := f.user.tokenList ++ [token] } := by
              rw [hstate]
              exact (passes_quoteToken f.user hquote htoken.1 htoken.2 (by omega)).append
                (passes_sep hsep)
            obtain ⟨f₁, -, hstate₁, huser₁, hfeed⟩ := fsmFeed_of_passes hpasses
            obtain ⟨f', hf', hcommands⟩ := ih hstate₁ hquoted htokens
              (by
                rw [huser₁, List.length_append, List.length_singleton]
                omega)
            refine ⟨f', ?_, by rw [hcommands, huser₁]⟩
            have htext : quoteTokens sep (token :: token₂ :: tokens) ++ rest =
                (quoteToken token ++ sep) ++ (quoteTokens sep (token₂ :: tokens) ++ rest) :=
              List.append_assoc _ _ _
            rw [htext, wcshFeed, hfeed]
            exact hf'

/-- Everything up to the first command with a quote in a token is executed. -/
theorem feed_quoteScript {sep : Bytes} (hsep : Blanks sep) {commands : List (List Bytes)}
    (hpass : ∀ command ∈ commands, Passable command) (hstate : f.state = .blank)
    (huser : f.user.tokenList = []) :
    (wcshFeed f (quoteScript sep commands)).map (fun f => f.user.commands) =
      some (f.user.commands ++ (commands.takeWhile (Unquoted ·)).filter (· ≠ [])) := by
  induction commands generalizing f with
  | nil => simp [quoteScript, wcshFeed, fsmFeed]
  | cons command commands ih =>
      obtain ⟨hcommand, hpass⟩ := List.forall_mem_cons.mp hpass
      rw [quoteScript, List.flatMap_cons]
      by_cases hclean : Unquoted command
      · obtain ⟨token, hpasses⟩ := passes_command hsep hcommand hclean huser
        obtain ⟨f', -, hstate', huser', hfeed⟩ := fsmFeed_of_passes (f := f)
          (by rw [hstate]; exact hpasses)
        have hrest := ih hpass hstate' (by rw [huser'])
        rw [wcshFeed, hfeed]
        rw [wcshFeed, quoteScript] at hrest
        rw [hrest, huser', List.takeWhile_cons_of_pos (by simpa using hclean), List.append_assoc,
          ← List.filter_append]
        rfl
      · obtain ⟨f', hf', hcommands⟩ := feed_quotedTokens hsep hstate hclean hcommand.2
          (by simpa [huser, tokenListSize] using hcommand.1)
          ([10] ++ quoteScript sep commands)
        rw [List.append_assoc]
        rw [quoteScript] at hf'
        rw [hf', List.takeWhile_cons_of_neg (by simpa using hclean)]
        simp [hcommands]

theorem takeWhile_eq_self_of_filter {commands : List (List Bytes)}
    (h : (commands.takeWhile (Unquoted ·)).filter (· ≠ []) = commands.filter (· ≠ [])) :
    ∀ command ∈ commands, Unquoted command := by
  induction commands with
  | nil => simp
  | cons command commands ih =>
      by_cases hclean : Unquoted command
      · rw [List.takeWhile_cons_of_pos (by simpa using hclean), List.filter_cons,
          List.filter_cons] at h
        refine List.forall_mem_cons.mpr ⟨hclean, ih ?_⟩
        split at h
        · exact (List.cons_inj_right command).mp h
        · exact h
      · rw [List.takeWhile_cons_of_neg (by simpa using hclean), List.filter_nil] at h
        -- a command with a quote in it is not empty
        have hne : command ≠ [] := by
          rintro rfl
          exact hclean fun _ hmem => absurd hmem List.not_mem_nil
        rw [List.filter_cons_of_pos (by simpa using hne)] at h
        cases h

/-- **Quoting.** Quoted for the shell, commands are executed as they are exactly
when no token has a single quote in it and, empty lines being ignored, no command
is empty. -/
theorem quoted_executes_iff {sep : Bytes} (hsep : Blanks sep) (commands : List (List Bytes))
    (hpass : ∀ command ∈ commands, Passable command) :
    ((wcshFeed wcshNew (quoteScript sep commands)).map (fun f => f.user.commands) =
        some commands ↔
      ∀ command ∈ commands, Unquoted command ∧ command ≠ []) ∧
    ((wcshFeed wcshNew (quoteScript sep commands)).map (fun f => f.user.commands) =
        some (commands.filter (· ≠ [])) ↔
      ∀ command ∈ commands, Unquoted command) := by
  have hfeed := feed_quoteScript (f := wcshNew) hsep hpass rfl rfl
  rw [show wcshNew.user.commands = [] from rfl, List.nil_append] at hfeed
  have hall : ∀ h : ∀ command ∈ commands, Unquoted command,
      commands.takeWhile (Unquoted ·) = commands := by
    intro h
    rw [List.takeWhile_eq_self_iff]
    exact fun command hmem => decide_eq_true (h command hmem)
  rw [hfeed, Option.some_inj, Option.some_inj]
  refine ⟨⟨fun h => ?_, fun h => ?_⟩, ⟨takeWhile_eq_self_of_filter, fun h => by rw [hall h]⟩⟩
  · have hne : ∀ command ∈ commands, command ≠ [] := by
      intro command hmem
      rw [← h] at hmem
      simpa using (List.mem_filter.mp hmem).2
    have hself : commands.filter (· ≠ []) = commands :=
      List.filter_eq_self.mpr fun command hmem => decide_eq_true (hne command hmem)
    have hclean := takeWhile_eq_self_of_filter (h.trans hself.symm)
    exact fun command hmem => ⟨hclean command hmem, hne command hmem⟩
  · rw [hall fun command hmem => (h command hmem).1]
    exact List.filter_eq_self.mpr fun command hmem => decide_eq_true (h command hmem).2

theorem quoted_executes_put :
    (wcshFeed wcshNew (quoteScript [32] [[ascii "put", ascii "/a", ascii "\"\\n;#\""]])).map
        (fun f => f.user.commands) = some [[ascii "put", ascii "/a", ascii "\"\\n;#\""]] :=
  (quoted_executes_iff (by decide +kernel) _ (by decide)).1.mpr (by decide)

/-- `put /a '"it\'s"'`. -/
theorem quote_refused : ¬ ∀ (sep : Bytes) (commands : List (List Bytes)), Blanks sep →
    (∀ command ∈ commands, Passable command) →
    (wcshFeed wcshNew (quoteScript sep commands)).map (fun f => f.user.commands) =
      some commands := by
  intro h
  have hblanks : Blanks [32] := by decide +kernel
  exact absurd (h [32] [[ascii "put", ascii "/a", ascii "\"it's\""]] hblanks (by decide))
    (by decide +kernel)

end WebcomSdk.Tools
