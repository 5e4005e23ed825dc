import WebcomSdk.Cache.Treenode
import WebcomSdk.Tools.Fsm

/-!
The command parser of the shell, `tools/wcsh_parse.c` and `tools/wcsh.fsm`. The
`token` array is the list of its first `token_len` bytes, the `token_list` array
the list of its first `token_list_len` entries; nothing reads beyond them.
-/

namespace WebcomSdk.Tools

open WebcomSdk.Datasync WebcomSdk.Cache

inductive CmdlineParseState where
  | blank
  | token
  | group
  | escape
  | groupEnd
  | comment
  deriving DecidableEq

/-- `sizeof token`. -/
def tokenSize : ℕ := 1024

/-- The slots of `token_list`. -/
def tokenListSize : ℕ := 32

/-- The commands are the argument lists given to `wcsh_exec`, or to
`wcsh_program_append` in a script, so far. -/
structure WcshCmdParse where
  tokenList : List Bytes
  token : Bytes
  commands : List (List Bytes)
  deriving DecidableEq

/-! ### The actions -/

/-- `token[token_len++] = c`. -/
def saveChar (c : UInt8) (user : WcshCmdParse) : Option WcshCmdParse :=
  if user.token.length < tokenSize then some { user with token := user.token ++ [c] } else none

def onTokenStart (c : UInt8) (user : WcshCmdParse) : Option WcshCmdParse :=
  some { user with token := [c] }

def onGroupStart (_c : UInt8) (user : WcshCmdParse) : Option WcshCmdParse :=
  some { user with token := [] }

/-- The terminating NUL and the new entry must both fit; `strdup` stops at the
first NUL. -/
def saveToken (_c : UInt8) (user : WcshCmdParse) : Option WcshCmdParse :=
  if user.token.length < tokenSize ∧ user.tokenList.length < tokenListSize then
    some { user with tokenList := user.tokenList ++ [user.token.takeWhile (· ≠ 0)] }
  else none

def onCommandEnd (_c : UInt8) (user : WcshCmdParse) : Option WcshCmdParse :=
  some { user with
    commands := if user.tokenList.length > 0 then user.commands ++ [user.tokenList]
      else user.commands
    tokenList := [] }

def saveTokenEndCommand (c : UInt8) (user : WcshCmdParse) : Option WcshCmdParse :=
  (saveToken c user).bind (onCommandEnd c)

inductive WcshAction where
  | onTokenStart
  | saveChar
  | onGroupStart
  | saveToken
  | onCommandEnd
  | saveTokenEndCommand
  deriving DecidableEq

def wcshExecAction : WcshAction → UInt8 → WcshCmdParse → Option WcshCmdParse
  | .onTokenStart => onTokenStart
  | .saveChar => saveChar
  | .onGroupStart => onGroupStart
  | .saveToken => saveToken
  | .onCommandEnd => onCommandEnd
  | .saveTokenEndCommand => saveTokenEndCommand

/-! ### The machine -/

/-- `wcsh.fsm`. -/
def wcshParseScript : CmdlineParseState → FsmStateInfos CmdlineParseState WcshAction
  | .blank => ⟨true, [
      fsmWhen (ascii "\t ") none .blank,
      fsmWhen (ascii "'") (some .onGroupStart) .group,
      fsmWhen (ascii "#") none .comment,
      fsmWhen (ascii "\n;") (some .onCommandEnd) .blank,
      fsmElse (some .onTokenStart) .token]⟩
  | .token => ⟨true, [
      fsmWhen (ascii "\t ") (some .saveToken) .blank,
      fsmWhen (ascii "#") (some .saveToken) .comment,
      fsmWhen (ascii "\n;") (some .saveTokenEndCommand) .blank,
      fsmElse (some .saveChar) .token]⟩
  | .group => ⟨false, [
      fsmWhen (ascii "'") (some .saveToken) .groupEnd,
      fsmWhen (ascii "\\") none .escape,
      fsmElse (some .saveChar) .group]⟩
  | .escape => ⟨false, [
      fsmWhen (ascii "\\") (some .saveChar) .group]⟩
  | .groupEnd => ⟨true, [
      fsmWhen (ascii "\n;") (some .onCommandEnd) .blank,
      fsmWhen (ascii "\t ") none .blank]⟩
  | .comment => ⟨true, [
      fsmWhen (ascii "\n") (some .onCommandEnd) .blank,
      fsmElse none .comment]⟩

abbrev WcshFsm := Fsm CmdlineParseState WcshCmdParse

def wcshNew : WcshFsm := fsmNew .blank { tokenList := [], token := [], commands := [] }

/-- `fsm_feed` on the machine of the shell. -/
def wcshFeed : WcshFsm → Bytes → Option WcshFsm := fsmFeed wcshParseScript wcshExecAction

def wcshFeedChunks : WcshFsm → List Bytes → Option WcshFsm :=
  feedChunks wcshParseScript wcshExecAction

/-- Whether `fsm_perror` is called is the second result. The static machine is
created at the first call. -/
def wcshChunkEval (fsm : WcshFsm) (buf : Bytes) : Option (WcshFsm × Bool) :=
  if buf.length > 0 then (wcshFeed fsm buf).map fun fsm => (fsm, fsm.ps ≠ .parsing)
  else
    (wcshFeed fsm [10]).map fun fsm =>
      if fsm.ps ≠ .parsing then (fsm, true)
      else
        let fsm := fsmEnd wcshParseScript fsm
        (fsm, fsm.ps ≠ .ok)

/-! ### Transitions -/

theorem accepts_fsmWhen {S A : Type*} {chars : Bytes} (h : SortedChars chars) (exec : Option A)
    (next : S) (c : UInt8) : (fsmWhen chars exec next).accepts c = decide (c ∈ chars) := by
  rw [Bool.eq_iff_iff, decide_eq_true_iff]
  exact binsearch_iff h

theorem find?_fsmWhen_cons {S A : Type*} {chars : Bytes} (h : SortedChars chars)
    (exec : Option A) (next : S) (c : UInt8) (transitions : List (FsmTransitionInfos S A)) :
    (fsmWhen chars exec next :: transitions).find? (fun tr => tr.accepts c) =
      if c ∈ chars then some (fsmWhen chars exec next)
      else transitions.find? fun tr => tr.accepts c := by
  rw [List.find?_cons, accepts_fsmWhen h]
  split
  next hmem => rw [if_pos (of_decide_eq_true hmem)]
  next hmem => rw [if_neg (of_decide_eq_false hmem)]

/-- A state in which every character is expected. -/
theorem find?_fsmElse {S A : Type*} (exec : Option A) (next : S) (c : UInt8) :
    [fsmElse exec next].find? (fun tr => tr.accepts c) = some (fsmElse exec next) := rfl

end WebcomSdk.Tools
