import WebcomSdk.Lib.Bisect
import WebcomSdk.Cache.Treenode

/-!
The commands of `tools/wcsh.c`: the table, the search in it and what the tab key
offers. The texts printed by `help` are left out.
-/

namespace WebcomSdk.Tools

open WebcomSdk.Lib WebcomSdk.Datasync WebcomSdk.Cache Std

/-- The functions that the table names. -/
inductive Execute
  | cache | cd | connect | disconnect | exit | help | info | log | ls | merge | off | on | push
  | put | sleep | wait
deriving DecidableEq

structure Command where
  name : Bytes
  minArgs : ℕ
  maxArgs : ℕ
  execute : Execute
  /-- Without the final `NULL`. -/
  completeArgs : Option (List Bytes)
deriving DecidableEq

def onOffArgs : List Bytes :=
  ["child_added", "child_changed", "child_removed", "value"].map ascii

def infoArgs : List Bytes := ["listen", "on"].map ascii

def helpArgs : List Bytes :=
  ["", "cache", "cd", "connect", "disconnect", "exit", "help", "info", "ls", "merge", "off", "on",
    "push", "put"].map ascii

def logArgs : List Bytes := ["off", "on", "verbose"].map ascii

def cacheArgs : List Bytes := ["print", "load", "save"].map ascii

/-- `commands[]`, "in alphabetical order since we use binary search on it". -/
def commands : List Command :=
  [⟨ascii "cache", 1, 2, .cache, some cacheArgs⟩,
    ⟨ascii "cd", 0, 1, .cd, none⟩,
    ⟨ascii "connect", 0, 0, .connect, none⟩,
    ⟨ascii "disconnect", 0, 0, .disconnect, none⟩,
    ⟨ascii "exit", 0, 0, .exit, none⟩,
    ⟨ascii "help", 0, 1, .help, some helpArgs⟩,
    ⟨ascii "info", 1, 1, .info, some infoArgs⟩,
    ⟨ascii "log", 1, 1, .log, some logArgs⟩,
    ⟨ascii "ls", 0, 1, .ls, none⟩,
    ⟨ascii "merge", 2, 2, .merge, none⟩,
    ⟨ascii "off", 1, 2, .off, some onOffArgs⟩,
    ⟨ascii "on", 2, 2, .on, some onOffArgs⟩,
    ⟨ascii "push", 2, 2, .push, none⟩,
    ⟨ascii "put", 2, 2, .put, none⟩,
    ⟨ascii "sleep", 1, 1, .sleep, none⟩,
    ⟨ascii "wait", 1, 3, .wait, none⟩]

def commandNames : List Bytes := commands.map Command.name

def commandsLen : ℤ := commandNames.length

def findCommand (name : Bytes) : Option Command :=
  (bisect (fun mid => strcmp (commandNames.getD mid []) name) 0 (commandsLen - 1)).bind
    fun mid => commands[mid]?

instance : DecidablePred (SortedBy strcmp) :=
  fun keys => inferInstanceAs (Decidable (keys.Pairwise fun a b => strcmp a b = .lt))

theorem commandNames_sorted : SortedBy strcmp commandNames := by decide +kernel

/-- The search finds what has the name, and finds it whenever there is one. -/
theorem findCommand_eq_some_iff {name : Bytes} {command : Command} :
    findCommand name = some command ↔ command ∈ commands ∧ command.name = name := by
  have hkey : ∀ (mid : ℕ) (c : Command),
      commands[mid]? = some c → commandNames[mid]? = some c.name := by
    intro mid c hc
    rw [commandNames, List.getElem?_map, hc]
    rfl
  constructor
  · intro h
    obtain ⟨mid, hmid, hcommand⟩ := Option.bind_eq_some_iff.mp h
    refine ⟨List.mem_of_getElem? hcommand, ?_⟩
    have hname := bisect_keys hmid
    rw [hkey mid command hcommand] at hname
    exact Option.some.inj hname
  · rintro ⟨hmem, rfl⟩
    obtain ⟨mid, hmid⟩ := bisect_keys_of_mem commandNames_sorted []
      (List.mem_map_of_mem (f := Command.name) hmem)
    have hname := bisect_keys hmid
    rw [findCommand, commandsLen, hmid, Option.bind_some]
    -- no two commands have one name
    have hunique : ∀ c ∈ commands, ∀ c' ∈ commands, c.name = c'.name → c = c' := by
      decide +kernel
    rw [commandNames, List.getElem?_map] at hname
    obtain ⟨found, hfound, heq⟩ := Option.map_eq_some_iff.mp hname
    rw [hfound, hunique found (List.mem_of_getElem? hfound) command hmem heq]

/-! ### Completion -/

/-- `strncmp(text, name, n) == 0`. -/
def strncmpEq (text name : Bytes) (n : ℕ) : Bool := text.take n == name.take n

/-- The static variables of a generator: the place in the table, if it has one, and
`text_len`. -/
structure Generator where
  cur : Option ℕ
  textLen : ℕ

/-- The end of both generators: the name at the place, as long as it fits. At the end of the
table there is no name. -/
def generate (names : List Bytes) (text : Bytes) (st : Generator) : Option Bytes × Generator :=
  match st.cur with
  | none => (none, st)
  | some i =>
      match names[i]? with
      | none => (none, st)
      | some name =>
          if strncmpEq text name st.textLen then (some name, { st with cur := some (i + 1) })
          else (none, st)

/-- `command_generator`. When no command fits, the place stays where it was. -/
def commandGenerator (text : Bytes) (state : ℕ) (st : Generator) : Option Bytes × Generator :=
  let st :=
    if state = 0 then
      let st := { st with textLen := text.length }
      match commandNames.findIdx? fun name => strncmpEq text name st.textLen with
      | some i => { st with cur := some i }
      | none => st
    else st
  generate commandNames text st

/-- `arg_generator`. When no choice fits, the place is the end of the table. -/
def argGenerator (choices : List Bytes) (text : Bytes) (state : ℕ) (st : Generator) :
    Option Bytes × Generator :=
  let st :=
    if state = 0 then
      { textLen := text.length
        cur := some (choices.findIdx fun name => strncmpEq text name text.length) }
    else st
  generate choices text st

/-- The loop of `rl_completion_matches` from the call number `state` on. -/
def rlCompletionMatches (gen : ℕ → Generator → Option Bytes × Generator) :
    ℕ → ℕ → Generator → Option (List Bytes)
  | 0, _, _ => none
  | fuel + 1, state, st =>
      match gen state st with
      | (none, _) => some []
      | (some name, st) => (rlCompletionMatches gen fuel (state + 1) st).map (name :: ·)

/-- `isspace`. -/
def isspace (c : UInt8) : Bool := c = 32 || (9 ≤ c && c ≤ 13)

def countHeadingBlanks (s : Bytes) : ℕ := (s.takeWhile isspace).length

/-- `wcsh_completion`: the matches for `text`, which is at `start` in the line. -/
def wcshCompletion (lineBuffer text : Bytes) (start : ℕ) (st : Generator) : Option (List Bytes) :=
  let commandStart := countHeadingBlanks lineBuffer
  if start = commandStart then
    rlCompletionMatches (commandGenerator text) (commandNames.length + 1) 0 st
  else
    match (findCommand (lineBuffer.drop commandStart)).bind Command.completeArgs with
    | some choices => rlCompletionMatches (argGenerator choices text) (choices.length + 1) 0 st
    | none => some []

theorem strncmpEq_iff {text name : Bytes} :
    strncmpEq text name text.length = true ↔ text <+: name := by
  rw [strncmpEq, beq_iff_eq, List.take_length, List.prefix_iff_eq_take]

/-- The longest common prefix. -/
def commonPrefix : Bytes → Bytes → Bytes
  | a :: s, b :: t => if a = b then a :: commonPrefix s t else []
  | _, _ => []

theorem prefix_commonPrefix {text s t : Bytes} (hs : text <+: s) (ht : text <+: t) :
    text <+: commonPrefix s t := by
  induction text generalizing s t with
  | nil => exact List.nil_prefix
  | cons c text ih =>
      obtain ⟨s', rfl⟩ := hs
      obtain ⟨t', rfl⟩ := ht
      rw [List.cons_append, List.cons_append, commonPrefix, if_pos rfl, List.cons_prefix_cons]
      exact ⟨rfl, ih (List.prefix_append _ _) (List.prefix_append _ _)⟩

/-- Between two names there is none without their common beginning. -/
def Grouped : List Bytes → Prop
  | [] => True
  | a :: names => (names.Pairwise fun b c => commonPrefix a c <+: b) ∧ Grouped names

instance Grouped.decidable : DecidablePred Grouped
  | [] => isTrue trivial
  | _ :: names =>
      have := Grouped.decidable names
      inferInstanceAs (Decidable (_ ∧ _))

theorem commandNames_grouped : Grouped commandNames := by decide +kernel

theorem choices_grouped : ∀ command ∈ commands, ∀ choices, command.completeArgs = some choices →
    Grouped choices := by
  have h : ∀ command ∈ commands, Grouped (command.completeArgs.getD []) := by decide +kernel
  intro command hmem choices hchoices
  have := h command hmem
  rwa [hchoices] at this

section Matches

variable {names : List Bytes} {text : Bytes}

/-- Whether a name begins with the text. -/
def fits (text name : Bytes) : Bool := text.isPrefixOf name

theorem strncmpEq_eq_fits (text name : Bytes) :
    strncmpEq text name text.length = fits text name := by
  rw [Bool.eq_iff_iff, strncmpEq_iff, fits, List.isPrefixOf_iff_prefix]

theorem takeWhile_eq_filter (h : names.Pairwise fun b c => fits text c → fits text b) :
    names.takeWhile (fits text) = names.filter (fits text) := by
  induction names with
  | nil => rfl
  | cons name names ih =>
      rw [List.pairwise_cons] at h
      cases hfits : fits text name with
      | true => rw [List.takeWhile_cons_of_pos hfits, List.filter_cons_of_pos hfits, ih h.2]
      | false =>
          have hrest : names.filter (fits text) = [] := by
            rw [List.filter_eq_nil_iff]
            intro c hc hfits'
            rw [h.1 c hc hfits'] at hfits
            cases hfits
          rw [List.takeWhile_cons_of_neg (by simp [hfits]),
            List.filter_cons_of_neg (by simp [hfits]), hrest]

/-- From the first name that fits on, those that fit come first. -/
theorem Grouped.takeWhile_eq (h : Grouped names) :
    (names.drop (names.findIdx (fits text))).takeWhile (fits text) =
      names.filter (fits text) := by
  induction names with
  | nil => rfl
  | cons name names ih =>
      rw [List.findIdx_cons]
      cases hfits : fits text name with
      | true =>
          have hnames : names.Pairwise fun b c =>
              fits text c → fits text b := by
            apply h.1.imp
            intro b c hbc hc
            rw [fits, List.isPrefixOf_iff_prefix] at hfits hc ⊢
            exact (prefix_commonPrefix hfits hc).trans hbc
          rw [cond_true, List.drop_zero, List.takeWhile_cons_of_pos hfits,
            List.filter_cons_of_pos hfits, takeWhile_eq_filter hnames]
      | false =>
          rw [cond_false, List.drop_succ_cons, ih h.2, List.filter_cons_of_neg (by simp [hfits])]

/-- The calls take the names one by one, from the place where the first call is. -/
theorem rlCompletionMatches_eq {gen : ℕ → Generator → Option Bytes × Generator}
    (hgen : ∀ state st, gen (state + 1) st = generate names text st) (fuel state i : ℕ)
    (st : Generator) (hfirst : gen state st = generate names text ⟨some i, text.length⟩)
    (hfuel : names.length - i < fuel) :
    rlCompletionMatches gen fuel state st = some ((names.drop i).takeWhile (fits text)) := by
  induction fuel generalizing state i st with
  | zero => exact absurd hfuel (by omega)
  | succ fuel ih =>
      rw [rlCompletionMatches, hfirst, generate]
      by_cases hi : i < names.length
      · rw [List.drop_eq_getElem_cons hi]
        simp only [List.getElem?_eq_getElem hi, strncmpEq_eq_fits]
        cases hfits : fits text names[i] with
        | false => rw [List.takeWhile_cons_of_neg (by simp [hfits])]; rfl
        | true =>
            rw [List.takeWhile_cons_of_pos hfits]
            simp only [if_true]
            rw [ih (state + 1) (i + 1) _ (hgen _ _) (by omega)]
            rfl
      · rw [List.drop_eq_nil_of_le (by omega)]
        simp only [List.getElem?_eq_none (Nat.le_of_not_lt hi)]
        rfl

theorem rlCompletionMatches_arg (h : Grouped names) (st : Generator) :
    rlCompletionMatches (argGenerator names text) (names.length + 1) 0 st =
      some (names.filter (fits text)) := by
  rw [← h.takeWhile_eq]
  refine rlCompletionMatches_eq (fun _ _ => rfl) _ 0 _ st ?_ (by omega)
  simp only [argGenerator, if_true, strncmpEq_eq_fits]

/-- What was completed before does not matter, although the place may be left from there. -/
theorem rlCompletionMatches_command (text : Bytes) (st : Generator) :
    rlCompletionMatches (commandGenerator text) (commandNames.length + 1) 0 st =
      some (commandNames.filter (fits text)) := by
  cases hfirst : commandNames.findIdx? (fits text) with
  | some i =>
      rw [← commandNames_grouped.takeWhile_eq]
      refine rlCompletionMatches_eq (fun _ _ => rfl) _ 0 _ st ?_ (by omega)
      simp only [commandGenerator, if_true, strncmpEq_eq_fits, hfirst]
      rw [(List.findIdx?_eq_some_iff_findIdx_eq.mp hfirst).2]
  | none =>
      -- the place is an old one, but no name fits there either
      rw [List.findIdx?_eq_none_iff] at hfirst
      have hnone : commandNames.filter (fits text) = [] := by
        rw [List.filter_eq_nil_iff]
        intro name hname
        rw [hfirst name hname]
        exact Bool.false_ne_true
      have hcall : (commandGenerator text 0 st).1 = none := by
        have hfind : commandNames.findIdx? (fits text) = none :=
          List.findIdx?_eq_none_iff.mpr hfirst
        simp only [commandGenerator, if_true, strncmpEq_eq_fits, hfind, generate]
        cases st.cur with
        | none => rfl
        | some i =>
            dsimp only
            cases hname : commandNames[i]? with
            | none => rfl
            | some name =>
                dsimp only
                rw [hfirst name (List.mem_of_getElem? hname)]
                rfl
      rw [hnone, rlCompletionMatches]
      generalize commandGenerator text 0 st = call at hcall ⊢
      obtain ⟨name, st'⟩ := call
      obtain rfl : name = none := hcall
      rfl

end Matches

/-- The names that the tab key should offer, for each input. -/
def offered (lineBuffer text : Bytes) (start : ℕ) : List Bytes :=
  let commandStart := countHeadingBlanks lineBuffer
  let names :=
    if start = commandStart then commandNames
    else ((commands.find? fun command => command.name = lineBuffer.drop commandStart).bind
      Command.completeArgs).getD []
  names.filter (fits text)

theorem find?_name_eq (name : Bytes) :
    (commands.find? fun command => command.name = name) = findCommand name := by
  cases hfound : findCommand name with
  | some command =>
      obtain ⟨hmem, hname⟩ := findCommand_eq_some_iff.mp hfound
      cases hfind : commands.find? fun command => command.name = name with
      | none => exact absurd hname (by simpa using List.find?_eq_none.mp hfind command hmem)
      | some found =>
          have hfound' := findCommand_eq_some_iff.mpr
            ⟨List.mem_of_find?_eq_some hfind, by simpa using List.find?_some hfind⟩
          exact hfound'.symm.trans hfound
  | none =>
      rw [List.find?_eq_none]
      intro command hmem hname
      rw [findCommand_eq_some_iff.mpr ⟨hmem, of_decide_eq_true hname⟩] at hfound
      cases hfound

end WebcomSdk.Tools
