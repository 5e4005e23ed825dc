import WebcomSdk.Datasync.Message

/-!
The message parser, `lib/datasync/parser.c`, from a parsed document on. A
function of the C code that returns 0 returns `none` here; what it left in the
message by then is not read by anyone.
-/

namespace WebcomSdk.Datasync

open WebcomSdk.Cache

/-- `json_object_object_get_ex`, which finds nothing in what is not an object. -/
def Json.getEx (j : Json) (key : Key) : Option Json :=
  match j with
  | .object members => members.lookup key
  | _ => none

def wcHlpGetString (j : Json) (key : Key) : Option Bytes :=
  match Json.getEx j key with
  | some (.string s) => some s
  | _ => none

def wcHlpGetLong (j : Json) (key : Key) : Option Int64 :=
  match Json.getEx j key with
  | some (.int l) => some l
  | _ => none

section Parse

variable (jsonC : JsonC) (keyCmp : Key → Key → Ordering)

def wcHlpGetJsonStr (j : Json) (key : Key) : Option Bytes := (Json.getEx j key).map jsonC.print

/-- `_wc_hlp_get_level1_sorted_json_str`: the members of an object are printed
in the order of `wc_datasync_key_cmp`. -/
def wcHlpGetLevel1SortedJsonStr (j : Json) (key : Key) : Option Bytes :=
  (Json.getEx j key).map fun val =>
    match val with
    | .object members =>
        jsonC.print (.object (members.mergeSort fun a b => keyCmp a.1 b.1 != .gt))
    | val => jsonC.print val

/-! ### Control messages -/

def wcParseHandshake (j : Json) : Option WcCtrlMsg := do
  let ts ← wcHlpGetLong j (ascii "ts")
  let server ← wcHlpGetString j (ascii "h")
  let version ← wcHlpGetString j (ascii "v")
  return .handshake ts server version

def wcParseCtrlMsg (j : Json) : Option WcCtrlMsg := do
  let s ← wcHlpGetString j (ascii "t")
  if s = ascii "h" then
    let d ← Json.getEx j (ascii "d")
    wcParseHandshake d
  else if s = ascii "s" then
    let reason ← wcHlpGetString j (ascii "d")
    return .connectionShutdown reason
  else none

/-! ### Data messages -/

/-- `wc_parse_action_put`: the hash is optional. -/
def wcParseActionPut (j : Json) : Option WcAction := do
  let path ← wcHlpGetString j (ascii "p")
  let data ← wcHlpGetJsonStr jsonC j (ascii "d")
  return .put path data (wcHlpGetString j (ascii "h"))

/-- `wc_parse_action_merge` and the two on-disconnect actions with data. -/
def wcParsePathData (make : Bytes → Bytes → WcAction) (j : Json) : Option WcAction := do
  let path ← wcHlpGetString j (ascii "p")
  let data ← wcHlpGetJsonStr jsonC j (ascii "d")
  return make path data

/-- `wc_parse_action_listen` and the other actions that have a path only. -/
def wcParsePath (make : Bytes → WcAction) (j : Json) : Option WcAction :=
  (wcHlpGetString j (ascii "p")).map make

def wcParseActionMerge : Json → Option WcAction := wcParsePathData jsonC .merge
def wcParseActionListen : Json → Option WcAction := wcParsePath .listen
def wcParseActionUnlisten : Json → Option WcAction := wcParsePath .unlisten
def wcParseActionOnDiscPut : Json → Option WcAction := wcParsePathData jsonC .onDisconnectPut
def wcParseActionOnDiscMerge : Json → Option WcAction := wcParsePathData jsonC .onDisconnectMerge
def wcParseActionOnDiscCancel : Json → Option WcAction := wcParsePath .onDisconnectCancel

def wcParseActionAuth (j : Json) : Option WcAction :=
  (wcHlpGetString j (ascii "cred")).map .authenticate

/-- `wc_parse_action`. The body of a put is looked for under `"b"`; the other
parsers are given the object that holds `"b"`. -/
def wcParseAction (jroot : Json) : Option WcDataMsg := do
  let r ← wcHlpGetLong jroot (ascii "r")
  let s ← wcHlpGetString jroot (ascii "a")
  let action ←
    if s = ascii "p" then (Json.getEx jroot (ascii "b")).bind (wcParseActionPut jsonC)
    else if s = ascii "m" then wcParseActionMerge jsonC jroot
    else if s = ascii "l" then wcParseActionListen jroot
    else if s = ascii "u" then wcParseActionUnlisten jroot
    else if s = ascii "auth" then wcParseActionAuth jroot
    else if s = ascii "unauth" then some .unauthenticate
    else if s = ascii "o" then wcParseActionOnDiscPut jsonC jroot
    else if s = ascii "om" then wcParseActionOnDiscMerge jsonC jroot
    else if s = ascii "oc" then wcParseActionOnDiscCancel jroot
    else none
  return .action r action

def wcParseResponse (jroot : Json) : Option WcDataMsg := do
  let r ← wcHlpGetLong jroot (ascii "r")
  let b ← Json.getEx jroot (ascii "b")
  let status ← wcHlpGetString b (ascii "s")
  let data ← wcHlpGetJsonStr jsonC b (ascii "d")
  return .response r status data

def wcParsePush (jroot : Json) : Option WcDataMsg := do
  let s ← wcHlpGetString jroot (ascii "a")
  let b ← Json.getEx jroot (ascii "b")
  if s = ascii "ac" then
    let status ← wcHlpGetString b (ascii "s")
    let reason ← wcHlpGetString b (ascii "d")
    return .push (.authRevoked status reason)
  else if s = ascii "c" then
    let path ← wcHlpGetString b (ascii "p")
    return .push (.listenRevoked path)
  else if s = ascii "d" then
    let path ← wcHlpGetString b (ascii "p")
    let data ← wcHlpGetLevel1SortedJsonStr jsonC keyCmp b (ascii "d")
    return .push (.dataUpdatePut path data)
  else if s = ascii "m" then
    let path ← wcHlpGetString b (ascii "p")
    let data ← wcHlpGetLevel1SortedJsonStr jsonC keyCmp b (ascii "d")
    return .push (.dataUpdateMerge path data)
  else none

def wcParseDataMsg (jroot : Json) : Option WcDataMsg :=
  let hasA := (Json.getEx jroot (ascii "a")).isSome
  let hasR := (Json.getEx jroot (ascii "r")).isSome
  let hasB := (Json.getEx jroot (ascii "b")).isSome
  if hasA && hasR && hasB then wcParseAction jsonC jroot
  else if !hasA && hasR then wcParseResponse jsonC jroot
  else if hasA && !hasR then wcParsePush jsonC keyCmp jroot
  else none

def wcParseMsgJson (jroot : Json) : Option WcMsg := do
  let s ← wcHlpGetString jroot (ascii "t")
  let d ← Json.getEx jroot (ascii "d")
  if s = ascii "c" then (wcParseCtrlMsg d).map .ctrl
  else if s = ascii "d" then (wcParseDataMsg jsonC keyCmp d).map .data
  else none

/-- `wc_datasync_parse_msg`: a parser of its own, fed with the whole text. -/
def wcDatasyncParseMsg (str : Bytes) : Option WcMsg :=
  (jsonC.parse str).bind (wcParseMsgJson jsonC keyCmp)

end Parse

end WebcomSdk.Datasync
