import WebcomSdk.Cache.Json

/-!
Webcom messages and their JSON, `lib/datasync/message.c`. The printer and the
parser of json-c are parameters. The encoder writes actions only; the other
messages come from the server.
-/

namespace WebcomSdk.Datasync

open WebcomSdk.Cache

/-- `json_object_to_json_string_ext` with the flag `PLAIN`, and the tokener on a
whole text: `none` when it does not succeed. -/
structure JsonC where
  print : Json → Bytes
  parse : Bytes → Option Json

/-- `json_tokener_parse`, which returns `NULL` on an error. -/
def JsonC.tokenerParse (jsonC : JsonC) (text : Bytes) : Json := (jsonC.parse text).getD .null

/-- A `wc_action_t` without its request number. The field `query_ids` of a
listen action is neither written nor read. -/
inductive WcAction where
  | put (path data : Bytes) (hash : Option Bytes)
  | merge (path data : Bytes)
  | listen (path : Bytes)
  | unlisten (path : Bytes)
  | authenticate (cred : Bytes)
  | unauthenticate
  | onDisconnectPut (path data : Bytes)
  | onDisconnectMerge (path data : Bytes)
  | onDisconnectCancel (path : Bytes)
  deriving Repr, DecidableEq

inductive WcPush where
  | authRevoked (status reason : Bytes)
  | listenRevoked (path : Bytes)
  | dataUpdatePut (path data : Bytes)
  | dataUpdateMerge (path data : Bytes)
  deriving Repr, DecidableEq

inductive WcDataMsg where
  | action (r : Int64) (action : WcAction)
  | push (push : WcPush)
  | response (r : Int64) (status data : Bytes)
  deriving Repr, DecidableEq

inductive WcCtrlMsg where
  | handshake (ts : Int64) (server version : Bytes)
  | connectionShutdown (reason : Bytes)
  deriving Repr, DecidableEq

inductive WcMsg where
  | ctrl (ctrl : WcCtrlMsg)
  | data (data : WcDataMsg)
  deriving Repr, DecidableEq

/-- The string by which an action is known on the wire. -/
def WcAction.code : WcAction → Bytes
  | put .. => ascii "p"
  | merge .. => ascii "m"
  | listen .. => ascii "l"
  | unlisten .. => ascii "u"
  | authenticate .. => ascii "auth"
  | unauthenticate => ascii "unauth"
  | onDisconnectPut .. => ascii "o"
  | onDisconnectMerge .. => ascii "om"
  | onDisconnectCancel .. => ascii "oc"

section Encode

variable (jsonC : JsonC)

/-- `_wc_put_msg_to_json` and its siblings: the object under `"b"`. -/
def WcAction.body : WcAction → Json
  | put path data hash =>
      .object ([(ascii "p", .string path), (ascii "d", jsonC.tokenerParse data)] ++
        match hash with
        | some h => [(ascii "h", .string h)]
        | none => [])
  | merge path data | onDisconnectPut path data | onDisconnectMerge path data =>
      .object [(ascii "p", .string path), (ascii "d", jsonC.tokenerParse data)]
  | listen path | unlisten path | onDisconnectCancel path => .object [(ascii "p", .string path)]
  | authenticate cred => .object [(ascii "cred", .string cred)]
  | unauthenticate => .null

def wcDataMsgToJson : WcDataMsg → Json
  | .action r action =>
      .object [(ascii "r", .int r), (ascii "a", .string action.code),
        (ascii "b", action.body jsonC)]
  | .push _ => .object []
  | .response .. => .object []

def wcMsgToJson : WcMsg → Json
  | .data data =>
      .object [(ascii "t", .string (ascii "d")), (ascii "d", wcDataMsgToJson jsonC data)]
  | .ctrl _ => .object [(ascii "t", .string (ascii "c"))]

def wcDatasyncMsgToJsonStr (msg : WcMsg) : Bytes := jsonC.print (wcMsgToJson jsonC msg)

end Encode

end WebcomSdk.Datasync
