import WebcomSdk.Datasync.ListenRegistry
import WebcomSdk.Datasync.Parser

/-!
Receiving messages over successive connections, `lib/datasync/datasync.c`. The
incremental tokener of json-c is a parameter. The context keeps a parser while a
message is incomplete; the callbacks for a closed or failed connection leave it
there.
-/

namespace WebcomSdk.Datasync

open WebcomSdk.Cache

/-- What `json_tokener_get_error` says after a call of `json_tokener_parse_ex`. -/
inductive TokenerResult where
  | success (j : Json)
  | continue
  | error

/-- A `json_tokener`. -/
structure Tokener where
  State : Type
  new : State
  parseEx : State → Bytes → State × TokenerResult

inductive WcParserResult where
  | ok (msg : WcMsg)
  | continue
  | error

/-- `'\x7b'`, the first byte of every message. -/
def openBrace : UInt8 := 123

section Receive

variable (T : Tokener) (jsonC : JsonC) (keyCmp : Key → Key → Ordering)

def wcDatasyncParseMsgEx (jtok : T.State) (buf : Bytes) : T.State × WcParserResult :=
  match T.parseEx jtok buf with
  | (jtok, .success j) =>
      match wcParseMsgJson jsonC keyCmp j with
      | some msg => (jtok, .ok msg)
      | none => (jtok, .error)
  | (jtok, .continue) => (jtok, .continue)
  | (jtok, .error) => (jtok, .error)

/-- The connection state and the parser of a `wc_datasync_context_t`. -/
structure ReceiveCtx where
  state : CnxState
  parser : Option T.State

/-- What `_wc_datasync_process_message` does to this part of the context. -/
def wcDatasyncProcessMessage (ctx : ReceiveCtx T) : WcMsg → ReceiveCtx T
  | .ctrl (.handshake ..) => { ctx with state := .connected }
  | _ => ctx

/-- The parsed buffer, once there is a parser. Returns the message passed to
`_wc_datasync_process_message`, if any. -/
def parseData (ctx : ReceiveCtx T) (jtok : T.State) (buf : Bytes) : ReceiveCtx T × List WcMsg :=
  match wcDatasyncParseMsgEx T jsonC keyCmp jtok buf with
  | (_, .ok msg) => ({ wcDatasyncProcessMessage T ctx msg with parser := none }, [msg])
  | (jtok, .continue) => ({ ctx with parser := some jtok }, [])
  | (_, .error) => ({ ctx with parser := none }, [])

def wcDatasyncProcessData (ctx : ReceiveCtx T) (buf : Bytes) : ReceiveCtx T × List WcMsg :=
  match ctx.parser with
  | some jtok => parseData T jsonC keyCmp ctx jtok buf
  | none =>
      if buf.head? = some openBrace then parseData T jsonC keyCmp ctx T.new buf
      else (ctx, [])

inductive CnxEvent where
  | connect
  | clientReceive (buf : Bytes)
  | closed
  | clientConnectionError
  deriving Repr, DecidableEq

/-- `_wc_datasync_connect` and `_wc_lws_callback`. -/
def wcLwsCallback (ctx : ReceiveCtx T) : CnxEvent → ReceiveCtx T × List WcMsg
  | .connect =>
      (if ctx.state = .disconnected then { ctx with state := .connecting } else ctx, [])
  | .clientReceive buf =>
      if ctx.state = .disconnecting then (ctx, []) else wcDatasyncProcessData T jsonC keyCmp ctx buf
  | .closed | .clientConnectionError => ({ ctx with state := .disconnected }, [])

def runEvents (ctx : ReceiveCtx T) : List CnxEvent → ReceiveCtx T × List WcMsg
  | [] => (ctx, [])
  | event :: events =>
      let (ctx, passed) := wcLwsCallback T jsonC keyCmp ctx event
      let (ctx, rest) := runEvents ctx events
      (ctx, passed ++ rest)

/-! ### Connections -/

/-- A message as the server cut it. -/
structure SentMessage where
  chunks : List Bytes
  msg : WcMsg

/-- Complete messages, then the chunks of one that the end of the connection cut
off. -/
structure Connection where
  complete : List SentMessage
  cutOff : List Bytes
  error : Bool

def Connection.events (cnx : Connection) : List CnxEvent :=
  .connect :: (cnx.complete.flatMap SentMessage.chunks ++ cnx.cutOff).map .clientReceive ++
    [if cnx.error then .clientConnectionError else .closed]

/-- The messages passed on during each of the connections. -/
def runConnections (ctx : ReceiveCtx T) : List Connection → List (List WcMsg)
  | [] => []
  | cnx :: rest =>
      let (ctx, passed) := runEvents T jsonC keyCmp ctx cnx.events
      passed :: runConnections ctx rest

end Receive

end WebcomSdk.Datasync
