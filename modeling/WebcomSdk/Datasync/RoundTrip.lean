import WebcomSdk.Datasync.Parser

/-!
Encoding and decoding an action. The encoder puts the fields of every action in
an object under `"b"`; the decoder looks for them there for a put only, and one
level too high for the other actions that have fields.
-/

namespace WebcomSdk.Datasync

open WebcomSdk.Cache

/-- What json-c prints for the document, it parses back. -/
def JsonC.Faithful (jsonC : JsonC) (j : Json) : Prop := jsonC.parse (jsonC.print j) = some j

/-- The JSON text an action carries. -/
def WcAction.data? : WcAction → Option Bytes
  | put _ data _ | merge _ data | onDisconnectPut _ data | onDisconnectMerge _ data => some data
  | _ => none

/-- The data of the action, if it has any, is a JSON document that json-c prints
faithfully. -/
def WcAction.DataValid (jsonC : JsonC) (action : WcAction) : Prop :=
  ∀ data ∈ action.data?, ∃ j, jsonC.parse data = some j ∧ jsonC.Faithful j

/-- The same kind of action with the same fields, data being compared as JSON. -/
def SameAction (jsonC : JsonC) : WcAction → WcAction → Prop
  | .put p d h, .put p' d' h' => p = p' ∧ jsonC.parse d = jsonC.parse d' ∧ h = h'
  | .merge p d, .merge p' d' => p = p' ∧ jsonC.parse d = jsonC.parse d'
  | .listen p, .listen p' => p = p'
  | .unlisten p, .unlisten p' => p = p'
  | .authenticate c, .authenticate c' => c = c'
  | .unauthenticate, .unauthenticate => True
  | .onDisconnectPut p d, .onDisconnectPut p' d' => p = p' ∧ jsonC.parse d = jsonC.parse d'
  | .onDisconnectMerge p d, .onDisconnectMerge p' d' => p = p' ∧ jsonC.parse d = jsonC.parse d'
  | .onDisconnectCancel p, .onDisconnectCancel p' => p = p'
  | _, _ => False

/-- Parsing the encoded message gives the action back. -/
def RoundTrips (jsonC : JsonC) (keyCmp : Key → Key → Ordering) (r : Int64) (action : WcAction) :
    Prop :=
  ∃ action', wcDatasyncParseMsg jsonC keyCmp
      (wcDatasyncMsgToJsonStr jsonC (.data (.action r action))) = some (.data (.action r action')) ∧
    SameAction jsonC action action'

/-- A put, or an action without fields. -/
def WcAction.Decodable : WcAction → Prop
  | put .. | unauthenticate => True
  | _ => False

section RoundTrip

variable {jsonC : JsonC} {keyCmp : Key → Key → Ordering}

/-- The decoder reaches the action with its request number and its code. -/
theorem parse_action_msg (r : Int64) (action : WcAction)
    (hmsg : jsonC.Faithful (wcMsgToJson jsonC (.data (.action r action)))) :
    wcDatasyncParseMsg jsonC keyCmp (wcDatasyncMsgToJsonStr jsonC (.data (.action r action))) =
      (wcParseAction jsonC (wcDataMsgToJson jsonC (.action r action))).map .data := by
  rw [wcDatasyncParseMsg, wcDatasyncMsgToJsonStr, hmsg]
  rfl

/-- **An action survives encoding and decoding exactly when it is a put or an
unauthenticate.** -/
theorem round_trips_iff (r : Int64) (action : WcAction) (hdata : action.DataValid jsonC)
    (hmsg : jsonC.Faithful (wcMsgToJson jsonC (.data (.action r action)))) :
    RoundTrips jsonC keyCmp r action ↔ action.Decodable := by
  rw [RoundTrips, parse_action_msg r action hmsg]
  cases action with
  | put path data hash =>
      obtain ⟨j, hj, hprint⟩ := hdata data rfl
      refine iff_of_true ⟨.put path (jsonC.print j) hash, ?_, rfl, ?_, rfl⟩ trivial
      · have htok : jsonC.tokenerParse data = j := by rw [JsonC.tokenerParse, hj, Option.getD_some]
        cases hash <;> simp [wcDataMsgToJson, WcAction.body, htok] <;> rfl
      · rw [hj, hprint]
  | unauthenticate => exact iff_of_true ⟨.unauthenticate, rfl, trivial⟩ trivial
  | merge path data => exact iff_of_false (fun ⟨_, h, _⟩ => by cases h) id
  | listen path => exact iff_of_false (fun ⟨_, h, _⟩ => by cases h) id
  | unlisten path => exact iff_of_false (fun ⟨_, h, _⟩ => by cases h) id
  | authenticate cred => exact iff_of_false (fun ⟨_, h, _⟩ => by cases h) id
  | onDisconnectPut path data => exact iff_of_false (fun ⟨_, h, _⟩ => by cases h) id
  | onDisconnectMerge path data => exact iff_of_false (fun ⟨_, h, _⟩ => by cases h) id
  | onDisconnectCancel path => exact iff_of_false (fun ⟨_, h, _⟩ => by cases h) id

end RoundTrip

/-! ### Two messages -/

def putAction : WcAction := .put (ascii "a") (ascii "true") none

def putJson : Json :=
  .object [(ascii "t", .string (ascii "d")), (ascii "d", .object [(ascii "r", .int 1),
    (ascii "a", .string (ascii "p")),
    (ascii "b", .object [(ascii "p", .string (ascii "a")), (ascii "d", .boolean true)])])]

def putText : Bytes :=
  ascii "\x7b\"t\":\"d\",\"d\":\x7b\"r\":1,\"a\":\"p\",\"b\":\x7b\"p\":\"a\",\"d\":true\x7d\x7d\x7d"

/-- json-c on the two documents that a put of `true` involves. -/
def putJsonC : JsonC where
  print
    | .boolean true => ascii "true"
    | _ => putText
  parse text :=
    if text = ascii "true" then some (.boolean true)
    else if text = putText then some putJson
    else none

theorem put_round_trips : RoundTrips putJsonC strcmp 1 putAction := by
  refine (round_trips_iff 1 putAction ?_ ?_).mpr trivial
  · rintro data ⟨⟩
    exact ⟨.boolean true, rfl, rfl⟩
  · show putJsonC.parse (putJsonC.print putJson) = some putJson
    rfl

def listenJson : Json :=
  .object [(ascii "t", .string (ascii "d")), (ascii "d", .object [(ascii "r", .int 1),
    (ascii "a", .string (ascii "l")), (ascii "b", .object [(ascii "p", .string (ascii "a"))])])]

def listenText : Bytes :=
  ascii "\x7b\"t\":\"d\",\"d\":\x7b\"r\":1,\"a\":\"l\",\"b\":\x7b\"p\":\"a\"\x7d\x7d\x7d"

/-- json-c on the document of one listen action. -/
def listenJsonC : JsonC where
  print _ := listenText
  parse text := if text = listenText then some listenJson else none

/-- The path of a listen action is not found again. -/
theorem listen_does_not_round_trip :
    ¬ ∀ (jsonC : JsonC) (r : Int64) (action : WcAction), action.DataValid jsonC →
      jsonC.Faithful (wcMsgToJson jsonC (.data (.action r action))) →
        RoundTrips jsonC strcmp r action := by
  intro hall
  have hmsg : listenJsonC.Faithful
      (wcMsgToJson listenJsonC (.data (.action 1 (.listen (ascii "a"))))) := by
    show listenJsonC.parse (listenJsonC.print listenJson) = some listenJson
    rfl
  obtain ⟨action', h, -⟩ := hall listenJsonC 1 (.listen (ascii "a")) (by rintro _ ⟨⟩) hmsg
  have hparse : wcParseAction listenJsonC
      (wcDataMsgToJson listenJsonC (.action 1 (.listen (ascii "a")))) = none := rfl
  rw [parse_action_msg _ _ hmsg, hparse] at h
  cases h

end WebcomSdk.Datasync
