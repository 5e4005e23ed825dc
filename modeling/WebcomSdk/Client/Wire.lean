import WebcomSdk.Datasync.Decoding
import WebcomSdk.On.ToldOnce

/-!
The client from the frames of the web socket to the callbacks of the application:
`_wc_lws_callback`, `_wc_datasync_process_data` and `_wc_datasync_process_message` of
`lib/datasync/datasync.c` together, with the operations of the application in between.
The requests that the application sends itself are left out.
-/

namespace WebcomSdk.Client

open WebcomSdk.Lib WebcomSdk.Datasync WebcomSdk.Cache WebcomSdk.On Std

/-- The parser, and what the messages act upon. The state of the connection is that of
`on.listen`; `handled` records the messages. -/
structure ClientCtx (T : Tokener) where
  parser : Option T.State
  on : OnCtx
  handled : List WcMsg

def clientStart (T : Tokener) : ClientCtx T := ⟨none, onCtxNew, []⟩

section Functions

variable (T : Tokener) (jsonC : JsonC) (wcSHA1 : SHA1) (keyCmp : Key → Key → Ordering)

/-- `_wc_datasync_process_message`. The callbacks answer as `answers` says, and `fuel` bounds
the passes of a dispatch. -/
def wcDatasyncProcessMessage (answers : ℕ → CbRun) (fuel : ℕ) (ctx : OnCtx) :
    WcMsg → Option OnCtx
  | .ctrl (.handshake ..) => ctx.step wcSHA1 keyCmp .handshake
  | .data (.push (.dataUpdatePut path data)) =>
      ctx.step wcSHA1 keyCmp (.updatePut path (jsonC.tokenerParse data) answers fuel)
  | .data (.push (.dataUpdateMerge path data)) =>
      ctx.step wcSHA1 keyCmp (.updateMerge path (jsonC.tokenerParse data) answers fuel)
  | .data (.response r status _) =>
      ctx.step wcSHA1 keyCmp (.response r.toInt.toNat (status = ascii "ok"))
  | _ => some ctx

/-- `LWS_CALLBACK_CLIENT_RECEIVE`. -/
def ClientCtx.receive (answers : ℕ → CbRun) (fuel : ℕ) (buf : Bytes) (c : ClientCtx T) :
    Option (ClientCtx T) :=
  let (rx, passed) :=
    wcLwsCallback T jsonC keyCmp ⟨c.on.listen.state, c.parser⟩ (.clientReceive buf)
  (passed.foldlM (wcDatasyncProcessMessage jsonC wcSHA1 keyCmp answers fuel) c.on).map fun on =>
    { parser := rx.parser, on, handled := c.handled ++ passed }

end Functions

/-! ### The other end -/

/-- The client and what the server has sent it: whole messages, and the frames of the next.
`cutOff` says that these will not be completed. -/
structure Wire (T : Tokener) where
  client : ClientCtx T
  sent : List WcMsg
  begun : List Bytes
  cutOff : Bool

def wireStart (T : Tokener) : Wire T := ⟨clientStart T, [], [], false⟩

/-- The operations that the server has no part in. -/
def Local : OnOp → Prop
  | .on .. | .off .. | .offPath .. | .offPathType .. | .connect | .closeCnx => True
  | .updatePut .. | .updateMerge .. | .cnxLost | .handshake | .response .. => False

instance : DecidablePred Local
  | .on .. | .off .. | .offPath .. | .offPathType .. | .connect | .closeCnx => isTrue trivial
  | .updatePut .. | .updateMerge .. | .cnxLost | .handshake | .response .. => isFalse id

inductive WireEvent where
  | application (op : OnOp)
  /-- A frame comes in, the last one of the message `ends` or not. -/
  | frame (buf : Bytes) (ends : Option WcMsg) (answers : ℕ → CbRun) (fuel : ℕ)
  | cnxLost

/-- What is not the start of a message, where one could start. -/
def Wire.Noise {T : Tokener} (w : Wire T) (buf : Bytes) : Prop :=
  w.begun = [] ∧ buf.head? ≠ some openBrace

instance {T : Tokener} (w : Wire T) (buf : Bytes) : Decidable (w.Noise buf) :=
  inferInstanceAs (Decidable (_ ∧ _))

section Steps

variable (T : Tokener) (jsonC : JsonC) (wcSHA1 : SHA1) (keyCmp : Key → Key → Ordering)

/-- A client that is about to disconnect drops what comes in. -/
def Wire.step (w : Wire T) : WireEvent → Option (Wire T)
  | .application op =>
      (w.client.on.step wcSHA1 keyCmp op).map fun on =>
        { w with
          client := { w.client with on }
          cutOff := w.cutOff || (op matches .closeCnx && !w.begun.isEmpty) }
  | .frame buf ends answers fuel =>
      (w.client.receive T jsonC wcSHA1 keyCmp answers fuel buf).map fun client =>
        if w.client.on.listen.state = .disconnecting then { w with client }
        else
          { w with
            client
            sent := w.sent ++ ends.toList
            begun := if ends.isSome ∨ w.Noise buf then [] else w.begun ++ [buf] }
  | .cnxLost =>
      (w.client.on.step wcSHA1 keyCmp .cnxLost).map fun on =>
        { w with client := { w.client with on }, cutOff := w.cutOff || !w.begun.isEmpty }

variable (Document : Bytes → Json → Prop)

/-- The server sends well-formed messages, in as many frames as it likes, and may send something
else between two of them. It sends nothing after a message that was cut off. -/
def WireOccurs (w : Wire T) : WireEvent → Prop
  | .application op => Local op
  | .frame buf none _ _ => w.client.on.listen.state = .disconnecting ∨ w.cutOff = false ∧
      (w.Noise buf ∨ buf ≠ [] ∧ ∃ text msg, MessageText jsonC keyCmp Document text msg ∧
        (w.begun ++ [buf]).flatten <+: text ∧ (w.begun ++ [buf]).flatten ≠ text)
  | .frame buf (some msg) _ _ => w.client.on.listen.state = .disconnecting ∨ w.cutOff = false ∧
      buf ≠ [] ∧ MessageText jsonC keyCmp Document (w.begun ++ [buf]).flatten msg
  | .cnxLost => True

end Steps

section Sound

variable {T : Tokener} {jsonC : JsonC} {wcSHA1 : SHA1} {keyCmp : Key → Key → Ordering}
  {Document : Bytes → Json → Prop} {w w' : Wire T}

/-- Noise is not looked at. -/
theorem processData_noise {ctx : ReceiveCtx T} {buf : Bytes} (hparser : ctx.parser = none)
    (hbuf : buf.head? ≠ some openBrace) :
    wcDatasyncProcessData T jsonC keyCmp ctx buf = (ctx, []) := by
  rw [wcDatasyncProcessData, hparser]
  exact if_neg hbuf

/-- What a frame makes of the parser, and the messages that it passes on. -/
theorem receive_spec (hT : T.Faithful Document) {buf : Bytes} {ends : Option WcMsg}
    {answers : ℕ → CbRun} {fuel : ℕ} (hstate : w.client.on.listen.state ≠ .disconnecting)
    (hbegun : ∀ c ∈ w.begun, c ≠ [])
    (hparser : w.cutOff = false → w.client.parser = parserAfter T w.begun)
    (h : WireOccurs T jsonC keyCmp Document w (.frame buf ends answers fuel)) :
    ∃ state, wcLwsCallback T jsonC keyCmp ⟨w.client.on.listen.state, w.client.parser⟩
        (.clientReceive buf) =
      (⟨state, parserAfter T (if ends.isSome ∨ w.Noise buf then [] else w.begun ++ [buf])⟩,
        ends.toList) ∧
      (¬ (ends.isSome ∨ w.Noise buf) → buf ≠ []) := by
  have hnonempty : buf ≠ [] → ∀ c ∈ w.begun ++ [buf], c ≠ [] := by
    intro hbuf
    rw [List.forall_mem_append, List.forall_mem_singleton]
    exact ⟨hbegun, hbuf⟩
  rw [wcLwsCallback, if_neg hstate]
  cases ends with
  | none =>
      obtain ⟨hcut, hnoise | ⟨hbuf, text, msg, ⟨hbrace, j, hdoc, -⟩, hpre, hproper⟩⟩ :=
        h.resolve_left hstate
      · have hfresh : w.client.parser = none := by rw [hparser hcut, hnoise.1]; rfl
        refine ⟨w.client.on.listen.state, ?_, fun hno => absurd (.inr hnoise) hno⟩
        rw [processData_noise hfresh hnoise.2, if_pos (.inr hnoise)]
        exact congrArg (fun p => (ReceiveCtx.mk _ p, _)) hfresh
      · have hnoise : ¬ w.Noise buf := by
          rintro ⟨hnil, hhead⟩
          rw [hnil, List.nil_append, List.flatten_singleton] at hpre
          obtain ⟨rest, rfl⟩ := hpre
          obtain ⟨b, buf, rfl⟩ := List.exists_cons_of_ne_nil hbuf
          exact hhead hbrace
        refine ⟨w.client.on.listen.state, ?_, fun _ => hbuf⟩
        rw [if_neg (by simp [hnoise]), processData_parserAfter (hparser hcut) hbrace hbuf hpre,
          parseData_continues hT hdoc (hnonempty hbuf) hpre hproper]
        rfl
  | some msg =>
      obtain ⟨hcut, hbuf, hbrace, j, hdoc, hmsg⟩ := h.resolve_left hstate
      rw [if_pos (.inl rfl), processData_parserAfter (hparser hcut) hbrace hbuf List.prefix_rfl,
        parseData_succeeds hT hdoc (hnonempty hbuf) hmsg]
      exact ⟨_, rfl, fun hno => absurd (.inl rfl) hno⟩

variable (jsonC wcSHA1 keyCmp) in
/-- What an event makes of the registries and the cache, and the message with which it does. -/
inductive Acts (ctx : OnCtx) : List WcMsg → OnCtx → Prop
  | nothing : Acts ctx [] ctx
  | operation {op : OnOp} {ctx' : OnCtx} (hop : Local op ∨ op matches .cnxLost)
      (hstep : ctx.step wcSHA1 keyCmp op = some ctx') : Acts ctx [] ctx'
  | message {msg : WcMsg} {answers : ℕ → CbRun} {fuel : ℕ} {ctx' : OnCtx}
      (hprocess : wcDatasyncProcessMessage jsonC wcSHA1 keyCmp answers fuel ctx msg = some ctx') :
      Acts ctx [msg] ctx'

/-- The client has handled what has been sent, and its parser is within what has been begun. -/
structure Wire.Sound (w : Wire T) : Prop where
  handled : w.client.handled = w.sent
  parser : w.cutOff = false → w.client.parser = parserAfter T w.begun
  begun : ∀ c ∈ w.begun, c ≠ []

theorem wireStart_sound : (wireStart T).Sound := ⟨rfl, fun _ => rfl, List.forall_mem_nil _⟩

/-- **One event.** -/
theorem Wire.Sound.step (hT : T.Faithful Document) (h : w.Sound) {e : WireEvent}
    (he : WireOccurs T jsonC keyCmp Document w e)
    (hstep : w.step T jsonC wcSHA1 keyCmp e = some w') :
    w'.Sound ∧ ∃ passed, w'.sent = w.sent ++ passed ∧
      Acts jsonC wcSHA1 keyCmp w.client.on passed w'.client.on := by
  have hcut : ∀ b, (w.cutOff || b) = false → w.cutOff = false := by
    intro b hfalse
    exact (Bool.or_eq_false_iff.mp hfalse).1
  cases e with
  | application op =>
      obtain ⟨on, hon, rfl⟩ := Option.map_eq_some_iff.mp hstep
      exact ⟨⟨h.handled, fun hfalse => h.parser (hcut _ hfalse), h.begun⟩, [],
        (List.append_nil _).symm, .operation (.inl he) hon⟩
  | cnxLost =>
      obtain ⟨on, hon, rfl⟩ := Option.map_eq_some_iff.mp hstep
      exact ⟨⟨h.handled, fun hfalse => h.parser (hcut _ hfalse), h.begun⟩, [],
        (List.append_nil _).symm, .operation (.inr rfl) hon⟩
  | frame buf ends answers fuel =>
      obtain ⟨client, hreceive, rfl⟩ := Option.map_eq_some_iff.mp hstep
      by_cases hstate : w.client.on.listen.state = .disconnecting
      · -- the frame is dropped
        rw [ClientCtx.receive, wcLwsCallback, if_pos hstate] at hreceive
        obtain rfl := Option.some.inj hreceive
        rw [if_pos hstate]
        exact ⟨⟨by rw [List.append_nil, h.handled], h.parser, h.begun⟩, [],
          (List.append_nil _).symm, .nothing⟩
      · obtain ⟨state, hcallback, hbuf⟩ := receive_spec hT hstate h.begun h.parser he
        rw [ClientCtx.receive, hcallback] at hreceive
        obtain ⟨on, hon, rfl⟩ := Option.map_eq_some_iff.mp hreceive
        rw [if_neg hstate]
        refine ⟨⟨by rw [h.handled], fun _ => rfl, ?_⟩, ends.toList, rfl, ?_⟩
        · show ∀ c ∈ (if ends.isSome ∨ w.Noise buf then [] else w.begun ++ [buf]), c ≠ []
          split
          next => exact List.forall_mem_nil _
          next hno =>
            rw [List.forall_mem_append, List.forall_mem_singleton]
            exact ⟨h.begun, hbuf hno⟩
        · cases ends with
          | none =>
              obtain rfl := Option.some.inj hon
              exact .nothing
          | some msg =>
              rw [Option.toList_some, List.foldlM_cons] at hon
              obtain ⟨on', hprocess, hon⟩ := Option.bind_eq_some_iff.mp hon
              obtain rfl := Option.some.inj hon
              exact .message hprocess

end Sound

end WebcomSdk.Client
