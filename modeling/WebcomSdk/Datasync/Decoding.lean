import WebcomSdk.Datasync.Connection

/-!
What a connection decodes. With a fresh decoder a connection passes on exactly
the messages it received complete. A connection that ends within a message
leaves its parser behind, so the next one to receive data starts in the middle
of that message.
-/

namespace WebcomSdk.Datasync

open WebcomSdk.Cache

section Decoding

variable {T : Tokener} {jsonC : JsonC} {keyCmp : Key → Key → Ordering}
  {Document : Bytes → Json → Prop}

/-- The tokener after it was given these chunks in turn. -/
def Tokener.feed (T : Tokener) (chunks : List Bytes) : T.State :=
  chunks.foldl (fun jtok buf => (T.parseEx jtok buf).1) T.new

/-- `json_tokener_parse_ex` on the texts of documents, whatever the chunks: it
asks for more on a proper prefix, succeeds at the end and fails on what starts
no document. -/
structure Tokener.Faithful (T : Tokener) (Document : Bytes → Json → Prop) : Prop where
  continues : ∀ text j chunks buf, Document text j → (∀ c ∈ chunks ++ [buf], c ≠ []) →
    (chunks ++ [buf]).flatten <+: text → (chunks ++ [buf]).flatten ≠ text →
      (T.parseEx (T.feed chunks) buf).2 = .continue
  succeeds : ∀ text j chunks buf, Document text j → (∀ c ∈ chunks ++ [buf], c ≠ []) →
    (chunks ++ [buf]).flatten = text → (T.parseEx (T.feed chunks) buf).2 = .success j
  fails : ∀ chunks buf, (∀ c ∈ chunks ++ [buf], c ≠ []) →
    (∀ text j, Document text j → ¬ (chunks ++ [buf]).flatten <+: text) →
      (T.parseEx (T.feed chunks) buf).2 = .error

/-- The text of a well-formed message: an object that `wc_parse_msg_json`
accepts. -/
def MessageText (jsonC : JsonC) (keyCmp : Key → Key → Ordering) (Document : Bytes → Json → Prop)
    (text : Bytes) (msg : WcMsg) : Prop :=
  text.head? = some openBrace ∧ ∃ j, Document text j ∧ wcParseMsgJson jsonC keyCmp j = some msg

/-- Complete well-formed messages in non-empty chunks, and a proper prefix of
one. -/
structure Connection.WellFormed (jsonC : JsonC) (keyCmp : Key → Key → Ordering)
    (Document : Bytes → Json → Prop) (cnx : Connection) : Prop where
  complete : ∀ m ∈ cnx.complete, (∀ c ∈ m.chunks, c ≠ []) ∧
    MessageText jsonC keyCmp Document m.chunks.flatten m.msg
  nonempty : ∀ c ∈ cnx.cutOff, c ≠ []
  cutOff : cnx.cutOff ≠ [] → ∃ text msg, MessageText jsonC keyCmp Document text msg ∧
    cnx.cutOff.flatten <+: text ∧ cnx.cutOff.flatten ≠ text

def Connection.ReceivesData (cnx : Connection) : Prop := cnx.complete ≠ [] ∨ cnx.cutOff ≠ []

/-- No connection that ends within a message is followed by one that receives
data. -/
def NoDataAfterCutOff (cnxs : List Connection) : Prop :=
  cnxs.Pairwise fun a b => a.cutOff ≠ [] → ¬ b.ReceivesData

/-! ### Within one message -/

/-- The parser in the middle of a message of which `chunks` have come. -/
def parserAfter (T : Tokener) (chunks : List Bytes) : Option T.State :=
  if chunks = [] then none else some (T.feed chunks)

theorem feed_concat (chunks : List Bytes) (buf : Bytes) :
    T.feed (chunks ++ [buf]) = (T.parseEx (T.feed chunks) buf).1 := by
  simp [Tokener.feed]

/-- The next chunk of a message goes to the tokener that has read the chunks
before it. -/
theorem processData_parserAfter {ctx : ReceiveCtx T} {chunks : List Bytes} {buf : Bytes}
    {text : Bytes} (hparser : ctx.parser = parserAfter T chunks)
    (hbrace : text.head? = some openBrace) (hbuf : buf ≠ [])
    (hpre : (chunks ++ [buf]).flatten <+: text) :
    wcDatasyncProcessData T jsonC keyCmp ctx buf =
      parseData T jsonC keyCmp ctx (T.feed chunks) buf := by
  rw [wcDatasyncProcessData, hparser, parserAfter]
  by_cases hchunks : chunks = []
  · subst hchunks
    -- the first chunk starts as the message does
    have hhead : buf.head? = some openBrace := by
      obtain ⟨rest, rfl⟩ := hpre
      obtain ⟨b, buf, rfl⟩ := List.exists_cons_of_ne_nil hbuf
      simpa using hbrace
    simp only [if_true, hhead]
    rfl
  · simp only [hchunks, if_false]

theorem parseData_continues (hT : T.Faithful Document) {ctx : ReceiveCtx T}
    {chunks : List Bytes} {buf text : Bytes} {j : Json} (hdoc : Document text j)
    (hne : ∀ c ∈ chunks ++ [buf], c ≠ []) (hpre : (chunks ++ [buf]).flatten <+: text)
    (hproper : (chunks ++ [buf]).flatten ≠ text) :
    parseData T jsonC keyCmp ctx (T.feed chunks) buf =
      ({ ctx with parser := parserAfter T (chunks ++ [buf]) }, []) := by
  have hres := hT.continues text j chunks buf hdoc hne hpre hproper
  rw [parseData, wcDatasyncParseMsgEx, parserAfter, if_neg (by simp), feed_concat]
  cases hp : T.parseEx (T.feed chunks) buf with
  | mk jtok res =>
      rw [hp] at hres
      subst hres
      rfl

theorem parseData_succeeds (hT : T.Faithful Document) {ctx : ReceiveCtx T}
    {chunks : List Bytes} {buf : Bytes} {j : Json} {msg : WcMsg}
    (hdoc : Document (chunks ++ [buf]).flatten j) (hne : ∀ c ∈ chunks ++ [buf], c ≠ [])
    (hmsg : wcParseMsgJson jsonC keyCmp j = some msg) :
    parseData T jsonC keyCmp ctx (T.feed chunks) buf =
      ({ wcDatasyncProcessMessage T ctx msg with parser := none }, [msg]) := by
  have hres := hT.succeeds _ j chunks buf hdoc hne rfl
  rw [parseData, wcDatasyncParseMsgEx]
  cases hp : T.parseEx (T.feed chunks) buf with
  | mk jtok res =>
      rw [hp] at hres
      subst hres
      simp [hmsg]

theorem state_processMessage {ctx : ReceiveCtx T} (hstate : ctx.state ≠ .disconnecting)
    (msg : WcMsg) : (wcDatasyncProcessMessage T ctx msg).state ≠ .disconnecting := by
  cases msg with
  | ctrl c => cases c <;> simp [wcDatasyncProcessMessage, hstate]
  | data d => exact hstate

/-! ### Runs of chunks -/

theorem runEvents_cons (ctx : ReceiveCtx T) (event : CnxEvent) (events : List CnxEvent) :
    runEvents T jsonC keyCmp ctx (event :: events) =
      ((runEvents T jsonC keyCmp (wcLwsCallback T jsonC keyCmp ctx event).1 events).1,
        (wcLwsCallback T jsonC keyCmp ctx event).2 ++
          (runEvents T jsonC keyCmp (wcLwsCallback T jsonC keyCmp ctx event).1 events).2) := rfl

theorem runEvents_append (ctx : ReceiveCtx T) (events events' : List CnxEvent) :
    runEvents T jsonC keyCmp ctx (events ++ events') =
      ((runEvents T jsonC keyCmp (runEvents T jsonC keyCmp ctx events).1 events').1,
        (runEvents T jsonC keyCmp ctx events).2 ++
          (runEvents T jsonC keyCmp (runEvents T jsonC keyCmp ctx events).1 events').2) := by
  induction events generalizing ctx with
  | nil => rfl
  | cons event events ih => simp [runEvents, ih]

/-- The decoder is ready to receive data, `chunks` of a message having come. -/
structure ReceiveCtx.Ready (ctx : ReceiveCtx T) (chunks : List Bytes) : Prop where
  parser : ctx.parser = parserAfter T chunks
  state : ctx.state ≠ .disconnecting

/-- Chunks that stay within a message pass nothing on. -/
theorem runEvents_within (hT : T.Faithful Document) {text : Bytes} {msg : WcMsg}
    (htext : MessageText jsonC keyCmp Document text msg) (more : List Bytes) :
    ∀ (ctx : ReceiveCtx T) (chunks : List Bytes), ctx.Ready chunks →
      (∀ c ∈ chunks ++ more, c ≠ []) → (chunks ++ more).flatten <+: text →
        (chunks ++ more).flatten ≠ text →
          (runEvents T jsonC keyCmp ctx (more.map .clientReceive)).1.Ready (chunks ++ more) ∧
            (runEvents T jsonC keyCmp ctx (more.map .clientReceive)).2 = [] := by
  induction more with
  | nil =>
      intro ctx chunks hready _ _ _
      rw [List.append_nil]
      exact ⟨hready, rfl⟩
  | cons buf more ih =>
      intro ctx chunks hready hne hpre hproper
      obtain ⟨hbrace, j, hdoc, -⟩ := htext
      have hne' : ∀ c ∈ (chunks ++ [buf]) ++ more, c ≠ [] := by simpa using hne
      have hpre' : ((chunks ++ [buf]) ++ more).flatten <+: text := by simpa using hpre
      have hproper' : ((chunks ++ [buf]) ++ more).flatten ≠ text := by simpa using hproper
      have hfirst : (chunks ++ [buf]).flatten <+: text := by
        rw [List.flatten_append] at hpre'
        exact (List.prefix_append _ _).trans hpre'
      have hfirst' : (chunks ++ [buf]).flatten ≠ text := by
        intro heq
        -- nothing can come after the whole text
        rw [List.flatten_append, heq] at hpre' hproper'
        have hlen := hpre'.length_le
        rw [List.length_append] at hlen
        have hnil : more.flatten = [] := List.eq_nil_of_length_eq_zero (by omega)
        exact hproper' (by rw [hnil, List.append_nil])
      have hfne : ∀ c ∈ chunks ++ [buf], c ≠ [] := fun c hc => hne' c (List.mem_append_left _ hc)
      have hcallback : wcLwsCallback T jsonC keyCmp ctx (.clientReceive buf) =
          ({ ctx with parser := parserAfter T (chunks ++ [buf]) }, []) := by
        rw [wcLwsCallback, if_neg hready.state,
          processData_parserAfter hready.parser hbrace (hfne buf (by simp)) hfirst,
          parseData_continues hT hdoc hfne hfirst hfirst']
      obtain ⟨hready', hpassed⟩ := ih { ctx with parser := parserAfter T (chunks ++ [buf]) }
        (chunks ++ [buf]) ⟨rfl, hready.state⟩ hne' hpre' hproper'
      rw [List.append_assoc, List.singleton_append] at hready'
      rw [List.map_cons, runEvents, hcallback]
      exact ⟨hready', hpassed⟩

/-- A complete message is passed on once. -/
theorem runEvents_message (hT : T.Faithful Document) {m : SentMessage}
    (hne : ∀ c ∈ m.chunks, c ≠ [])
    (htext : MessageText jsonC keyCmp Document m.chunks.flatten m.msg)
    {ctx : ReceiveCtx T} (hready : ctx.Ready []) :
    (runEvents T jsonC keyCmp ctx (m.chunks.map .clientReceive)).1.Ready [] ∧
      (runEvents T jsonC keyCmp ctx (m.chunks.map .clientReceive)).2 = [m.msg] := by
  have hchunks : m.chunks ≠ [] := by
    intro h
    have := htext.1
    simp [h] at this
  obtain ⟨init, last, hlast⟩ : ∃ init last, m.chunks = init ++ [last] :=
    ⟨_, _, (List.dropLast_append_getLast hchunks).symm⟩
  rw [hlast] at hne htext ⊢
  have hlastne : last ≠ [] := hne last (by simp)
  have hproper : init.flatten ≠ (init ++ [last]).flatten := by
    intro h
    rw [List.flatten_append, List.flatten_singleton, List.self_eq_append_right] at h
    exact hlastne h
  have hpre : init.flatten <+: (init ++ [last]).flatten := by
    rw [List.flatten_append]
    exact List.prefix_append _ _
  obtain ⟨hready', hpassed⟩ := runEvents_within hT htext init ctx [] hready
    (fun c hc => hne c (List.mem_append_left _ hc)) hpre hproper
  obtain ⟨hbrace, j, hdoc, hmsg⟩ := htext
  rw [List.nil_append] at hready'
  rw [List.map_append, runEvents_append, hpassed, List.map_singleton]
  generalize (runEvents T jsonC keyCmp ctx (init.map .clientReceive)).1 = ctx' at hready' ⊢
  have hcallback : wcLwsCallback T jsonC keyCmp ctx' (.clientReceive last) =
      ({ wcDatasyncProcessMessage T ctx' m.msg with parser := none }, [m.msg]) := by
    rw [wcLwsCallback, if_neg hready'.state,
      processData_parserAfter hready'.parser hbrace hlastne List.prefix_rfl,
      parseData_succeeds hT hdoc hne hmsg]
  rw [runEvents, hcallback]
  exact ⟨⟨rfl, state_processMessage hready'.state m.msg⟩, rfl⟩

theorem runEvents_messages (hT : T.Faithful Document) {ms : List SentMessage}
    (hms : ∀ m ∈ ms, (∀ c ∈ m.chunks, c ≠ []) ∧
      MessageText jsonC keyCmp Document m.chunks.flatten m.msg) :
    ∀ ctx : ReceiveCtx T, ctx.Ready [] →
      (runEvents T jsonC keyCmp ctx
        ((ms.flatMap SentMessage.chunks).map .clientReceive)).1.Ready [] ∧
        (runEvents T jsonC keyCmp ctx ((ms.flatMap SentMessage.chunks).map .clientReceive)).2 =
          ms.map SentMessage.msg := by
  induction ms with
  | nil => exact fun ctx hready => ⟨hready, rfl⟩
  | cons m ms ih =>
      intro ctx hready
      rw [List.forall_mem_cons] at hms
      obtain ⟨hready₁, hpassed₁⟩ := runEvents_message hT hms.1.1 hms.1.2 hready
      obtain ⟨hready₂, hpassed₂⟩ := ih hms.2 _ hready₁
      rw [List.flatMap_cons, List.map_append, runEvents_append, hpassed₁, hpassed₂]
      exact ⟨hready₂, rfl⟩

/-! ### Runs of connections -/

theorem ready_connect {ctx : ReceiveCtx T} {chunks : List Bytes} (hready : ctx.Ready chunks) :
    (wcLwsCallback T jsonC keyCmp ctx .connect).1.Ready chunks := by
  rw [wcLwsCallback]
  split
  · exact ⟨hready.parser, by simp⟩
  · exact hready

theorem ready_ending {ctx : ReceiveCtx T} {chunks : List Bytes} (hready : ctx.Ready chunks)
    (error : Bool) : (wcLwsCallback T jsonC keyCmp ctx
      (if error then .clientConnectionError else .closed)).1.Ready chunks := by
  cases error <;> exact ⟨hready.parser, by simp [wcLwsCallback]⟩

/-- A connection is framed by callbacks that pass nothing on. -/
theorem runEvents_events (ctx : ReceiveCtx T) (cnx : Connection) :
    let chunks := (cnx.complete.flatMap SentMessage.chunks ++ cnx.cutOff).map CnxEvent.clientReceive
    let received := runEvents T jsonC keyCmp (wcLwsCallback T jsonC keyCmp ctx .connect).1 chunks
    runEvents T jsonC keyCmp ctx cnx.events =
      ((wcLwsCallback T jsonC keyCmp received.1
        (if cnx.error then .clientConnectionError else .closed)).1, received.2) := by
  intro chunks received
  have hconnect : (wcLwsCallback T jsonC keyCmp ctx .connect).2 = [] := rfl
  rw [Connection.events, List.cons_append, runEvents_cons, runEvents_append, hconnect]
  cases cnx.error <;> simp [runEvents, wcLwsCallback, received, chunks]

/-- **A fresh connection passes on exactly its complete messages**, and leaves
the parser in the middle of the one that was cut off. -/
theorem runEvents_connection (hT : T.Faithful Document) {cnx : Connection}
    (hcnx : cnx.WellFormed jsonC keyCmp Document) {ctx : ReceiveCtx T} (hready : ctx.Ready []) :
    (runEvents T jsonC keyCmp ctx cnx.events).1.Ready cnx.cutOff ∧
      (runEvents T jsonC keyCmp ctx cnx.events).2 = cnx.complete.map SentMessage.msg := by
  have hconnect : (wcLwsCallback T jsonC keyCmp ctx .connect).1.Ready [] := ready_connect hready
  obtain ⟨hready₁, hpassed₁⟩ := runEvents_messages hT hcnx.complete _ hconnect
  have htail : ∀ ctx' : ReceiveCtx T, ctx'.Ready [] →
      (runEvents T jsonC keyCmp ctx' (cnx.cutOff.map .clientReceive)).1.Ready cnx.cutOff ∧
        (runEvents T jsonC keyCmp ctx' (cnx.cutOff.map .clientReceive)).2 = [] := by
    intro ctx' hready'
    by_cases hcut : cnx.cutOff = []
    · rw [hcut]
      exact ⟨hready', rfl⟩
    · obtain ⟨text, msg, htext, hpre, hproper⟩ := hcnx.cutOff hcut
      exact runEvents_within hT htext cnx.cutOff ctx' [] hready' hcnx.nonempty hpre hproper
  obtain ⟨hready₂, hpassed₂⟩ := htail _ hready₁
  rw [runEvents_events, List.map_append, runEvents_append, hpassed₁, hpassed₂, List.append_nil]
  exact ⟨ready_ending hready₂ cnx.error, rfl⟩

/-- A connection without data leaves the parser as it is. -/
theorem runEvents_silent {cnx : Connection} (hcnx : ¬ cnx.ReceivesData) {ctx : ReceiveCtx T}
    {chunks : List Bytes} (hready : ctx.Ready chunks) :
    (runEvents T jsonC keyCmp ctx cnx.events).1.Ready chunks ∧
      (runEvents T jsonC keyCmp ctx cnx.events).2 = cnx.complete.map SentMessage.msg := by
  rw [Connection.ReceivesData, not_or, not_not, not_not] at hcnx
  have hconnect : (wcLwsCallback T jsonC keyCmp ctx .connect).1.Ready chunks := ready_connect hready
  rw [runEvents_events, hcnx.1, hcnx.2]
  exact ⟨ready_ending hconnect cnx.error, rfl⟩

theorem runConnections_cons (ctx : ReceiveCtx T) (cnx : Connection) (cnxs : List Connection) :
    runConnections T jsonC keyCmp ctx (cnx :: cnxs) =
      (runEvents T jsonC keyCmp ctx cnx.events).2 ::
        runConnections T jsonC keyCmp (runEvents T jsonC keyCmp ctx cnx.events).1 cnxs := rfl

theorem runConnections_spec (hT : T.Faithful Document) {cnxs : List Connection}
    (hcnxs : ∀ cnx ∈ cnxs, cnx.WellFormed jsonC keyCmp Document)
    (hcond : NoDataAfterCutOff cnxs) : ∀ (ctx : ReceiveCtx T) (chunks : List Bytes),
      ctx.Ready chunks → (chunks ≠ [] → ∀ cnx ∈ cnxs, ¬ cnx.ReceivesData) →
        runConnections T jsonC keyCmp ctx cnxs =
          cnxs.map fun cnx => cnx.complete.map SentMessage.msg := by
  induction cnxs with
  | nil => exact fun _ _ _ _ => rfl
  | cons cnx cnxs ih =>
      intro ctx chunks hready hsilent
      rw [List.forall_mem_cons] at hcnxs
      obtain ⟨hlater, hcond⟩ := List.pairwise_cons.mp hcond
      rw [runConnections_cons, List.map_cons]
      by_cases hchunks : chunks = []
      · subst hchunks
        obtain ⟨hready', hpassed⟩ := runEvents_connection hT hcnxs.1 hready
        rw [hpassed, ih hcnxs.2 hcond _ cnx.cutOff hready' fun hcut b hb => hlater b hb hcut]
      · -- a parser was left behind: no data from here on
        have hall := hsilent hchunks
        rw [List.forall_mem_cons] at hall
        have hsilent' : (runEvents T jsonC keyCmp ctx cnx.events).1.Ready chunks ∧
            (runEvents T jsonC keyCmp ctx cnx.events).2 = cnx.complete.map SentMessage.msg :=
          runEvents_silent hall.1 hready
        rw [hsilent'.2, ih hcnxs.2 hcond _ chunks hsilent'.1 fun _ => hall.2]

/-- **Every connection passes on exactly the messages it received complete**, in
a run in which no connection that ends within a message is followed by one that
receives data. -/
theorem connections_decoded (hT : T.Faithful Document) {cnxs : List Connection}
    (hcnxs : ∀ cnx ∈ cnxs, cnx.WellFormed jsonC keyCmp Document)
    (hcond : NoDataAfterCutOff cnxs) :
    runConnections T jsonC keyCmp ⟨.disconnected, none⟩ cnxs =
      cnxs.map fun cnx => cnx.complete.map SentMessage.msg :=
  runConnections_spec hT hcnxs hcond _ [] ⟨rfl, by simp⟩ fun h => absurd rfl h

end Decoding

/-! ### One message over two connections -/

/-- A tokener that knows one document. -/
def oneDocument (text : Bytes) (doc : Json) : Tokener where
  State := Bytes
  new := []
  parseEx read buf :=
    (read ++ buf,
      if read ++ buf = text then .success doc
      else if (read ++ buf).isPrefixOf text then .continue
      else .error)

theorem feed_oneDocument (text : Bytes) (doc : Json) (chunks : List Bytes) :
    (oneDocument text doc).feed chunks = chunks.flatten := by
  induction chunks using List.reverseRecOn with
  | nil => rfl
  | append_singleton chunks buf ih =>
      rw [feed_concat, ih, List.flatten_append, List.flatten_singleton]
      rfl

theorem oneDocument_faithful (text : Bytes) (doc : Json) :
    (oneDocument text doc).Faithful fun t j => t = text ∧ j = doc where
  continues := by
    rintro _ _ chunks buf ⟨rfl, rfl⟩ - hpre hproper
    rw [feed_oneDocument]
    rw [List.flatten_append, List.flatten_singleton] at hpre hproper
    simp [oneDocument, hproper, hpre]
  succeeds := by
    rintro _ _ chunks buf ⟨rfl, rfl⟩ - heq
    rw [feed_oneDocument]
    rw [List.flatten_append, List.flatten_singleton] at heq
    simp [oneDocument, heq]
  fails := by
    intro chunks buf _ hno
    have hpre := hno text doc ⟨rfl, rfl⟩
    rw [feed_oneDocument]
    rw [List.flatten_append, List.flatten_singleton] at hpre
    have hne : chunks.flatten ++ buf ≠ text := by
      intro heq
      exact hpre (heq ▸ List.prefix_rfl)
    simp [oneDocument, hne, hpre]

def shutdownText : Bytes :=
  ascii "\x7b\"t\":\"c\",\"d\":\x7b\"t\":\"s\",\"d\":\"x\"\x7d\x7d"

def shutdownJson : Json :=
  .object [(ascii "t", .string (ascii "c")),
    (ascii "d", .object [(ascii "t", .string (ascii "s")), (ascii "d", .string (ascii "x"))])]

def shutdownMsg : WcMsg := .ctrl (.connectionShutdown (ascii "x"))

/-- json-c is not asked to print anything here. -/
def silentJsonC : JsonC := ⟨fun _ => [], fun _ => none⟩

theorem messageText_shutdown : MessageText silentJsonC strcmp
    (fun t j => t = shutdownText ∧ j = shutdownJson) shutdownText shutdownMsg :=
  ⟨rfl, shutdownJson, ⟨rfl, rfl⟩, rfl⟩

/-- The message in two chunks, then the start of a second one. -/
def cutOffSecond : Connection :=
  ⟨[⟨[shutdownText.take 5, shutdownText.drop 5], shutdownMsg⟩], [[openBrace]], false⟩

/-- The start of a message, then an error. -/
def cutOffFirst : Connection := ⟨[], [[openBrace]], true⟩

/-- The whole message at once. -/
def wholeMessage : Connection := ⟨[⟨[shutdownText], shutdownMsg⟩], [], false⟩

theorem cutOff_openBrace : ∃ text msg, MessageText silentJsonC strcmp
    (fun t j => t = shutdownText ∧ j = shutdownJson) text msg ∧
      [[openBrace]].flatten <+: text ∧ [[openBrace]].flatten ≠ text :=
  ⟨shutdownText, shutdownMsg, messageText_shutdown, by decide, by decide⟩

theorem wellFormed_cutOffSecond : cutOffSecond.WellFormed silentJsonC strcmp
    fun t j => t = shutdownText ∧ j = shutdownJson where
  complete := by
    intro m hm
    rw [cutOffSecond, List.mem_singleton] at hm
    subst hm
    exact ⟨by decide, messageText_shutdown⟩
  nonempty := by decide
  cutOff := fun _ => cutOff_openBrace

theorem wellFormed_cutOffFirst : cutOffFirst.WellFormed silentJsonC strcmp
    fun t j => t = shutdownText ∧ j = shutdownJson where
  complete := by simp [cutOffFirst]
  nonempty := by decide
  cutOff := fun _ => cutOff_openBrace

theorem wellFormed_wholeMessage : wholeMessage.WellFormed silentJsonC strcmp
    fun t j => t = shutdownText ∧ j = shutdownJson where
  complete := by
    intro m hm
    rw [wholeMessage, List.mem_singleton] at hm
    subst hm
    exact ⟨by decide, messageText_shutdown⟩
  nonempty := by simp [wholeMessage]
  cutOff := fun h => absurd rfl h

theorem connections_decoded_cut_at_the_end :
    runConnections (oneDocument shutdownText shutdownJson) silentJsonC strcmp
      ⟨.disconnected, none⟩ [wholeMessage, cutOffSecond] = [[shutdownMsg], [shutdownMsg]] := by
  refine connections_decoded (oneDocument_faithful shutdownText shutdownJson) ?_ ?_
  · intro cnx hcnx
    rw [List.mem_pair] at hcnx
    obtain rfl | rfl := hcnx
    · exact wellFormed_wholeMessage
    · exact wellFormed_cutOffSecond
  · simp [NoDataAfterCutOff, wholeMessage]

/-- A message after a connection that was cut off is lost. -/
theorem cut_off_connection_loses_next_message :
    ¬ ∀ (T : Tokener) (jsonC : JsonC) (keyCmp : Key → Key → Ordering)
      (Document : Bytes → Json → Prop), T.Faithful Document →
        ∀ cnxs : List Connection, (∀ cnx ∈ cnxs, cnx.WellFormed jsonC keyCmp Document) →
          runConnections T jsonC keyCmp ⟨.disconnected, none⟩ cnxs =
            cnxs.map fun cnx => cnx.complete.map SentMessage.msg := by
  intro hall
  have hcnxs : ∀ cnx ∈ [cutOffFirst, wholeMessage], cnx.WellFormed silentJsonC strcmp
      fun t j => t = shutdownText ∧ j = shutdownJson := by
    intro cnx hcnx
    rw [List.mem_pair] at hcnx
    obtain rfl | rfl := hcnx
    · exact wellFormed_cutOffFirst
    · exact wellFormed_wholeMessage
  have h := hall _ silentJsonC strcmp _ (oneDocument_faithful shutdownText shutdownJson) _ hcnxs
  have hrun : runConnections (oneDocument shutdownText shutdownJson) silentJsonC strcmp
      ⟨.disconnected, none⟩ [cutOffFirst, wholeMessage] = [[], []] := rfl
  rw [hrun] at h
  simp [cutOffFirst, wholeMessage] at h

end WebcomSdk.Datasync
