import WebcomSdk.Datasync.Decoding

/-!
Authentication with a password, `lib/auth/auth.c`. The body of the reply comes in
chunks to `curl_write_cb`, which feeds them to a tokener that the context keeps.
What libcurl does with a request is not modelled, only that there is a handle of
one.
-/

namespace WebcomSdk.Auth

open WebcomSdk.Datasync WebcomSdk.Cache

/-- A `struct wc_auth_info`. -/
structure WcAuthInfo where
  token : Option Bytes
  expires : UInt64
  providerUid : Option Bytes
  uid : Option Bytes
  error : Option Bytes
  provider : Option Bytes
  providerProfile : Option Bytes
  deriving DecidableEq

/-- `memset(pai, 0, sizeof(*pai))`. -/
def WcAuthInfo.zero : WcAuthInfo := ⟨none, 0, none, none, none, none, none⟩

section Parse

variable (jsonC : JsonC)

/-- The member of an object that is an object. -/
def getObject (j : Json) (key : Key) : Option Json :=
  match Json.getEx j key with
  | some (.object members) => some (.object members)
  | _ => none

/-- What the reply says about the user. -/
def wcAuthParseUser (user : Json) (pai : WcAuthInfo) : WcAuthInfo :=
  { pai with
    expires := ((wcHlpGetLong user (ascii "expires")).map Int64.toUInt64).getD pai.expires
    providerUid := (wcHlpGetString user (ascii "providerUid")).or pai.providerUid
    uid := (wcHlpGetString user (ascii "uid")).or pai.uid
    provider := (wcHlpGetString user (ascii "provider")).or pai.provider
    providerProfile :=
      ((getObject user (ascii "providerProfile")).map jsonC.print).or pai.providerProfile }

/-- `_wc_auth_parse_json`. -/
def wcAuthParseJson (root : Json) (pai : WcAuthInfo) : WcAuthInfo :=
  match Json.getEx root (ascii "success") with
  | some (.boolean false) =>
      let message :=
        (getObject root (ascii "error")).bind fun e => wcHlpGetString e (ascii "message")
      { pai with error := some (message.getD (ascii "authentication failure")) }
  | _ =>
      match wcHlpGetString root (ascii "token") with
      | some token =>
          let pai := { pai with token := some token }
          match getObject root (ascii "user") with
          | some user => wcAuthParseUser jsonC user pai
          | none => pai
      | none => { pai with error := some (ascii "invalid server response") }

end Parse

/-- `auth_parser`: NULL, a tokener, or the address of one that has been freed. -/
inductive AuthParser (T : Tokener) where
  | null
  | live (jtok : T.State)
  | freed

/-- A `struct wc_auth_context`; of the two handles of libcurl, whether they are not
NULL. -/
structure AuthContext (T : Tokener) where
  curlMultiHandle : Bool
  curlHandle : Bool
  parser : AuthParser T

/-- What is handed to the callback with `WC_AUTH_ON_AUTH_REPLY`. After an error of
the tokener only the text of that error is set. -/
inductive AuthReply where
  | parsed (info : WcAuthInfo)
  | malformed
  deriving DecidableEq

inductive AuthOutput where
  | returned (ret : Bool)
  | onAuthReply (reply : AuthReply)
  deriving DecidableEq

/-- A tokener is used after it has been freed, or `free` is called with a text that
was not allocated. -/
inductive AuthFault where
  | freedTokener
  | staticText
  deriving Repr, DecidableEq

/-- What `_wc_auth_parse_body` returns: 1, 0 and -1. -/
inductive AuthBody where
  | success (info : WcAuthInfo)
  | continue
  | error

/-- A call of `wc_auth_with_password`, with whether the `malloc` of the URL succeeds
and whether `curl_easy_init` does, or a call of `curl_write_cb`. -/
inductive AuthEvent where
  | withPassword (malloc easyInit : Bool)
  | bodyChunk (data : Bytes)
  deriving Repr, DecidableEq

section Calls

variable (T : Tokener) (jsonC : JsonC)

/-- The tokener is fed, once there is one. The pointer to it stays when it is freed. -/
def parseChunk (ctx : AuthContext T) (jtok : T.State) (data : Bytes) : AuthContext T × AuthBody :=
  match T.parseEx jtok data with
  | (_, .success jroot) =>
      ({ ctx with parser := .freed }, .success (wcAuthParseJson jsonC jroot .zero))
  | (jtok, .continue) => ({ ctx with parser := .live jtok }, .continue)
  | (jtok, .error) => ({ ctx with parser := .live jtok }, .error)

/-- `_wc_auth_parse_body`. -/
def wcAuthParseBody (ctx : AuthContext T) (data : Bytes) :
    Except AuthFault (AuthContext T × AuthBody) :=
  match ctx.parser with
  | .null => .ok (parseChunk T jsonC ctx T.new data)
  | .live jtok => .ok (parseChunk T jsonC ctx jtok data)
  | .freed => .error .freedTokener

/-- After the callback, the texts of the reply are freed; that of a tokener's error
is a constant of json-c. -/
def curlWriteCb (ctx : AuthContext T) (data : Bytes) :
    List AuthOutput × Except AuthFault (AuthContext T) :=
  match wcAuthParseBody T jsonC ctx data with
  | .error fault => ([], .error fault)
  | .ok (ctx, .success info) => ([.onAuthReply (.parsed info)], .ok ctx)
  | .ok (ctx, .continue) => ([], .ok ctx)
  | .ok (_, .error) => ([.onAuthReply .malformed], .error .staticText)

/-- `wc_auth_with_password`, up to the request. The URL is built with the first handle
and never again, the handles are never set back to NULL, and what `curl_easy_init`
returns is not looked at. -/
def wcAuthWithPassword (malloc easyInit : Bool) (ctx : AuthContext T) :
    List AuthOutput × Except AuthFault (AuthContext T) :=
  if ctx.curlHandle then ([.returned false], .ok ctx)
  else
    match ctx.parser with
    | .freed => ([], .error .freedTokener)
    | _ =>
        if !ctx.curlMultiHandle && !malloc then ([.returned false], .ok ⟨true, false, .null⟩)
        else ([.returned true], .ok ⟨true, easyInit, .null⟩)

def authStep (ctx : AuthContext T) :
    AuthEvent → List AuthOutput × Except AuthFault (AuthContext T)
  | .withPassword malloc easyInit => wcAuthWithPassword T malloc easyInit ctx
  | .bodyChunk data => curlWriteCb T jsonC ctx data

def authRun (ctx : AuthContext T) :
    List AuthEvent → List AuthOutput × Except AuthFault (AuthContext T)
  | [] => ([], .ok ctx)
  | event :: events =>
      match authStep T jsonC ctx event with
      | (out, .error fault) => (out, .error fault)
      | (out, .ok ctx) => (out ++ (authRun ctx events).1, (authRun ctx events).2)

end Calls

/-- The replies among the outputs. -/
def replies (out : List AuthOutput) : List AuthReply :=
  out.filterMap fun
    | .onAuthReply reply => some reply
    | .returned _ => none

def bodyChunks (events : List AuthEvent) : List Bytes :=
  events.filterMap fun
    | .bodyChunk data => some data
    | .withPassword .. => none

/-- A context as it is created. -/
def AuthContext.init (T : Tokener) : AuthContext T := ⟨false, false, .null⟩

/-- No tokener is used after it has been freed. -/
def TokenersLive (T : Tokener) (jsonC : JsonC) (events : List AuthEvent) : Prop :=
  (authRun T jsonC (.init T) events).2 ≠ .error .freedTokener

/-- What is documented of `json_tokener_parse_ex` on a text that begins with a document:
it asks for more within the document and succeeds where it ends. -/
structure Documented (T : Tokener) (Document : Bytes → Json → Prop) : Prop where
  nonempty : ∀ text j, Document text j → text ≠ []
  continues : ∀ text j chunks buf, Document text j → (chunks ++ [buf]).flatten <+: text →
    (chunks ++ [buf]).flatten ≠ text → (T.parseEx (T.feed chunks) buf).2 = .continue
  succeeds : ∀ text j chunks buf, Document text j → chunks.flatten <+: text →
    chunks.flatten ≠ text → text <+: (chunks ++ [buf]).flatten →
      (T.parseEx (T.feed chunks) buf).2 = .success j

def AuthEvent.isRequest : AuthEvent → Bool
  | .withPassword .. => true
  | .bodyChunk _ => false

/-- When the tokener has reported a document, no chunk follows, and no request is begun:
none at all once there is a handle, and otherwise nothing happens any more. `multi` and
`easy` say which handles there are, `given` is what the tokener in use has been given. -/
def QuietAfterDocument (T : Tokener) (multi easy : Bool) (given : List Bytes) :
    List AuthEvent → Prop
  | [] => True
  | .withPassword malloc easyInit :: events =>
      if easy then QuietAfterDocument T multi easy given events
      else QuietAfterDocument T true ((multi || malloc) && easyInit) [] events
  | .bodyChunk data :: events =>
      match (T.parseEx (T.feed given) data).2 with
      | .success _ => ∀ e ∈ events, easy ∧ e.isRequest
      | .continue => QuietAfterDocument T multi easy (given ++ [data]) events
      | .error => True

/-- A reply that begins with a document is reported once, when the request could be
made. -/
def RepliedOnce (T : Tokener) (jsonC : JsonC) (Document : Bytes → Json → Prop)
    (events : List AuthEvent) : Prop :=
  ∀ es text rest j, events = .withPassword true true :: es → Document text j →
    (bodyChunks es).flatten = text ++ rest →
      replies (authRun T jsonC (.init T) events).1 = [.parsed (wcAuthParseJson jsonC j .zero)]

section Runs

variable {T : Tokener} {jsonC : JsonC} {Document : Bytes → Json → Prop}

/-- The tokener of a context that has been given these chunks. -/
def parserGiven (T : Tokener) (given : List Bytes) : AuthParser T :=
  if given = [] then .null else .live (T.feed given)

@[simp] theorem bodyChunks_withPassword (malloc easyInit : Bool) (es : List AuthEvent) :
    bodyChunks (.withPassword malloc easyInit :: es) = bodyChunks es := rfl

@[simp] theorem bodyChunks_bodyChunk (data : Bytes) (es : List AuthEvent) :
    bodyChunks (.bodyChunk data :: es) = data :: bodyChunks es := rfl

theorem bodyChunks_eq_nil {es : List AuthEvent} :
    bodyChunks es = [] ↔ ∀ e ∈ es, e.isRequest := by
  induction es with
  | nil => simp [bodyChunks]
  | cons e es ih => cases e <;> simp [ih, AuthEvent.isRequest]

@[simp] theorem replies_nil : replies [] = [] := rfl

@[simp] theorem replies_append (out out' : List AuthOutput) :
    replies (out ++ out') = replies out ++ replies out' := List.filterMap_append ..

theorem authRun_cons_ok {ctx ctx' : AuthContext T} {event : AuthEvent} {out : List AuthOutput}
    (h : authStep T jsonC ctx event = (out, .ok ctx')) (events : List AuthEvent) :
    authRun T jsonC ctx (event :: events) =
      (out ++ (authRun T jsonC ctx' events).1, (authRun T jsonC ctx' events).2) := by
  rw [authRun, h]

theorem authRun_cons_error {ctx : AuthContext T} {event : AuthEvent} {out : List AuthOutput}
    {fault : AuthFault} (h : authStep T jsonC ctx event = (out, .error fault))
    (events : List AuthEvent) :
    authRun T jsonC ctx (event :: events) = (out, .error fault) := by
  rw [authRun, h]

/-! ### One step -/

theorem authStep_again (malloc easyInit multi : Bool) (parser : AuthParser T) :
    authStep T jsonC ⟨multi, true, parser⟩ (.withPassword malloc easyInit) =
      ([.returned false], .ok ⟨multi, true, parser⟩) := rfl

/-- A tokener that is still there is freed before the request. -/
theorem authStep_first (malloc easyInit multi : Bool) (given : List Bytes) :
    authStep T jsonC ⟨multi, false, parserGiven T given⟩ (.withPassword malloc easyInit) =
      ([.returned (multi || malloc)],
        .ok ⟨true, (multi || malloc) && easyInit, parserGiven T []⟩) := by
  rw [parserGiven]
  cases multi <;> cases malloc <;> split <;> rfl

theorem authStep_first_freed (malloc easyInit multi : Bool) :
    authStep T jsonC ⟨multi, false, .freed⟩ (.withPassword malloc easyInit) =
      ([], .error .freedTokener) := rfl

theorem authStep_chunk_freed (multi easy : Bool) (data : Bytes) :
    authStep T jsonC ⟨multi, easy, .freed⟩ (.bodyChunk data) = ([], .error .freedTokener) := rfl

theorem wcAuthParseBody_given (multi easy : Bool) (given : List Bytes) (data : Bytes) :
    wcAuthParseBody T jsonC ⟨multi, easy, parserGiven T given⟩ data =
      .ok (parseChunk T jsonC ⟨multi, easy, parserGiven T given⟩ (T.feed given) data) := by
  rw [wcAuthParseBody, parserGiven]
  by_cases hgiven : given = []
  · subst hgiven
    rfl
  · simp only [hgiven, if_false]

/-- What a chunk does, by what the tokener says of it. -/
theorem authStep_chunk (multi easy : Bool) (given : List Bytes) (data : Bytes) :
    authStep T jsonC ⟨multi, easy, parserGiven T given⟩ (.bodyChunk data) =
      match (T.parseEx (T.feed given) data).2 with
      | .success j =>
          ([.onAuthReply (.parsed (wcAuthParseJson jsonC j .zero))], .ok ⟨multi, easy, .freed⟩)
      | .continue => ([], .ok ⟨multi, easy, parserGiven T (given ++ [data])⟩)
      | .error => ([.onAuthReply .malformed], .error .staticText) := by
  have hparser : parserGiven T (given ++ [data]) = .live (T.parseEx (T.feed given) data).1 := by
    rw [parserGiven, if_neg (by simp), feed_concat]
  rw [hparser, authStep, curlWriteCb, wcAuthParseBody_given, parseChunk]
  cases hparse : T.parseEx (T.feed given) data with
  | mk jtok res => cases res <;> rfl

/-! ### Once the document has been reported -/

/-- The tokener being freed, only a call that finds the handle does not touch it. -/
theorem authRun_freed (events : List AuthEvent) (multi easy : Bool) :
    (authRun T jsonC ⟨multi, easy, .freed⟩ events).2 ≠ .error .freedTokener ↔
      ∀ e ∈ events, easy ∧ e.isRequest := by
  induction events with
  | nil => simp [authRun]
  | cons event events ih =>
      cases event with
      | bodyChunk data =>
          rw [authRun_cons_error (authStep_chunk_freed multi easy data)]
          simp [AuthEvent.isRequest]
      | withPassword malloc easyInit =>
          cases easy with
          | false =>
              rw [authRun_cons_error (authStep_first_freed malloc easyInit multi)]
              refine ⟨fun h => absurd rfl h, fun h => ?_⟩
              exact absurd (h (.withPassword malloc easyInit) List.mem_cons_self).1 (by decide)
          | true =>
              rw [authRun_cons_ok (authStep_again malloc easyInit multi _), ih]
              simp [AuthEvent.isRequest]

theorem replies_freed (events : List AuthEvent) (multi easy : Bool) :
    replies (authRun T jsonC ⟨multi, easy, .freed⟩ events).1 = [] := by
  induction events with
  | nil => rfl
  | cons event events ih =>
      cases event with
      | bodyChunk data =>
          rw [authRun_cons_error (authStep_chunk_freed multi easy data), replies_nil]
      | withPassword malloc easyInit =>
          cases easy with
          | false =>
              rw [authRun_cons_error (authStep_first_freed malloc easyInit multi), replies_nil]
          | true =>
              rw [authRun_cons_ok (authStep_again malloc easyInit multi _), replies_append, ih]
              rfl

/-! ### Any run -/

theorem authRun_live (events : List AuthEvent) (multi easy : Bool) (given : List Bytes) :
    (authRun T jsonC ⟨multi, easy, parserGiven T given⟩ events).2 ≠ .error .freedTokener ↔
      QuietAfterDocument T multi easy given events := by
  induction events generalizing multi easy given with
  | nil => simp [authRun, QuietAfterDocument]
  | cons event events ih =>
      cases event with
      | withPassword malloc easyInit =>
          rw [QuietAfterDocument]
          cases easy with
          | false =>
              rw [authRun_cons_ok (authStep_first malloc easyInit multi given), ih,
                if_neg (by decide)]
          | true =>
              rw [authRun_cons_ok (authStep_again malloc easyInit multi _), ih, if_pos rfl]
      | bodyChunk data =>
          have hstep :
              authStep T jsonC ⟨multi, easy, parserGiven T given⟩ (.bodyChunk data) = _ :=
            authStep_chunk multi easy given data
          rw [QuietAfterDocument]
          cases hparse : (T.parseEx (T.feed given) data).2 with
          | success j =>
              rw [hparse] at hstep
              rw [authRun_cons_ok hstep]
              exact authRun_freed events multi easy
          | «continue» =>
              rw [hparse] at hstep
              rw [authRun_cons_ok hstep]
              exact ih multi easy (given ++ [data])
          | error =>
              rw [hparse] at hstep
              rw [authRun_cons_error hstep]
              simp

/-! ### A reply that begins with a document -/

/-- What has been given to the tokener is within the document, and the rest of the
document is still to come. -/
structure Within (given : List Bytes) (es : List AuthEvent) (text rest : Bytes) : Prop where
  isPrefix : given.flatten <+: text
  proper : given.flatten ≠ text
  body : given.flatten ++ (bodyChunks es).flatten = text ++ rest

theorem Within.start {es : List AuthEvent} {text rest : Bytes} (hne : text ≠ [])
    (hbody : (bodyChunks es).flatten = text ++ rest) : Within [] es text rest :=
  ⟨List.nil_prefix, hne.symm, hbody⟩

theorem Within.withPassword {malloc easyInit : Bool} {given : List Bytes} {es : List AuthEvent}
    {text rest : Bytes} (h : Within given (.withPassword malloc easyInit :: es) text rest) :
    Within given es text rest :=
  ⟨h.isPrefix, h.proper, h.body⟩

/-- The document does not end before the body does. -/
theorem not_within_nil {given : List Bytes} {text rest : Bytes} : ¬ Within given [] text rest := by
  intro h
  have hbody : given.flatten = text ++ rest := by simpa [bodyChunks] using h.body
  exact h.proper (h.isPrefix.eq_of_length_le (by simp [hbody]))

/-- The next chunk either reaches the end of the document or stays within it. -/
theorem Within.bodyChunk {given : List Bytes} {data : Bytes} {es : List AuthEvent}
    {text rest : Bytes} (h : Within given (.bodyChunk data :: es) text rest) :
    text <+: (given ++ [data]).flatten ∨ Within (given ++ [data]) es text rest := by
  have hbody : (given ++ [data]).flatten ++ (bodyChunks es).flatten = text ++ rest := by
    simpa using h.body
  by_cases hend : text <+: (given ++ [data]).flatten
  · exact Or.inl hend
  · have hpre : (given ++ [data]).flatten <+: text ++ rest := hbody ▸ List.prefix_append _ _
    obtain hcut | hends := List.prefix_or_prefix_of_prefix hpre (List.prefix_append text rest)
    · exact Or.inr ⟨hcut, fun heq => hend (heq ▸ List.prefix_rfl), hbody⟩
    · exact absurd hends hend

theorem replies_document (hT : Documented T Document) {text rest : Bytes} {j : Json}
    (hdoc : Document text j) (es : List AuthEvent) (given : List Bytes)
    (h : Within given es text rest) :
    replies (authRun T jsonC ⟨true, true, parserGiven T given⟩ es).1 =
      [.parsed (wcAuthParseJson jsonC j .zero)] := by
  induction es generalizing given with
  | nil => exact absurd h not_within_nil
  | cons event es ih =>
      cases event with
      | withPassword malloc easyInit =>
          rw [authRun_cons_ok (authStep_again malloc easyInit true _), replies_append,
            ih given h.withPassword]
          rfl
      | bodyChunk data =>
          have hstep :
              authStep T jsonC ⟨true, true, parserGiven T given⟩ (.bodyChunk data) = _ :=
            authStep_chunk true true given data
          obtain hend | hwithin := h.bodyChunk
          · rw [hT.succeeds text j given data hdoc h.isPrefix h.proper hend] at hstep
            rw [authRun_cons_ok hstep, replies_append, replies_freed]
            rfl
          · rw [hT.continues text j given data hdoc hwithin.isPrefix hwithin.proper] at hstep
            rw [authRun_cons_ok hstep]
            exact ih (given ++ [data]) hwithin

/-- Nothing comes after the document iff it ends in the last chunk. -/
theorem quiet_document (hT : Documented T Document) {text rest : Bytes} {j : Json}
    (hdoc : Document text j) (es : List AuthEvent) (given : List Bytes)
    (h : Within given es text rest) :
    QuietAfterDocument T true true given es ↔
      ¬ text <+: (given ++ bodyChunks es).dropLast.flatten := by
  induction es generalizing given with
  | nil => exact absurd h not_within_nil
  | cons event es ih =>
      cases event with
      | withPassword malloc easyInit =>
          rw [QuietAfterDocument, if_pos rfl, ih given h.withPassword, bodyChunks_withPassword]
      | bodyChunk data =>
          rw [QuietAfterDocument, bodyChunks_bodyChunk]
          obtain hend | hwithin := h.bodyChunk
          · rw [hT.succeeds text j given data hdoc h.isPrefix h.proper hend]
            have hquiet : (∀ e ∈ es, True ∧ e.isRequest) ↔ bodyChunks es = [] := by
              simp [bodyChunks_eq_nil]
            simp only [hquiet]
            by_cases hmore : bodyChunks es = []
            · have hbefore : ¬ text <+: given.flatten := fun hle =>
                h.proper (h.isPrefix.eq_of_length_le hle.length_le)
              simp [hmore, hbefore]
            · have hlast : (given ++ data :: bodyChunks es).dropLast =
                  (given ++ [data]) ++ (bodyChunks es).dropLast := by
                rw [← List.singleton_append, ← List.append_assoc,
                  List.dropLast_append_of_ne_nil hmore]
              have hafter : text <+: (given ++ data :: bodyChunks es).dropLast.flatten := by
                rw [hlast, List.flatten_append]
                exact hend.trans (List.prefix_append _ _)
              exact iff_of_false hmore (not_not_intro hafter)
          · rw [hT.continues text j given data hdoc hwithin.isPrefix hwithin.proper,
              ih (given ++ [data]) hwithin, List.append_assoc, List.singleton_append]

theorem replies_of_document (hT : Documented T Document) {es : List AuthEvent}
    {text rest : Bytes} {j : Json} (hdoc : Document text j)
    (hbody : (bodyChunks es).flatten = text ++ rest) :
    replies (authRun T jsonC (.init T) (.withPassword true true :: es)).1 =
      [.parsed (wcAuthParseJson jsonC j .zero)] := by
  have hrun : replies (authRun T jsonC ⟨true, true, parserGiven T []⟩ es).1 = _ :=
    replies_document hT hdoc es [] (.start (hT.nonempty text j hdoc) hbody)
  have hstep : authStep T jsonC (.init T) (.withPassword true true) =
      ([.returned true], .ok ⟨true, true, parserGiven T []⟩) :=
    authStep_first true true false []
  rw [authRun_cons_ok hstep, replies_append, hrun]
  rfl

/-- No tokener is used after it has been freed, and a reply that begins with a document
is reported once, iff nothing comes after the chunk in which the tokener reports a
document; for a reply that begins with one, iff it ends in the last chunk. -/
theorem auth_iff (hT : Documented T Document) :
    (∀ events, (TokenersLive T jsonC events ∧ RepliedOnce T jsonC Document events) ↔
      QuietAfterDocument T false false [] events) ∧
    ∀ es text rest j, Document text j → (bodyChunks es).flatten = text ++ rest →
      ((TokenersLive T jsonC (.withPassword true true :: es) ∧
        replies (authRun T jsonC (.init T) (.withPassword true true :: es)).1 =
          [.parsed (wcAuthParseJson jsonC j .zero)]) ↔
        ¬ text <+: (bodyChunks es).dropLast.flatten) := by
  have hlive : ∀ events,
      TokenersLive T jsonC events ↔ QuietAfterDocument T false false [] events :=
    fun events => authRun_live events false false []
  constructor
  · intro events
    rw [hlive]
    refine and_iff_left ?_
    rintro es text rest j rfl hdoc hbody
    exact replies_of_document hT hdoc hbody
  · intro es text rest j hdoc hbody
    rw [and_iff_left (replies_of_document hT hdoc hbody), hlive, QuietAfterDocument,
      if_neg (by decide)]
    exact quiet_document hT hdoc es [] (.start (hT.nonempty text j hdoc) hbody)

end Runs

/-! ### An empty object -/

/-- A tokener that knows one document, and reports it whatever comes after it. -/
def endsDocument (text : Bytes) (doc : Json) : Tokener where
  State := Bytes
  new := []
  parseEx read buf :=
    (read ++ buf,
      if text.isPrefixOf (read ++ buf) then .success doc
      else if (read ++ buf).isPrefixOf text then .continue
      else .error)

theorem feed_endsDocument (text : Bytes) (doc : Json) (chunks : List Bytes) :
    (endsDocument text doc).feed chunks = chunks.flatten := by
  induction chunks using List.reverseRecOn with
  | nil => rfl
  | append_singleton chunks buf ih =>
      rw [feed_concat, ih, List.flatten_append, List.flatten_singleton]
      rfl

theorem endsDocument_documented {text : Bytes} (hne : text ≠ []) (doc : Json) :
    Documented (endsDocument text doc) fun t j => t = text ∧ j = doc where
  nonempty := by
    rintro _ _ ⟨rfl, rfl⟩
    exact hne
  continues := by
    rintro t _ chunks buf ⟨rfl, rfl⟩ hpre hproper
    rw [feed_endsDocument]
    rw [List.flatten_append, List.flatten_singleton] at hpre hproper
    have hbefore : ¬ t <+: chunks.flatten ++ buf := fun hle =>
      hproper (hpre.eq_of_length_le hle.length_le)
    simp [endsDocument, hpre, hbefore]
  succeeds := by
    rintro _ _ chunks buf ⟨rfl, rfl⟩ - - hend
    rw [feed_endsDocument]
    rw [List.flatten_append, List.flatten_singleton] at hend
    simp [endsDocument, hend]

def emptyObject : Bytes := ascii "\x7b\x7d"

theorem emptyObject_documented : Documented (endsDocument emptyObject (.object []))
    fun t j => t = emptyObject ∧ j = .object [] :=
  endsDocument_documented (by decide) _

/-- The reply in two chunks, with a newline after it in the second. -/
theorem auth_emptyObject :
    TokenersLive (endsDocument emptyObject (.object [])) silentJsonC
        [.withPassword true true, .bodyChunk (ascii "\x7b"), .bodyChunk (ascii "\x7d\n")] ∧
      replies (authRun (endsDocument emptyObject (.object [])) silentJsonC (.init _)
        [.withPassword true true, .bodyChunk (ascii "\x7b"), .bodyChunk (ascii "\x7d\n")]).1 =
          [.parsed (wcAuthParseJson silentJsonC (.object []) .zero)] :=
  ((auth_iff emptyObject_documented).2 [.bodyChunk (ascii "\x7b"), .bodyChunk (ascii "\x7d\n")]
    emptyObject (ascii "\n") (.object []) ⟨rfl, rfl⟩ (by decide)).mpr (by decide)

/-- The same newline in a chunk of its own is given to a tokener that has been freed. -/
theorem auth_newline_alone :
    ¬ ∀ (T : Tokener) (jsonC : JsonC) (Document : Bytes → Json → Prop), Documented T Document →
      ∀ events, TokenersLive T jsonC events ∧ RepliedOnce T jsonC Document events := by
  intro hall
  have h := (hall _ silentJsonC _ emptyObject_documented
    [.withPassword true true, .bodyChunk emptyObject, .bodyChunk (ascii "\n")]).1
  exact h rfl

end WebcomSdk.Auth
