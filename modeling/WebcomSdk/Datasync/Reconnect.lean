import WebcomSdk.Datasync.ListenRegistry

/-!
Reconnection, `lib/datasync/datasync.c`: `_wc_datasync_schedule_reconnect` asks
the application for a timer and doubles `ws_next_reconnect_timer`, which the
handshake sets to 1 and `wc_context_create` to 0.
-/

namespace WebcomSdk.Datasync

/-! ### The context -/

inductive WcTimersrc where
  | datasyncKeepalive
  | datasyncReconnect
  | auth
  deriving Repr, DecidableEq

/-- `struct wc_timerargs`. -/
structure WcTimerargs where
  ms : ℕ
  timer : WcTimersrc
  repeats : Bool
  deriving Repr, DecidableEq

/-- What the event callback of the context is called with. -/
inductive WcEvent where
  | setTimer (ta : WcTimerargs)
  | delTimer (timer : WcTimersrc)
  | onCnxError
  | onCnxClosed
  | onServerHandshake
  | onMsgReceived
  deriving Repr, DecidableEq

structure ReconnectCtx where
  datasyncInit : Bool
  state : CnxState
  wsNextReconnectTimer : ℕ
  deriving Repr, DecidableEq

/-- The context is allocated with `calloc`. -/
def wcContextCreate : ReconnectCtx := ⟨false, .disconnected, 0⟩

def wcDatasyncInit (ctx : ReconnectCtx) : ReconnectCtx :=
  { ctx with datasyncInit := true, state := .disconnected }

/-- The timer is an `unsigned`. -/
def wcDatasyncScheduleReconnect (ctx : ReconnectCtx) : ReconnectCtx × List WcEvent :=
  ({ ctx with
      wsNextReconnectTimer :=
        if ctx.wsNextReconnectTimer < 2 ^ 8 then 2 * ctx.wsNextReconnectTimer % 2 ^ 32
        else ctx.wsNextReconnectTimer },
    [.setTimer ⟨1000 * ctx.wsNextReconnectTimer % 2 ^ 32, .datasyncReconnect, false⟩])

/-- What happens to a context. `reconnect` is what the event callback returns. -/
inductive ReconnectEvent where
  /-- `wc_datasync_connect`, called by the application. -/
  | connect
  /-- `WC_TIMER_DATASYNC_RECONNECT`, which calls `_wc_datasync_connect`. -/
  | timer
  /-- The handshake message of the server. -/
  | handshake
  | clientConnectionError (reconnect : Bool)
  | closed (reconnect : Bool)
  | closeCnx
  deriving Repr, DecidableEq

/-- The new context, and what the event callback is called with. -/
def ReconnectCtx.step (ctx : ReconnectCtx) : ReconnectEvent → ReconnectCtx × List WcEvent
  | .connect =>
      wcDatasyncScheduleReconnect (if ctx.datasyncInit then ctx else wcDatasyncInit ctx)
  | .timer =>
      (if ctx.state = .disconnected then { ctx with state := .connecting } else ctx, [])
  | .handshake =>
      if ctx.state = .disconnecting then (ctx, [])
      else ({ ctx with state := .connected, wsNextReconnectTimer := 1 },
        [.onServerHandshake, .setTimer ⟨50000, .datasyncKeepalive, true⟩, .onMsgReceived])
  | .clientConnectionError reconnect =>
      let ctx := { ctx with state := .disconnected }
      if reconnect then
        let (ctx, events) := wcDatasyncScheduleReconnect ctx
        (ctx, .onCnxError :: events)
      else (ctx, [.onCnxError])
  | .closed reconnect =>
      let ctx := { ctx with state := .disconnected }
      if reconnect then
        let (ctx, events) := wcDatasyncScheduleReconnect ctx
        (ctx, .delTimer .datasyncKeepalive :: .onCnxClosed :: events)
      else (ctx, [.delTimer .datasyncKeepalive, .onCnxClosed])
  | .closeCnx =>
      (if ctx.state = .connected ∨ ctx.state = .connecting then
        { ctx with state := .disconnecting } else ctx, [])

/-! ### Runs -/

/-- An automatic retry. -/
def ReconnectEvent.isRetry : ReconnectEvent → Bool
  | clientConnectionError reconnect | closed reconnect => reconnect
  | _ => false

/-- The handshakes so far, and the automatic retries and the calls of
`wc_datasync_connect` since the last. -/
structure ReconnectHistory where
  handshakes : ℕ
  retries : ℕ
  connects : ℕ
  deriving Repr, DecidableEq

/-- A handshake message is dropped while the context is disconnecting. -/
def ReconnectHistory.next (h : ReconnectHistory) (state : CnxState) (e : ReconnectEvent) :
    ReconnectHistory :=
  if e.isRetry then { h with retries := h.retries + 1 }
  else if e = .connect then { h with connects := h.connects + 1 }
  else if e = .handshake ∧ state ≠ .disconnecting then ⟨h.handshakes + 1, 0, 0⟩
  else h

/-- A context with its history. -/
structure ReconnectState where
  ctx : ReconnectCtx
  history : ReconnectHistory
  deriving Repr, DecidableEq

def ReconnectState.next (s : ReconnectState) (e : ReconnectEvent) : ReconnectState :=
  ⟨(s.ctx.step e).1, s.history.next s.ctx.state e⟩

def runReconnect (es : List ReconnectEvent) : ReconnectState :=
  es.foldl ReconnectState.next ⟨wcContextCreate, ⟨0, 0, 0⟩⟩

/-- The delay of the reconnection timer that the event asks for, in milliseconds. -/
def ReconnectState.requestedDelay (s : ReconnectState) (e : ReconnectEvent) : Option ℕ :=
  (s.ctx.step e).2.findSome? fun
    | .setTimer ta => if ta.timer = .datasyncReconnect then some ta.ms else none
    | _ => none

/-- The delay of the next automatic retry, which is number `retries + 1`. -/
def ReconnectHistory.backoff (h : ReconnectHistory) : ℕ := 1000 * min (2 ^ h.retries) 256

/-- Each automatic retry of the run asks for its delay, which is never zero, never
above 256 seconds and never decreases between handshakes. -/
structure RetriesBackOff (es : List ReconnectEvent) : Prop where
  delay : ∀ before e after, es = before ++ e :: after → e.isRetry →
    (runReconnect before).requestedDelay e = some (runReconnect before).history.backoff
  bounds : ∀ before e after, es = before ++ e :: after → e.isRetry →
    ∃ ms ∈ (runReconnect before).requestedDelay e, 0 < ms ∧ ms ≤ 256000
  monotone : ∀ before e between e' after, es = before ++ e :: (between ++ e' :: after) →
    e.isRetry → e'.isRetry →
    (runReconnect (before ++ e :: between)).history.handshakes =
      (runReconnect before).history.handshakes →
    ∃ ms ∈ (runReconnect before).requestedDelay e,
      ∃ ms' ∈ (runReconnect (before ++ e :: between)).requestedDelay e', ms ≤ ms'

/-- Before each automatic retry there was a handshake, and no call of
`wc_datasync_connect` since it unless 8 retries or more came in between. -/
def RetriesFollowHandshake (es : List ReconnectEvent) : Prop :=
  ∀ before e after, es = before ++ e :: after → e.isRetry →
    0 < (runReconnect before).history.handshakes ∧
      ((runReconnect before).history.connects = 0 ∨ 8 ≤ (runReconnect before).history.retries)

/-! ### The value of the timer -/

/-- What `ws_next_reconnect_timer` is after a history. -/
def ReconnectHistory.nextTimer (h : ReconnectHistory) : ℕ :=
  if h.handshakes = 0 then 0 else min (2 ^ (h.retries + h.connects)) 256

theorem min_two_pow_succ (n : ℕ) :
    min (2 ^ (n + 1)) 256 =
      if min (2 ^ n) 256 < 2 ^ 8 then 2 * min (2 ^ n) 256 % 2 ^ 32 else min (2 ^ n) 256 := by
  have hpow : 2 ^ (n + 1) = 2 * 2 ^ n := Nat.pow_succ'
  rcases Nat.lt_or_ge n 8 with hlt | hge
  · have hsmall : 2 ^ n ≤ 2 ^ 7 := Nat.pow_le_pow_right (by decide) (by omega)
    rw [if_pos (by omega)]
    omega
  · have hlarge : 2 ^ 8 ≤ 2 ^ n := Nat.pow_le_pow_right (by decide) hge
    rw [if_neg (by omega)]
    omega

section Step

variable {ctx : ReconnectCtx} {h : ReconnectHistory}

theorem scheduleReconnect_timer (htimer : ctx.wsNextReconnectTimer = h.nextTimer)
    {h' : ReconnectHistory} (hhandshakes : h'.handshakes = h.handshakes)
    (hscheduled : h'.retries + h'.connects = h.retries + h.connects + 1) :
    (wcDatasyncScheduleReconnect ctx).1.wsNextReconnectTimer = h'.nextTimer := by
  rw [ReconnectHistory.nextTimer] at htimer ⊢
  simp only [wcDatasyncScheduleReconnect, htimer, hhandshakes, hscheduled]
  split
  next => rfl
  next => exact (min_two_pow_succ _).symm

theorem step_timer (htimer : ctx.wsNextReconnectTimer = h.nextTimer) (e : ReconnectEvent) :
    (ctx.step e).1.wsNextReconnectTimer = (h.next ctx.state e).nextTimer := by
  cases e with
  | connect =>
      apply scheduleReconnect_timer (h := h)
      · split
        next => exact htimer
        next => exact htimer
      · rfl
      · simp only [ReconnectHistory.next, ReconnectEvent.isRetry]
        simp
        omega
  | timer =>
      simp only [ReconnectCtx.step]
      split <;> exact htimer
  | handshake =>
      simp only [ReconnectCtx.step, ReconnectHistory.next, ReconnectEvent.isRetry]
      split
      next hstate => simpa [hstate] using htimer
      next hstate => simp [hstate, ReconnectHistory.nextTimer]
  | clientConnectionError reconnect =>
      cases reconnect with
      | false => exact htimer
      | true =>
          exact scheduleReconnect_timer htimer rfl
            (by simp [ReconnectHistory.next, ReconnectEvent.isRetry]; omega)
  | closed reconnect =>
      cases reconnect with
      | false => exact htimer
      | true =>
          exact scheduleReconnect_timer htimer rfl
            (by simp [ReconnectHistory.next, ReconnectEvent.isRetry]; omega)
  | closeCnx =>
      simp only [ReconnectCtx.step]
      split <;> exact htimer

/-- A retry asks for a timer of `ws_next_reconnect_timer` seconds. -/
theorem requestedDelay_retry {s : ReconnectState} {e : ReconnectEvent} (he : e.isRetry) :
    s.requestedDelay e = some (1000 * s.ctx.wsNextReconnectTimer % 2 ^ 32) := by
  cases e with
  | clientConnectionError reconnect =>
      obtain rfl : reconnect = true := he
      rfl
  | closed reconnect =>
      obtain rfl : reconnect = true := he
      rfl
  | connect | timer | handshake | closeCnx => simp [ReconnectEvent.isRetry] at he

end Step

/-! ### Along a run -/

theorem runReconnect_concat (es : List ReconnectEvent) (e : ReconnectEvent) :
    runReconnect (es ++ [e]) = (runReconnect es).next e := by
  simp [runReconnect]

theorem runReconnect_timer (es : List ReconnectEvent) :
    (runReconnect es).ctx.wsNextReconnectTimer = (runReconnect es).history.nextTimer := by
  induction es using List.reverseRecOn with
  | nil => rfl
  | append_singleton es e ih =>
      rw [runReconnect_concat]
      exact step_timer ih e

theorem runReconnect_requestedDelay (es : List ReconnectEvent) {e : ReconnectEvent}
    (he : e.isRetry) :
    (runReconnect es).requestedDelay e = some (1000 * (runReconnect es).history.nextTimer) := by
  have hle : (runReconnect es).history.nextTimer ≤ 256 := by
    rw [ReconnectHistory.nextTimer]
    split <;> omega
  rw [requestedDelay_retry he, runReconnect_timer, Nat.mod_eq_of_lt (by omega)]

theorem nextTimer_eq_backoff_iff (h : ReconnectHistory) :
    1000 * h.nextTimer = h.backoff ↔ 0 < h.handshakes ∧ (h.connects = 0 ∨ 8 ≤ h.retries) := by
  have hpos : 0 < 2 ^ h.retries := Nat.two_pow_pos _
  rw [ReconnectHistory.nextTimer, ReconnectHistory.backoff]
  split
  next hzero => omega
  next hhandshakes =>
    rcases Nat.lt_or_ge h.retries 8 with hlt | hge
    · have hsmall : 2 ^ h.retries < 2 ^ 8 := Nat.pow_lt_pow_right (by decide) hlt
      rcases Nat.eq_zero_or_pos h.connects with hconnects | hconnects
      · rw [hconnects, Nat.add_zero]
        omega
      · have hlarger : 2 ^ h.retries < 2 ^ (h.retries + h.connects) :=
          Nat.pow_lt_pow_right (by decide) (by omega)
        omega
    · have hlarge : 2 ^ 8 ≤ 2 ^ h.retries := Nat.pow_le_pow_right (by decide) hge
      have hlarger : 2 ^ h.retries ≤ 2 ^ (h.retries + h.connects) :=
        Nat.pow_le_pow_right (by decide) (by omega)
      omega

/-- The handshakes are counted, and between two of them so are the retries. -/
theorem history_next_le (h : ReconnectHistory) (state : CnxState) (e : ReconnectEvent) :
    h.handshakes ≤ (h.next state e).handshakes ∧
      ((h.next state e).handshakes = h.handshakes → h.retries ≤ (h.next state e).retries) := by
  rw [ReconnectHistory.next]
  split_ifs <;> simp

theorem history_le (s : ReconnectState) (es : List ReconnectEvent) :
    s.history.handshakes ≤ (es.foldl ReconnectState.next s).history.handshakes ∧
      ((es.foldl ReconnectState.next s).history.handshakes = s.history.handshakes →
        s.history.retries ≤ (es.foldl ReconnectState.next s).history.retries) := by
  induction es generalizing s with
  | nil => exact ⟨Nat.le_refl _, fun _ => Nat.le_refl _⟩
  | cons e es ih =>
      obtain ⟨hhandshakes, hretries⟩ := history_next_le s.history s.ctx.state e
      obtain ⟨hhandshakes', hretries'⟩ := ih (s.next e)
      have hnext : (s.next e).history = s.history.next s.ctx.state e := rfl
      rw [hnext] at hhandshakes' hretries'
      rw [List.foldl_cons]
      exact ⟨by omega, fun heq => (hretries (by omega)).trans (hretries' (by omega))⟩

theorem runReconnect_retries_le {before between : List ReconnectEvent} {e : ReconnectEvent}
    (h : (runReconnect (before ++ e :: between)).history.handshakes =
      (runReconnect before).history.handshakes) :
    (runReconnect before).history.retries ≤
      (runReconnect (before ++ e :: between)).history.retries := by
  have hrun : runReconnect (before ++ e :: between) =
      (e :: between).foldl ReconnectState.next (runReconnect before) := List.foldl_append
  rw [hrun] at h ⊢
  exact (history_le _ _).2 h

theorem backoff_mono {h h' : ReconnectHistory} (hle : h.retries ≤ h'.retries) :
    h.backoff ≤ h'.backoff := by
  have hpow : 2 ^ h.retries ≤ 2 ^ h'.retries := Nat.pow_le_pow_right (by decide) hle
  rw [ReconnectHistory.backoff, ReconnectHistory.backoff]
  omega

theorem backoff_bounds (h : ReconnectHistory) : 0 < h.backoff ∧ h.backoff ≤ 256000 := by
  have hpos : 0 < 2 ^ h.retries := Nat.two_pow_pos _
  rw [ReconnectHistory.backoff]
  omega

/-- The automatic retries of a run back off as they should exactly when each of
them comes after a handshake and not shortly after a further
`wc_datasync_connect`. -/
theorem retries_back_off_iff (es : List ReconnectEvent) :
    RetriesBackOff es ↔ RetriesFollowHandshake es := by
  constructor
  · intro hes before e after heq he
    have hdelay := hes.delay before e after heq he
    rw [runReconnect_requestedDelay before he, Option.some.injEq] at hdelay
    exact (nextTimer_eq_backoff_iff _).mp hdelay
  · intro hes
    have hdelay : ∀ before e after, es = before ++ e :: after → e.isRetry →
        (runReconnect before).requestedDelay e =
          some (runReconnect before).history.backoff := by
      intro before e after heq he
      rw [runReconnect_requestedDelay before he]
      exact congrArg some ((nextTimer_eq_backoff_iff _).mpr (hes before e after heq he))
    constructor
    case delay => exact hdelay
    case bounds =>
      intro before e after heq he
      exact ⟨_, hdelay before e after heq he, backoff_bounds _⟩
    case monotone =>
      intro before e between e' after heq he he' hsame
      have heq' : es = (before ++ e :: between) ++ e' :: after := by simp [heq]
      exact ⟨_, hdelay before e _ heq he, _, hdelay _ e' after heq' he',
        backoff_mono (runReconnect_retries_le hsame)⟩

/-- Before the first handshake the timer is 0 and doubling keeps it. -/
theorem first_retries_at_once :
    ¬ RetriesBackOff [.connect, .timer, .clientConnectionError true, .timer,
      .clientConnectionError true] := by
  intro h
  have hdelay := h.delay [.connect, .timer] (.clientConnectionError true) _ rfl rfl
  exact absurd hdelay (by decide)

example : (runReconnect [.connect, .timer, .handshake, .closed true, .timer]).requestedDelay
    (.clientConnectionError true) = some 2000 := by decide

end WebcomSdk.Datasync
