import WebcomSdk.Datasync.Reconnect
import WebcomSdk.Lib.Run

/-!
A context in an event loop: the timers that `_wc_libev_cb` of `lib/libev.c` starts and
stops, what `wc_dispatch_timer_event` of `lib/webcom_base.c` does when they fire, and the
connections that libwebsockets makes meanwhile. To initialise a timer that is started, or
to use a connection that is gone, ends the run with `none`. The watchers of the sockets and
the requests of the authentication are left out.
-/

namespace WebcomSdk.Event

open WebcomSdk.Lib WebcomSdk.Datasync

/-! ### Timers -/

/-- The timers that are started. -/
abbrev Timers := WcTimersrc → Option WcTimerargs

/-- `_wc_libev_cb`. -/
def wcLibevCb (timers : Timers) : WcEvent → Option Timers
  | .setTimer ta =>
      if (timers ta.timer).isSome then none else some (Function.update timers ta.timer (some ta))
  | .delTimer timer => some (Function.update timers timer none)
  | .onCnxError | .onCnxClosed | .onServerHandshake | .onMsgReceived => some timers

/-- libev stops a timer that does not repeat before it calls it. -/
def fired (timers : Timers) (timer : WcTimersrc) : Timers :=
  if (timers timer).any WcTimerargs.repeats then timers else Function.update timers timer none

/-! ### The loop -/

/-- A connection of libwebsockets. `handshaken` says that the handshake message was not
dropped. -/
structure Wsi where
  established : Bool
  handshaken : Bool
deriving DecidableEq

/-- `wsis` are the connections by their addresses. `wanted` records whether the application
wants to be connected, as it said last. -/
structure Loop where
  ctx : ReconnectCtx
  timers : Timers
  wsis : ℕ → Option Wsi
  lwsConn : ℕ
  wanted : Bool

def loopStart : Loop := ⟨wcContextCreate, fun _ => none, fun _ => none, 0, false⟩

/-- `lws_write` on the connection. -/
def wcDatasyncKeepalive (s : Loop) : Option Loop :=
  (s.wsis s.lwsConn).bind fun wsi => if wsi.established then some s else none

/-- `lws_client_connect_via_info` returns `a`. -/
def wcDatasyncConnect (a : ℕ) (s : Loop) : Loop :=
  if s.ctx.state = .disconnected then
    { s with
      ctx := (s.ctx.step .timer).1
      wsis := Function.update s.wsis a (some ⟨false, false⟩)
      lwsConn := a }
  else s

/-- The service of `WC_TIMER_AUTH` is left out. -/
def wcDispatchTimerEvent (a : ℕ) (s : Loop) : WcTimersrc → Option Loop
  | .datasyncKeepalive => wcDatasyncKeepalive s
  | .datasyncReconnect => some (wcDatasyncConnect a s)
  | .auth => some s

/-- The context makes a step and tells the event callback. -/
def Loop.ctxStep (e : ReconnectEvent) (s : Loop) : Option Loop :=
  ((s.ctx.step e).2.foldlM wcLibevCb s.timers).map fun timers =>
    { s with ctx := (s.ctx.step e).1, timers }

inductive LoopEvent where
  /-- `wc_datasync_connect`. -/
  | connect
  | closeCnx
  /-- A timer fires. `a` is the address of the next connection. -/
  | timer (timer : WcTimersrc) (a : ℕ)
  | clientEstablished (a : ℕ)
  | handshake (a : ℕ)
  | clientConnectionError (a : ℕ) (reconnect : Bool)
  | closed (a : ℕ) (reconnect : Bool)

def loopStep (s : Loop) : LoopEvent → Option Loop
  | .connect => (s.ctxStep .connect).map fun s => { s with wanted := true }
  | .closeCnx =>
      if s.ctx.state = .connected ∨ s.ctx.state = .connecting then
        (s.wsis s.lwsConn).bind fun _ => s.ctxStep .closeCnx
      else some s
  | .timer timer a => wcDispatchTimerEvent a { s with timers := fired s.timers timer } timer
  | .clientEstablished a => some { s with
      wsis := Function.update s.wsis a ((s.wsis a).map fun wsi =>
        { wsi with established := true }) }
  | .handshake a => (s.ctxStep .handshake).map fun s' => { s' with
      wsis := Function.update s.wsis a ((s.wsis a).map fun wsi =>
        { wsi with handshaken := s.ctx.state ≠ .disconnecting }) }
  | .clientConnectionError a reconnect =>
      (s.ctxStep (.clientConnectionError reconnect)).map fun s =>
        { s with wsis := Function.update s.wsis a none, wanted := reconnect }
  | .closed a reconnect => (s.ctxStep (.closed reconnect)).map fun s =>
      { s with wsis := Function.update s.wsis a none, wanted := reconnect }

/-- What libev, libwebsockets and the server promise: timers fire when they are started, a
connection is established before it is closed or fails instead, and the handshake comes once.
The application connects when nothing is under way. -/
def LoopOccurs (s : Loop) : LoopEvent → Prop
  | .connect => s.ctx.state = .disconnected ∧ s.timers .datasyncReconnect = none
  | .closeCnx => True
  | .timer timer a => (s.timers timer).isSome ∧ s.wsis a = none
  | .clientEstablished a | .clientConnectionError a _ => ∃ wsi ∈ s.wsis a, wsi.established = false
  | .handshake a => s.wsis a = some ⟨true, false⟩
  | .closed a _ => ∃ wsi ∈ s.wsis a, wsi.established = true

/-! ### What holds in every state -/

/-- The one connection, in the state that the context takes it to be in. -/
structure Live (s : Loop) (wsi : Wsi) : Prop where
  only : s.wsis = Function.update (fun _ => none) s.lwsConn (some wsi)
  connecting : s.ctx.state = .connecting → wsi.handshaken = false
  connected : s.ctx.state = .connected → wsi.handshaken = true
  established : wsi.handshaken = true → wsi.established = true
  keepalive : s.timers .datasyncKeepalive =
    if wsi.handshaken then some ⟨50000, .datasyncKeepalive, true⟩ else none
  reconnect : s.timers .datasyncReconnect = none

/-- No connection, and the next one is under way if it is wanted. -/
structure Down (s : Loop) : Prop where
  none : ∀ a, s.wsis a = none
  keepalive : s.timers .datasyncKeepalive = .none
  reconnect : (s.timers .datasyncReconnect).isSome = s.wanted

/-- The values of `ws_next_reconnect_timer`. -/
def Delay (n : ℕ) : Prop := n = 0 ∨ ∃ k ≤ 8, n = 2 ^ k

structure Loop.Sound (s : Loop) : Prop where
  live : s.ctx.state ≠ .disconnected → ∃ wsi, Live s wsi
  down : s.ctx.state = .disconnected → Down s
  delay : Delay s.ctx.wsNextReconnectTimer
  once : ∀ ta ∈ s.timers .datasyncReconnect, ta.repeats = false ∧ ta.ms ≤ 256000

theorem loopStart_sound : loopStart.Sound where
  live h := absurd rfl h
  down _ := ⟨fun _ => rfl, rfl, rfl⟩
  delay := .inl rfl
  once := by simp [loopStart]

theorem Delay.le {n : ℕ} (h : Delay n) : n ≤ 256 := by
  obtain rfl | ⟨k, hk, rfl⟩ := h
  · exact Nat.zero_le _
  · exact Nat.pow_le_pow_right (by decide) hk

theorem Delay.next {n : ℕ} (h : Delay n) : Delay (if n < 2 ^ 8 then 2 * n % 2 ^ 32 else n) := by
  split
  next hlt =>
    rw [Nat.mod_eq_of_lt (by omega)]
    obtain rfl | ⟨k, -, rfl⟩ := h
    · exact .inl rfl
    · exact .inr ⟨k + 1, (Nat.pow_lt_pow_iff_right (by decide)).mp hlt, Nat.pow_succ'.symm⟩
  next => exact h

section Steps

variable {s s' : Loop} {wsi : Wsi}

/-- A reconnection is scheduled while none is: what the context and the timers are then. -/
theorem schedule_spec {ctx : ReconnectCtx} (hdelay : Delay ctx.wsNextReconnectTimer)
    {timers : Timers} (h : timers .datasyncReconnect = none) :
    ∃ ms ≤ 256000, (wcDatasyncScheduleReconnect ctx).2.foldlM wcLibevCb timers = some
        (Function.update timers .datasyncReconnect (some ⟨ms, .datasyncReconnect, false⟩)) ∧
      (wcDatasyncScheduleReconnect ctx).1.state = ctx.state ∧
      Delay (wcDatasyncScheduleReconnect ctx).1.wsNextReconnectTimer := by
  have hle := hdelay.le
  refine ⟨1000 * ctx.wsNextReconnectTimer % 2 ^ 32, ?_, ?_, rfl, hdelay.next⟩
  · exact (Nat.mod_le _ _).trans (Nat.mul_le_mul_left 1000 hle)
  · rw [wcDatasyncScheduleReconnect, List.foldlM_cons, wcLibevCb, h]
    rfl

/-- What the loss of a connection does to the context and the timers. -/
structure Lost (timers : Timers) (reconnect : Bool) (ctx' : ReconnectCtx) (timers' : Timers) :
    Prop where
  state : ctx'.state = .disconnected
  delay : Delay ctx'.wsNextReconnectTimer
  keepalive : timers' .datasyncKeepalive = timers .datasyncKeepalive
  reconnect : (timers' .datasyncReconnect).isSome = reconnect
  once : ∀ ta ∈ timers' .datasyncReconnect, ta.repeats = false ∧ ta.ms ≤ 256000

/-- The reconnection that the application asks for or not. -/
theorem lost_of_schedule (ctx : ReconnectCtx) (hdelay : Delay ctx.wsNextReconnectTimer)
    (hstate : ctx.state = .disconnected) (timers : Timers) (h : timers .datasyncReconnect = none)
    (reconnect : Bool) :
    ∃ timers', (if reconnect then (wcDatasyncScheduleReconnect ctx).2 else []).foldlM wcLibevCb
        timers = some timers' ∧
      Lost timers reconnect (if reconnect then (wcDatasyncScheduleReconnect ctx).1 else ctx)
        timers' := by
  cases reconnect with
  | false => exact ⟨timers, rfl, hstate, hdelay, rfl, by rw [h]; rfl, by simp [h]⟩
  | true =>
      obtain ⟨ms, hms, hfold, hsame, hnext⟩ := schedule_spec hdelay h
      refine ⟨_, hfold, hsame.trans hstate, hnext, rfl, rfl, ?_⟩
      rintro ta ⟨⟩
      exact ⟨rfl, hms⟩

theorem ctxStep_error (hdelay : Delay s.ctx.wsNextReconnectTimer)
    (h : s.timers .datasyncReconnect = none) (reconnect : Bool) :
    ∃ ctx timers, s.ctxStep (.clientConnectionError reconnect) = some { s with ctx, timers } ∧
      Lost s.timers reconnect ctx timers := by
  obtain ⟨timers, hfold, hlost⟩ := lost_of_schedule
    { s.ctx with state := .disconnected } hdelay rfl s.timers h reconnect
  refine ⟨_, timers, ?_, hlost⟩
  rw [Loop.ctxStep]
  cases reconnect with
  | false => exact congrArg _ hfold
  | true => exact congrArg _ hfold

theorem ctxStep_closed (hdelay : Delay s.ctx.wsNextReconnectTimer)
    (h : s.timers .datasyncReconnect = none) (reconnect : Bool) :
    ∃ ctx timers, s.ctxStep (.closed reconnect) = some { s with ctx, timers } ∧
      Lost (Function.update s.timers .datasyncKeepalive none) reconnect ctx timers := by
  obtain ⟨timers, hfold, hlost⟩ := lost_of_schedule
    { s.ctx with state := .disconnected } hdelay rfl
    (Function.update s.timers .datasyncKeepalive none) h reconnect
  refine ⟨_, timers, ?_, hlost⟩
  rw [Loop.ctxStep]
  cases reconnect with
  | false => exact congrArg _ hfold
  | true => exact congrArg _ hfold

theorem Live.found (h : Live s wsi) : s.wsis s.lwsConn = some wsi := by
  rw [h.only, Function.update_self]

/-- The connection is gone, and everything is as if there had been none. -/
theorem Live.lost (h : Live s wsi) {a : ℕ} (ha : (s.wsis a).isSome) {timers : Timers}
    (hkeep : timers .datasyncKeepalive = none) {reconnect : Bool} {ctx' : ReconnectCtx}
    {timers' : Timers} (hlost : Lost timers reconnect ctx' timers') :
    Loop.Sound { s with
      ctx := ctx', timers := timers', wsis := Function.update s.wsis a none, wanted := reconnect
      } where
  live hne := absurd hlost.state hne
  down _ := by
    refine ⟨fun b => ?_, hlost.keepalive.trans hkeep, hlost.reconnect⟩
    have hsame : a = s.lwsConn := by
      by_contra hne
      rw [h.only, Function.update_of_ne hne] at ha
      cases ha
    show Function.update s.wsis a none b = none
    rw [h.only, hsame, Function.update_idem]
    by_cases hb : b = s.lwsConn
    · rw [hb, Function.update_self]
    · rw [Function.update_of_ne hb]
  delay := hlost.delay
  once := hlost.once

/-- `wc_datasync_connect` where nothing is under way. -/
theorem connect_sound (h : s.Sound) (hstate : s.ctx.state = .disconnected)
    (hidle : s.timers .datasyncReconnect = none) :
    ∃ s', loopStep s .connect = some s' ∧ s'.Sound := by
  have hinit : ∀ ctx, ctx = (if s.ctx.datasyncInit then s.ctx else wcDatasyncInit s.ctx) →
      ctx.state = .disconnected ∧ ctx.wsNextReconnectTimer = s.ctx.wsNextReconnectTimer := by
    rintro ctx rfl
    split
    · exact ⟨hstate, rfl⟩
    · exact ⟨rfl, rfl⟩
  generalize hctx : (if s.ctx.datasyncInit then s.ctx else wcDatasyncInit s.ctx) = ctx at hinit
  obtain ⟨hdown, htimer⟩ := hinit ctx rfl
  obtain ⟨ms, hms, hfold, hsame, hnext⟩ := schedule_spec (htimer ▸ h.delay) hidle
  refine ⟨{ s with
    ctx := (wcDatasyncScheduleReconnect ctx).1
    timers := Function.update s.timers .datasyncReconnect (some ⟨ms, .datasyncReconnect, false⟩)
    wanted := true }, ?_, ?_⟩
  · rw [loopStep, Loop.ctxStep, ReconnectCtx.step, hctx, hfold]
    rfl
  · refine ⟨fun hne => absurd (hsame.trans hdown) hne, fun _ => ?_, hnext, ?_⟩
    · exact ⟨(h.down hstate).none, (h.down hstate).keepalive, rfl⟩
    · rintro ta ⟨⟩
      exact ⟨rfl, hms⟩

/-- The timer of a reconnection fires. -/
theorem reconnect_sound (h : s.Sound) (hstate : s.ctx.state = .disconnected) (a : ℕ)
    (hstarted : (s.timers .datasyncReconnect).isSome) :
    loopStep s (.timer .datasyncReconnect a) = some { s with
        ctx := { s.ctx with state := .connecting }
        timers := Function.update s.timers .datasyncReconnect none
        wsis := Function.update s.wsis a (some ⟨false, false⟩)
        lwsConn := a } ∧
      Loop.Sound { s with
        ctx := { s.ctx with state := .connecting }
        timers := Function.update s.timers .datasyncReconnect none
        wsis := Function.update s.wsis a (some ⟨false, false⟩)
        lwsConn := a } := by
  obtain ⟨ta, hta⟩ := Option.isSome_iff_exists.mp hstarted
  have hdown := h.down hstate
  constructor
  · have hfired : fired s.timers .datasyncReconnect =
        Function.update s.timers .datasyncReconnect none := by
      rw [fired, hta, Option.any_some, (h.once ta hta).1]
      rfl
    rw [loopStep, hfired, wcDispatchTimerEvent, wcDatasyncConnect, if_pos hstate,
      ReconnectCtx.step, if_pos hstate]
  · refine ⟨fun _ => ⟨⟨false, false⟩, ?_⟩, fun hno => ?_, h.delay, by simp⟩
    · refine ⟨?_, fun _ => rfl, fun hno => ?_, fun hno => ?_, ?_, rfl⟩
      · show Function.update s.wsis a _ = _
        rw [show s.wsis = fun _ => none from funext hdown.none]
      · cases hno
      · cases hno
      · exact hdown.keepalive
    · cases hno

/-- The handshake message of the connection. -/
theorem handshake_sound (h : s.Sound) (hlive : Live s ⟨true, false⟩) :
    ∃ s', loopStep s (.handshake s.lwsConn) = some s' ∧ s'.Sound ∧
      (s.ctx.state ≠ .disconnecting → s'.ctx.state = .connected) := by
  have hfound := hlive.found
  by_cases hstate : s.ctx.state = .disconnecting
  · -- the message is dropped
    refine ⟨s, ?_, h, fun hne => absurd hstate hne⟩
    rw [loopStep, Loop.ctxStep, ReconnectCtx.step, if_pos hstate, hfound, hstate]
    show some { s with wsis := Function.update s.wsis s.lwsConn (some ⟨true, false⟩) } = some s
    rw [← hfound, Function.update_eq_self]
  · have hkeep : s.timers .datasyncKeepalive = none := hlive.keepalive
    refine ⟨{ s with
      ctx := { s.ctx with state := .connected, wsNextReconnectTimer := 1 }
      timers := Function.update s.timers .datasyncKeepalive
        (some ⟨50000, .datasyncKeepalive, true⟩)
      wsis := Function.update s.wsis s.lwsConn (some ⟨true, true⟩) }, ?_, ?_, fun _ => rfl⟩
    · rw [loopStep, Loop.ctxStep, ReconnectCtx.step, if_neg hstate, hfound]
      simp only [List.foldlM_cons, wcLibevCb, Option.bind_eq_bind, Option.bind_some, hkeep,
        Option.isSome_none, Bool.false_eq_true, if_false, List.foldlM_nil, Option.map_some,
        Option.pure_def, ne_eq, hstate, not_false_eq_true, decide_true]
    · refine ⟨fun _ => ⟨⟨true, true⟩, ?_⟩, fun hno => ?_, .inr ⟨0, Nat.zero_le 8, rfl⟩, ?_⟩
      · refine ⟨?_, fun hno => ?_, fun _ => rfl, fun _ => rfl, rfl, hlive.reconnect⟩
        · show Function.update s.wsis s.lwsConn _ = _
          rw [hlive.only, Function.update_idem]
        · cases hno
      · cases hno
      · exact h.once

theorem fired_of_ne (timers : Timers) {timer timer' : WcTimersrc} (hne : timer' ≠ timer) :
    fired timers timer timer' = timers timer' := by
  rw [fired]
  split
  · rfl
  · exact Function.update_of_ne hne _ _

/-- The timer of the authentication is not looked at. -/
theorem auth_sound (h : s.Sound) : Loop.Sound { s with timers := fired s.timers .auth } := by
  have hkeep : fired s.timers .auth .datasyncKeepalive = s.timers .datasyncKeepalive :=
    fired_of_ne s.timers (by decide)
  have hre : fired s.timers .auth .datasyncReconnect = s.timers .datasyncReconnect :=
    fired_of_ne s.timers (by decide)
  constructor
  · intro hstate
    obtain ⟨wsi, hlive⟩ := h.live hstate
    exact ⟨wsi, hlive.only, hlive.connecting, hlive.connected, hlive.established,
      hkeep.trans hlive.keepalive, hre.trans hlive.reconnect⟩
  · intro hstate
    have hdown := h.down hstate
    exact ⟨hdown.none, hkeep.trans hdown.keepalive, (congrArg _ hre).trans hdown.reconnect⟩
  · exact h.delay
  · show ∀ ta ∈ fired s.timers .auth .datasyncReconnect, _
    rw [hre]
    exact h.once

/-- The keepalive frame is sent. -/
theorem keepalive_sound (h : s.Sound) (a : ℕ) (hstarted : (s.timers .datasyncKeepalive).isSome) :
    loopStep s (.timer .datasyncKeepalive a) = some s := by
  have hstate : s.ctx.state ≠ .disconnected := by
    intro hstate
    rw [(h.down hstate).keepalive] at hstarted
    cases hstarted
  obtain ⟨wsi, hlive⟩ := h.live hstate
  have hhand : wsi.handshaken = true := by
    by_contra hno
    rw [hlive.keepalive, if_neg hno] at hstarted
    cases hstarted
  have hfired : fired s.timers .datasyncKeepalive = s.timers := by
    rw [fired, hlive.keepalive, if_pos hhand]
    rfl
  rw [loopStep, hfired, wcDispatchTimerEvent, wcDatasyncKeepalive, hlive.found, Option.bind_some,
    if_pos (hlive.established hhand)]

theorem Live.clientEstablished (h : Live s wsi) :
    Live { s with wsis := Function.update s.wsis s.lwsConn (some { wsi with established := true }) }
      { wsi with established := true } where
  only := by
    show Function.update s.wsis s.lwsConn _ = _
    rw [h.only, Function.update_idem]
  connecting := h.connecting
  connected := h.connected
  established _ := rfl
  keepalive := h.keepalive
  reconnect := h.reconnect

/-- **Every event goes through**, and keeps the loop in order. -/
theorem loopStep_sound (h : s.Sound) {e : LoopEvent} (he : LoopOccurs s e) :
    ∃ s', loopStep s e = some s' ∧ s'.Sound := by
  have hwsi : ∀ {a wsi}, s.wsis a = some wsi → Live s wsi ∧ a = s.lwsConn := by
    intro a wsi ha
    have hstate : s.ctx.state ≠ .disconnected := by
      intro hstate
      rw [(h.down hstate).none] at ha
      cases ha
    obtain ⟨wsi', hlive⟩ := h.live hstate
    have hsame : a = s.lwsConn := by
      by_contra hne
      rw [hlive.only, Function.update_of_ne hne] at ha
      cases ha
    rw [hlive.only, hsame, Function.update_self] at ha
    exact ⟨Option.some.inj ha ▸ hlive, hsame⟩
  cases e with
  | connect => exact connect_sound h he.1 he.2
  | closeCnx =>
      rw [loopStep]
      split
      next hstate =>
        have hne : s.ctx.state ≠ .disconnected := by
          intro heq
          rw [heq] at hstate
          cases hstate <;> contradiction
        obtain ⟨wsi, hlive⟩ := h.live hne
        rw [hlive.found, Option.bind_some]
        refine ⟨{ s with ctx := { s.ctx with state := .disconnecting } }, ?_, ?_⟩
        · rw [Loop.ctxStep, ReconnectCtx.step, if_pos hstate]
          rfl
        · refine ⟨fun _ => ⟨wsi, hlive.only, fun hno => ?_, fun hno => ?_, hlive.established,
            hlive.keepalive, hlive.reconnect⟩, fun hno => ?_, h.delay, h.once⟩
          · cases hno
          · cases hno
          · cases hno
      next => exact ⟨s, rfl, h⟩
  | timer timer a =>
      cases timer with
      | datasyncKeepalive => exact ⟨s, keepalive_sound h a he.1, h⟩
      | datasyncReconnect =>
          have hstate : s.ctx.state = .disconnected := by
            by_contra hne
            obtain ⟨wsi, hlive⟩ := h.live hne
            have hstarted := he.1
            rw [hlive.reconnect] at hstarted
            cases hstarted
          exact ⟨_, reconnect_sound h hstate a he.1⟩
      | auth => exact ⟨_, rfl, auth_sound h⟩
  | clientEstablished a =>
      obtain ⟨wsi, ha, hno⟩ := he
      obtain ⟨hlive, rfl⟩ := hwsi ha
      have hne : s.ctx.state ≠ .disconnected := by
        intro hstate
        rw [(h.down hstate).none] at ha
        cases ha
      refine ⟨_, by rw [loopStep, ha]; rfl, fun _ => ⟨_, hlive.clientEstablished⟩, fun hstate => ?_,
        h.delay, h.once⟩
      exact absurd hstate hne
  | handshake a =>
      obtain ⟨hlive, rfl⟩ := hwsi he
      obtain ⟨s', hstep, hsound, -⟩ := handshake_sound h hlive
      exact ⟨s', hstep, hsound⟩
  | clientConnectionError a reconnect =>
      obtain ⟨wsi, ha, hno⟩ := he
      obtain ⟨hlive, rfl⟩ := hwsi ha
      obtain ⟨ctx, timers, hstep, hlost⟩ := ctxStep_error h.delay hlive.reconnect reconnect
      refine ⟨_, by rw [loopStep, hstep]; rfl, hlive.lost (by rw [ha]; rfl) ?_ hlost⟩
      rw [hlive.keepalive, if_neg]
      intro hhand
      rw [hlive.established hhand] at hno
      cases hno
  | closed a reconnect =>
      obtain ⟨wsi, ha, -⟩ := he
      obtain ⟨hlive, rfl⟩ := hwsi ha
      obtain ⟨ctx, timers, hstep, hlost⟩ := ctxStep_closed h.delay hlive.reconnect reconnect
      exact ⟨_, by rw [loopStep, hstep]; rfl, hlive.lost (by rw [ha]; rfl) rfl hlost⟩

theorem loopSound_of_reach (run : Reach loopStep LoopOccurs loopStart s) : s.Sound := by
  apply run.invariant loopStart_sound
  intro s e s' hs he hstep
  obtain ⟨t, ht, hsound⟩ := loopStep_sound hs he
  rw [ht] at hstep
  exact Option.some.inj hstep ▸ hsound

/-- What happens without the application, which says yes when it is asked whether to
reconnect. -/
def LoopEvent.OnItsOwn : LoopEvent → Prop
  | .connect | .closeCnx => False
  | .clientConnectionError _ reconnect | .closed _ reconnect => reconnect = true
  | .timer .. | .clientEstablished _ | .handshake _ => True

/-- The runs that go on without the application. -/
abbrev GoesOn (s s' : Loop) : Prop :=
  Reach loopStep (fun s e => LoopOccurs s e ∧ e.OnItsOwn) s s'

theorem goesOn_handshake (h : s.Sound) (hlive : Live s ⟨true, false⟩)
    (hstate : s.ctx.state ≠ .disconnecting) :
    ∃ s', GoesOn s s' ∧ s'.ctx.state = .connected := by
  obtain ⟨s', hstep, -, hconnected⟩ := handshake_sound h hlive
  have hoccurs : LoopOccurs s (.handshake s.lwsConn) := hlive.found
  exact ⟨s', .step .start ⟨hoccurs, trivial⟩ hstep, hconnected hstate⟩

theorem goesOn_connecting (h : s.Sound) (hlive : Live s wsi) (hstate : s.ctx.state = .connecting) :
    ∃ s', GoesOn s s' ∧ s'.ctx.state = .connected := by
  have hne : s.ctx.state ≠ .disconnecting := by
    rw [hstate]
    exact CnxState.noConfusion
  obtain ⟨established, handshaken⟩ := wsi
  obtain rfl : handshaken = false := hlive.connecting hstate
  cases established with
  | true => exact goesOn_handshake h hlive hne
  | false =>
      have hoccurs : LoopOccurs s (.clientEstablished s.lwsConn) := ⟨_, hlive.found, rfl⟩
      obtain ⟨s₁, hstep, hsound⟩ := loopStep_sound h hoccurs
      have hs₁ : s₁ = { s with
          wsis := Function.update s.wsis s.lwsConn (some ⟨true, false⟩) } := by
        rw [loopStep, hlive.found] at hstep
        exact (Option.some.inj hstep).symm
      subst hs₁
      obtain ⟨s', hrun, hconnected⟩ := goesOn_handshake hsound hlive.clientEstablished hne
      exact ⟨s', .trans (.step .start ⟨hoccurs, trivial⟩ hstep) hrun, hconnected⟩

theorem goesOn_disconnected (h : s.Sound) (hstate : s.ctx.state = .disconnected)
    (hwanted : s.wanted = true) : ∃ s', GoesOn s s' ∧ s'.ctx.state = .connected := by
  have hstarted : (s.timers .datasyncReconnect).isSome := by
    rw [(h.down hstate).reconnect, hwanted]
  obtain ⟨hstep, hsound⟩ := reconnect_sound h hstate 0 hstarted
  obtain ⟨wsi, hlive⟩ := hsound.live CnxState.noConfusion
  obtain ⟨s', hrun, hconnected⟩ := goesOn_connecting hsound hlive rfl
  have hoccurs : LoopOccurs s (.timer .datasyncReconnect 0) := ⟨hstarted, (h.down hstate).none 0⟩
  exact ⟨s', .trans (.step .start ⟨hoccurs, trivial⟩ hstep) hrun, hconnected⟩

end Steps

end WebcomSdk.Event
