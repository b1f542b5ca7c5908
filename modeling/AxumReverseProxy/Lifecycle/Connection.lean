import AxumReverseProxy.Forward.Stream
import AxumReverseProxy.Lib.Run
import AxumReverseProxy.Lifecycle.Attempt

/-!
# The connection over a supplied stream

`proxy_request_on_stream` hands its stream to a driver task and keeps a `ConnectionGuard`, which aborts
the driver when it is dropped. The guard is with the forwarding future until the response comes, and
then with the relayed body. Behind a 101 it is disarmed, and the driver hands the stream over to the
upgrade that came with the response. A driver that ends in another way drops the stream.
`StreamAttempt` is a forwarding attempt together with its connection.
-/

namespace AxumReverseProxy

/-- Who has the `ConnectionGuard`. -/
inductive Holder
  | future
  | body
deriving DecidableEq

/-- Where the stream is. -/
inductive Connection
  /-- with the closure, or in the handshake -/
  | unused
  /-- with the driver task -/
  | driven (guard : Option Holder)
  /-- with the upgrade of a 101, and from there with the tunnel -/
  | upgraded
  /-- with a driver task that was told to stop -/
  | aborted
  /-- it was dropped -/
  | closed
deriving DecidableEq

namespace Connection

/-- The future or the body is dropped. -/
def drop (c : Connection) (holder : Holder) : Connection :=
  match c with
  | unused => if holder = .future then closed else unused
  | driven guard => if guard = some holder then aborted else driven guard
  | c => c

/-- The upgrade is dropped. -/
def dropUpgrade : Connection → Connection
  | upgraded => closed
  | c => c

/-- The closure of `proxy_request_on_stream` returns, what holds the guard goes, or the upgrade arrives. -/
def along (c : Connection) : AttemptEvent → Option Connection
  | .outcome (.response res) =>
    match c with
    | driven (some .future) => some (driven (if res.status = .switchingProtocols then none else some .body))
    -- the driver had reported the 101 before it handed the stream over
    | upgraded => if res.status = .switchingProtocols then some upgraded else none
    -- it had reported the response before it ended
    | closed => some closed
    | _ => none
  | .outcome _ | .dropFuture => some (c.drop .future)
  | .dropBody => some (c.drop .body)
  | .upgraded .upstream => if c = upgraded then some c else none
  | .upgradeFailed .upstream => if c = closed then some c else none
  | _ => some c

/-- An attempt that is over has dropped the upgrade, with the response or with the tunnel. -/
def beside (c : Connection) : Phase → Connection
  | .done => c.dropUpgrade
  | _ => c

/-- The stream was dropped, or its driver told to stop. -/
def LetGo (c : Connection) : Prop := c = aborted ∨ c = closed

end Connection

structure StreamAttempt where
  attempt : Attempt
  connection : Connection

inductive StreamEvent
  | start (taken : Option Resource)
  | handshake
  /-- the driver comes to its end behind a 101, and gives the stream to the upgrade -/
  | handOver
  /-- it comes to its end in any other way -/
  | driverEnded
  | attempt (e : AttemptEvent)

namespace StreamAttempt

def new (env : Platform) (policy : ProxyPolicy) (upstreamUri : Uri) (req : Request) : StreamAttempt :=
  ⟨⟨env, policy, upstreamUri, .created req⟩, .unused⟩

def enter (w : StreamAttempt) (phase : Phase) (connection : Connection) : StreamAttempt :=
  ⟨{ w.attempt with phase }, connection.beside phase⟩

def step (lib : UriLib) (w : StreamAttempt) : StreamEvent → Option StreamAttempt
  | .start taken =>
    match w.attempt.phase with
    | .created req => (w.attempt.start req taken).map fun
      | (.sending s guard cancellation, _) =>
        match streamRequest lib s.forwardReq with
        | some _ => w.enter (.sending s guard cancellation) w.connection
        -- the request target is unwrapped
        | none => w.enter .done (w.connection.drop .future)
      | (phase, _) => w.enter phase (w.connection.drop .future)
    | _ => none
  | .handshake =>
    match w.attempt.phase, w.connection with
    | .sending _ _ _, .unused => some { w with connection := .driven (some .future) }
    | _, _ => none
  | .handOver =>
    match w.attempt.phase, w.connection with
    | .sending _ _ _, .driven _ | .upgrading _ _ _ _, .driven _ => some { w with connection := .upgraded }
    -- nobody waits for the upgrade any more
    | .done, .driven _ | .done, .aborted => some { w with connection := .closed }
    | _, _ => none
  | .driverEnded =>
    match w.connection with
    | .driven _ | .aborted => some { w with connection := .closed }
    | _ => none
  | .attempt e => do
    let connection ← w.connection.along e
    (w.attempt.next e).map fun (phase, _) => w.enter phase connection

end StreamAttempt

namespace StreamEvent

/-- The response was a 101. -/
def switches : StreamEvent → Bool
  | attempt (.outcome (.response res)) => res.status = .switchingProtocols
  | _ => false

def handsOver : StreamEvent → Bool
  | handOver => true
  | _ => false

def endsDriver : StreamEvent → Bool
  | driverEnded => true
  | _ => false

theorem any_handsOver {events : List StreamEvent} : events.any handsOver = true ↔ handOver ∈ events := by
  rw [List.any_eq_true]
  constructor
  · rintro ⟨e, he, h⟩
    cases e <;> first | exact he | cases h
  · exact fun h => ⟨_, h, rfl⟩

theorem any_endsDriver {events : List StreamEvent} :
    events.any endsDriver = true ↔ driverEnded ∈ events := by
  rw [List.any_eq_true]
  constructor
  · rintro ⟨e, he, h⟩
    cases e <;> first | exact he | cases h
  · exact fun h => ⟨_, h, rfl⟩

end StreamEvent

/-- An attempt that ends with neither its future nor its body dropped is a tunnel. -/
theorem Attempt.tunnel_of_next {a : Attempt} {e : AttemptEvent} {r : Phase × List Note} (he : e.ends = true)
    (hfuture : e ≠ .dropFuture) (hbody : e ≠ .dropBody) (h : a.next e = some r) :
    (∃ d u g k, a.phase = .upgrading d u g k) ∨ ∃ g k, a.phase = .copying g k := by
  cases e with
  | outcome o => cases he
  | poll frame isEndStream => cases he
  | upgraded side => cases he
  | dropFuture => exact absurd rfl hfuture
  | dropBody => exact absurd rfl hbody
  | _ =>
    simp only [next] at h
    split at h <;> first
      | next hp => exact .inl ⟨_, _, _, _, hp⟩
      | next hp => exact .inr ⟨_, _, hp⟩
      | cases h

/-- What ends a tunnel leaves the stream to `beside`. -/
theorem Connection.eq_of_along {c c' : Connection} {e : AttemptEvent} (he : e.ends = true)
    (hfuture : e ≠ .dropFuture) (hbody : e ≠ .dropBody) (h : c.along e = some c') : c' = c := by
  cases e with
  | outcome o => cases he
  | dropFuture => exact absurd rfl hfuture
  | dropBody => exact absurd rfl hbody
  | upgradeFailed side =>
    cases side with
    | downstream => exact (Option.some.inj h).symm
    | upstream =>
      simp only [along] at h
      split at h
      · exact (Option.some.inj h).symm
      · cases h
  | upgraded side => cases he
  | _ => exact (Option.some.inj h).symm

/-- Where the stream is in each phase, by whether a 101 came, whether the driver handed the stream over and
whether it ended in another way. -/
inductive Phase.Connected : Phase → Connection → Bool → Bool → Bool → Prop
  | created (req : Request) : Connected (created req) .unused false false false
  | shaking (s : Sending) (g : Option Resource) (k : Option TunnelCancellation) :
    Connected (sending s g k) .unused false false false
  | sending (s : Sending) (g : Option Resource) (k : Option TunnelCancellation) :
    Connected (sending s g k) (.driven (some .future)) false false false
  | answered (s : Sending) (g : Option Resource) (k : Option TunnelCancellation) :
    Connected (sending s g k) .upgraded false true false
  | lost (s : Sending) (g : Option Resource) (k : Option TunnelCancellation) :
    Connected (sending s g k) .closed false false true
  | relaying (g : Option Resource) : Connected (relaying g) (.driven (some .body)) false false false
  | drained (g : Option Resource) : Connected (relaying g) .closed false false true
  | upgrading (d : Bool) (g : Option Resource) (k : Option TunnelCancellation) :
    Connected (upgrading d false g k) (.driven none) true false false
  | arriving (d u : Bool) (g : Option Resource) (k : Option TunnelCancellation) :
    Connected (upgrading d u g k) .upgraded true true false
  | failing (d : Bool) (g : Option Resource) (k : Option TunnelCancellation) :
    Connected (upgrading d false g k) .closed true false true
  | copying (g : Option Resource) (k : Option TunnelCancellation) : Connected (copying g k) .upgraded
    true true false
  | switched : Connected done (.driven none) true false false
  | aborted : Connected done .aborted false false false
  | closed {switched handedOver ended : Bool} (h : ended = true ∨ handedOver = true ∨ switched = false) :
    Connected done .closed switched handedOver ended

namespace Phase.Connected

variable {p : Phase} {c c' : Connection} {switched handedOver ended : Bool} {e : AttemptEvent} {a : Attempt}
  {s : Sending} {g : Option Resource} {k : Option TunnelCancellation} {o : SendOutcome} {ns : List Note}

theorem letGo_iff (h : p.Connected c switched handedOver ended) :
    c.LetGo ↔ ended = true ∨ p = .done ∧ (handedOver = true ∨ switched = false) := by
  cases h with
  | closed h => simpa [Connection.LetGo] using h
  | _ => simp [Connection.LetGo]

/-- What is dropped with the future before its end takes the connection with it. -/
theorem dropFuture (h : p.Connected c switched handedOver ended)
    (hp : (∃ req, p = .created req) ∨ ∃ s g k, p = .sending s g k) :
    Phase.done.Connected ((c.drop .future).beside .done) switched handedOver ended := by
  rcases hp with ⟨req, rfl⟩ | ⟨s, g, k, rfl⟩
  · cases h
    exact .closed (.inr (.inr rfl))
  · cases h with
    | shaking => exact .closed (.inr (.inr rfl))
    | sending => exact .aborted
    | answered => exact .closed (.inr (.inl rfl))
    | lost => exact .closed (.inl rfl)

theorem dropBody (h : (Phase.relaying g).Connected c switched handedOver ended) :
    Phase.done.Connected ((c.drop .body).beside .done) switched handedOver ended := by
  cases h with
  | relaying => exact .aborted
  | drained => exact .closed (.inl rfl)

theorem dropTunnel (h : p.Connected c switched handedOver ended)
    (hp : (∃ d u g k, p = .upgrading d u g k) ∨ ∃ g k, p = .copying g k) :
    Phase.done.Connected (c.beside .done) switched handedOver ended := by
  rcases hp with ⟨d, u, g, k, rfl⟩ | ⟨g, k, rfl⟩
  · cases h with
    | upgrading => exact .switched
    | arriving => exact .closed (.inr (.inl rfl))
    | failing => exact .closed (.inl rfl)
  · cases h
    exact .closed (.inr (.inl rfl))

/-- The attempt is over by an event other than the response. -/
theorem exit (h : a.phase.Connected c switched handedOver ended) (he : e.ends = true)
    (hc : c.along e = some c') (hn : a.next e = some (p, ns)) :
    Phase.done.Connected (c'.beside .done) switched handedOver ended := by
  by_cases hfuture : e = .dropFuture
  · subst hfuture
    cases hc
    simp only [Attempt.next] at hn
    split at hn
    · next req hp => exact h.dropFuture (.inl ⟨req, hp⟩)
    · next s g k hp => exact h.dropFuture (.inr ⟨s, g, k, hp⟩)
    · cases hn
  by_cases hbody : e = .dropBody
  · subst hbody
    cases hc
    simp only [Attempt.next] at hn
    split at hn
    · next g hp => rw [hp] at h; exact h.dropBody
    · cases hn
  · rw [Connection.eq_of_along he hfuture hbody hc]
    exact h.dropTunnel (Attempt.tunnel_of_next he hfuture hbody hn)

/-- A 101 disarms the guard. -/
theorem switch {res : Response} (h : (Phase.sending s g k).Connected c switched handedOver ended)
    (hs : res.status = .switchingProtocols) (hc : c.along (.outcome (.response res)) = some c') :
    (Phase.upgrading false false g k).Connected c' true handedOver ended := by
  cases h with
  | shaking => cases hc
  | sending =>
    rw [Connection.along, if_pos hs] at hc
    cases hc
    exact .upgrading false g k
  | answered =>
    rw [Connection.along, if_pos hs] at hc
    cases hc
    exact .arriving false false g k
  | lost =>
    cases hc
    exact .failing false g k

/-- Any other response takes it along with its body. -/
theorem relay {res : Response} {g' : Option Resource}
    (h : (Phase.sending s g k).Connected c switched handedOver ended)
    (hs : res.status ≠ .switchingProtocols) (hc : c.along (.outcome (.response res)) = some c') :
    (Phase.relaying g').Connected c' switched handedOver ended := by
  cases h with
  | shaking => cases hc
  | sending =>
    rw [Connection.along, if_neg hs] at hc
    cases hc
    exact .relaying g'
  | answered =>
    rw [Connection.along, if_neg hs] at hc
    cases hc
  | lost =>
    cases hc
    exact .drained g'

theorem finish (h : (Phase.sending s g k).Connected c switched handedOver ended)
    (hc : c.along (.outcome o) = some c') :
    (a.finish s g k o).1.Connected (c'.beside (a.finish s g k o).1)
      (switched || (StreamEvent.attempt (.outcome o)).switches) handedOver ended := by
  cases o with
  | response res =>
    by_cases hs : res.status = .switchingProtocols
    · have h' := h.switch hs hc
      rw [show (StreamEvent.attempt (.outcome (.response res))).switches = true from decide_eq_true hs,
        Bool.or_true]
      simp only [Attempt.finish, Sending.finish, if_pos hs]
      split
      · -- without a valid handshake there is no tunnel
        exact h'.dropTunnel (.inl ⟨_, _, _, _, rfl⟩)
      · next hf => split at hf <;> cases hf
      · exact h'
    · rw [show (StreamEvent.attempt (.outcome (.response res))).switches = false from decide_eq_false hs,
        Bool.or_false]
      simp only [Attempt.finish, Sending.finish, if_neg hs]
      exact h.relay hs hc
  | error e =>
    cases hc
    rw [show (StreamEvent.attempt (.outcome (.error e))).switches = false from rfl, Bool.or_false]
    exact h.dropFuture (.inr ⟨s, g, k, rfl⟩)
  | elapsed =>
    cases hc
    rw [show (StreamEvent.attempt (.outcome .elapsed)).switches = false from rfl, Bool.or_false]
    exact h.dropFuture (.inr ⟨s, g, k, rfl⟩)

/-- An upgrade of the tunnel arrives, of the upstream only over a stream that was handed over. -/
theorem arrive {side : Side} {d u d' u' : Bool}
    (h : (Phase.upgrading d u g k).Connected c switched handedOver ended)
    (hc : c.along (.upgraded side) = some c') (hd : d' = (d || side = .downstream))
    (hu : u' = (u || side = .upstream)) :
    (Phase.withTransport d' u' g k).Connected (c'.beside (.withTransport d' u' g k)) switched
      handedOver ended := by
  subst hd hu
  have hkeep : c' = c ∧ (side = .upstream → c = .upgraded) := by
    cases side with
    | downstream => exact ⟨(Option.some.inj hc).symm, nofun⟩
    | upstream =>
      simp only [Connection.along] at hc
      split at hc
      · next hu => exact ⟨(Option.some.inj hc).symm, fun _ => hu⟩
      · cases hc
  obtain ⟨rfl, hup⟩ := hkeep
  cases h with
  | arriving =>
    cases side <;> cases d <;> cases u <;> first | exact .copying g k | exact .arriving _ _ g k
  | upgrading =>
    cases side with
    | downstream =>
      rw [show (d || decide (Side.downstream = .downstream)) = true by simp]; exact .upgrading true g k
    | upstream => exact absurd (hup rfl) nofun
  | failing =>
    cases side with
    | downstream =>
      rw [show (d || decide (Side.downstream = .downstream)) = true by simp]; exact .failing true g k
    | upstream => exact absurd (hup rfl) nofun

theorem next (h : a.phase.Connected c switched handedOver ended) (hc : c.along e = some c')
    (hn : a.next e = some (p, ns)) :
    p.Connected (c'.beside p) (switched || (StreamEvent.attempt e).switches) handedOver ended := by
  rcases a.next_cases hn with ⟨he, hf⟩ | ⟨s, g, k, o, hp, rfl, hf⟩ | ⟨g, frame, isEndStream, hp, rfl, hf⟩ |
    ⟨u, g, k, hp, rfl, hf⟩ | ⟨d, g, k, hp, rfl, hf⟩
  · obtain ⟨rfl, rfl⟩ := Prod.mk.inj hf
    have hsw : (StreamEvent.attempt e).switches = false := by cases e <;> first | rfl | cases he
    rw [hsw, Bool.or_false]
    exact h.exit he hc hn
  · rw [hp] at h
    rw [(Prod.mk.inj hf).1]
    exact h.finish hc
  · obtain ⟨rfl, rfl⟩ := Prod.mk.inj hf
    rw [hp] at h
    cases hc
    rw [show (StreamEvent.attempt (.poll frame isEndStream)).switches = false from rfl, Bool.or_false]
    cases h with
    | relaying => exact .relaying _
    | drained => exact .drained _
  · obtain ⟨rfl, rfl⟩ := Prod.mk.inj hf
    rw [hp] at h
    rw [show (StreamEvent.attempt (.upgraded .downstream)).switches = false from rfl, Bool.or_false]
    exact h.arrive hc rfl (Bool.or_false u).symm
  · obtain ⟨rfl, rfl⟩ := Prod.mk.inj hf
    rw [hp] at h
    rw [show (StreamEvent.attempt (.upgraded .upstream)).switches = false from rfl, Bool.or_false]
    exact h.arrive hc (Bool.or_false d).symm rfl

end Phase.Connected

namespace StreamAttempt

variable {lib : UriLib} {env : Platform} {policy : ProxyPolicy} {uri : Uri} {req : Request}
  {w w' : StreamAttempt} {e : StreamEvent} {events : List StreamEvent}
  {switched handedOver ended : Bool}

/-- The first poll, up to the handshake of the connection. -/
theorem connected_start {taken : Option Resource}
    (h : w.attempt.phase.Connected w.connection switched handedOver ended)
    (hs : w.step lib (.start taken) = some w') :
    w'.attempt.phase.Connected w'.connection switched handedOver ended := by
  obtain ⟨a, c⟩ := w
  simp only [step] at hs
  split at hs
  · next req hp =>
    have hdone := h.dropFuture (.inl ⟨req, hp⟩)
    obtain ⟨r, hr, rfl⟩ := Option.map_eq_some_iff.1 hs
    rcases a.start_cases req taken with ⟨res, -, hst⟩ | ⟨s, k, -, hst⟩
    · cases hr.symm.trans hst
      exact hdone
    · cases hr.symm.trans hst
      dsimp only
      split
      · change a.phase.Connected c switched handedOver ended at h
        rw [hp] at h
        cases h
        exact .shaking s taken k
      · exact hdone
  · cases hs

theorem connected_handOver (h : w.attempt.phase.Connected w.connection switched handedOver ended)
    (hs : w.step lib .handOver = some w') :
    w'.attempt.phase.Connected w'.connection switched true ended := by
  obtain ⟨⟨env, policy, uri, p⟩, c⟩ := w
  simp only [step] at hs
  split at hs
  · cases hs
    cases h
    exact .answered ..
  · cases hs
    cases h
    exact .arriving ..
  · cases hs
    exact .closed (.inr (.inl rfl))
  · cases hs
    exact .closed (.inr (.inl rfl))
  · cases hs

theorem connected_driverEnded (h : w.attempt.phase.Connected w.connection switched handedOver ended)
    (hs : w.step lib .driverEnded = some w') :
    w'.attempt.phase.Connected w'.connection switched handedOver true := by
  obtain ⟨⟨env, policy, uri, p⟩, c⟩ := w
  simp only [step] at hs
  split at hs
  · cases hs
    cases h with
    | sending s g k => exact .lost s g k
    | relaying g => exact .drained g
    | upgrading d g k => exact .failing d g k
    | switched => exact .closed (.inl rfl)
  · cases hs
    cases h
    exact .closed (.inl rfl)
  · cases hs

/-- Every step keeps the stream where the phase has it. -/
theorem connected_step (h : w.attempt.phase.Connected w.connection switched handedOver ended)
    (hs : w.step lib e = some w') :
    w'.attempt.phase.Connected w'.connection (switched || e.switches) (handedOver || e.handsOver)
      (ended || e.endsDriver) := by
  cases e with
  | start taken =>
    simpa [StreamEvent.switches, StreamEvent.handsOver, StreamEvent.endsDriver] using
      connected_start h hs
  | handshake =>
    obtain ⟨⟨env, policy, uri, p⟩, c⟩ := w
    simp only [step] at hs
    split at hs
    · cases hs
      cases h
      exact .sending ..
    · cases hs
  | handOver =>
    simpa [StreamEvent.switches, StreamEvent.handsOver, StreamEvent.endsDriver] using
      connected_handOver h hs
  | driverEnded =>
    simpa [StreamEvent.switches, StreamEvent.handsOver, StreamEvent.endsDriver] using
      connected_driverEnded h hs
  | attempt ae =>
    obtain ⟨c', hc, hs⟩ := Option.bind_eq_some_iff.1 hs
    obtain ⟨⟨p, ns⟩, hn, rfl⟩ := Option.map_eq_some_iff.1 hs
    rw [show (StreamEvent.attempt ae).handsOver = false from rfl,
      show (StreamEvent.attempt ae).endsDriver = false from rfl, Bool.or_false, Bool.or_false]
    exact h.next hc hn

/-- The stream is where the phase and the events so far have it. -/
def Sound (events : List StreamEvent) (w : StreamAttempt) : Prop :=
  w.attempt.phase.Connected w.connection (events.any (·.switches)) (events.any (·.handsOver))
    (events.any (·.endsDriver))

theorem sound_new : Sound [] (new env policy uri req) := .created req

theorem sound_step (h : Sound events w) (hs : w.step lib e = some w') : Sound (events ++ [e]) w' := by
  simpa only [Sound, List.any_append, List.any_cons, List.any_nil, Bool.or_false] using connected_step h hs

/-- The stream is let go exactly when its driver has ended by itself, or when the attempt is over and a 101,
if one came, has had the stream handed over: only a driver behind a 101 outlives the attempt with it. -/
theorem stream_let_go_iff (h : Run.run (step lib) (new env policy uri req) events = some w) :
    w.connection.LetGo ↔ .driverEnded ∈ events ∨
      w.attempt.phase = .done ∧ (.handOver ∈ events ∨ ∀ e ∈ events, e.switches = false) := by
  have hs : Sound events w := Run.run_invariant Sound sound_new sound_step h
  rw [hs.letGo_iff, StreamEvent.any_endsDriver, StreamEvent.any_handsOver]
  simp

/-- An invalid 101 leaves the driver with the stream, until it hands that over to nobody. -/
theorem stream_let_go_iff_invalid :
    let uri := (RequestTarget.absolute .http ⟨['h'], rfl⟩ "/a".toList none).uri
    let begun := new ⟨64, fun _ => []⟩ {} uri (.new (.fromStr ""))
    let events := [.start none, .handshake,
      .attempt (.outcome (.response { Response.new (.fromStr "") with status := .switchingProtocols }))]
    ∃ w w', Run.run (step .plain) begun events = some w ∧ w.attempt.phase = .done ∧ ¬ w.connection.LetGo ∧
      Run.run (step .plain) begun (events ++ [.handOver]) = some w' ∧ w'.connection.LetGo := by
  intro uri begun events
  obtain ⟨w, hw, hp⟩ : ∃ w, Run.run (step .plain) begun events = some w ∧ w.attempt.phase = .done :=
    ⟨_, rfl, rfl⟩
  obtain ⟨w', hw', hp'⟩ : ∃ w', Run.run (step .plain) begun (events ++ [.handOver]) = some w' ∧
      w'.attempt.phase = .done := ⟨_, rfl, rfl⟩
  refine ⟨w, w', hw, hp, fun h => ?_, hw', (stream_let_go_iff hw').2 (.inr ⟨hp', .inl ?_⟩)⟩
  · rcases (stream_let_go_iff hw).1 h with hd | ⟨-, hd | hd⟩
    · simp [events] at hd
    · simp [events] at hd
    · exact absurd (hd _ (List.mem_cons_of_mem _ (List.mem_cons_of_mem _ (List.mem_singleton_self _))))
        nofun
  · exact List.mem_append_right _ (List.mem_singleton_self _)

end StreamAttempt

end AxumReverseProxy
