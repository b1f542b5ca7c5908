import AxumReverseProxy.Forward.Sent

/-!
# The life of a forwarding attempt

A `TunnelGuard`'s resource goes from its slot into a local variable of `forward_with`, and from there
into the relayed body (`retain`, `GuardedBody`) or the tunnel task (`bridge`). A phase holds what the
attempt owns between two of its awaits. Where Rust drops the variables of a phase, the resource goes
last: it is declared before the send and the tunnel, and behind the body in `GuardedBody`.
-/

namespace AxumReverseProxy

/-- `Box<dyn Any + Send>`. -/
structure Resource where
deriving DecidableEq

/-- The two transports of a tunnel. -/
inductive Side
  | downstream
  | upstream
deriving DecidableEq

/-- What happens to an attempt, as far as it concerns the resource. -/
inductive Note
  | acquired
  | sendStarted
  | sendEnded
  | bodyRelayed
  | bodyEnded
  | bodyDropped
  | handedOver (side : Side)
  | transportDropped (side : Side)
  | released
deriving DecidableEq

def noteTaken : Option Resource → List Note
  | some _ => [.acquired]
  | none => []

/-- The guard goes out of scope. -/
def dropGuard : Option Resource → List Note
  | some _ => [.released]
  | none => []

/-! ### The relayed body -/

/-- What polling a body yields. -/
inductive PollFrame
  | pending
  | data
  | trailers
  | eof
  | error
deriving DecidableEq

/-- The end of a body, as a poll of it reports. -/
def PollFrame.ends (frame : PollFrame) (isEndStream : Bool) : Bool :=
  frame = .eof || frame = .error || isEndStream

def noteEnded (ended : Bool) : List Note := if ended then [.bodyEnded] else []

/-- `retain`: the guard stays with a body that may still yield frames. -/
def retain (isEndStream : Bool) (guard : Option Resource) : Option Resource × List Note :=
  if guard.isNone || isEndStream then (none, dropGuard guard) else (guard, [])

/-- `GuardedBody::poll_frame`; `isEndStream` is what the inner body says after the poll. -/
def pollFrame (guard : Option Resource) (frame : PollFrame) (isEndStream : Bool) :
    Option Resource × List Note :=
  if frame = .eof ∨ frame = .error ∨ isEndStream = true then (none, dropGuard guard) else (guard, [])

/-! ### Phases -/

inductive Phase
  /-- not polled yet -/
  | created (req : Request)
  | sending (s : Sending) (guard : Option Resource) (cancellation : Option TunnelCancellation)
  | relaying (guard : Option Resource)
  /-- the tunnel task before both upgrades have arrived -/
  | upgrading (downstream upstream : Bool) (guard : Option Resource)
    (cancellation : Option TunnelCancellation)
  | copying (guard : Option Resource) (cancellation : Option TunnelCancellation)
  | done

namespace Phase

def guard : Phase → Option Resource
  | created _ => none
  | sending _ g _ => g
  | relaying g => g
  | upgrading _ _ g _ => g
  | copying g _ => g
  | done => none

/-- What is dropped before the guard when the phase is left. -/
def closing : Phase → List Note
  | created _ => []
  | sending _ _ _ => [.sendEnded]
  | relaying _ => [.bodyDropped]
  | upgrading downstream upstream _ _ =>
    (if upstream then [.transportDropped .upstream] else []) ++
      if downstream then [.transportDropped .downstream] else []
  | copying _ _ => [.transportDropped .upstream, .transportDropped .downstream]
  | done => []

def exit (p : Phase) : Phase × List Note := (done, p.closing ++ dropGuard p.guard)

def withTransport (downstream upstream : Bool) (guard : Option Resource)
    (cancellation : Option TunnelCancellation) : Phase :=
  if downstream && upstream then copying guard cancellation else upgrading downstream upstream
    guard cancellation

end Phase

structure Attempt where
  env : Platform
  policy : ProxyPolicy
  upstreamUri : Uri
  phase : Phase

inductive AttemptEvent
  /-- the send ends -/
  | outcome (o : SendOutcome)
  /-- the forwarding future is dropped -/
  | dropFuture
  | poll (frame : PollFrame) (isEndStream : Bool)
  | dropBody
  | upgraded (side : Side)
  | upgradeFailed (side : Side)
  /-- the bound on the upgrades expires -/
  | upgradeElapsed
  | cancelled
  | copyEnded
  /-- the tunnel task is dropped by its runtime -/
  | aborted

namespace Attempt

/-- `forward_with` up to its send, with the resource it took from the guard of the request. -/
def start (a : Attempt) (req : Request) (taken : Option Resource) : Option (Phase × List Note) :=
  (forwardStart a.env a.policy a.upstreamUri req).map fun
    | .rejected _ => (.done, noteTaken taken ++ dropGuard taken)
    | .sending s => (.sending s taken req.extensions.tunnelCancellation, noteTaken taken ++ [.sendStarted])

/-- `forward_with` behind its send. -/
def finish (a : Attempt) (s : Sending) (guard : Option Resource) (cancellation : Option TunnelCancellation)
    (o : SendOutcome) : Phase × List Note :=
  match s.finish a.env a.policy o with
  | .failed _ => (Phase.sending s guard cancellation).exit
  | .relayed res =>
    let (guard, notes) := retain res.body.isEndStream guard
    (.relaying guard, [.sendEnded, .bodyRelayed] ++ noteEnded res.body.isEndStream ++ notes)
  | .upgraded _ => (.upgrading false false guard cancellation, [.sendEnded])

/-- One event of an attempt that was polled before; `none` when the event is not possible. -/
def next (a : Attempt) : AttemptEvent → Option (Phase × List Note)
  | .outcome o =>
    match a.phase with
    | .sending s guard cancellation =>
      match o, s.deadline with
      | .elapsed, none => none
      | o, _ => some (a.finish s guard cancellation o)
    | _ => none
  | .dropFuture =>
    match a.phase with
    | .created _ | .sending _ _ _ => some a.phase.exit
    | _ => none
  | .poll frame isEndStream =>
    match a.phase with
    | .relaying guard =>
      let (guard, notes) := pollFrame guard frame isEndStream
      some (.relaying guard, noteEnded (frame.ends isEndStream) ++ notes)
    | _ => none
  | .dropBody =>
    match a.phase with
    | .relaying _ => some a.phase.exit
    | _ => none
  | .upgraded side =>
    match a.phase, side with
    | .upgrading false up guard cancellation, .downstream =>
      some (.withTransport true up guard cancellation, [.handedOver .downstream])
    | .upgrading down false guard cancellation, .upstream =>
      some (.withTransport down true guard cancellation, [.handedOver .upstream])
    | _, _ => none
  | .upgradeFailed side =>
    match a.phase, side with
    | .upgrading false _ _ _, .downstream | .upgrading _ false _ _, .upstream => some a.phase.exit
    | _, _ => none
  | .upgradeElapsed =>
    match a.phase with
    | .upgrading _ _ _ _ => some a.phase.exit
    | _ => none
  | .cancelled =>
    match a.phase with
    | .upgrading _ _ _ (some _) | .copying _ (some _) => some a.phase.exit
    | _ => none
  | .copyEnded =>
    match a.phase with
    | .copying _ _ => some a.phase.exit
    | _ => none
  | .aborted =>
    match a.phase with
    | .upgrading _ _ _ _ | .copying _ _ => some a.phase.exit
    | _ => none

end Attempt

/-! ### What a step can do -/

variable {a : Attempt} {req : Request} {taken : Option Resource} {e : AttemptEvent} {p : Phase}
  {ns : List Note}

theorem Attempt.start_cases (a : Attempt) (req : Request) (taken : Option Resource) :
    (∃ res, forwardStart a.env a.policy a.upstreamUri req = some (.rejected res) ∧
        a.start req taken = some (.done, noteTaken taken ++ dropGuard taken)) ∨
      ∃ s c, forwardStart a.env a.policy a.upstreamUri req = some (.sending s) ∧
        a.start req taken = some (.sending s taken c, noteTaken taken ++ [.sendStarted]) := by
  rcases forwardStart_eq a.env a.policy a.upstreamUri req with ⟨res, -, h⟩ | ⟨u, -, -, h⟩
  · left; rw [start, h]; exact ⟨res, rfl, rfl⟩
  · right; rw [start, h]; exact ⟨_, _, rfl, rfl⟩

theorem Attempt.finish_cases (a : Attempt) (s : Sending) (g : Option Resource)
    (c : Option TunnelCancellation)
    (o : SendOutcome) :
    (∃ res, s.finish a.env a.policy o = .failed res ∧ a.finish s g c o = (Phase.sending s g c).exit) ∨
      (∃ res, s.finish a.env a.policy o = .relayed res ∧ a.finish s g c o =
        (.relaying (retain res.body.isEndStream g).1,
          [.sendEnded, .bodyRelayed] ++ noteEnded res.body.isEndStream ++
            (retain res.body.isEndStream g).2)) ∨
      ∃ res, s.finish a.env a.policy o = .upgraded res ∧
        a.finish s g c o = (.upgrading false false g c, [.sendEnded]) := by
  unfold finish
  cases s.finish a.env a.policy o with
  | failed res => exact .inl ⟨res, rfl, rfl⟩
  | relayed res => exact .inr (.inl ⟨res, rfl, rfl⟩)
  | upgraded res => exact .inr (.inr ⟨res, rfl, rfl⟩)

/-- The events that can only end an attempt. -/
def AttemptEvent.ends : AttemptEvent → Bool
  | .outcome _ | .poll _ _ | .upgraded _ => false
  | _ => true

theorem Attempt.exit_of_next {r : Phase × List Note} (he : e.ends = true) (h : a.next e = some r) :
    r = a.phase.exit := by
  cases e with
  | outcome o => cases he
  | poll frame ended => cases he
  | upgraded side => cases he
  | _ =>
    simp only [next] at h
    split at h <;> first | exact (Option.some.inj h).symm | cases h

theorem Attempt.next_cases (h : a.next e = some (p, ns)) :
    (e.ends = true ∧ (p, ns) = a.phase.exit) ∨
      (∃ s g c o, a.phase = .sending s g c ∧ e = .outcome o ∧ (p, ns) = a.finish s g c o) ∨
      (∃ g frame ended, a.phase = .relaying g ∧ e = .poll frame ended ∧
        (p, ns) = (.relaying (pollFrame g frame ended).1, noteEnded (frame.ends ended) ++
          (pollFrame g frame ended).2)) ∨
      (∃ u g c, a.phase = .upgrading false u g c ∧ e = .upgraded .downstream ∧
        (p, ns) = (.withTransport true u g c, [.handedOver .downstream])) ∨
      ∃ d g c, a.phase = .upgrading d false g c ∧ e = .upgraded .upstream ∧
        (p, ns) = (.withTransport d true g c, [.handedOver .upstream]) := by
  cases e with
  | outcome o =>
    simp only [next] at h
    split at h
    · next s g c hp =>
      have hf : (p, ns) = a.finish s g c o := by
        split at h
        · cases h
        · exact (Option.some.inj h).symm
      exact .inr (.inl ⟨s, g, c, o, hp, rfl, hf⟩)
    · cases h
  | poll frame ended =>
    simp only [next] at h
    split at h
    · next g hp => exact .inr (.inr (.inl ⟨g, frame, ended, hp, rfl, (Option.some.inj h).symm⟩))
    · cases h
  | upgraded side =>
    simp only [next] at h
    split at h
    · next hp => exact .inr (.inr (.inr (.inl ⟨_, _, _, hp, rfl, (Option.some.inj h).symm⟩)))
    · next hp => exact .inr (.inr (.inr (.inr ⟨_, _, _, hp, rfl, (Option.some.inj h).symm⟩)))
    · cases h
  | _ => exact .inl ⟨rfl, exit_of_next rfl h⟩

end AxumReverseProxy
