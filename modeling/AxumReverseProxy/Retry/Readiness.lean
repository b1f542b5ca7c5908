import AxumReverseProxy.Lib.Run
import AxumReverseProxy.Lib.Token
import AxumReverseProxy.Retry.Layer

/-!
# Readiness of the inner service

`Retry<S>` as tower sees it. A `Retry` value owns one instance of the inner service; `call` takes
that instance into the future and leaves a clone. `RetryRun` is every `Retry` value and every future
that came of one layered service, with what was asked of the instances, and `RetryRun.step` what the
caller or the runtime does next. The caller keeps the contract of `Service`: it calls a `Retry` value
only after `poll_ready` answered `Ready`.
-/

namespace AxumReverseProxy

/-- An instance of the inner service: clones are instances of their own. -/
abbrev InstanceId := Nat

/-- What is asked of the inner service: `poll_ready`, with whether it answered `Ready`, and `call`. -/
inductive InnerEvent
  | pollReady (inner : InstanceId) (ready : Bool)
  | call (inner : InstanceId) (req : Request)

/-- A `Retry<S>`, and whether its caller holds an answer `Ready` it has not used. -/
structure RetryService where
  inner : InstanceId
  ready : Bool

/-- Where the future made by `call` stands; `n` attempts were made. -/
inductive RetryFuture.Phase
  | created (req : Request)
  | once
  | attempt (req : Request) (n : Nat)
  | delay (req : Request) (n : Nat)
  | returned (res : Response)
  | dropped

structure RetryFuture where
  inner : InstanceId
  phase : RetryFuture.Phase

structure RetryRun where
  services : List RetryService
  futures : List RetryFuture
  nextInstance : InstanceId
  trace : List InnerEvent

namespace RetryRun

inductive Event
  | pollReady (i : Nat) (ready : Bool)
  | clone (i : Nat)
  | call (i : Nat) (req : Request)
  | start (f : Nat)
  | respond (f : Nat) (res : Response)
  | wake (f : Nat)
  | drop (f : Nat)
deriving DecidableEq

def new : RetryRun := ⟨[⟨0, false⟩], [], 1, []⟩

def setPhase (s : RetryRun) (f : Nat) (inner : InstanceId) (phase : RetryFuture.Phase) : RetryRun :=
  { s with futures := s.futures.set f ⟨inner, phase⟩ }

/-- `inner.call(req)` in the future `f`, which then awaits the answer. -/
def callInner (s : RetryRun) (f : Nat) (inner : InstanceId) (req : Request) (phase : RetryFuture.Phase) :
    RetryRun :=
  { s.setPhase f inner phase with trace := s.trace ++ [.call inner req] }

/-- The future up to its first call, or to the answer to a body that cannot be read. -/
def start (retry : Retry) (s : RetryRun) (f : Nat) (inner : InstanceId) (req : Request) : RetryRun :=
  if retry.attempts = 1 then s.callInner f inner req .once
  else match bufferBody req.body retry.maxBufferBytes with
    | .ok (.complete bytes) =>
      let req := { req with body := .fromBytes bytes }
      s.callInner f inner req (.attempt req 1)
    | .ok (.tooLarge body) => s.callInner f inner { req with body } .once
    | .error _ =>
      s.setPhase f inner (.returned (.withStatus .badRequest (.fromStr "Failed to read request body")))

/-- What happens next; `none` where it cannot. -/
def step (retry : Retry) (s : RetryRun) : Event → Option RetryRun
  | .pollReady i ready => (s.services[i]?).map fun svc =>
    { s with
      services := s.services.set i { svc with ready := svc.ready || ready }
      trace := s.trace ++ [.pollReady svc.inner ready] }
  | .clone i => (s.services[i]?).map fun _ =>
    { s with services := s.services ++ [⟨s.nextInstance, false⟩], nextInstance := s.nextInstance + 1 }
  | .call i req => (s.services[i]?).bind fun svc =>
    if svc.ready then
      some { s with
        services := s.services.set i ⟨s.nextInstance, false⟩
        futures := s.futures ++ [⟨svc.inner, .created req⟩]
        nextInstance := s.nextInstance + 1 }
    else none
  | .start f => match s.futures[f]? with
    | some ⟨inner, .created req⟩ => some (s.start retry f inner req)
    | _ => none
  | .respond f res => match s.futures[f]? with
    | some ⟨inner, .once⟩ => some (s.setPhase f inner (.returned res))
    | some ⟨inner, .attempt req n⟩ =>
      if isRetryable res = false ∨ n ≥ retry.attempts then some (s.setPhase f inner (.returned res))
      else some (s.setPhase f inner (.delay req n))
    | _ => none
  | .wake f => match s.futures[f]? with
    | some ⟨inner, .delay req n⟩ => some (s.callInner f inner req (.attempt req (n + 1)))
    | _ => none
  | .drop f => (s.futures[f]?).map fun fut => s.setPhase f fut.inner .dropped

end RetryRun

/-! ### Who owns which instance -/

def InnerEvent.use : InnerEvent → Option (Token.Use InstanceId)
  | pollReady inner ready => if ready then some (.grant inner) else none
  | call inner _ => some (.spend inner)

/-- What the owner of an instance can say of its readiness. -/
def RetryFuture.Phase.account : RetryFuture.Phase → Option Bool
  | created _ => some true
  | once | attempt .. | delay .. => some false
  | returned _ | dropped => none

def RetryService.account (svc : RetryService) : InstanceId × Option Bool :=
  (svc.inner, if svc.ready then some true else none)

def RetryFuture.account (fut : RetryFuture) : InstanceId × Option Bool := (fut.inner, fut.phase.account)

namespace RetryRun

def uses (s : RetryRun) : List (Token.Use InstanceId) := s.trace.filterMap InnerEvent.use

def accounts (s : RetryRun) : List (InstanceId × Option Bool) :=
  s.services.map RetryService.account ++ s.futures.map RetryFuture.account

variable {retry : Retry} {s s' : RetryRun} {e : Event} {events : List Event} {f : Nat} {inner : InstanceId}
  {req : Request} {phase : RetryFuture.Phase}

/-- A step is a poll, a clone, the making of a future, a call of the inner service, or a move of a
future that asks nothing of it. -/
inductive Steps (s : RetryRun) : Event → RetryRun → Prop
  | pollReady {i svc ready} : s.services[i]? = some svc → Steps s (.pollReady i ready) { s with
      services := s.services.set i { svc with ready := svc.ready || ready }
      trace := s.trace ++ [.pollReady svc.inner ready] }
  | clone {i} : Steps s (.clone i)
      { s with services := s.services ++ [⟨s.nextInstance, false⟩], nextInstance := s.nextInstance + 1 }
  | call {i svc req} : s.services[i]? = some svc → svc.ready = true → Steps s (.call i req) { s with
      services := s.services.set i ⟨s.nextInstance, false⟩
      futures := s.futures ++ [⟨svc.inner, .created req⟩]
      nextInstance := s.nextInstance + 1 }
  | start {f inner req req' phase} : s.futures[f]? = some ⟨inner, .created req⟩ →
    phase.account = some false →
      Steps s (.start f) (s.callInner f inner req' phase)
  | wake {f inner req n} : s.futures[f]? = some ⟨inner, .delay req n⟩ →
      Steps s (.wake f) (s.callInner f inner req (.attempt req (n + 1)))
  | move {f inner phase phase' e} : s.futures[f]? = some ⟨inner, phase⟩ →
      phase'.account = phase.account ∨ phase'.account = none → (∀ f, e ≠ .wake f) →
      Steps s e (s.setPhase f inner phase')

theorem steps_start (h : s.futures[f]? = some ⟨inner, .created req⟩) :
    Steps s (.start f) (s.start retry f inner req) := by
  unfold start
  split
  · exact .start h rfl
  · split
    · exact .start h rfl
    · exact .start h rfl
    · exact .move h (.inr rfl) (by simp)

theorem steps_of_step (h : s.step retry e = some s') : Steps s e s' := by
  cases e with
  | pollReady i ready =>
    obtain ⟨svc, hs, rfl⟩ := Option.map_eq_some_iff.1 h
    exact .pollReady hs
  | clone i =>
    obtain ⟨svc, -, rfl⟩ := Option.map_eq_some_iff.1 h
    exact .clone
  | call i req =>
    obtain ⟨svc, hs, h⟩ := Option.bind_eq_some_iff.1 h
    split at h
    · next hr => cases h; exact .call hs hr
    · cases h
  | start f =>
    simp only [step] at h
    split at h
    · next hf => cases h; exact steps_start hf
    · cases h
  | respond f res =>
    simp only [step] at h
    split at h
    · next hf => cases h; exact .move hf (.inr rfl) (by simp)
    · next hf =>
      split at h
      · cases h; exact .move hf (.inr rfl) (by simp)
      · cases h; exact .move hf (.inl rfl) (by simp)
    · cases h
  | wake f =>
    simp only [step] at h
    split at h
    · next hf => cases h; exact .wake hf
    · cases h
  | drop f =>
    obtain ⟨⟨inner, phase⟩, hf, rfl⟩ := Option.map_eq_some_iff.1 h
    exact .move hf (.inr rfl) (by simp)

/-! ### What a step does to the accounts -/

theorem set_perm {α : Type*} {l : List α} {i : Nat} {a : α} (h : l[i]? = some a) :
    ∃ rest, l.Perm (a :: rest) ∧ ∀ b, (l.set i b).Perm (b :: rest) := by
  obtain ⟨hi, rfl⟩ := List.getElem?_eq_some_iff.1 h
  exact ⟨l.eraseIdx i, (List.getElem_cons_eraseIdx_perm hi).symm, List.set_perm_cons_eraseIdx hi⟩

theorem accounts_service {i : Nat} {svc : RetryService} (h : s.services[i]? = some svc) :
    ∃ rest, s.accounts.Perm (svc.account :: rest) ∧
      ∀ svc' futures next trace, (accounts ⟨s.services.set i svc', s.futures ++ futures, next, trace⟩).Perm
        (svc'.account :: (rest ++ futures.map RetryFuture.account)) := by
  obtain ⟨rest, hl, hset⟩ := set_perm h
  refine ⟨rest.map RetryService.account ++ s.futures.map RetryFuture.account, ?_,
    fun svc' futures next trace => ?_⟩
  · exact (hl.map _).append_right _
  · have := ((hset svc').map RetryService.account).append_right
      ((s.futures ++ futures).map RetryFuture.account)
    rw [accounts, List.append_assoc, ← List.map_append]
    exact this

theorem accounts_future (h : s.futures[f]? = some ⟨inner, phase⟩) :
    ∃ rest, s.accounts.Perm ((inner, phase.account) :: rest) ∧
      ∀ phase', (s.setPhase f inner phase').accounts.Perm ((inner, phase'.account) :: rest) := by
  obtain ⟨rest, hl, hset⟩ := set_perm h
  refine ⟨s.services.map RetryService.account ++ rest.map RetryFuture.account, ?_, fun phase' => ?_⟩
  · exact ((hl.map _).append_left _).trans List.perm_middle
  · exact (((hset ⟨inner, phase'⟩).map _).append_left _).trans List.perm_middle

/-- Every owner is right about its instance, and the calls were all ready unless one was a replay. -/
structure Accounted (events : List Event) (s : RetryRun) : Prop where
  agrees : Token.Agrees s.uses s.accounts
  old : ∀ a ∈ s.accounts, a.1 < s.nextInstance
  disciplined : Token.Disciplined s.uses ↔ ∀ f, .wake f ∉ events

theorem wake_not_mem_concat (he : ∀ f, e ≠ .wake f) :
    (∀ f, .wake f ∉ events ++ [e]) ↔ ∀ f, .wake f ∉ events := by
  refine forall_congr' fun f => ?_
  rw [List.mem_append, List.mem_singleton, not_or, and_iff_left fun h => he f h.symm]

theorem uses_concat (u : InnerEvent) (services : List RetryService) (futures : List RetryFuture)
    (next : InstanceId) :
    (⟨services, futures, next, s.trace ++ [u]⟩ : RetryRun).uses = s.uses ++ u.use.toList := by
  rw [uses, List.filterMap_append, uses]
  cases h : u.use <;> simp [h]

theorem accounted_new : Accounted [] new where
  agrees := ⟨List.nodup_singleton 0, by simp [accounts, new, RetryService.account]⟩
  old := by simp [accounts, new, RetryService.account]
  disciplined := iff_of_true Token.disciplined_nil (by simp)

theorem old_of_perm {accounts accounts' rest : List (InstanceId × Option Bool)} {b b' : Option Bool}
    {n : InstanceId}
    (h : ∀ a ∈ accounts, a.1 < n) (hp : accounts.Perm ((inner, b) :: rest))
    (hp' : accounts'.Perm ((inner, b') :: rest)) :
    ∀ a ∈ accounts', a.1 < n := by
  intro a ha
  rcases List.mem_cons.1 (hp'.mem_iff.1 ha) with rfl | ha
  · exact h (inner, b) (hp.mem_iff.2 (List.mem_cons_self ..))
  · exact h a (hp.mem_iff.2 (List.mem_cons_of_mem _ ha))

theorem accounted_pollReady {i : Nat} {svc : RetryService} {ready : Bool} (h : Accounted events s)
    (hs : s.services[i]? = some svc) : Accounted (events ++ [.pollReady i ready]) { s with
      services := s.services.set i { svc with ready := svc.ready || ready }
      trace := s.trace ++ [.pollReady svc.inner ready] } := by
  obtain ⟨rest, hp, hset⟩ := accounts_service hs
  have hp' := hset { svc with ready := svc.ready || ready } [] s.nextInstance
    (s.trace ++ [.pollReady svc.inner ready])
  rw [List.map_nil, List.append_nil, List.append_nil] at hp'
  have hagrees := h.agrees.perm hp
  refine ⟨?_, old_of_perm h.old hp hp', ?_⟩
  · rw [uses_concat]
    cases ready with
    | true => exact (hagrees.grant (by simp)).perm hp'.symm
    | false =>
      rw [show (InnerEvent.pollReady svc.inner false).use.toList = [] from rfl, List.append_nil]
      refine hagrees.perm (.symm ?_)
      simpa only [Bool.or_false] using hp'
  · rw [uses_concat, wake_not_mem_concat (by simp), ← h.disciplined]
    cases ready with
    | true => exact Token.disciplined_concat_grant
    | false => exact (List.append_nil s.uses).symm ▸ Iff.rfl

theorem accounted_fresh (h : Accounted events s) (he : ∀ f, e ≠ .wake f)
    (hn : s'.nextInstance = s.nextInstance + 1)
    (ht : s'.trace = s.trace) (hp : s'.accounts.Perm ((s.nextInstance, none) :: s.accounts)) :
    Accounted (events ++ [e]) s' := by
  have hu : s'.uses = s.uses := by rw [uses, ht, uses]
  have hfresh : s.nextInstance ∉ s.accounts.map (·.1) := fun hm => by
    obtain ⟨a, ha, heq⟩ := List.mem_map.1 hm
    exact Nat.lt_irrefl _ (heq ▸ h.old a ha)
  refine ⟨?_, fun a ha => ?_, ?_⟩
  · rw [hu]
    exact (h.agrees.fresh hfresh).perm hp.symm
  · rw [hn]
    rcases List.mem_cons.1 (hp.mem_iff.1 ha) with rfl | ha
    · exact Nat.lt_succ_self _
    · exact Nat.lt_succ_of_lt (h.old a ha)
  · rw [hu, wake_not_mem_concat he, h.disciplined]

theorem accounted_callInner {phase' : RetryFuture.Phase} (h : Accounted events s)
    (hf : s.futures[f]? = some ⟨inner, phase⟩) (hphase : phase'.account = some false) (req : Request)
    (he : (∀ f, .wake f ∉ events ++ [e]) ↔ (∀ f, .wake f ∉ events) ∧ phase.account = some true)
    (hp : phase.account = some true ∨ phase.account = some false) :
    Accounted (events ++ [e]) (s.callInner f inner req phase') := by
  obtain ⟨rest, hperm, hset⟩ := accounts_future hf
  have hagrees := h.agrees.perm hperm
  have hperm' := hset phase'
  refine ⟨?_, old_of_perm h.old hperm hperm', ?_⟩
  · rw [callInner, uses_concat]
    exact (hagrees.spend (by simp [hphase])).perm hperm'.symm
  · rw [callInner, uses_concat, he, ← h.disciplined]
    refine Token.disciplined_concat_spend.trans (and_congr_right fun _ => ?_)
    rcases hp with hp | hp <;> rw [hp] at hagrees ⊢
    · exact iff_of_true hagrees.head rfl
    · rw [hagrees.head_spent]
      simp

theorem accounted_step (h : Accounted events s) (hs : s.step retry e = some s') :
    Accounted (events ++ [e]) s' := by
  cases steps_of_step hs with
  | pollReady hi => exact accounted_pollReady h hi
  | clone =>
    refine accounted_fresh h (by simp) rfl rfl ?_
    rw [accounts, List.map_append, List.append_assoc]
    exact List.perm_middle
  | @call i svc req hi hr =>
    obtain ⟨rest, hp, hset⟩ := accounts_service hi
    have hacc : svc.account = (svc.inner, some true) := by rw [RetryService.account, if_pos hr]
    refine accounted_fresh h (by simp) rfl rfl
      ((hset ⟨s.nextInstance, false⟩ [⟨svc.inner, .created req⟩] _ _).trans ?_)
    refine .cons _ (.trans ?_ hp.symm)
    rw [hacc]
    exact List.perm_append_singleton _ _
  | start hf hp =>
    refine accounted_callInner h hf hp _ ?_ (.inl rfl)
    rw [wake_not_mem_concat (by simp)]
    exact (and_iff_left rfl).symm
  | @wake f inner req n hf =>
    refine accounted_callInner h hf rfl req (iff_of_false (fun hno => hno f (by simp)) ?_) (.inr rfl)
    rintro ⟨-, h⟩
    cases h
  | move hf hp he =>
    obtain ⟨rest, hperm, hset⟩ := accounts_future hf
    refine ⟨((h.agrees.perm hperm).forget hp).perm (hset _).symm, old_of_perm h.old hperm (hset _), ?_⟩
    rw [wake_not_mem_concat he]
    exact h.disciplined

theorem accounted_run (h : Run.run (step retry) new events = some s) : Accounted events s :=
  Run.run_invariant Accounted accounted_new accounted_step h

end RetryRun

/-! ### The contract -/

/-- A `poll_ready` of the instance answered `Ready` and no call has used that up. -/
def ReadyAt (trace : List InnerEvent) (inner : InstanceId) : Prop :=
  ∃ a b, trace = a ++ .pollReady inner true :: b ∧ ∀ req, .call inner req ∉ b

def CallsReady (trace : List InnerEvent) : Prop :=
  ∀ pre inner req post, trace = pre ++ .call inner req :: post → ReadyAt pre inner

variable {trace : List InnerEvent} {inner : InstanceId}

theorem use_eq_grant {u : InnerEvent} (h : u.use = some (.grant inner)) : u = .pollReady inner true := by
  cases u with
  | pollReady i ready => cases ready <;> cases h; rfl
  | call i req => cases h

theorem use_eq_spend {u : InnerEvent} (h : u.use = some (.spend inner)) : ∃ req, u = .call inner req := by
  cases u with
  | pollReady i ready => cases ready <;> cases h
  | call i req => cases h; exact ⟨req, rfl⟩

theorem cut_of_uses {pre post : List (Token.Use InstanceId)} {u : Token.Use InstanceId}
    (h : trace.filterMap InnerEvent.use = pre ++ u :: post) :
    ∃ a x b, trace = a ++ x :: b ∧ a.filterMap InnerEvent.use = pre ∧ x.use = some u ∧
      b.filterMap InnerEvent.use = post := by
  obtain ⟨l₁, l₂, rfl, rfl, h₂⟩ := List.filterMap_eq_append_iff.1 h
  obtain ⟨l₃, x, l₄, rfl, hnone, hx, rfl⟩ := List.filterMap_eq_cons_iff.1 h₂
  refine ⟨l₁ ++ l₃, x, l₄, by simp, ?_, hx, rfl⟩
  rw [List.filterMap_append, List.filterMap_eq_nil_iff.2 hnone, List.append_nil]

theorem held_uses_iff : Token.held (trace.filterMap InnerEvent.use) inner = true ↔ ReadyAt trace inner := by
  rw [Token.held_iff]
  constructor
  · rintro ⟨pre, post, h, hno⟩
    obtain ⟨a, x, b, rfl, -, hx, rfl⟩ := cut_of_uses h
    cases use_eq_grant hx
    exact ⟨a, b, rfl, fun req hm => hno (List.mem_filterMap.2 ⟨_, hm, rfl⟩)⟩
  · rintro ⟨a, b, rfl, hno⟩
    refine ⟨a.filterMap InnerEvent.use,
      b.filterMap InnerEvent.use, by rw [List.filterMap_append]; rfl, fun hm => ?_⟩
    obtain ⟨u, hu, hs⟩ := List.mem_filterMap.1 hm
    obtain ⟨req, rfl⟩ := use_eq_spend hs
    exact hno req hu

theorem callsReady_iff : CallsReady trace ↔ Token.Disciplined (trace.filterMap InnerEvent.use) := by
  constructor
  · intro h pre i post he
    obtain ⟨a, x, b, rfl, rfl, hx, -⟩ := cut_of_uses he
    obtain ⟨req, rfl⟩ := use_eq_spend hx
    exact held_uses_iff.2 (h a i req b rfl)
  · rintro h pre i req post rfl
    refine held_uses_iff.1 (h _ i (post.filterMap InnerEvent.use) ?_)
    rw [List.filterMap_append]
    rfl

/-- Every call of the inner service is ready exactly when no future gets past its delay: the second
attempt calls an instance whose readiness the first one used. -/
theorem calls_ready_iff_no_replay {retry : Retry} {events : List RetryRun.Event} {s : RetryRun}
    (h : Run.run (RetryRun.step retry) .new events = some s) :
    CallsReady s.trace ↔ ∀ f, .wake f ∉ events :=
  callsReady_iff.trans (RetryRun.accounted_run h).disciplined

/-- One request through `RetryLayer::new(3)`, answered at once. -/
theorem calls_ready_iff_no_replay_answered :
    ∃ s, Run.run (RetryRun.step (RetryLayer.new 3).layer) .new [.pollReady 0 true,
      .call 0 (.new (.fromBytes [])),
        .start 0, .respond 0 (.new (.fromBytes []))] = some s ∧ CallsReady s.trace := by
  obtain ⟨s, hs⟩ : ∃ s, Run.run (RetryRun.step (RetryLayer.new 3).layer) .new [.pollReady 0 true,
      .call 0 (.new (.fromBytes [])), .start 0, .respond 0 (.new (.fromBytes []))] = some s := ⟨_, rfl⟩
  exact ⟨s, hs, (calls_ready_iff_no_replay hs).2 fun f => by simp⟩

/-- The same request when the first attempt cannot connect. -/
theorem replay_without_readiness :
    ∃ s, Run.run (RetryRun.step (RetryLayer.new 3).layer) .new [.pollReady 0 true,
      .call 0 (.new (.fromBytes [])),
        .start 0, .respond 0 { Response.withStatus .badGateway (.fromBytes []) with extensions :=
          ⟨some ⟨[], true⟩⟩ },
        .wake 0] = some s ∧
      s.trace = [.pollReady 0 true, .call 0 (.new (.fromBytes [])), .call 0 (.new (.fromBytes []))] ∧
      ¬ CallsReady s.trace := by
  refine ⟨_, rfl, rfl, fun h => ?_⟩
  have hready := held_uses_iff.2 (h [.pollReady 0 true, .call 0 (.new (.fromBytes []))] 0 _ [] rfl)
  exact absurd hready (by decide)

end AxumReverseProxy
