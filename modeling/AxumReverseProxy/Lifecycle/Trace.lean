import AxumReverseProxy.Lifecycle.Attempt

/-!
# What an attempt is in the middle of

`Activity` reads it off the events of the attempt, and nothing of what the guard does goes into it.
`Observed` reads off its notes what is open. `Tracks` ties both to the phase: an attempt that has taken
the resource holds it or has noted its release, every release noted so far came when nothing was open,
and the attempt was over by its events.
-/

namespace AxumReverseProxy

/-- What is open after some notes. -/
structure Observed where
  sending : Bool := false
  body : Bool := false
  downstream : Bool := false
  upstream : Bool := false
deriving DecidableEq

namespace Observed

def idle : Observed := {}

def note (o : Observed) : Note → Observed
  | .sendStarted => { o with sending := true }
  | .sendEnded => { o with sending := false }
  | .bodyRelayed => { o with body := true }
  | .bodyEnded | .bodyDropped => { o with body := false }
  | .handedOver .downstream => { o with downstream := true }
  | .handedOver .upstream => { o with upstream := true }
  | .transportDropped .downstream => { o with downstream := false }
  | .transportDropped .upstream => { o with upstream := false }
  | .acquired | .released => o

end Observed

def observed (l : List Note) : Observed := l.foldl Observed.note .idle

/-! ### What the events of an attempt say -/

/-- What an attempt is in the middle of, by its events and what they report. -/
inductive Activity
  | waiting (env : Platform) (policy : ProxyPolicy) (upstreamUri : Uri) (req : Request)
  | sending (env : Platform) (policy : ProxyPolicy) (s : Sending)
  /-- a body is relayed that has reported no end and was not dropped -/
  | relaying
  | tunnel (downstream upstream : Bool)
  | finished

namespace Activity

def begun : Activity → Activity
  | waiting env policy upstreamUri req =>
    match forwardStart env policy upstreamUri req with
    | some (.sending s) => sending env policy s
    | _ => finished
  | act => act

def after (act : Activity) : AttemptEvent → Activity
  | .outcome o =>
    match act with
    | sending env policy s =>
      match s.finish env policy o with
      | .failed _ => finished
      | .relayed res => if res.body.isEndStream then finished else relaying
      | .upgraded _ => tunnel false false
    | act => act
  | .poll frame isEndStream => if frame.ends isEndStream then finished else act
  | .upgraded side =>
    match act, side with
    | tunnel _ upstream, .downstream => tunnel true upstream
    | tunnel downstream _, .upstream => tunnel downstream true
    | act, _ => act
  | _ => finished

def observed : Activity → Observed
  | waiting _ _ _ _ | finished => .idle
  | sending _ _ _ => { Observed.idle with sending := true }
  | relaying => { Observed.idle with body := true }
  | tunnel downstream upstream => { Observed.idle with downstream, upstream }

end Activity

/-- The activities a phase may stand for. A relayed body without the guard may have reported its end. -/
def Attempt.Doing (a : Attempt) (act : Activity) : Prop :=
  match a.phase with
  | .created req => act = .waiting a.env a.policy a.upstreamUri req
  | .sending s _ _ => act = .sending a.env a.policy s
  | .relaying (some _) => act = .relaying
  | .relaying none => act = .relaying ∨ act = .finished
  | .upgrading downstream upstream _ _ => act = .tunnel downstream upstream
  | .copying _ _ => act = .tunnel true true
  | .done => act = .finished

/-- Every release in `l` comes behind an acquisition, when nothing is open. -/
def ReleasesIdle (l : List Note) : Prop :=
  ∀ pre post, l = pre ++ .released :: post → .acquired ∈ pre ∧ observed pre = .idle

structure Attempt.Tracks (a : Attempt) (act : Activity) (l : List Note) : Prop where
  doing : a.Doing act
  shows : observed l = act.observed
  token : l.count .acquired = a.phase.guard.toList.length + l.count .released
  safe : ReleasesIdle l
  finished : .released ∈ l → act = .finished

variable {p : Phase} {l ns : List Note} {g taken : Option Resource} {a : Attempt} {act act' : Activity}
  {e : AttemptEvent} {req : Request} {o : Observed} {s : Sending} {c : Option TunnelCancellation}

theorem observed_append : observed (l ++ ns) = ns.foldl Observed.note (observed l) := List.foldl_append

/-! ### Notes without a release -/

theorem releasesIdle_nil : ReleasesIdle [] := by
  intro pre post h
  cases pre <;> cases h

theorem ReleasesIdle.append (hl : ReleasesIdle l)
    (hns : ∀ pre post, ns = pre ++ .released :: post → .acquired ∈ l ++ pre ∧ observed (l ++ pre) = .idle) :
    ReleasesIdle (l ++ ns) := by
  intro pre post h
  rcases List.append_eq_append_iff.1 h with ⟨pre', rfl, hpre⟩ | ⟨rest, hl', hrest⟩
  · exact hns pre' post hpre
  · cases rest with
    | nil =>
      rw [List.append_nil] at hl'
      subst hl'
      simpa using hns [] post (by simpa using hrest.symm)
    | cons n rest =>
      rw [List.cons_append] at hrest
      obtain ⟨rfl, -⟩ := List.cons.inj hrest
      exact hl pre rest hl'

theorem ReleasesIdle.append_of_not_mem (hl : ReleasesIdle l) (hns : .released ∉ ns) :
    ReleasesIdle (l ++ ns) := by
  refine hl.append fun pre post h => ?_
  rw [h] at hns
  exact absurd (by simp) hns

theorem ReleasesIdle.append_dropGuard (hl : ReleasesIdle l) (hns : .released ∉ ns)
    (hg : g.isSome = true → .acquired ∈ l ++ ns ∧ observed (l ++ ns) = .idle) :
    ReleasesIdle (l ++ (ns ++ dropGuard g)) := by
  rw [← List.append_assoc]
  cases g with
  | none => rw [dropGuard, List.append_nil]; exact hl.append_of_not_mem hns
  | some r =>
    refine (hl.append_of_not_mem hns).append fun pre post h => ?_
    have hpre : pre = [] := by
      cases pre with
      | nil => rfl
      | cons n pre => simp [dropGuard] at h
    rw [hpre, List.append_nil]
    exact hg rfl

/-! ### What a step keeps -/

theorem count_dropGuard : (dropGuard g).count .released = g.toList.length ∧
    (dropGuard g).count .acquired = 0 := by
  cases g <;> exact ⟨rfl, rfl⟩

theorem count_noteTaken :
    (noteTaken taken).count .acquired = taken.toList.length ∧ (noteTaken taken).count .released = 0 := by
  cases taken <;> exact ⟨rfl, rfl⟩

theorem Phase.not_mem_closing (p : Phase) : .released ∉ p.closing ∧ .acquired ∉ p.closing := by
  cases p with
  | upgrading d u g c => cases d <;> cases u <;> simp [closing]
  | _ => exact ⟨by simp [closing], by simp [closing]⟩

theorem not_mem_noteEnded (ended : Bool) : .released ∉ noteEnded ended ∧ .acquired ∉ noteEnded ended := by
  cases ended <;> simp [noteEnded]

@[simp] theorem Activity.after_finished : Activity.finished.after e = .finished := by
  cases e <;> simp [after]

theorem Activity.after_of_ends (he : e.ends = true) : act.after e = .finished := by
  cases e with
  | outcome o => cases he
  | poll frame ended => cases he
  | upgraded side => cases he
  | _ => rfl

/-- What the phase drops first is what is open. -/
theorem Attempt.Doing.closing (h : a.Doing act) :
    a.phase.closing.foldl Observed.note act.observed = .idle := by
  unfold Doing at h
  split at h
  · subst h; next hp => rw [hp]; rfl
  · subst h; next hp => rw [hp]; rfl
  · subst h; next hp => rw [hp]; rfl
  · next hp => rw [hp]; rcases h with rfl | rfl <;> rfl
  · next d u g c hp => subst h; rw [hp]; cases d <;> cases u <;> rfl
  · subst h; next hp => rw [hp]; rfl
  · subst h; next hp => rw [hp]; rfl

theorem Attempt.Doing.not_finished (h : a.Doing act) (hg : a.phase.guard ≠ none) : act ≠ .finished := by
  rintro rfl
  unfold Doing at h
  split at h
  · cases h
  · cases h
  · cases h
  · next hp => rw [hp] at hg; exact hg rfl
  · cases h
  · cases h
  · next hp => rw [hp] at hg; exact hg rfl

theorem Attempt.Tracks.acquired_mem (h : a.Tracks act l) (hg : a.phase.guard.isSome = true) :
    .acquired ∈ l := by
  obtain ⟨r, hr⟩ := Option.isSome_iff_exists.1 hg
  have := h.token
  rw [hr, Option.toList_some, List.length_singleton] at this
  exact List.count_pos_iff.1 (by omega)

/-- An attempt moves on and keeps the guard. -/
theorem Attempt.Tracks.move (h : a.Tracks act l) (ns : List Note) (hg : p.guard = a.phase.guard)
    (hns : .released ∉ ns ∧ .acquired ∉ ns) (hd : { a with phase := p }.Doing act')
    (hs : ns.foldl Observed.note act.observed = act'.observed) (hfin : act = .finished → act' = .finished) :
    { a with phase := p }.Tracks act' (l ++ ns) := by
  refine ⟨hd, by rw [observed_append, h.shows, hs], ?_, h.safe.append_of_not_mem hns.1,
    fun hr => hfin (h.finished ?_)⟩
  · have ht := h.token
    show _ = p.guard.toList.length + _
    rw [List.count_append, List.count_append, List.count_eq_zero_of_not_mem hns.1,
      List.count_eq_zero_of_not_mem hns.2, hg]
    exact ht
  · exact (List.mem_append.1 hr).resolve_right hns.1

/-- It is over, and lets go of the guard when nothing is open any more. -/
theorem Attempt.Tracks.letGo (h : a.Tracks act l) (ns : List Note) (hg : p.guard = none)
    (hns : .released ∉ ns ∧ .acquired ∉ ns) (hd : { a with phase := p }.Doing .finished)
    (hs : ns.foldl Observed.note act.observed = .idle) :
    { a with phase := p }.Tracks .finished (l ++ (ns ++ dropGuard a.phase.guard)) := by
  have hidle : observed (l ++ ns) = .idle := by rw [observed_append, h.shows, hs]
  refine ⟨hd, ?_, ?_, ?_, fun _ => rfl⟩
  · rw [← List.append_assoc, observed_append, hidle]
    cases a.phase.guard <;> rfl
  · have ht := h.token
    show _ = p.guard.toList.length + _
    simp only [List.count_append, count_dropGuard, List.count_eq_zero_of_not_mem hns.1,
      List.count_eq_zero_of_not_mem hns.2, hg, Option.toList_none, List.length_nil]
    omega
  · exact h.safe.append_dropGuard hns.1 fun hg => ⟨List.mem_append_left _ (h.acquired_mem hg), hidle⟩

theorem Attempt.Tracks.exit (h : a.Tracks act l) :
    { a with phase := a.phase.exit.1 }.Tracks .finished (l ++ a.phase.exit.2) :=
  h.letGo (p := .done) a.phase.closing rfl a.phase.not_mem_closing rfl h.doing.closing

theorem tracks_start (h : a.Tracks act l) (hp : a.phase = .created req)
    (hs : a.start req taken = some (p, ns)) :
    { a with phase := p }.Tracks act.begun (l ++ ns) := by
  have hact : act = .waiting a.env a.policy a.upstreamUri req := by
    have hd := h.doing
    unfold Attempt.Doing at hd
    rwa [hp] at hd
  subst hact
  have hidle : observed l = .idle := h.shows
  have ht : l.count .acquired = 0 + l.count .released := by
    have := h.token
    rwa [hp] at this
  have hacq : observed (l ++ noteTaken taken) = .idle := by
    rw [observed_append, hidle]; cases taken <;> rfl
  have hrel : .released ∉ noteTaken taken := by cases taken <;> simp [noteTaken]
  rcases a.start_cases req taken with ⟨res, hf, h'⟩ | ⟨s, c, hf, h'⟩
  · obtain ⟨rfl, rfl⟩ := Prod.mk.inj (Option.some.inj (h'.symm.trans hs))
    have hfin : (Activity.waiting a.env a.policy a.upstreamUri req).begun = .finished := by
      simp only [Activity.begun, hf]
    rw [hfin]
    refine ⟨rfl, ?_, ?_, ?_, fun _ => rfl⟩
    · rw [← List.append_assoc, observed_append, hacq]
      cases taken <;> rfl
    · show _ = 0 + _
      simp only [List.count_append, count_dropGuard, count_noteTaken]
      omega
    · refine h.safe.append_dropGuard hrel fun hg => ⟨List.mem_append_right _ ?_, hacq⟩
      obtain ⟨r, rfl⟩ := Option.isSome_iff_exists.1 hg
      exact List.mem_singleton_self _
  · obtain ⟨rfl, rfl⟩ := Prod.mk.inj (Option.some.inj (h'.symm.trans hs))
    have hsending : (Activity.waiting a.env a.policy a.upstreamUri req).begun =
      .sending a.env a.policy s := by
      simp only [Activity.begun, hf]
    rw [hsending]
    have hns : .released ∉ noteTaken taken ++ [.sendStarted] := by simp [hrel]
    refine ⟨rfl, ?_, ?_, h.safe.append_of_not_mem hns, fun hr => ?_⟩
    · rw [← List.append_assoc, observed_append, hacq]; rfl
    · show _ = taken.toList.length + _
      simp only [List.count_append, count_noteTaken]
      simp [ht]; omega
    · cases h.finished ((List.mem_append.1 hr).resolve_right hns)

theorem retain_cases (ended : Bool) (g : Option Resource) :
    retain ended g = (none, dropGuard g) ∧ ended = true ∨ retain ended g = (g, []) ∧ ended = false := by
  cases g <;> cases ended <;> simp [retain, dropGuard]

theorem pollFrame_eq (frame : PollFrame) (ended : Bool) :
    pollFrame g frame ended = if frame.ends ended then (none, dropGuard g) else (g, []) := by
  cases frame <;> cases ended <;> rfl

/-- The end of the send. -/
theorem tracks_finish {o : SendOutcome} (h : a.Tracks act l) (hp : a.phase = .sending s g c)
    (hf : (p, ns) = a.finish s g c o) : { a with phase := p }.Tracks (act.after (.outcome o))
    (l ++ ns) := by
  have hact : act = .sending a.env a.policy s := by
    have hd := h.doing
    unfold Attempt.Doing at hd
    rwa [hp] at hd
  subst hact
  have hg : a.phase.guard = g := by rw [hp]; rfl
  rcases a.finish_cases s g c o with ⟨res, ho, hc⟩ | ⟨res, ho, hc⟩ | ⟨res, ho, hc⟩ <;>
    obtain ⟨rfl, rfl⟩ := Prod.mk.inj (hf.trans hc)
  · rw [show (Activity.sending a.env a.policy s).after (.outcome o) = .finished by
      simp only [Activity.after, ho], ← hp]
    exact h.exit
  · rcases retain_cases res.body.isEndStream g with ⟨hr, hended⟩ | ⟨hr, hended⟩
    · rw [show (Activity.sending a.env a.policy s).after (.outcome o) = .finished by
        simp [Activity.after, ho, hended], hr, hended, ← hg]
      exact h.letGo (p := .relaying none) [.sendEnded, .bodyRelayed, .bodyEnded] rfl (by decide)
        (.inr rfl) rfl
    · rw [show (Activity.sending a.env a.policy s).after (.outcome o) = .relaying by
        simp [Activity.after, ho, hended], hr, hended]
      refine h.move [.sendEnded, .bodyRelayed] hg.symm (by decide) ?_ rfl nofun
      cases g with
      | none => exact .inl rfl
      | some r => rfl
  · rw [show (Activity.sending a.env a.policy s).after (.outcome o) = .tunnel false false by
      simp only [Activity.after, ho]]
    exact h.move [.sendEnded] hg.symm (by decide) rfl rfl nofun

theorem tracks_poll {frame : PollFrame} {ended : Bool} (h : a.Tracks act l) (hp : a.phase = .relaying g)
    (hf : (p, ns) = (.relaying (pollFrame g frame ended).1, noteEnded (frame.ends ended) ++
      (pollFrame g frame ended).2)) :
    { a with phase := p }.Tracks (act.after (.poll frame ended)) (l ++ ns) := by
  obtain ⟨rfl, rfl⟩ := Prod.mk.inj hf
  have hg : a.phase.guard = g := by rw [hp]; rfl
  have hd := h.doing
  rw [pollFrame_eq]
  cases hends : frame.ends ended with
  | true =>
    rw [show act.after (.poll frame ended) = .finished by simp [Activity.after, hends], ← hg]
    refine h.letGo (p := .relaying none) [.bodyEnded] rfl (by decide) (.inr rfl) ?_
    unfold Attempt.Doing at hd
    rw [hp] at hd
    cases g with
    | none => rcases hd with rfl | rfl <;> rfl
    | some r => rw [show act = .relaying from hd]; rfl
  | false =>
    rw [show act.after (.poll frame ended) = act by simp [Activity.after, hends]]
    refine h.move [] hg.symm (by decide) ?_ rfl id
    unfold Attempt.Doing at hd ⊢
    rwa [hp] at hd

/-- One of the two upgrades of a tunnel arrives. -/
theorem tracks_upgraded (side : Side) {d u d' u' : Bool} (h : a.Tracks act l)
    (hp : a.phase = .upgrading d u g c)
    (hd' : d' = (d || side = .downstream)) (hu' : u' = (u || side = .upstream)) :
    { a with phase := .withTransport d' u' g c }.Tracks (act.after (.upgraded side))
    (l ++ [Note.handedOver side]) := by
  have hact : act = .tunnel d u := by
    have hd := h.doing
    unfold Attempt.Doing at hd
    rwa [hp] at hd
  subst hact hd' hu'
  have hguard : (Phase.withTransport (d || side = .downstream) (u || side = .upstream) g c).guard =
    a.phase.guard := by
    rw [hp]
    unfold Phase.withTransport
    split <;> rfl
  refine h.move [.handedOver side] hguard (by cases side <;> decide) ?_ ?_ nofun
  · cases side <;> cases d <;> cases u <;> rfl
  · cases side <;> cases d <;> cases u <;> rfl

/-- Every step keeps the attempt in line with its events and its notes. -/
theorem tracks_next (h : a.Tracks act l) (hn : a.next e = some (p, ns)) :
    { a with phase := p }.Tracks (act.after e) (l ++ ns) := by
  rcases a.next_cases hn with ⟨he, hc⟩ | ⟨s, g, c, o, hp, rfl, hc⟩ | ⟨g, frame, ended, hp, rfl, hc⟩ |
    ⟨u, g, c, hp, rfl, hc⟩ | ⟨d, g, c, hp, rfl, hc⟩
  · obtain ⟨rfl, rfl⟩ := Prod.mk.inj hc
    rw [Activity.after_of_ends he]
    exact h.exit
  · exact tracks_finish h hp hc
  · exact tracks_poll h hp hc
  · obtain ⟨rfl, rfl⟩ := Prod.mk.inj hc
    exact tracks_upgraded .downstream h hp rfl (Bool.or_false u).symm
  · obtain ⟨rfl, rfl⟩ := Prod.mk.inj hc
    exact tracks_upgraded .upstream h hp (Bool.or_false d).symm rfl

/-! ### Acquisitions -/

theorem count_acquired_start (hs : a.start req taken = some (p, ns)) :
    ns.count .acquired = taken.toList.length := by
  rcases a.start_cases req taken with ⟨res, -, h'⟩ | ⟨s, c, -, h'⟩ <;>
    obtain ⟨rfl, rfl⟩ := Prod.mk.inj (Option.some.inj (h'.symm.trans hs)) <;>
    cases taken <;> rfl

theorem count_acquired_next (hn : a.next e = some (p, ns)) : ns.count .acquired = 0 := by
  have hdrop : ∀ g : Option Resource, (dropGuard g).count .acquired = 0 := fun g => count_dropGuard.2
  have hended : ∀ ended, (noteEnded ended).count .acquired = 0 :=
    fun ended => List.count_eq_zero_of_not_mem (not_mem_noteEnded ended).2
  have hexit : ∀ p : Phase, p.exit.2.count .acquired = 0 := fun p => by
    rw [Phase.exit, List.count_append, hdrop, List.count_eq_zero_of_not_mem p.not_mem_closing.2]
  rcases a.next_cases hn with ⟨-, hc⟩ | ⟨s, g, c, o, hp, -, hc⟩ | ⟨g, frame, ended, hp, -, hc⟩ |
    ⟨u, g, c, hp, -, hc⟩ | ⟨d, g, c, hp, -, hc⟩
  · obtain ⟨rfl, rfl⟩ := Prod.mk.inj hc
    exact hexit _
  · rcases a.finish_cases s g c o with ⟨res, -, hf⟩ | ⟨res, -, hf⟩ | ⟨res, -, hf⟩ <;>
      obtain ⟨rfl, rfl⟩ := Prod.mk.inj (hc.trans hf)
    · exact hexit _
    · rcases retain_cases res.body.isEndStream g with ⟨hr, -⟩ | ⟨hr, -⟩ <;>
        simp [hr, hdrop, hended]
    · rfl
  · obtain ⟨rfl, rfl⟩ := Prod.mk.inj hc
    rw [pollFrame_eq, List.count_append, hended, Nat.zero_add]
    split
    · exact hdrop g
    · rfl
  · obtain ⟨rfl, rfl⟩ := Prod.mk.inj hc; rfl
  · obtain ⟨rfl, rfl⟩ := Prod.mk.inj hc; rfl

end AxumReverseProxy
