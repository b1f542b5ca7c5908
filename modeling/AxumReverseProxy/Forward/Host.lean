import AxumReverseProxy.Forward.Sent

/-!
# The `Host` sent upstream

The copy of the client's lines, the `:authority` put in under `Preserve` and the authority of the
upstream put in last: each steps in only where the one before it left no line (`getAll_host_sent`).
-/

namespace AxumReverseProxy

open HeaderName

def Authority.value (a : Authority) : HeaderValue := .ofVisible a.str a.visible

/-- The `Host` of a request whose client names none that may be forwarded. -/
def hostFallback (policy : ProxyPolicy) (req : Request) (upstream : Authority) : HeaderValue :=
  if policy.forwardsClientHost then (req.uri.authority?.getD upstream).value else upstream.value

/-- The one `Host` a request is meant to have. -/
def intendedHost (policy : ProxyPolicy) (req : Request) (upstream : Authority) : HeaderValue :=
  if policy.forwardsClientHost = true ∧ ¬ Nominated req.headers host then
    (req.headers.get host).getD (hostFallback policy req upstream)
  else hostFallback policy req upstream

/-- The client sends at most one `Host`, and nominates it, if at all, in a line that is read. -/
def HostUnambiguous (policy : ProxyPolicy) (req : Request) (upstream : Authority) : Prop :=
  NominatedReadably req.headers host ∨ req.headers.getAll host = [] ∨
    ∃ v, req.headers.getAll host = [v] ∧ (Nominated req.headers host → v = hostFallback policy req upstream)

variable {policy : ProxyPolicy} {uri : Uri} {req : Request} {s : Sending} {env : Platform} {up : Bool}
  {a : Authority} {headers : HeaderMap} {addr : Option SocketAddr} {auth : Option Str}

theorem getAll_host_buildForwardHeaders :
    (buildForwardHeaders headers addr auth policy).getAll host =
      (keepHost (copyClientHeaders headers policy) auth policy).getAll host := by
  unfold buildForwardHeaders
  simp only
  split
  · rw [getAll_insertIfAbsent_ne (by decide), getAll_insertIfAbsent_ne (by decide),
      getAll_appendClient_ne (by decide) (by decide)]
  · rfl

theorem getAll_host_forwardHeaders :
    (forwardHeaders policy up req).getAll host =
      (keepHost (copyClientHeaders req.headers policy) (req.uri.authority?.map (·.str))
        policy).getAll host := by
  rw [forwardHeaders, getAll_upgrading_ne (by decide) (by decide), getAll_policyVia_ne (by decide),
    getAll_host_buildForwardHeaders]

theorem getAll_host_withHost :
    (withHost headers (some a)).getAll host =
      if headers.getAll host = [] then [a.value] else headers.getAll host := by
  unfold withHost
  by_cases h : headers.getAll host = []
  · rw [if_pos h, if_neg (by rw [MultiMap.containsKey_iff]; exact fun hn => hn h)]
    exact MultiMap.getAll_insert_self
  · rw [if_neg h, if_pos (MultiMap.containsKey_iff.2 h)]

theorem insertIfAbsent_authority (h : headers.getAll host = []) :
    (insertIfAbsent headers host (some a.str)).getAll host = [a.value] := by
  unfold insertIfAbsent
  rw [if_neg (by rw [MultiMap.containsKey_iff]; exact fun hn => hn h), Option.bind_some,
    HeaderValue.fromStr_of_visible a.visible]
  exact MultiMap.getAll_insert_self

theorem getAll_host_sent (hu : uri.authority? = some a) :
    (sentHeaders policy uri up req).getAll host =
      if (copyClientHeaders req.headers policy).getAll host = [] then [hostFallback policy req a]
      else (copyClientHeaders req.headers policy).getAll host := by
  rw [sentHeaders, hu, getAll_host_withHost, getAll_host_forwardHeaders]
  generalize copyClientHeaders req.headers policy = copied
  unfold keepHost hostFallback
  by_cases hp : policy.forwardsClientHost = true
  · rw [if_pos hp, if_pos hp]
    by_cases hc : copied.getAll host = []
    · rw [if_pos hc]
      cases req.uri.authority? with
      | none =>
        have hi : insertIfAbsent copied host none = copied := by
          unfold insertIfAbsent
          split <;> rfl
        simp only [Option.map_none, hi, hc, if_true, Option.getD_none]
      | some b =>
        rw [Option.map_some, insertIfAbsent_authority hc, if_neg (by simp)]
        rfl
    · rw [if_neg hc, insertIfAbsent_of_getAll_ne_nil hc, if_neg hc]
  · rw [if_neg hp, if_neg hp]

theorem host_mem_hopByHopHeaders : host ∈ hopByHopHeaders headers ↔ NominatedReadably headers host := by
  rw [mem_hopByHopHeaders, or_iff_right]
  rintro ⟨h, -⟩
  exact absurd h (by decide)

theorem getAll_host_copy_of_kept (hp : policy.forwardsClientHost = true)
    (hn : ¬ NominatedReadably headers host) :
    (copyClientHeaders headers policy).getAll host = headers.getAll host :=
  getAll_copyClientHeaders_of_not_mem (fun h => hn
    (host_mem_hopByHopHeaders.1 h)) (by simp [replacesHost, hp])

theorem getAll_host_copy_of_dropped (h : policy.forwardsClientHost = false ∨
    NominatedReadably headers host) :
    (copyClientHeaders headers policy).getAll host = [] := by
  rw [getAll_copyClientHeaders]
  exact if_pos (h.imp (fun h => by simp [replacesHost, h]) host_mem_hopByHopHeaders.2)

/-- One `Host` is sent, and the intended one, exactly when the policy replaces the client's or the
client's is unambiguous. -/
theorem single_host_iff (hs : forwardStart env policy uri req = some (.sending s))
    (hu : uri.authority? = some a) :
    s.forwardReq.headers.getAll host = [intendedHost policy req a] ↔
      (policy.forwardsClientHost = true → HostUnambiguous policy req a) := by
  rw [headers_of_sending hs, getAll_host_sent hu, intendedHost]
  by_cases hp : policy.forwardsClientHost = true
  · by_cases hn : NominatedReadably req.headers host
    · have hnom := nominated_of_nominatedReadably hn
      rw [getAll_host_copy_of_dropped (.inr hn), if_pos rfl, if_neg fun h => h.2 hnom]
      exact iff_of_true rfl fun _ => .inl hn
    · rw [getAll_host_copy_of_kept hp hn, HostUnambiguous, MultiMap.get]
      cases hl : req.headers.getAll host with
      | nil =>
        rw [if_pos rfl, List.head?_nil, Option.getD_none, ite_self]
        exact iff_of_true rfl fun _ => .inr (.inl rfl)
      | cons v vs =>
        rw [if_neg (List.cons_ne_nil v vs), List.head?_cons, Option.getD_some, List.cons.injEq]
        constructor
        · rintro ⟨hv, rfl⟩ -
          refine .inr (.inr ⟨v, rfl, fun hnom => ?_⟩)
          rw [hv, if_neg fun h => h.2 hnom]
        · intro h
          rcases h hp with h | h | ⟨w, hw, hw'⟩
          · exact absurd h hn
          · cases h
          · cases hw
            refine ⟨?_, rfl⟩
            by_cases hnom : Nominated req.headers host
            · rw [if_neg fun h => h.2 hnom, hw' hnom]
            · rw [if_pos ⟨hp, hnom⟩]
  · rw [getAll_host_copy_of_dropped (.inl (by simpa using hp)), if_pos rfl, if_neg fun h => hp h.1]
    exact iff_of_true rfl fun h => absurd h hp

def hostRequest (hosts : List HeaderValue) : Request :=
  { Request.new (.fromBytes []) with headers := ⟨hosts.map fun v => (host, v)⟩ }

def upRoot : Uri := .absolute .http ⟨"up".toList, by decide⟩ ⟨['/']⟩

theorem single_host_iff_one :
    ∃ s, forwardStart ⟨64, fun _ => []⟩ { hostBehaviour := .preserve } upRoot
      (hostRequest [.fromStatic "a.example"]) =
        some (.sending s) ∧
      s.forwardReq.headers.getAll host =
        [intendedHost { hostBehaviour := .preserve } (hostRequest [.fromStatic "a.example"])
          ⟨"up".toList, by decide⟩] := by
  obtain ⟨s, hs⟩ := @forwardStart_of_not_rejected ⟨64, fun _ => []⟩ { hostBehaviour := .preserve } upRoot
    (hostRequest [.fromStatic "a.example"]) rfl
  refine ⟨s, hs, (single_host_iff hs rfl).2 fun _ => .inr (.inr ⟨_, rfl, ?_⟩)⟩
  rintro ⟨v, hv, -⟩
  cases hv

/-- Two `Host` lines of the client are both sent. -/
theorem two_hosts_sent :
    ∃ s, forwardStart ⟨64, fun _ => []⟩ { hostBehaviour := .preserve } upRoot
        (hostRequest [.fromStatic "a.example", .fromStatic "b.example"]) = some (.sending s) ∧
      s.forwardReq.headers.getAll host = [.fromStatic "a.example", .fromStatic "b.example"] ∧
      ∀ v, s.forwardReq.headers.getAll host ≠ [v] := by
  obtain ⟨s, hs⟩ := @forwardStart_of_not_rejected ⟨64, fun _ => []⟩ { hostBehaviour := .preserve } upRoot
    (hostRequest [.fromStatic "a.example", .fromStatic "b.example"]) rfl
  have hhosts : s.forwardReq.headers.getAll host = [.fromStatic "a.example", .fromStatic "b.example"] := by
    rw [headers_of_sending hs, getAll_host_sent rfl]
    decide
  exact ⟨s, hs, hhosts, fun v => by rw [hhosts]; simp⟩

end AxumReverseProxy
