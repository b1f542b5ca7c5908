import AxumReverseProxy.Balanced.RoundRobin
import AxumReverseProxy.Retry.Buffer
import AxumReverseProxy.Retry.Delivery

/-!
# Retries over round robin

Each attempt of a `Retry` over a `BalancedProxy` draws a ticket, so that a retry goes to another
upstream unless the requests beside it draw too. As many attempts as there are upstreams find one that
can be connected to exactly when their tickets go to all of them; where no other request draws one in
between, that is when the counter does not wrap among them (`failover_iff`).
-/

namespace AxumReverseProxy

open Turns (Covers covers_iff)

def StatusCode.serviceUnavailable : StatusCode := ⟨503⟩

/-- `BalancedProxy::call`, with the counter behind it, when upstream `idx` answers `send idx`. -/
def BalancedProxy.call (env : Platform) (lib : UriLib) (self : BalancedProxy) (counter : Nat)
    (req : Request)
    (send : Nat → Request → SendOutcome) : Option (Response × Nat) :=
  match self.nextProxy env.usizeBits counter with
  | none => none
  | some (some (idx, proxy), counter) =>
    (proxy.handleRequest env lib req (send idx)).map fun res => (res, counter)
  | some (none, counter) =>
    some (.withStatus .serviceUnavailable (.fromStr "No upstream services available"), counter)

/-- The proxy as an inner service. Before attempt `k` there were `ticket k` tickets drawn, by this request
and by others. -/
def BalancedProxy.service (env : Platform) (lib : UriLib) (self : BalancedProxy) (ticket : Nat → Nat)
    (send : Nat → Nat → Request → SendOutcome) : InnerService := fun k req =>
  (self.call env lib (ticket k % 2 ^ env.usizeBits) req fun idx => send idx k).map (·.1)

variable {env : Platform} {lib : UriLib} {p : BalancedProxy} {proxy : ReverseProxy} {counter k : Nat}
  {ticket : Nat → Nat} {req : Request} {res : Response} {send : Request → SendOutcome}
  {inner : InnerService} {attempts attempt : Nat} {r : Retried}

/-- A call draws one ticket. -/
theorem BalancedProxy.counter_of_call (hne : p.proxies ≠ []) {n : Nat} {send : Nat → Request → SendOutcome}
    (h : p.call env lib (counter % 2 ^ env.usizeBits) req send = some (res, n)) :
    n = (counter + 1) % 2 ^ env.usizeBits := by
  obtain ⟨proxy, -, hp⟩ := p.nextProxy_eq env.usizeBits (List.length_pos_of_ne_nil hne)
    (counter % 2 ^ env.usizeBits)
  rw [call, hp] at h
  obtain ⟨res', -, heq⟩ := Option.map_eq_some_iff.1 h
  cases heq
  rw [Nat.mod_add_mod]

theorem isRetryable_handleRequest (h : proxy.handleRequest env lib req send = some res)
    (hr : isRetryable res = true) :
    ∃ out e, send out = .error e ∧ e.isConnect = true := by
  rw [ReverseProxy.handleRequest, Option.bind_eq_bind, Option.bind_eq_some_iff] at h
  obtain ⟨uri, -, h⟩ := h
  rcases forwardStart_eq env proxy.policy uri req with ⟨rej, he, hs⟩ | ⟨u, -, -, hs⟩
  · rw [forwardWith, hs] at h
    cases h
    rw [isRetryable_earlyReject he] at hr; cases hr
  · rw [forwardWith, hs] at h
    cases h
    obtain ⟨e, ho, he⟩ := isRetryable_finish hr
    exact ⟨_, e, ho, he⟩

theorem handleRequest_of_error {uri : Uri} {e : ProxyError}
    (hu : proxy.transformUri lib ((req.uri.pathAndQuery?.map (·.asStr)).getD []) = some uri)
    (hnot : earlyReject proxy.policy req = none) :
    ∃ res, proxy.handleRequest env lib req (fun _ => .error e) = some res ∧
      isRetryable res = e.isConnect := by
  obtain ⟨s, hs⟩ := @forwardStart_of_not_rejected env proxy.policy uri req hnot
  refine ⟨(s.finish env proxy.policy (.error e)).response, ?_, rfl⟩
  rw [ReverseProxy.handleRequest, hu, Option.bind_eq_bind, Option.bind_some, forwardWith, hs]
  rfl

/-- The loop returns a connect failure when every attempt ended in one. -/
theorem Retry.isRetryable_loop (h : loop inner req attempts attempt = some r) (hlt : attempt < attempts) :
    isRetryable r.res = true ↔
      ∀ k, attempt ≤ k → k < attempts → ∃ res, inner k req = some res ∧ isRetryable res = true := by
  fun_induction loop inner req attempts attempt generalizing r with
  | case1 => cases h
  | case2 attempt res hi hstop =>
    cases h
    constructor
    · intro hr k hle hk
      obtain rfl : k = attempt := by
        rcases hstop with hstop | hstop
        · rw [hstop] at hr; cases hr
        · omega
      exact ⟨res, hi, hr⟩
    · intro hall
      obtain ⟨res', hres', hr⟩ := hall attempt (Nat.le_refl _) hlt
      cases hi.symm.trans hres'
      exact hr
  | case3 attempt res hi hgo ih =>
    obtain ⟨r', hr', rfl⟩ := Option.map_eq_some_iff.1 h
    rw [not_or, Bool.not_eq_false, Nat.not_le] at hgo
    show isRetryable r'.res = true ↔ _
    rw [ih hr' hgo.2]
    constructor
    · intro hall k hle hk
      rcases Nat.eq_or_lt_of_le hle with rfl | hlt'
      · exact ⟨res, hi, hgo.1⟩
      · exact hall k hlt' hk
    · intro hall k hle hk
      exact hall k (by omega) hk

theorem service_eq {send : Nat → Nat → Request → SendOutcome} (hne : p.proxies ≠ []) (k : Nat)
    (req : Request) :
    ∃ proxy ∈ p.proxies, p.service env lib ticket send k req =
      proxy.handleRequest env lib req (send (ticket k % 2 ^ env.usizeBits % p.proxies.length) k) := by
  have hlt : ticket k % 2 ^ env.usizeBits % p.proxies.length < p.proxies.length :=
    Nat.mod_lt _ (List.length_pos_of_ne_nil hne)
  refine ⟨_, List.getElem_mem hlt, ?_⟩
  rw [BalancedProxy.service, BalancedProxy.call, BalancedProxy.nextProxy, if_neg hne]
  simp only [List.getElem?_eq_getElem hlt, Option.map_some, Option.map_map]
  exact Option.map_id' ..

theorem Retry.exists_loop (h : ∀ k, attempt ≤ k → k < attempts → ∃ res, inner k req = some res)
    (hlt : attempt < attempts) :
    ∃ r, loop inner req attempts attempt = some r := by
  fun_induction loop inner req attempts attempt with
  | case1 attempt hi =>
    obtain ⟨res, hres⟩ := h attempt (Nat.le_refl _) hlt
    rw [hi] at hres; cases hres
  | case2 attempt res hi hstop => exact ⟨_, rfl⟩
  | case3 attempt res hi hgo ih =>
    rw [not_or, Nat.not_le] at hgo
    obtain ⟨r, hr⟩ := ih (fun k hle hk => h k (by omega) hk) hgo.2
    exact ⟨_, by rw [hr]; rfl⟩

/-- The layer does not end in a connect failure when one of its attempts meets none. -/
theorem Retry.not_isRetryable_call {n k maxBufferBytes : Nat} {delay : Duration}
    (hbody : req.body.data.length ≤ maxBufferBytes)
    (hk : k < n) (hgood : ∀ req res, inner k req = some res → isRetryable res = false)
    (h : ((RetryLayer.withDelay n delay).withMaxBufferBytes maxBufferBytes).layer.call inner req = some r) :
    isRetryable r.res = false := by
  have hmax : max n 1 = n := Nat.max_eq_left (by omega)
  by_cases hn : n = 1
  · have hcall : (inner 0 req).map (fun res => (⟨[⟨req, res⟩], res⟩ : Retried)) = some r := by
      rw [← h]
      exact (if_pos (by show max n 1 = 1; omega)).symm
    obtain ⟨res, hres, rfl⟩ := Option.map_eq_some_iff.1 hcall
    obtain rfl : k = 0 := by omega
    exact hgood req res hres
  · have hb := buffered req.body maxBufferBytes
    generalize hbuf : bufferBody req.body maxBufferBytes = outcome at hb
    have hcap : ((RetryLayer.withDelay n delay).withMaxBufferBytes maxBufferBytes).layer.maxBufferBytes =
      maxBufferBytes := rfl
    rw [Retry.call, if_neg (by show max n 1 ≠ 1; omega), hcap, hbuf] at h
    cases hb with
    | complete =>
      replace h : Retry.loop inner _ (max n 1) 0 = some r := h
      rw [hmax] at h
      by_contra hr
      obtain ⟨res, hres, hretry⟩ := (Retry.isRetryable_loop h (by omega)).1 (Bool.not_eq_false _ ▸ hr) k
        (Nat.zero_le _) hk
      rw [hgood _ res hres] at hretry
      cases hretry
    | tooLarge hlt => omega
    | failed => cases h; rfl

def plainUpstream : ReverseProxy := ⟨['/'], "http://up".toList, "http".toList, "up".toList, [], false, {}⟩

def plainUpstreams (n : Nat) : BalancedProxy := ⟨['/'], List.replicate n plainUpstream⟩

/-- All upstreams are down but one. -/
def onlyUp (up idx _ : Nat) (_ : Request) : SendOutcome :=
  if idx = up then .response (.new (.fromBytes [])) else .error ⟨[], true⟩

/-- An attempt whose ticket goes to an upstream that is down ends in a connect failure. -/
theorem service_onlyUp {n up k : Nat} (hn : 0 < n) (hmiss : ticket k % 2 ^ env.usizeBits % n ≠ up) :
    ∃ res, (plainUpstreams n).service env .plain ticket (onlyUp up) k (.new (.fromBytes [])) = some res ∧
      isRetryable res = true := by
  have hlen : (plainUpstreams n).proxies.length = n := List.length_replicate
  have hne : (plainUpstreams n).proxies ≠ [] := List.ne_nil_of_length_pos (by omega)
  obtain ⟨proxy, hm, hs⟩ := @service_eq env .plain (plainUpstreams n) ticket (onlyUp up) hne k
    (.new (.fromBytes []))
  obtain ⟨uri, huri⟩ : ∃ uri, plainUpstream.transformUri .plain ['/'] = some uri :=
    Option.isSome_iff_exists.1 (by decide)
  rw [List.eq_of_mem_replicate hm, hlen] at hs
  have hdown : onlyUp up (ticket k % 2 ^ env.usizeBits % n) k = fun _ => .error ⟨[], true⟩ :=
    funext fun _ => if_neg hmiss
  obtain ⟨res, hres, hr⟩ :=
    @handleRequest_of_error env .plain plainUpstream (.new (.fromBytes [])) uri ⟨[], true⟩ huri rfl
  exact ⟨res, by rw [hs, hdown, hres], hr⟩

/-- With as many attempts as there are upstreams, a request that can be buffered does not end in a connect
failure while one of them can be connected to. -/
def FailsOver (env : Platform) (n : Nat) (ticket : Nat → Nat) (maxBufferBytes : Nat) (delay : Duration) :
    Prop :=
  ∀ lib (p : BalancedProxy) (send : Nat → Nat → Request → SendOutcome) req r, p.proxies.length = n →
    req.body.data.length ≤ maxBufferBytes →
    (∃ idx < n, ∀ k out e, send idx k out = .error e → e.isConnect = false) →
    ((RetryLayer.withDelay n delay).withMaxBufferBytes maxBufferBytes).layer.call
      (p.service env lib ticket send) req =
      some r →
    isRetryable r.res = false

/-- An upstream that no ticket of the attempts goes to is not found. -/
theorem exists_ticket_of_failsOver {n maxBufferBytes : Nat} {delay : Duration}
    (h : FailsOver env n ticket maxBufferBytes delay) :
    ∀ idx < n, ∃ k < n, ticket k % 2 ^ env.usizeBits % n = idx := by
  intro i hi
  by_contra hmiss
  have hn : n ≠ 1 := by
    rintro rfl
    exact hmiss ⟨0, Nat.one_pos, by omega⟩
  have hattempts : ∀ k, 0 ≤ k → k < n → ∃ res,
      (plainUpstreams n).service env .plain ticket (onlyUp i) k (.new (.fromBytes [])) = some res ∧
        isRetryable res = true :=
    fun k _ hk => service_onlyUp (by omega) fun h => hmiss ⟨k, hk, h⟩
  obtain ⟨r, hr⟩ := Retry.exists_loop (fun k hle hk => (hattempts k hle hk).imp fun _ h => h.1)
    (show 0 < n by omega)
  have hcall : ((RetryLayer.withDelay n delay).withMaxBufferBytes maxBufferBytes).layer.call
      ((plainUpstreams n).service env .plain ticket (onlyUp i)) (.new (.fromBytes [])) = some r := by
    have hmax : max n 1 = n := Nat.max_eq_left (by omega)
    show (if max n 1 = 1 then _ else Retry.loop _ (.new (.fromBytes [])) (max n 1) 0) = some r
    rw [hmax, if_neg (by omega), hr]
  have hup : ∀ k out e, onlyUp i i k out = .error e → e.isConnect = false := by
    intro k out e he
    rw [onlyUp, if_pos rfl] at he
    cases he
  have hnot := h .plain _ _ _ r List.length_replicate (Nat.zero_le _) ⟨i, hi, hup⟩ hcall
  rw [(Retry.isRetryable_loop hr (by omega)).2 hattempts] at hnot
  cases hnot

theorem failsOver_of_exists_ticket {n maxBufferBytes : Nat} {delay : Duration}
    (hc : ∀ idx < n, ∃ k < n, ticket k % 2 ^ env.usizeBits % n = idx) :
    FailsOver env n ticket maxBufferBytes delay := by
  rintro lib p send req r hlen hbody ⟨idx, hidx, hup⟩ h
  obtain ⟨k, hk, hplace⟩ := hc idx hidx
  refine Retry.not_isRetryable_call hbody hk (fun req res hres => ?_) h
  obtain ⟨proxy, -, hs⟩ := @service_eq env lib p ticket send (List.ne_nil_of_length_pos (by omega)) k req
  rw [hs, hlen, hplace] at hres
  by_contra hr
  obtain ⟨out, e, he, hconn⟩ := isRetryable_handleRequest hres (Bool.not_eq_false _ ▸ hr)
  rw [hup k out e he] at hconn
  cases hconn

/-- Retries fail over exactly when the tickets of the attempts go to all upstreams. Where no other request
draws a ticket in between, that is when the counter does not wrap among them, or the upstreams divide its
range. -/
theorem failover_iff (env : Platform) (n maxBufferBytes : Nat) (delay : Duration) :
    (∀ ticket, FailsOver env n ticket maxBufferBytes delay ↔
      ∀ idx < n, ∃ k < n, ticket k % 2 ^ env.usizeBits % n = idx) ∧
    ∀ counter, FailsOver env n (fun k => counter + k) maxBufferBytes delay ↔
      n ∣ 2 ^ env.usizeBits ∨ counter % 2 ^ env.usizeBits + n ≤ 2 ^ env.usizeBits := by
  have hiff : ∀ ticket, FailsOver env n ticket maxBufferBytes delay ↔
      ∀ idx < n, ∃ k < n, ticket k % 2 ^ env.usizeBits % n = idx :=
    fun ticket => ⟨exists_ticket_of_failsOver, failsOver_of_exists_ticket⟩
  exact ⟨hiff, fun counter => (hiff _).trans (covers_iff (Nat.two_pow_pos _) counter)⟩

end AxumReverseProxy
