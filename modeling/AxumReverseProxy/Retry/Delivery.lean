import AxumReverseProxy.Forward.Sent
import AxumReverseProxy.Retry.Layer

/-!
# Retries over the proxy

The retry loop decides from an extension of the response; `forward_with` sets it to a connect error
only when the client reported one (`isRetryable_forwardWith`). So every call but the last of a run
ended in a connect error, and the upstream receives the request at most once.
-/

namespace AxumReverseProxy

/-- The proxy as an inner service. Each call may be sent elsewhere (`target`) and end differently
(`send`, the client's answer in that call). -/
structure ProxyService where
  env : Platform
  policy : ProxyPolicy
  target : Nat → Request → Uri
  send : Nat → Request → SendOutcome

namespace ProxyService

variable (proxy : ProxyService)

def call : InnerService := fun k req =>
  forwardWith proxy.env proxy.policy (proxy.target k req) req (proxy.send k)

/-- The request given to the client in call `k`, if that call sends one. -/
def sent (k : Nat) (req : Request) : Option Request :=
  match forwardStart proxy.env proxy.policy (proxy.target k req) req with
  | some (.sending s) => some s.forwardReq
  | _ => none

/-- Call `k` ended in a connect error of the client. -/
def ConnectFailed (k : Nat) (req : Request) : Prop :=
  ∃ out e, proxy.sent k req = some out ∧ proxy.send k out = .error e ∧ e.isConnect = true

end ProxyService

variable {proxy : ProxyService} {k : Nat} {req : Request} {res : Response} {env : Platform}
  {policy : ProxyPolicy} {s : Sending} {o : SendOutcome}

theorem isRetryable_finish (h : isRetryable (s.finish env policy o).response = true) :
    ∃ e, o = .error e ∧ e.isConnect = true := by
  cases o with
  | error e => exact ⟨e, rfl, h⟩
  | elapsed => cases h
  | response res =>
    simp only [Sending.finish] at h
    split_ifs at h <;> cases h

theorem isRetryable_earlyReject (h : earlyReject policy req = some res) : isRetryable res = false := by
  unfold earlyReject at h
  split_ifs at h <;> cases h <;> rfl

theorem isRetryable_call (h : proxy.call k req = some res) (hr : isRetryable res = true) :
    proxy.ConnectFailed k req := by
  rcases forwardStart_eq proxy.env proxy.policy (proxy.target k req) req with ⟨rej, he, hs⟩ | ⟨u, -, -, hs⟩
  · rw [ProxyService.call, forwardWith, hs] at h
    cases h
    rw [isRetryable_earlyReject he] at hr; cases hr
  · rw [ProxyService.call, forwardWith, hs] at h
    cases h
    obtain ⟨e, ho, he⟩ := isRetryable_finish hr
    exact ⟨_, e, by rw [ProxyService.sent, hs], ho, he⟩

theorem call_isSome (k : Nat) (req : Request) : (proxy.call k req).isSome = true := by
  rcases forwardStart_eq proxy.env proxy.policy (proxy.target k req) req with
    ⟨rej, -, hs⟩ | ⟨u, -, -, hs⟩ <;>
    rw [ProxyService.call, forwardWith, hs] <;> rfl

/-! ### At most one delivery -/

/-- Whether the client wrote any byte of the request in call `k`. -/
def delivered (proxy : ProxyService) (wrote : Nat → Request → Bool) (k : Nat) (req : Request) : Bool :=
  (proxy.sent k req).any (wrote k)

/-- The client's `is_connect`: nothing of the request was written. -/
def WritesAfterConnect (proxy : ProxyService) (wrote : Nat → Request → Bool) : Prop :=
  ∀ k out e, proxy.send k out = .error e → e.isConnect = true → wrote k out = false

theorem not_delivered {wrote : Nat → Request → Bool} (hw : WritesAfterConnect proxy wrote)
    (h : proxy.ConnectFailed k req) : delivered proxy wrote k req = false := by
  obtain ⟨out, e, hs, ho, he⟩ := h
  rw [delivered, hs]
  exact hw k out e ho he

theorem countP_zipIdx_le_one {α : Type*} {l : List α} {p : α × Nat → Bool}
    (h : ∀ k c, l[k]? = some c → k + 1 < l.length → p (c, k) = false) : l.zipIdx.countP p ≤ 1 := by
  rcases List.eq_nil_or_concat l with rfl | ⟨init, last, rfl⟩
  · simp
  · have hz : init.zipIdx.countP p = 0 := by
      rw [List.countP_eq_zero]
      rintro ⟨c, k⟩ hc
      have hk := List.mem_zipIdx_iff_getElem?.1 hc
      have hlt : k < init.length := (List.getElem?_eq_some_iff.1 hk).1
      rw [h k c (by rw [List.concat_eq_append, List.getElem?_append_left hlt]; exact hk) (by simp; omega)]
      simp
    rw [List.concat_eq_append, List.zipIdx_append, List.countP_append, hz, Nat.zero_add]
    exact List.countP_le_length

def SameRequest (req req' : Request) : Prop :=
  req'.method = req.method ∧ req'.uri = req.uri ∧ req'.version = req.version ∧ req'.headers = req.headers ∧
    req'.body.data = req.body.data

theorem Retry.call_spec {retry : Retry} {bytes : List UInt8} (h1 : 1 ≤ retry.attempts)
    (hbuf : bufferBody req.body retry.maxBufferBytes = .ok (.complete bytes)) :
    ∃ r req', retry.call proxy.call req = some r ∧ SameRequest req req' ∧ r.Follows proxy.call req' 0 ∧
      1 ≤ r.calls.length ∧ r.calls.length ≤ retry.attempts := by
  rw [call, hbuf]
  split
  · next ha =>
    obtain ⟨res, hres⟩ := Option.isSome_iff_exists.1 (@call_isSome proxy 0 req)
    refine ⟨_, req, by rw [once, hres]; rfl, ⟨rfl, rfl, rfl, rfl, rfl⟩, .single hres, by simp, by simp [ha]⟩
  · obtain ⟨r, hr⟩ := Option.isSome_iff_exists.1
      (@loop_isSome proxy.call { req with body := .fromBytes bytes } retry.attempts 0 call_isSome)
    obtain ⟨hf, hpos, hle⟩ := loop_spec hr
    obtain ⟨rfl, -⟩ := bufferBody_complete hbuf
    exact ⟨r, { req with body := .fromBytes req.body.data }, hr,
      ⟨rfl, rfl, rfl, rfl, Body.data_fromBytes req.body.data⟩, hf, hpos, by omega⟩

/-- Between one call and the bound, each answered by the proxy and each but the last ended in a connect
error, all with the same request, the last one's response returned; and the upstream receives at most one.
-/
theorem retry_delivers_at_most_once (proxy : ProxyService) (attempts : Nat) (delay : Duration)
    (maxBufferBytes : Nat) (req : Request) (bytes : List UInt8) (wrote : Nat → Request → Bool)
    (hbuf : bufferBody req.body maxBufferBytes = .ok (.complete bytes))
    (hw : WritesAfterConnect proxy wrote) :
    ∃ r, ((RetryLayer.withDelay attempts delay).withMaxBufferBytes maxBufferBytes).layer.call
      proxy.call req =
        some r ∧
      1 ≤ r.calls.length ∧ r.calls.length ≤ max attempts 1 ∧
      (∀ c ∈ r.calls, SameRequest req c.req) ∧
      (∀ k c, r.calls[k]? = some c → proxy.call k c.req = some c.res) ∧
      (∀ k c, r.calls[k]? = some c → k + 1 < r.calls.length → proxy.ConnectFailed k c.req) ∧
      r.calls.getLast?.map (·.res) = some r.res ∧
      (r.calls.zipIdx.countP fun (c, k) => delivered proxy wrote k c.req) ≤ 1 := by
  obtain ⟨r, req', hr, hsame, hf, hpos, hle⟩ := @Retry.call_spec proxy req
    ((RetryLayer.withDelay attempts delay).withMaxBufferBytes maxBufferBytes).layer bytes
    (Nat.le_max_right attempts 1) hbuf
  have hcalled : ∀ k c, r.calls[k]? = some c → proxy.call k c.req = some c.res := by
    intro k c hc
    obtain ⟨hreq, hres⟩ := hf.answered k c hc
    rwa [Nat.zero_add, ← hreq] at hres
  have hfailed : ∀ k c, r.calls[k]? = some c → k + 1 < r.calls.length → proxy.ConnectFailed k c.req :=
    fun k c hc hk => isRetryable_call (hcalled k c hc) (hf.retried k c hc hk)
  refine ⟨r, hr, hpos, hle, fun c hc => ?_, hcalled, hfailed, hf.last,
    countP_zipIdx_le_one fun k c hc hk => ?_⟩
  · obtain ⟨k, hk⟩ := List.mem_iff_getElem?.1 hc
    rw [(hf.answered k c hk).1]; exact hsame
  · exact not_delivered hw (hfailed k c hc hk)

/-- An upstream that cannot be connected to before the second call. -/
def flakyProxy : ProxyService where
  env := ⟨64, fun _ => []⟩
  policy := {}
  target := fun _ _ => .origin ⟨['/']⟩
  send := fun k _ => if k = 0 then .error ⟨[], true⟩ else .response (.new (.fromBytes []))

theorem retry_delivers_at_most_once_flaky :
    ∃ r, ((RetryLayer.withDelay 3 (.ofSecs 1)).withMaxBufferBytes 8).layer.call flakyProxy.call
        (.new (.fromBytes [1, 2])) = some r ∧
      (∀ k c, r.calls[k]? = some c → flakyProxy.call k c.req = some c.res) ∧
      (r.calls.zipIdx.countP fun (c, k) => delivered flakyProxy (fun k _ => k ≠ 0) k c.req) ≤ 1 := by
  have hw : WritesAfterConnect flakyProxy (fun k _ => k ≠ 0) := by
    intro k out e ho he
    by_cases hk : k = 0
    · simp [hk]
    · simp [flakyProxy, hk] at ho
  obtain ⟨r, hr, -, -, -, hcalled, -, -, hcount⟩ := retry_delivers_at_most_once flakyProxy 3 (.ofSecs 1) 8
    (.new (.fromBytes [1, 2])) [1, 2] (fun k _ => k ≠ 0) (by rfl) hw
  exact ⟨r, hr, hcalled, hcount⟩

end AxumReverseProxy
