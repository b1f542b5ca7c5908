import AxumReverseProxy.Forward.Sent

/-!
# What is relayed to the client

An upstream response reaches the client through `relay`, whichever way it is relayed
(`finish_response`). The lines of a field in it are read off the stripped response.
-/

namespace AxumReverseProxy

open HeaderName

variable {env : Platform} {policy : ProxyPolicy} {s : Sending} {res r : Response} {n : HeaderName}

def Finished.upstream? : Finished → Option Response
  | .failed _ => none
  | .relayed res => some res
  | .upgraded res => some res

theorem finish_response (h : (s.finish env policy (.response res)).upstream? = some r) :
    r = relay policy res := by
  simp only [Sending.finish] at h
  split_ifs at h
  · cases h
  · cases h; rfl
  · cases h; rfl

theorem getAll_relay_ne (hc : n ≠ connection) (hu : n ≠ upgrade) (hv : policy.via.isSome = true → n ≠ via) :
    (relay policy res).headers.getAll n = (stripHopByHopResponseHeaders res.headers).getAll n := by
  have hpair : ∀ headers : HeaderMap,
      (if res.status = .switchingProtocols then upgradeHeaders headers else headers).getAll n =
        headers.getAll n := by
    intro headers
    split
    · exact getAll_upgradeHeaders_ne hc hu
    · rfl
  show (policy.appendVia _ res.version).getAll n = _
  cases hp : policy.via with
  | none => rw [ProxyPolicy.appendVia, hp]; exact hpair _
  | some p => rw [getAll_policyVia_ne (hv (by simp [hp]))]; exact hpair _

theorem getAll_relay_pair :
    (relay policy res).headers.getAll connection =
        (if res.status = .switchingProtocols then [.fromStatic "upgrade"] else []) ∧
      (relay policy res).headers.getAll upgrade =
        if res.status = .switchingProtocols then [.fromStatic "websocket"] else [] := by
  have hstrip : ∀ n ∈ [connection, upgrade], (stripHopByHopResponseHeaders res.headers).getAll n = [] := by
    intro n hn
    have hstd := (by decide : ∀ m ∈ [connection, upgrade], m ∈ HOP_BY_HOP_HEADERS ∧ m ≠ te) n hn
    rw [getAll_stripHopByHopResponseHeaders, if_pos]
    exact mem_hopByHopHeaders.2 (.inl ⟨hstd.1, fun hc => hstd.2 hc.1⟩)
  show (policy.appendVia _ res.version).getAll connection = _ ∧
    (policy.appendVia _ res.version).getAll upgrade = _
  rw [getAll_policyVia_ne (by decide), getAll_policyVia_ne (by decide)]
  split
  · exact ⟨getAll_upgradeHeaders_connection, getAll_upgradeHeaders_upgrade⟩
  · exact ⟨hstrip connection (by decide), hstrip upgrade (by decide)⟩

end AxumReverseProxy
