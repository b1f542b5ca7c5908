import AxumReverseProxy.Forward.HopByHop
import AxumReverseProxy.Forward.Via

/-!
# The header map sent upstream

`build_forward_headers` copies the client's lines less the hop-by-hop ones and adds the forwarding
fields of the policy. Each step touches one field, so the values of a field are read off the copy
and the step of that field.
-/

namespace AxumReverseProxy

open HeaderName

/-- The `for=` pair of a client; an IPv6 address stands in brackets and quotes. -/
def forPair : IpAddr → Str
  | .V4 ip => ['f', 'o', 'r', '='] ++ ip.display
  | .V6 ip => ['f', 'o', 'r', '=', '"', '['] ++ ip.display ++ [']', '"']

def appendForwardedHeader (headers : HeaderMap) (clientAddr : SocketAddr)
    (clientHost publicScheme : Option Str) : HeaderMap :=
  let forValue := forPair clientAddr.ip
  let element :=
    if headers.readable forwarded = [] then
      forValue ++ (clientHost.elim [] fun host => ";host=\"".toList ++ host ++ "\"".toList) ++
        (publicScheme.elim [] fun scheme => ";proto=".toList ++ scheme)
    else forValue
  appendElement headers forwarded element

/-- Whether `key` is the client's host and the policy replaces it. -/
def replacesHost (policy : ProxyPolicy) (key : HeaderName) : Bool :=
  key = host && !policy.forwardsClientHost

/-- The client's lines that are copied: no hop-by-hop field, and `Host` only when it is kept. -/
def copyClientHeaders (clientHeaders : HeaderMap) (policy : ProxyPolicy) : HeaderMap :=
  let strip := hopByHopHeaders clientHeaders
  clientHeaders.entries.foldl (fun headers (key, value) =>
    if replacesHost policy key then headers
    else if key ∈ strip then headers
    else headers.append key value) .empty

/-- The host the client asked for: its first `Host` line, else its `:authority`. -/
def clientHost (clientHeaders : HeaderMap) (clientAuthority : Option Str) : Option Str :=
  ((clientHeaders.get host).bind HeaderValue.toStr).or clientAuthority

/-- An HTTP/2 client carries its host in `:authority`, not in a `Host` field. -/
def keepHost (headers : HeaderMap) (clientAuthority : Option Str) (policy : ProxyPolicy) : HeaderMap :=
  if policy.forwardsClientHost then insertIfAbsent headers host clientAuthority else headers

def appendClient (headers : HeaderMap) (clientAddr : Option SocketAddr)
    (clientHost publicScheme : Option Str) : HeaderMap :=
  match clientAddr with
  | some addr =>
    appendForwardedHeader (appendElement headers xForwardedFor addr.ip.display) addr clientHost publicScheme
  | none => headers

def buildForwardHeaders (clientHeaders : HeaderMap) (clientAddr : Option SocketAddr)
    (clientAuthority : Option Str) (policy : ProxyPolicy) : HeaderMap :=
  let headers := keepHost (copyClientHeaders clientHeaders policy) clientAuthority policy
  if policy.xForwardedFor = .append then
    let clientHost := clientHost clientHeaders clientAuthority
    let headers := appendClient headers clientAddr clientHost policy.publicScheme
    let headers := insertIfAbsent headers xForwardedHost clientHost
    insertIfAbsent headers xForwardedProto policy.publicScheme
  else headers

/-! ### The copy -/

variable {client client' : HeaderMap} {policy : ProxyPolicy} {addr : Option SocketAddr}
  {auth : Option Str} {n : HeaderName}

theorem copyClientHeaders_eq_restrict :
    copyClientHeaders client policy =
      client.restrict fun key => !replacesHost policy key && key ∉ hopByHopHeaders client := by
  rw [← MultiMap.foldl_append_eq_restrict, copyClientHeaders]
  congr 1
  funext headers e
  by_cases h1 : replacesHost policy e.1 = true
  · simp [h1]
  · by_cases h2 : e.1 ∈ hopByHopHeaders client <;> simp [h1, h2]

theorem getAll_copyClientHeaders :
    (copyClientHeaders client policy).getAll n =
      if replacesHost policy n = true ∨ n ∈ hopByHopHeaders client then [] else client.getAll n := by
  rw [copyClientHeaders_eq_restrict, MultiMap.getAll_restrict]
  by_cases h1 : replacesHost policy n = true
  · simp [h1]
  · by_cases h2 : n ∈ hopByHopHeaders client <;> simp [h1, h2]

theorem getAll_copyClientHeaders_of_mem (h : n ∈ hopByHopHeaders client) :
    (copyClientHeaders client policy).getAll n = [] := by
  rw [getAll_copyClientHeaders, if_pos (.inr h)]

theorem getAll_copyClientHeaders_of_not_mem (h : n ∉ hopByHopHeaders client)
    (hh : replacesHost policy n = false) :
    (copyClientHeaders client policy).getAll n = client.getAll n := by
  rw [getAll_copyClientHeaders, if_neg (by simp [h, hh])]

theorem replacesHost_of_ne (h : n ≠ host) : replacesHost policy n = false := by
  simp [replacesHost, h]

/-! ### One field at a time -/

theorem getAll_appendForwardedHeader_ne {headers : HeaderMap} {a : SocketAddr} {h s : Option Str}
    (hn : n ≠ forwarded) : (appendForwardedHeader headers a h s).getAll n = headers.getAll n :=
  getAll_appendElement_ne hn

theorem getAll_keepHost_ne {headers : HeaderMap} (h : n ≠ host) :
    (keepHost headers auth policy).getAll n = headers.getAll n := by
  unfold keepHost
  split
  · exact getAll_insertIfAbsent_ne h
  · rfl

theorem getAll_appendClient_ne {headers : HeaderMap} {h s : Option Str} (hx : n ≠ xForwardedFor)
    (hf : n ≠ forwarded) : (appendClient headers addr h s).getAll n = headers.getAll n := by
  cases addr with
  | none => rfl
  | some a => exact (getAll_appendForwardedHeader_ne hf).trans (getAll_appendElement_ne hx)

/-- The fields `build_forward_headers` writes under a policy. -/
def forwardingFields (policy : ProxyPolicy) (addr : Option SocketAddr) : List HeaderName :=
  host :: if policy.xForwardedFor = .append then
    xForwardedHost :: xForwardedProto :: if addr.isSome then [xForwardedFor, forwarded] else []
  else []

theorem getAll_buildForwardHeaders_of_not_mem (hn : n ∉ forwardingFields policy addr) :
    (buildForwardHeaders client addr auth policy).getAll n =
    (copyClientHeaders client policy).getAll n := by
  rw [forwardingFields, List.mem_cons, not_or] at hn
  obtain ⟨hhost, hn⟩ := hn
  unfold buildForwardHeaders
  simp only
  split
  · next ha =>
    rw [if_pos ha, List.mem_cons, List.mem_cons, not_or, not_or] at hn
    obtain ⟨h1, h2, h3⟩ := hn
    rw [getAll_insertIfAbsent_ne h2, getAll_insertIfAbsent_ne h1]
    cases addr with
    | none => exact getAll_keepHost_ne hhost
    | some a =>
      simp only [Option.isSome_some, if_true, List.mem_cons, List.not_mem_nil, or_false, not_or] at h3
      rw [getAll_appendClient_ne h3.1 h3.2, getAll_keepHost_ne hhost]
  · exact getAll_keepHost_ne hhost

end AxumReverseProxy
