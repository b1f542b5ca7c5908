import AxumReverseProxy.Http.Message

/-!
# `ProxyPolicy`
-/

namespace AxumReverseProxy

/-- How the `Host` field sent to the upstream is chosen. -/
inductive HostBehaviour
  | preserve
  | replace
deriving DecidableEq

inductive XForwardedFor
  | append
  | preserve
deriving DecidableEq

structure ProxyPolicy where
  hostBehaviour : HostBehaviour := .replace
  xForwardedFor : XForwardedFor := .append
  websocketConnectTimeout : Duration := .ofSecs 5
  publicScheme : Option Str := none
  upstreamTimeout : Option Duration := none
  maxRequestBodyBytes : Option UInt64 := none
  via : Option Str := none
deriving DecidableEq

namespace ProxyPolicy

def withMaxRequestBodyBytes (policy : ProxyPolicy) (max : UInt64) : ProxyPolicy :=
  { policy with maxRequestBodyBytes := some max }

def withVia (policy : ProxyPolicy) (pseudonym : Str) : ProxyPolicy := { policy with via := some pseudonym }

def forwardsClientHost (policy : ProxyPolicy) : Bool := policy.hostBehaviour = .preserve

def forwardedHost (policy : ProxyPolicy) (clientHeaders : HeaderMap) (clientAuthority : Option Str)
    (upstreamAuthority : Str) : Str :=
  if policy.forwardsClientHost then
    (((clientHeaders.get .host).bind HeaderValue.toStr).or clientAuthority).getD upstreamAuthority
  else upstreamAuthority

end ProxyPolicy

end AxumReverseProxy
