import AxumReverseProxy.Websocket
import Mathlib.Algebra.Order.Ring.Nat

/-!
# `forward_with`

The one await of `forward_with` is the send. The function is cut there: `forwardStart` runs up to
the send, `Sending` is what it keeps across it, and `Sending.finish` runs from its outcome to the
response. `none` is a panic.
-/

namespace AxumReverseProxy

open HeaderName

/-- What the crate is compiled for and with: the width of `usize` and tungstenite's key derivation. -/
structure Platform where
  usizeBits : Nat
  deriveAcceptKey : List UInt8 → Str

namespace Platform

def asUsize (env : Platform) (max : UInt64) : Nat := max.toNat % 2 ^ env.usizeBits

end Platform

def ProxyPolicy.appendVia (policy : ProxyPolicy) (headers : HeaderMap) (version : Version) : HeaderMap :=
  match policy.via with
  | some pseudonym => AxumReverseProxy.appendVia headers version pseudonym
  | none => headers

/-- The fields sent upstream, before a missing `Host` is filled in. -/
def forwardHeaders (policy : ProxyPolicy) (upgrading : Bool) (parts : Request) : HeaderMap :=
  let clientAddr := parts.extensions.connectInfo
  let clientAuthority := parts.uri.authority?.map (·.str)
  let headers := buildForwardHeaders parts.headers clientAddr clientAuthority policy
  let headers := policy.appendVia headers parts.version
  if upgrading then upgradeHeaders headers else headers

def requestHeaders (policy : ProxyPolicy) (upstreamUri : Uri) (upgrading : Bool) (parts : Request) :
    Option HeaderMap :=
  let headers := forwardHeaders policy upgrading parts
  if headers.containsKey host then some headers
  else match upstreamUri.authority? with
    | some authority =>
      (HeaderValue.fromStr (policy.forwardedHost headers none authority.str)).map (headers.insert host)
    | none => some headers

/-- A legacy client wants an HTTP scheme for a WebSocket handshake as well. -/
def upgradeScheme (upstreamUri : Uri) : Option Uri :=
  let scheme := match upstreamUri.scheme?.map (·.str) with
    | some ['w', 's'] => some Scheme.http
    | some ['w', 's', 's'] => some Scheme.https
    | _ => none
  match scheme with
  | some scheme => Uri.fromParts { upstreamUri.intoParts with scheme := some scheme }
  | none => some upstreamUri

/-- The length the client declared for its body. -/
def declaredLength (headers : HeaderMap) : Option Nat :=
  ((headers.get contentLength).bind HeaderValue.toStr).bind Str.parseU64

/-- What `forward_with` holds while the send is in progress. -/
structure Sending where
  forwardReq : Request
  deadline : Option Duration
  upgrading : Bool
  clientHeaders : HeaderMap

inductive Started
  | rejected (res : Response)
  | sending (s : Sending)

/-- The checks made before anything is sent. -/
def earlyReject (policy : ProxyPolicy) (req : Request) : Option Response :=
  if req.method = .connect then
    some (.withStatus .notImplemented (.fromStr "CONNECT is not supported"))
  else if policy.via.any (viaContainsPseudonym req.headers) then
    some (.withStatus .loopDetected (.fromStr "Loop Detected"))
  else if policy.maxRequestBodyBytes.any fun max => (declaredLength req.headers).any fun declared =>
      declared > max.toNat then
    some (.withStatus .payloadTooLarge (.fromStr "Payload Too Large"))
  else none

def sendDeadline (policy : ProxyPolicy) (upgrading : Bool) : Option Duration :=
  if upgrading then
    some (policy.upstreamTimeout.elim policy.websocketConnectTimeout
      fun timeout => timeout.min policy.websocketConnectTimeout)
  else policy.upstreamTimeout

/-- The URI the request is sent to. -/
def sendUri (upstreamUri : Uri) (upgrading : Bool) : Option Uri :=
  if upgrading then upgradeScheme upstreamUri else some upstreamUri

/-- A body without a declared length is cut off at the cap. -/
def cappedBody (env : Platform) (policy : ProxyPolicy) (body : Body) : Body :=
  match policy.maxRequestBodyBytes with
  | some max => body.limited (env.asUsize max)
  | none => body

def sendingOf (env : Platform) (policy : ProxyPolicy) (upstreamUri : Uri) (headers : HeaderMap)
    (req : Request) : Sending :=
  let upgrading := isWebsocketUpgrade req.headers
  { forwardReq := ⟨req.method, upstreamUri, .http11, headers, {}, cappedBody env policy req.body⟩
    deadline := sendDeadline policy upgrading
    upgrading
    clientHeaders := req.headers }

def forwardStart (env : Platform) (policy : ProxyPolicy) (upstreamUri : Uri) (req : Request) :
    Option Started :=
  match earlyReject policy req with
  | some res => some (.rejected res)
  | none => do
    let upgrading := isWebsocketUpgrade req.headers
    let upstreamUri ← sendUri upstreamUri upgrading
    let headers ← requestHeaders policy upstreamUri upgrading req
    some (.sending (sendingOf env policy upstreamUri headers req))

/-! ### After the send -/

/-- How a send ends: an answer, an error of the client, or the deadline. -/
inductive SendOutcome
  | response (res : Response)
  | error (e : ProxyError)
  | elapsed

/-- What becomes of an attempt: a response of the proxy's own, an upstream response whose body is
relayed, or a valid handshake, handed to the tunnel. -/
inductive Finished
  | failed (res : Response)
  | relayed (res : Response)
  | upgraded (res : Response)

def Finished.response : Finished → Response
  | failed res | relayed res | upgraded res => res

def proxyFailure (message : String) : Response :=
  { Response.new (.fromStr "Bad Gateway") with
    status := .badGateway
    extensions := ⟨some ⟨message.toList, false⟩⟩ }

def relay (policy : ProxyPolicy) (res : Response) : Response :=
  let headers := stripHopByHopResponseHeaders res.headers
  let headers := if res.status = .switchingProtocols then upgradeHeaders headers else headers
  let headers := policy.appendVia headers res.version
  { Response.new res.body with status := res.status, version := res.version, headers }

def Sending.finish (env : Platform) (policy : ProxyPolicy) (s : Sending) : SendOutcome → Finished
  | .elapsed =>
    .failed { Response.withStatus .gatewayTimeout (.fromStr "Gateway Timeout") with
      extensions := ⟨some ⟨"upstream response headers timed out after ".toList ++
        (s.deadline.map Duration.debug).getD [], false⟩⟩ }
  | .response res =>
    if res.status = .switchingProtocols then
      if !s.upgrading || !validUpgradeResponse env.deriveAcceptKey res.headers s.clientHeaders then
        .failed (proxyFailure "Invalid upstream WebSocket upgrade")
      else .upgraded (relay policy res)
    else .relayed (relay policy res)
  | .error e =>
    .failed { Response.withStatus .badGateway (.fromStr "Bad Gateway") with extensions := ⟨some e⟩ }

/-- `forward_with` over a transport that answers `send`. -/
def forwardWith (env : Platform) (policy : ProxyPolicy) (upstreamUri : Uri) (req : Request)
    (send : Request → SendOutcome) : Option Response :=
  (forwardStart env policy upstreamUri req).map fun
    | .rejected res => res
    | .sending s => (s.finish env policy (send s.forwardReq)).response

end AxumReverseProxy
