import AxumReverseProxy.Http.UriLib
import AxumReverseProxy.Forward.HopByHop
import AxumReverseProxy.Forward.Via

/-!
# `Rfc9110Layer`

The deprecated middleware, with its own treatment of `Via`, `Max-Forwards` and the hop-by-hop fields.
A service is cut at the call of the one it wraps: `receive` answers the request itself or says what
is passed on, and `answer` works on the response that comes back.
-/

namespace AxumReverseProxy.Rfc9110

open HeaderName

def HOP_BY_HOP_HEADERS : List HeaderName :=
  [.connection, .keepAlive, .proxyConnection, .transferEncoding, .te, .trailer, .upgrade]

structure Config where
  serverNames : Option (List Str) := none
  pseudonym : Option Str := none
  combineVia : Bool := true
  preserveWebsocketHeaders : Bool := true
deriving DecidableEq

/-! ### Loop detection -/

def loopDetected : Response := .withStatus .loopDetected (.fromBytes [])

/-- The second word of the element is the pseudonym. -/
def carriesPseudonym (pseudonym entry : Str) : Bool :=
  match entry.splitWhitespace with
  | _ :: second :: _ => second == pseudonym
  | _ => false

def detectLoop (request : Request) (config : Config) : Option Response :=
  if config.serverNames.any fun serverNames =>
    (request.uri.authority?.map (·.host)).any serverNames.contains then
    some loopDetected
  else if ((request.headers.get via).bind HeaderValue.toStr).any fun viaStr =>
      ((viaStr.split ',').map Str.trim).any (carriesPseudonym (config.pseudonym.getD "proxy".toList)) then
    some loopDetected
  else none

/-! ### `Max-Forwards` -/

def TRACE_SENSITIVE_HEADERS : List HeaderName := [.authorization, .proxyAuthorization, .cookie, .setCookie]

def methodStr : Method → Str
  | .options => "OPTIONS".toList
  | .get => "GET".toList
  | .post => "POST".toList
  | .put => "PUT".toList
  | .delete => "DELETE".toList
  | .head => "HEAD".toList
  | .trace => "TRACE".toList
  | .connect => "CONNECT".toList
  | .patch => "PATCH".toList
  | .extension name => name

def versionDebug : Version → Str
  | .http09 => "HTTP/0.9".toList
  | .http10 => "HTTP/1.0".toList
  | .http11 => "HTTP/1.1".toList
  | .http2 => "HTTP/2.0".toList
  | .http3 => "HTTP/3.0".toList

/-- The request written out for a TRACE response, without the fields that may carry credentials. The map
yields all lines of a field together; the order of the fields is its own. -/
def traceEchoBody (request : Request) : Str :=
  let pathAndQuery := (request.uri.pathAndQuery?.map (·.asStr)).getD ['/']
  let line := methodStr request.method ++ " ".toList ++ pathAndQuery ++ " ".toList ++
    versionDebug request.version
  let fields := (request.headers.iter.filter fun (name, _) => name ∉ TRACE_SENSITIVE_HEADERS).flatMap
    fun (name, value) =>
      name.str ++ ": ".toList ++ value.toStr.getD "<non-ascii value omitted>".toList ++ "\r\n".toList
  line ++ "\r\n".toList ++ fields ++ "\r\n".toList

theorem toDigits_visible (n : Nat) : Str.Visible (Nat.toDigits 10 n) := fun c hc => by
  have hd : c.isDigit = true := Nat.isDigit_of_mem_toDigits (by decide) (by decide) hc
  have := toNat_of_isTchar (c := c) (by rw [isTchar, Char.isAlphanum, hd, Bool.or_true, Bool.true_or])
  simp only [Str.isVisibleAscii, Bool.or_eq_true, Bool.and_eq_true, decide_eq_true_eq]
  omega

/-- `Max-Forwards` of a TRACE or OPTIONS request counts down; at zero the service answers itself. -/
def processMaxForwards (request : Request) : Except Response Request :=
  match request.headers.get maxForwards with
  | none => .ok request
  | some value =>
    if request.method ≠ .trace ∧ request.method ≠ .options then .ok request
    else match value.toStr.bind Str.parseU32 with
      | none => .ok request
      | some 0 =>
        let response := Response.new (.fromBytes [])
        if request.method = .trace then
          .error { response with
            body := .fromBytes (traceEchoBody request).asBytes
            headers := response.headers.insert contentType (.fromStatic "message/http") }
        else
          .error { response with headers :=
            response.headers.insert allow (.fromStatic "GET, HEAD, OPTIONS, TRACE") }
      | some (value + 1) =>
        let newValue := HeaderValue.ofVisible (Nat.toDigits 10 value) (toDigits_visible value)
        .ok { request with headers := request.headers.insert maxForwards newValue }

/-! ### Hop-by-hop fields -/

def WEBSOCKET_HEADERS : List HeaderName := [.connection, .upgrade]

def isHopByHopHeader (name : HeaderName) : Bool := name ∈ HOP_BY_HOP_HEADERS || name = via

def isEndToEndHeader (name : HeaderName) : Bool :=
  name ∈ [.cacheControl, .authorization, .contentLength, .contentType, .contentEncoding, .accept,
    .acceptEncoding, .acceptLanguage, .range, .cookie, .setCookie, .etag]

def isWebsocketUpgradeRequest (request : Request) : Bool :=
  request.headers.containsKey secWebsocketKey && request.headers.containsKey secWebsocketVersion

/-- The names that the first `Connection` line gives. -/
def nominatedNames (connection : Str) (preserveWebsocket : Bool) : List HeaderName :=
  (connection.split ',').filterMap fun header =>
    let header := header.trim
    if preserveWebsocket && WEBSOCKET_HEADERS.any fun h => header.eqIgnoreAsciiCase h.str then none
    else (HeaderName.tryFrom header).filter fun name => isHopByHopHeader name || !isEndToEndHeader name

def headersToRemove (headers : HeaderMap) (preserveWebsocket : Bool) : List HeaderName :=
  (HOP_BY_HOP_HEADERS.filter fun name => !(preserveWebsocket && name ∈ WEBSOCKET_HEADERS)) ++
    (((headers.get connection).bind HeaderValue.toStr).map (nominatedNames · preserveWebsocket)).getD []

def removeHeaders (headers : HeaderMap) (preserveWebsocket : Bool) : HeaderMap :=
  (headersToRemove headers preserveWebsocket).foldl MultiMap.remove headers

def processConnectionHeader (request : Request) (preserveWebsocket : Bool) : Request :=
  { request with headers := removeHeaders request.headers preserveWebsocket }

def processResponseHeaders (response : Response) (preserveWebsocket : Bool) : Response :=
  { response with headers := removeHeaders response.headers preserveWebsocket }

/-! ### `Via` -/

/-- Sets `Via` to a text, if that can stand in a field. -/
def setVia (request : Request) (text : Str) : Option HeaderValue × Request :=
  match HeaderValue.fromStr text with
  | some value => (some value, { request with headers := request.headers.insert via value })
  | none => (none, request)

/-- The value set is returned for the response. A layer with a pseudonym may replace the elements of the
line by its own, if they all have its protocol version. -/
def addViaHeader (request : Request) (config : Config) : Option HeaderValue × Request :=
  let protocolVersion := viaProtocol request.version
  let newValue := protocolVersion ++ " ".toList ++ config.pseudonym.getD "proxy".toList
  match (request.headers.get via).bind HeaderValue.toStr with
  | some existingViaStr =>
    let entries := (existingViaStr.split ',').map Str.trim
    if config.combineVia && config.pseudonym.isSome && entries.all (·.startsWith protocolVersion) then
      setVia request newValue
    else setVia request (Str.join (entries ++ [newValue]) ", ".toList)
  | none => setVia request (Str.join [newValue] ", ".toList)

/-! ### The service -/

/-- A request that is passed on, with what is kept for its response. -/
structure Passed where
  request : Request
  viaHeader : Option HeaderValue
  isWebsocket : Bool

def receive (config : Config) (request : Request) : Except Response Passed :=
  match detectLoop request config with
  | some response => .error response
  | none => do
    let request ← processMaxForwards request
    let isWebsocket := config.preserveWebsocketHeaders && isWebsocketUpgradeRequest request
    let (viaHeader, request) := addViaHeader (processConnectionHeader request isWebsocket) config
    .ok ⟨request, viaHeader, isWebsocket⟩

def answer (passed : Passed) (response : Response) : Response :=
  let response := processResponseHeaders response (passed.isWebsocket && response.status =
    .switchingProtocols)
  match passed.viaHeader with
  | some value => { response with headers := response.headers.insert via value }
  | none => response

/-- `Rfc9110::call` around a service that answers `inner`. -/
def call {ε : Type} (config : Config) (inner : Request → Except ε Response) (request : Request) :
    Except ε Response :=
  match receive config request with
  | .error response => .ok response
  | .ok passed => (inner passed.request).map (answer passed)

end AxumReverseProxy.Rfc9110
