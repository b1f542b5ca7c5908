import AxumReverseProxy.Http.HeaderMap
import AxumReverseProxy.Http.Uri
import AxumReverseProxy.Rust.Net

/-!
# Requests, responses and bodies

A body is the finite sequence of frames it yields and how it ends. Of the extensions of a message
only those the crate reads or writes are kept.
-/

namespace AxumReverseProxy

inductive Method
  | options
  | get
  | post
  | put
  | delete
  | head
  | trace
  | connect
  | patch
  | extension (name : Str)
deriving DecidableEq

inductive Version
  | http09
  | http10
  | http11
  | http2
  | http3
deriving DecidableEq

structure StatusCode where
  code : Nat
deriving DecidableEq

namespace StatusCode

def switchingProtocols : StatusCode := ⟨101⟩
def ok : StatusCode := ⟨200⟩
def badRequest : StatusCode := ⟨400⟩
def payloadTooLarge : StatusCode := ⟨413⟩
def internalServerError : StatusCode := ⟨500⟩
def notImplemented : StatusCode := ⟨501⟩
def badGateway : StatusCode := ⟨502⟩
def gatewayTimeout : StatusCode := ⟨504⟩
def loopDetected : StatusCode := ⟨508⟩

end StatusCode

/-! ### Bodies -/

inductive Frame
  | data (bytes : List UInt8)
  | trailers (headers : HeaderMap)
deriving DecidableEq

inductive BodyEnd
  | eof
  | error (message : Str)
deriving DecidableEq

/-- The frames a body yields and its end; `isEndStream` is what `is_end_stream` answers before the
first poll. -/
structure Body where
  frames : List Frame
  ending : BodyEnd
  isEndStream : Bool
deriving DecidableEq

def Frame.bytes : Frame → List UInt8
  | data bs => bs
  | trailers _ => []

namespace Body

def data (b : Body) : List UInt8 := b.frames.flatMap Frame.bytes

/-- `Body::from` for bytes already in memory. -/
def fromBytes (bs : List UInt8) : Body :=
  if bs = [] then ⟨[], .eof, true⟩ else ⟨[.data bs], .eof, false⟩

def fromStr (s : String) : Body := fromBytes (Str.asBytes s.toList)

@[simp] theorem data_fromBytes (bs : List UInt8) : (fromBytes bs).data = bs := by
  unfold fromBytes data; split <;> simp_all [Frame.bytes]

/-- The frames `http_body_util::Limited` lets through while at most `remaining` data bytes are
left, ending with an error at the first frame that has more. -/
def limitFrames : Nat → List Frame → BodyEnd → List Frame × BodyEnd
  | _, [], ending => ([], ending)
  | remaining, f :: fs, ending =>
    if f.bytes.length > remaining then ([], .error "length limit exceeded".toList)
    else
      let (fs, ending) := limitFrames (remaining - f.bytes.length) fs ending
      (f :: fs, ending)

/-- `http_body_util::Limited::new`. -/
def limited (b : Body) (limit : Nat) : Body :=
  let (frames, ending) := limitFrames limit b.frames b.ending
  ⟨frames, ending, b.isEndStream⟩

end Body

/-! ### Messages -/

structure ProxyError where
  message : Str
  isConnect : Bool
deriving DecidableEq

/-- A handle on the shared slot of a guarded resource. -/
structure TunnelGuard where
  slot : Nat
deriving DecidableEq

structure TunnelCancellation where
  token : Nat
deriving DecidableEq

structure RequestExtensions where
  connectInfo : Option SocketAddr := none
  tunnelGuard : Option TunnelGuard := none
  tunnelCancellation : Option TunnelCancellation := none
deriving DecidableEq

structure Request where
  method : Method
  uri : Uri
  version : Version
  headers : HeaderMap
  extensions : RequestExtensions
  body : Body
deriving DecidableEq

/-- `Request::new`. -/
def Request.new (body : Body) : Request := ⟨.get, .origin ⟨['/']⟩, .http11, .empty, {}, body⟩

structure ResponseExtensions where
  proxyError : Option ProxyError := none
deriving DecidableEq

structure Response where
  status : StatusCode
  version : Version
  headers : HeaderMap
  extensions : ResponseExtensions
  body : Body
deriving DecidableEq

def Response.new (body : Body) : Response := ⟨.ok, .http11, .empty, {}, body⟩

def Response.withStatus (status : StatusCode) (body : Body) : Response :=
  { Response.new body with status := status }

end AxumReverseProxy
