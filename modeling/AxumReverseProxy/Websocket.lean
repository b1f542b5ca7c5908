import AxumReverseProxy.Forward.Headers

/-!
# WebSocket handshakes
-/

namespace AxumReverseProxy

open HeaderName

def token (headers : HeaderMap) (name : HeaderName) (wanted : Str) : Bool :=
  ((headers.readable name).flatMap fun v => v.split ',').any fun v => v.trim.eqIgnoreAsciiCase wanted

def isWebsocketUpgrade (headers : HeaderMap) : Bool :=
  token headers connection "upgrade".toList && token headers upgrade "websocket".toList &&
    headers.containsKey secWebsocketKey && headers.containsKey secWebsocketVersion

/-- The fixed pair of a WebSocket handshake. -/
def upgradeHeaders (headers : HeaderMap) : HeaderMap :=
  (headers.insert connection (.fromStatic "upgrade")).insert upgrade (.fromStatic "websocket")

/-- Whether a 101 answers the handshake of `request`; `deriveAcceptKey` is tungstenite's. -/
def validUpgradeResponse (deriveAcceptKey : List UInt8 → Str) (headers request : HeaderMap) : Bool :=
  match request.get secWebsocketKey with
  | none => false
  | some key =>
    let accept := deriveAcceptKey key.bytes
    token headers connection "upgrade".toList && token headers upgrade "websocket".toList &&
      (headers.get secWebsocketAccept).any (fun v => v.bytes == accept.asBytes) &&
      (headers.get secWebsocketProtocol).all fun selected =>
        selected.toStr.any fun selected =>
          ((request.readable secWebsocketProtocol).flatMap fun v => v.split ',').any fun offered =>
            offered.trim == selected

variable {headers : HeaderMap} {n : HeaderName}

@[simp] theorem getAll_upgradeHeaders_connection :
    (upgradeHeaders headers).getAll connection = [.fromStatic "upgrade"] := by
  rw [upgradeHeaders, MultiMap.getAll_insert_ne (by decide), MultiMap.getAll_insert_self]

@[simp] theorem getAll_upgradeHeaders_upgrade :
    (upgradeHeaders headers).getAll upgrade = [.fromStatic "websocket"] :=
  MultiMap.getAll_insert_self

theorem getAll_upgradeHeaders_ne (hc : n ≠ connection) (hu : n ≠ upgrade) :
    (upgradeHeaders headers).getAll n = headers.getAll n := by
  rw [upgradeHeaders, MultiMap.getAll_insert_ne hu, MultiMap.getAll_insert_ne hc]

end AxumReverseProxy
