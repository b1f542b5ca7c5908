import AxumReverseProxy.Rust.Net
import AxumReverseProxy.RouterExt.Boundary
import AxumReverseProxy.RouterExt.Decode
import AxumReverseProxy.RouterExt.Pattern
import AxumReverseProxy.RouterExt.Confined
import AxumReverseProxy.Proxy.Mounting
import AxumReverseProxy.Proxy.MountedPath
import AxumReverseProxy.Proxy.Confinement
import AxumReverseProxy.Forward.Directions
import AxumReverseProxy.Forward.Hops
import AxumReverseProxy.Forward.Pseudonym
import AxumReverseProxy.Forward.Forwarded
import AxumReverseProxy.Forward.Handshake
import AxumReverseProxy.Forward.Host
import AxumReverseProxy.Forward.Stream
import AxumReverseProxy.Forward.BodyCap
import AxumReverseProxy.Forward.Paths
import AxumReverseProxy.Forward.PathHandshake
import AxumReverseProxy.Forward.PathForwarded
import AxumReverseProxy.Lifecycle.Ownership
import AxumReverseProxy.Lifecycle.Admission
import AxumReverseProxy.Lifecycle.Connection
import AxumReverseProxy.Balanced.Pending
import AxumReverseProxy.Balanced.RoundRobin
import AxumReverseProxy.Balanced.P2c
import AxumReverseProxy.Balanced.Ewma
import AxumReverseProxy.Dns.Target
import AxumReverseProxy.Dns.Clones
import AxumReverseProxy.Retry.Buffer
import AxumReverseProxy.Retry.Nested
import AxumReverseProxy.Retry.Failover
import AxumReverseProxy.Retry.Delivery
import AxumReverseProxy.Retry.Refinement
import AxumReverseProxy.Rfc9110.Loop
import AxumReverseProxy.Rfc9110.Removal
import AxumReverseProxy.Rfc9110.MaxForwards
import AxumReverseProxy.Rfc9110.TraceRoute
import AxumReverseProxy.Rfc9110.AroundProxy
