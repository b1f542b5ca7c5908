import AxumReverseProxy.Rust.Str

/-!
# `http::Uri`

A `Uri` is in one of the forms of a request target: absolute (scheme, authority, path and query),
origin (a path and query, or `*`), or authority. Its parser belongs to the `http` crate and is a
parameter: `UriLib` holds the functions of that crate the proxy calls, `UriLib.Lawful` what it
relies on of them.
-/

namespace AxumReverseProxy

/-- The characters of RFC 3986: unreserved, reserved and `%`. -/
def isUriChar (c : Char) : Bool := c.isAlphanum || c ∈ "-._~:/?#[]@!$&'()*+,;=%".toList

structure Scheme where
  str : Str
deriving DecidableEq

namespace Scheme

def http : Scheme := ⟨"http".toList⟩
def https : Scheme := ⟨"https".toList⟩

end Scheme

/-- An authority is made of URI characters. -/
structure Authority where
  str : Str
  valid : str.all isUriChar = true
deriving DecidableEq

structure PathAndQuery where
  data : Str
deriving DecidableEq

namespace PathAndQuery

/-- `path`: the text before the first `?`, or `/` when that is empty. -/
def path (p : PathAndQuery) : Str :=
  let path := p.data.takeWhile (· ≠ '?')
  if path = [] then ['/'] else path

/-- `query`: the text after the first `?`. -/
def query (p : PathAndQuery) : Option Str := (p.data.splitOnce '?').map (·.2)

/-- `as_str`: the stored text, or `/` when it is empty. -/
def asStr (p : PathAndQuery) : Str := if p.data = [] then ['/'] else p.data

end PathAndQuery

inductive Uri
  | absolute (scheme : Scheme) (authority : Authority) (pathAndQuery : PathAndQuery)
  | origin (pathAndQuery : PathAndQuery)
  | authority (authority : Authority)
deriving DecidableEq

namespace Uri

def scheme? : Uri → Option Scheme
  | absolute s _ _ => some s
  | _ => none

def authority? : Uri → Option Authority
  | absolute _ a _ => some a
  | origin _ => none
  | authority a => some a

def pathAndQuery? : Uri → Option PathAndQuery
  | absolute _ _ p => some p
  | origin p => some p
  | authority _ => none

def path (u : Uri) : Str := (u.pathAndQuery?.map (·.path)).getD []

def query (u : Uri) : Option Str := u.pathAndQuery?.bind (·.query)

/-- `http::uri::Parts`. -/
structure Parts where
  scheme : Option Scheme
  authority : Option Authority
  pathAndQuery : Option PathAndQuery

def intoParts (u : Uri) : Parts := ⟨u.scheme?, u.authority?, u.pathAndQuery?⟩

/-- `Uri::from_parts`: a scheme needs an authority and a path, an authority with a path needs a
scheme. -/
def fromParts (p : Parts) : Option Uri :=
  match p.scheme, p.authority, p.pathAndQuery with
  | some s, some a, some pq => some (absolute s a pq)
  | none, some a, none => some (authority a)
  | none, none, some pq => some (origin pq)
  | none, none, none => some (origin ⟨[]⟩)
  | _, _, _ => none

end Uri

end AxumReverseProxy
