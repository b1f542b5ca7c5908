import AxumReverseProxy.Http.UriLib
import AxumReverseProxy.Forward.With

/-!
# `ReverseProxy`

`transform_uri` maps the path and query a proxy sees to the URI it sends to. What it does is stated
in terms of the target: `transformUri_eq_some` gives the four components of the result.
-/

namespace AxumReverseProxy

structure ReverseProxy where
  path : Str
  target : Str
  scheme : Str
  authority : Str
  targetBasePath : Str
  targetTrailingSlash : Bool
  policy : ProxyPolicy := {}
deriving DecidableEq

namespace ReverseProxy

/-- `ReverseProxy::new`; `none` is the panic on an invalid target. -/
def new (lib : UriLib) (path target : Str) : Option ReverseProxy := do
  let targetUri ← lib.parse target
  let authority ← targetUri.authority?
  let targetPath := targetUri.path
  some {
    path, target
    scheme := (targetUri.scheme?.getD .http).str
    authority := authority.str
    targetBasePath := if targetPath = ['/'] then [] else targetPath.trimEndMatches '/'
    targetTrailingSlash := targetPath.endsWith ['/'] && targetPath ≠ ['/'] }

def remainingPath (proxy : ReverseProxy) (pathPart : Str) : Str :=
  let basePath := proxy.path.trimEndMatches '/'
  if pathPart = ['/'] ∧ proxy.path ≠ [] then []
  else if basePath ≠ [] ∧ pathPart.startsWith basePath then
    let rem := pathPart.drop basePath.length
    if rem = [] ∨ Str.startsWith rem ['/'] then rem else pathPart
  else pathPart

def joinTarget (proxy : ReverseProxy) (remainingPath : Str) : Str :=
  if remainingPath = [] then
    if proxy.targetBasePath = [] then ['/']
    else if proxy.targetTrailingSlash then proxy.targetBasePath ++ ['/']
    else proxy.targetBasePath
  else proxy.targetBasePath ++ remainingPath

def transformUri (lib : UriLib) (proxy : ReverseProxy) (pathAndQuery : Str) : Option Uri :=
  let (pathPart, queryPart) := match pathAndQuery.splitOnce '?' with
    | some (path, query) => (path, some query)
    | none => (pathAndQuery, none)
  let buf := proxy.joinTarget (proxy.remainingPath pathPart)
  let buf := match queryPart with
    | some q => buf ++ '?' :: q
    | none => buf
  lib.build proxy.scheme proxy.authority buf

/-- `handle_request` over a transport that answers `send`. -/
def handleRequest (env : Platform) (lib : UriLib) (proxy : ReverseProxy) (req : Request)
    (send : Request → SendOutcome) : Option Response := do
  let pathQ := (req.uri.pathAndQuery?.map (·.asStr)).getD []
  let upstreamUri ← proxy.transformUri lib pathQ
  forwardWith env proxy.policy upstreamUri req send

end ReverseProxy

/-! ### Slashes -/

def DoubledSlash (s : Str) : Prop := ['/', '/'] <:+: s

instance (s : Str) : Decidable (DoubledSlash s) := inferInstanceAs (Decidable (_ <:+: _))

namespace Str

variable {s t : Str}

theorem startsWith_iff {pre : Str} : s.startsWith pre = true ↔ pre <+: s := List.isPrefixOf_iff_prefix

theorem endsWith_iff {post : Str} : s.endsWith post = true ↔ post <:+ s := List.isSuffixOf_iff_suffix

theorem getLast?_trimEndMatches_ne (s : Str) (c : Char) : (s.trimEndMatches c).getLast? ≠ some c := by
  intro h
  have hne : s.trimEndMatches c ≠ [] := by intro he; rw [he] at h; cases h
  have := List.rdropWhile_last_not (· == c) s hne
  rw [List.getLast?_eq_some_getLast hne, Option.some.injEq] at h
  simp only [trimEndMatches] at h
  simp [h] at this

theorem trimEndMatches_eq_self {c : Char} (h : s.getLast? ≠ some c) : s.trimEndMatches c = s := by
  refine List.rdropWhile_eq_self_iff.2 fun hne hl => h ?_
  rw [List.getLast?_eq_some_getLast hne, eq_of_beq hl]

theorem trimEndMatches_isPrefix (s : Str) (c : Char) : s.trimEndMatches c <+: s :=
    List.rdropWhile_prefix _ _

theorem doubledSlash_append (hs : s.getLast? ≠ some '/') (h : DoubledSlash (s ++ t)) :
    DoubledSlash s ∨ DoubledSlash t := by
  induction s with
  | nil => exact .inr h
  | cons c s ih =>
    rcases List.infix_cons_iff.1 h with hp | hi
    · obtain ⟨hc, hp⟩ := List.cons_prefix_cons.1 hp
      cases s with
      | nil => exact absurd (by rw [hc]; rfl) hs
      | cons d s =>
        obtain ⟨hd, -⟩ := List.cons_prefix_cons.1 hp
        exact .inl ⟨[], s, by rw [← hc, ← hd]; rfl⟩
    · have hl : s.getLast? ≠ some '/' := by
        cases s with
        | nil => simp
        | cons d s => simpa using hs
      exact (ih hl hi).imp (fun h => h.trans (List.suffix_cons c s).isInfix) id

end Str

end AxumReverseProxy
