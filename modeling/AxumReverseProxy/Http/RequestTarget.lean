import AxumReverseProxy.Http.UriLib

/-!
# Request targets

The forms of a request target (RFC 9112, 3.2), as the `Uri` a request carries. `PathAndQuery` keeps
the text it was read from, so that of `http://h?q` is `?q`, with the path `/`.
-/

namespace AxumReverseProxy

/-- The text `handle_request` passes to `transform_uri`. -/
def Uri.pathQ (u : Uri) : Str := (u.pathAndQuery?.map (·.asStr)).getD []

inductive RequestTarget
  | origin (path : Str) (query : Option Str)
  | absolute (scheme : Scheme) (authority : Authority) (path : Str) (query : Option Str)
  | asterisk
  | authority (authority : Authority)
deriving DecidableEq

namespace RequestTarget

def uri : RequestTarget → Uri
  | origin p q => .origin ⟨p ++ queryText q⟩
  | absolute s a p q => .absolute s a ⟨p ++ queryText q⟩
  | asterisk => .origin ⟨['*']⟩
  | authority a => .authority a

/-- A target `http::Uri` can carry; the path of an absolute one may be empty. -/
def Valid (lib : UriLib) : RequestTarget → Prop
  | origin p q => lib.IsPath p ∧ lib.IsQuery q
  | absolute _ _ p q => (p = [] ∨ lib.IsPath p) ∧ lib.IsQuery q
  | asterisk | authority _ => True

instance (lib : UriLib) : (target : RequestTarget) → Decidable (target.Valid lib)
  | origin .. => inferInstanceAs (Decidable (_ ∧ _))
  | absolute .. => inferInstanceAs (Decidable ((_ ∨ _) ∧ _))
  | asterisk | authority _ => inferInstanceAs (Decidable True)

variable {lib : UriLib} {target : RequestTarget}

/-- The path of a target, as its text has it: an absolute one may leave it out. -/
theorem pathQ_spec (hlib : lib.Lawful) (h : target.Valid lib) :
    ∃ p, target.uri.pathQ = p ++ queryText target.uri.query ∧ lib.IsQuery target.uri.query ∧
      (lib.IsPath p ∧ target.uri.path = p ∨ p = [] ∧ (target.uri.path = [] ∨ target.uri.path = ['/']) ∨
        p = ['*'] ∧ target = asterisk) := by
  have hasStr : ∀ {p : Str} {q : Option Str}, lib.IsPath p → (⟨p ++ queryText q⟩ : PathAndQuery).asStr =
    p ++ queryText q :=
    fun hp => if_neg (List.append_ne_nil_of_left_ne_nil hp.ne_nil _)
  cases target with
  | origin p q =>
    have hm := h.1.question_not_mem hlib
    have hq : (origin p q).uri.query = q := PathAndQuery.query_mk hm
    rw [hq]
    exact ⟨p, hasStr h.1, h.2, .inl ⟨h.1, PathAndQuery.path_mk hm h.1.ne_nil⟩⟩
  | absolute s a p q =>
    obtain ⟨rfl | hp, hq'⟩ := h
    · cases q with
      | none => exact ⟨['/'], rfl, hq', .inl ⟨hlib.isPath_slash, rfl⟩⟩
      | some q => exact ⟨[], rfl, hq', .inr (.inl ⟨rfl, .inr rfl⟩)⟩
    · have hm := hp.question_not_mem hlib
      have hq : (absolute s a p q).uri.query = q := PathAndQuery.query_mk hm
      rw [hq]
      exact ⟨p, hasStr hp, hq', .inl ⟨hp, PathAndQuery.path_mk hm hp.ne_nil⟩⟩
  | asterisk => exact ⟨['*'], rfl, fun _ h => (by cases h), .inr (.inr ⟨rfl, rfl⟩)⟩
  | authority a => exact ⟨[], rfl, fun _ h => (by cases h), .inr (.inl ⟨rfl, .inl rfl⟩)⟩

end RequestTarget

namespace UriLib

/-- The reader keeps a path and query whose path is empty, as in `http://h?q`. -/
def KeepsEmptyPath (lib : UriLib) : Prop :=
  ∀ q, lib.IsQuery q → lib.parsePathAndQuery (queryText q) = some ⟨queryText q⟩

/-- The reader keeps the path `*`, and `*` may stand in a path. -/
def KeepsAsterisk (lib : UriLib) : Prop :=
  lib.parsePathAndQuery ['*'] = some ⟨['*']⟩ ∧ lib.pathChar '*' = true

theorem plain_keepsEmptyPath : plain.KeepsEmptyPath := by
  intro q hq
  have hall : ∀ c ∈ queryText q, decide (c ≠ '#') = true := by
    intro c hc
    rw [decide_eq_true_eq]
    rintro rfl
    exact plain.hash_not_mem_queryText hq hc
  show plain.parsePathAndQuery _ = _
  rw [plain.parsePathAndQuery, List.takeWhile_eq_self_iff.2 hall]
  refine if_pos ?_
  cases q with
  | none => decide
  | some q => exact ⟨rfl, (List.all_cons ..).trans (Bool.and_eq_true_iff.2 ⟨by decide, hq q rfl⟩)⟩

theorem plain_keepsAsterisk : plain.KeepsAsterisk := by unfold KeepsAsterisk; decide

end UriLib

end AxumReverseProxy
