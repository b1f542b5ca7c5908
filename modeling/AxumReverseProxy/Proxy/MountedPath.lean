import AxumReverseProxy.Lib.Run
import AxumReverseProxy.Proxy.Mounting

/-!
# Proxies that send to one another

Each proxy of a path is mounted under a base path, and its target path is the base path of the next
one. The remainder of a request path goes through unchanged, whatever the bases, but for a nested
proxy that strips its base from it a second time (`mounted_path_iff`).
-/

namespace AxumReverseProxy

/-- A proxy and how its router mounts it. -/
structure Mounted where
  mounting : Mounting
  proxy : ReverseProxy

namespace Mounted

/-- What the proxy sees of a path, if the router has a route for that. -/
def seen (m : Mounted) (p : Str) : Option Str :=
  match m.mounting with
  | .fallback => some p
  | .nested =>
    if Continues m.proxy.path p then some
      (Mounting.nested.seenPath m.proxy.path (p.drop m.proxy.path.length)) else none

/-- The path and the query of the request it sends. -/
def pass (lib : UriLib) (req : Str × Option Str) (m : Mounted) : Option (Str × Option Str) := do
  let seen ← m.seen req.1
  let uri ← m.proxy.transformUri lib (seen ++ queryText req.2)
  some (uri.path, uri.query)

/-- A proxy from a base to a target. -/
structure Leads (lib : UriLib) (m : Mounted) (base : Str) (t : Uri) : Prop where
  isBase : IsBase base
  target : ∃ target, ReverseProxy.new lib base target = some m.proxy ∧ lib.parse target = some t

/-- Proxies from the base of the first to the target of the last, each target path the next base. -/
inductive Chain (lib : UriLib) : Str → List Mounted → Uri → Prop
  | last {m : Mounted} {base : Str} {t : Uri} : m.Leads lib base t → Chain lib base [m] t
  | link {m : Mounted} {base : Str} {t last : Uri} {ms : List Mounted} :
    m.Leads lib base t → Chain lib (targetPath t) ms last → Chain lib base (m :: ms) last

end Mounted

variable {lib : UriLib} {base r : Str} {q : Option Str} {t last : Uri} {m : Mounted} {ms : List Mounted}

namespace Mounted

/-! ### One proxy -/

theorem isPath_seenPath (hlib : lib.Lawful) (hcarry : lib.IsPath base) (hr : r = [] ∨ lib.IsPath r)
    (mounting : Mounting) :
    lib.IsPath (mounting.seenPath base r) := by
  cases mounting with
  | nested =>
    unfold Mounting.seenPath
    simp only
    split_ifs with h
    · exact hlib.isPath_slash
    · exact hr.resolve_left h
  | fallback => exact hcarry.append (hr.elim (by rintro rfl; rfl) (·.2))

/-- What is left of the remainder `r` when the proxy has stripped its base. -/
def stripped (m : Mounted) (base r : Str) : Str := remainder base (m.mounting.seenPath base r)

theorem Leads.seen_eq (h : m.Leads lib base t) (hr : r = [] ∨ r.head? = some '/') :
    m.seen (base ++ r) = some (m.mounting.seenPath base r) := by
  obtain ⟨target, hnew, -⟩ := h.target
  obtain ⟨-, -, -, -, hpath, -⟩ := new_eq_some hnew
  unfold seen
  cases m.mounting with
  | fallback => rfl
  | nested =>
    simp only
    rw [hpath, if_pos ((continues_append base r).2 hr), List.drop_left]

theorem Leads.pass_eq (hlib : lib.Lawful) (h : m.Leads lib base t) (hcarry : lib.IsPath base)
    (hr : r = [] ∨ lib.IsPath r) (hq : lib.IsQuery q) :
    m.pass lib (base ++ r, q) = some (upstreamPath t (m.stripped base r), q) := by
  obtain ⟨target, hnew, ht⟩ := h.target
  obtain ⟨t', a, ht', ha, -⟩ := new_eq_some hnew
  obtain rfl : t' = t := Option.some.inj (ht'.symm.trans ht)
  have hseen := isPath_seenPath hlib hcarry hr m.mounting
  have hup := isPath_upstreamPath hlib ht ha (isPath_remainder base hseen)
  have hm := hup.question_not_mem hlib
  simp only [pass, h.seen_eq (hr.imp id (·.1)), Option.bind_eq_bind, Option.bind_some,
    transformUri_eq_some hlib hnew ht ha hseen hq]
  show some (PathAndQuery.path _, PathAndQuery.query _) = _
  rw [PathAndQuery.path_mk hm hup.ne_nil, PathAndQuery.query_mk hm]
  rfl

theorem Leads.stripped_eq (h : m.Leads lib base t) (hr : r = [] ∨ r.head? = some '/') (hne : r ≠ ['/']) :
    m.stripped base r = if m.mounting = .nested ∧ Continues base r then r.drop base.length else r := by
  unfold stripped
  cases m.mounting with
  | fallback =>
    rw [if_neg fun h => by cases h.1]
    exact h.isBase.remainder_fallback hr
  | nested =>
    rw [h.isBase.remainder_nested, if_neg hne]
    exact if_congr (by simp) rfl rfl

theorem Leads.stripped_spec (h : m.Leads lib base t) (hr : r = [] ∨ lib.IsPath r) :
    (m.stripped base r = [] ∨ lib.IsPath (m.stripped base r)) ∧ (m.stripped base r).length ≤ r.length := by
  by_cases hslash : r = ['/']
  · subst hslash
    unfold stripped
    cases m.mounting with
    | fallback =>
      rw [Mounting.seenPath, h.isBase.remainder_fallback (.inr rfl)]
      exact ⟨hr, Nat.le_refl _⟩
    | nested =>
      rw [h.isBase.remainder_nested, if_pos rfl]
      exact ⟨.inl rfl, Nat.zero_le _⟩
  · rw [h.stripped_eq (hr.imp id (·.1)) hslash]
    split_ifs with hs
    · obtain ⟨r', rfl, hr'⟩ := hs.2.eq_append
      rw [List.drop_left, List.length_append]
      have hall := (hr.resolve_left fun hn => h.isBase.ne_nil (List.append_eq_nil_iff.1 hn).1).2
      rw [List.all_append, Bool.and_eq_true] at hall
      exact ⟨hr'.imp id fun hhead => ⟨hhead, hall.2⟩, Nat.le_add_left ..⟩
    · exact ⟨hr, Nat.le_refl _⟩

/-- The path sent continues the target path. -/
theorem upstreamPath_eq_append (hlib : lib.Lawful) (hr : r = [] ∨ lib.IsPath r) :
    ∃ r', upstreamPath t r = targetPath t ++ r' ∧ (r' = [] ∨ lib.IsPath r') ∧ r'.length ≤ max r.length 1 ∧
      (r ≠ [] → r' = r) := by
  unfold upstreamPath
  split_ifs with h1 h2 h3
  · exact ⟨r, rfl, hr, Nat.le_max_left .., fun _ => rfl⟩
  · exact ⟨['/'], by rw [h2]; rfl, .inr hlib.isPath_slash, Nat.le_max_right .., fun h => absurd h h1⟩
  · exact ⟨['/'], rfl, .inr hlib.isPath_slash, Nat.le_max_right .., fun h => absurd h h1⟩
  · exact ⟨[], (List.append_nil _).symm, .inl rfl, Nat.zero_le _, fun h => absurd h h1⟩

/-! ### A path of them -/

theorem Chain.isBase (h : Chain lib base ms t) : IsBase base := by
  cases h with
  | last hl => exact hl.isBase
  | link hl _ => exact hl.isBase

/-- A nested proxy that takes its base off the remainder as well. -/
def StripsTwice (r : Str) (m : Mounted) : Prop := m.mounting = .nested ∧ Continues m.proxy.path r

theorem Leads.path_eq (h : m.Leads lib base t) : m.proxy.path = base := by
  obtain ⟨target, hnew, -⟩ := h.target
  obtain ⟨-, -, -, -, hpath, -⟩ := new_eq_some hnew
  exact hpath

theorem Leads.pass_spec (hlib : lib.Lawful) (h : m.Leads lib base t) (hcarry : lib.IsPath base)
    (hr : r = [] ∨ lib.IsPath r) (hq : lib.IsQuery q) :
    ∃ r', m.pass lib (base ++ r, q) = some (targetPath t ++ r', q) ∧ (r' = [] ∨ lib.IsPath r') ∧
      r'.length ≤ max r.length 1 ∧ (lib.IsPath r → r ≠ ['/'] → ¬ StripsTwice r m → r' = r) ∧
      (r ≠ ['/'] → StripsTwice r m → max r'.length 1 < r.length) := by
  obtain ⟨hpath, hlen⟩ := h.stripped_spec hr
  obtain ⟨r', hr', hp, hle, hsame⟩ := @upstreamPath_eq_append lib (m.stripped base r) t hlib hpath
  refine ⟨r', by rw [h.pass_eq hlib hcarry hr hq, hr'], hp, by omega, fun hisp hne hs => ?_,
    fun hne hs => ?_⟩
  · have hkept : m.stripped base r = r := by
      rw [h.stripped_eq (.inr hisp.1) hne, if_neg]
      rwa [StripsTwice, h.path_eq] at hs
    rw [hkept] at hsame
    exact hsame hisp.ne_nil
  · rw [StripsTwice, h.path_eq] at hs
    have hcut : (m.stripped base r).length = r.length - base.length := by
      rw [h.stripped_eq (hr.imp id (·.1)) hne, if_pos hs, List.length_drop]
    have := h.isBase.two_le_length
    have := h.isBase.two_le_of_continues hs.2
    omega

theorem Chain.run_spec (hlib : lib.Lawful) (hc : Chain lib base ms t) (hcarry : lib.IsPath base)
    (hr : r = [] ∨ lib.IsPath r) (hq : lib.IsQuery q) :
    ∃ r', Run.run (pass lib) (base ++ r, q) ms = some (targetPath t ++ r', q) ∧ r'.length ≤ max r.length 1 ∧
      (lib.IsPath r → r ≠ ['/'] → (∀ m ∈ ms, ¬ StripsTwice r m) → r' = r) ∧
      (lib.IsPath r → r ≠ ['/'] → (∃ m ∈ ms, StripsTwice r m) → r'.length < r.length) := by
  induction hc generalizing r with
  | last hl =>
    obtain ⟨r', hpass, -, hle, hkeep, hcut⟩ := hl.pass_spec hlib hcarry hr hq
    refine ⟨r', by rw [Run.run_cons, hpass]; rfl, hle, fun hp hne hs => hkeep hp hne (hs _ (by simp)),
      fun _ hne hs => ?_⟩
    obtain ⟨m, hm, hs⟩ := hs
    obtain rfl := List.mem_singleton.1 hm
    have := hcut hne hs
    omega
  | @link m base t last ms hl hc ih =>
    obtain ⟨r₁, hpass, hp₁, hle₁, hkeep₁, hcut₁⟩ := hl.pass_spec hlib hcarry hr hq
    obtain ⟨target, hnew, ht⟩ := hl.target
    obtain ⟨t', a, ht', ha, -⟩ := new_eq_some hnew
    obtain rfl : t' = t := Option.some.inj (ht'.symm.trans ht)
    have hcarry' := (isPath_targetPath hlib ht ha).resolve_left hc.isBase.ne_nil
    obtain ⟨r₂, hrun, hle₂, hkeep₂, hcut₂⟩ := ih hcarry' hp₁
    refine ⟨r₂, by rw [Run.run_cons, hpass]; exact hrun, by omega, fun hp hne hs => ?_, fun hp hne hs => ?_⟩
    · have hsame := hkeep₁ hp hne (hs m (by simp))
      rw [hsame] at hkeep₂
      exact hkeep₂ hp hne fun g hg => hs g (by simp [hg])
    · by_cases hm : StripsTwice r m
      · have := hcut₁ hne hm
        omega
      · -- the first proxy keeps the remainder, so a later one cuts it
        have hsame := hkeep₁ hp hne hm
        rw [hsame] at hcut₂
        obtain ⟨g, hg, hs⟩ := hs
        rcases List.mem_cons.1 hg with rfl | hg
        · exact absurd hs hm
        · exact hcut₂ hp hne ⟨g, hg, hs⟩

end Mounted

open Mounted

/-- Over a path of proxies, each of which sends to the base of the next, a request gets to the last target
with its remainder and its query as they were, exactly when no nested proxy finds its own base at the front
of the remainder. -/
theorem mounted_path_iff (hlib : lib.Lawful) (hc : Chain lib base ms last) (hcarry : lib.IsPath base)
    (hr : lib.IsPath r)
    (hne : r ≠ ['/']) (hq : lib.IsQuery q) :
    Run.run (Mounted.pass lib) (base ++ r, q) ms = some (targetPath last ++ r, q) ↔
      ∀ m ∈ ms, m.mounting = .nested → ¬ Continues m.proxy.path r := by
  obtain ⟨r', hrun, -, hkeep, hcut⟩ := hc.run_spec hlib hcarry (.inr hr) hq
  rw [hrun]
  constructor
  · intro h m hm hnest hcont
    have hsame : r' = r := List.append_cancel_left (Prod.ext_iff.1 (Option.some.inj h)).1
    have := hcut hr hne ⟨m, hm, hnest, hcont⟩
    rw [hsame] at this
    exact Nat.lt_irrefl _ this
  · intro h
    rw [hkeep hr hne fun m hm hs => h m hm hs.1 hs.2]

def edgeMount : Mounted :=
  ⟨.nested, ⟨"/api".toList, "http://mid/v1".toList, "http".toList, "mid".toList, "/v1".toList, false, {}⟩⟩

def midMount : Mounted :=
  ⟨.fallback, ⟨"/v1".toList, "http://up".toList, "http".toList, "up".toList, [], false, {}⟩⟩

theorem mounted_path_iff_two :
    Run.run (Mounted.pass UriLib.plain) ("/api/users".toList, some "a=b".toList) [edgeMount, midMount] =
      some ("/users".toList, some "a=b".toList) :=
  (@mounted_path_iff UriLib.plain "/api".toList "/users".toList (some "a=b".toList) _ [edgeMount, midMount]
    UriLib.plain_lawful (.link ⟨by decide, "http://mid/v1".toList, rfl, rfl⟩
      (.last ⟨by decide, "http://up".toList, rfl, rfl⟩))
    (by decide) (by decide) (by decide) (by decide)).2 (by decide)

end AxumReverseProxy
