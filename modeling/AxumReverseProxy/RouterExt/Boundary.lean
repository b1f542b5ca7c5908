import AxumReverseProxy.Http.UriLib
import AxumReverseProxy.RouterExt.Template

/-!
# Component boundaries of a resolved template

A template is an absolute URL given by its components, each of which may hold placeholders. Values
keep every boundary a component ends at, because the characters there are encoded, except for two
that are not: `/` in the authority and `:` in a host name (`resolve_keeps_boundaries_iff`).
-/

namespace AxumReverseProxy

open Replace (replaceEach KeepsOut)

/-- The host of a template: a name, or an address in brackets. -/
inductive HostText
  | name (s : Str)
  | literal (s : Str)

namespace HostText

def text : HostText → Str
  | name s => s
  | literal s => '[' :: s ++ [']']

/-- The host holds no character that ends it. -/
def Valid : HostText → Prop
  | name s => ∀ c ∈ "/?#@:[]".toList, c ∉ s
  | literal s => ∀ c ∈ "/?#@[]".toList, c ∉ s

end HostText

/-- An absolute URL with placeholders, cut up into its components. -/
structure UrlTemplate where
  scheme : Str
  userinfo : Option Str
  host : HostText
  port : Option Str
  path : Str
  query : Option Str
  fragment : Option Str
  scheme_valid : scheme ≠ [] ∧ scheme.all isSchemeChar = true
  userinfo_valid : ∀ s ∈ userinfo, ∀ c ∈ "/?#@".toList, c ∉ s
  host_valid : host.Valid
  port_valid : ∀ s ∈ port, ∀ c ∈ "/?#@".toList, c ∉ s
  path_valid : (path = [] ∨ path.head? = some '/') ∧ '?' ∉ path ∧ '#' ∉ path
  query_valid : ∀ s ∈ query, '#' ∉ s

namespace UrlTemplate

def authority (t : UrlTemplate) : Str :=
  t.userinfo.elim [] (· ++ ['@']) ++ t.host.text ++ t.port.elim [] (':' :: ·)

def fragmentText : Option Str → Str
  | none => []
  | some f => '#' :: f

def text (t : UrlTemplate) : Str :=
  t.scheme ++ "://".toList ++ (t.authority ++ (t.path ++ (queryText t.query ++ fragmentText t.fragment)))

end UrlTemplate

/-- The component `s` of a template with the encoded values in it. -/
def substituted (params : List (Str × Str)) (s : Str) : Str := (TemplateTarget.mk s).resolve params

/-- The components of `u` are those of the template, with the encoded values in them. -/
structure KeepsBoundaries (t : UrlTemplate) (params : List (Str × Str)) (u : Uri) : Prop where
  scheme : ∃ s, u.scheme? = some s ∧ s.str.eqIgnoreAsciiCase t.scheme = true
  authority : u.authority?.map (·.str) = some (substituted params t.authority)
  host : u.authority?.map (·.host) = some (substituted params t.host.text)
  path : u.path = if substituted params t.path = [] then ['/'] else substituted params t.path
  query : u.query = t.query.map (substituted params)

/-- No value with a `/` is put into the authority, and none with a `:` into a host name. -/
def StaysInside (t : UrlTemplate) (params : List (Str × Str)) : Prop :=
  KeepsOut '/' (substitutions params) t.authority ∧
    match t.host with
    | .name s => KeepsOut ':' (substitutions params) s
    | .literal _ => True

/-- The parameters' names hold no delimiter of a URL, so that no placeholder spans two components. -/
def NamesValid (params : List (Str × Str)) : Prop := ∀ p ∈ params, ∀ c ∈ "/?#@:[]".toList, c ∉ p.1

instance (params : List (Str × Str)) : Decidable (NamesValid params) :=
  inferInstanceAs (Decidable (∀ p ∈ params, ∀ c ∈ "/?#@:[]".toList, c ∉ p.1))

/-! ### Placeholders lie inside components -/

variable {params : List (Str × Str)} {t : UrlTemplate} {s r : Str} {c : Char}

theorem substituted_eq (params : List (Str × Str)) (s : Str) :
    substituted params s = replaceEach (substitutions params) s := resolve_eq _

@[simp] theorem substituted_nil : substituted params [] = [] := by simp [substituted_eq]

theorem delimiter_not_mem (hn : NamesValid params) (hc : c ∈ "/?#@:[]".toList) :
    ∀ p ∈ substitutions params, p.1 ≠ [] ∧ c ∉ p.1 := by
  intro p hp
  obtain ⟨q, hq, rfl⟩ := List.mem_map.1 hp
  refine ⟨by simp [placeholder], fun h => ?_⟩
  rcases mem_placeholder.1 h with rfl | h | rfl
  · exact absurd hc (by decide)
  · exact hn q hq c hc h
  · exact absurd hc (by decide)

theorem not_mem_substituted (hc : c ∈ "?#@[]".toList) (h : c ∉ s) : c ∉ substituted params s := by
  have hset : ∀ d ∈ "?#@[]".toList, TEMPLATE_ENCODE_SET d = true ∧ d ∉ "%0123456789ABCDEF".toList := by
    decide
  rw [substituted_eq]
  refine Replace.not_mem_replaceEach (fun p hp => ?_) h
  obtain ⟨q, -, rfl⟩ := List.mem_map.1 hp
  exact ⟨by simp [placeholder], not_mem_utf8PercentEncode (hset c hc).1 (hset c hc).2⟩

theorem substituted_append_cons (hn : NamesValid params) (hc : c ∈ "/?#@:[]".toList) :
    substituted params (s ++ c :: r) = substituted params s ++ c :: substituted params r := by
  simp only [substituted_eq, Replace.replaceEach_append_cons (delimiter_not_mem hn hc)]

theorem substituted_cons (hn : NamesValid params) (hc : c ∈ "/?#@:[]".toList) :
    substituted params (c :: s) = c :: substituted params s := by
  simp only [substituted_eq, Replace.replaceEach_cons_of_not_mem (delimiter_not_mem hn hc)]

theorem substituted_append (hn : NamesValid params) (hr : ∀ c ∈ r.head?, c ∈ "/?#@:[]".toList) :
    substituted params (s ++ r) = substituted params s ++ substituted params r := by
  simp only [substituted_eq]
  exact Replace.replaceEach_append (fun c hc => delimiter_not_mem hn (hr c hc)) s

theorem substituted_scheme (h : s.all isSchemeChar = true) : substituted params s = s := by
  rw [substituted_eq]
  refine Replace.replaceEach_of_no_match fun p hp hin => ?_
  obtain ⟨q, -, rfl⟩ := List.mem_map.1 hp
  have := List.all_eq_true.1 h _ (hin.subset (mem_placeholder.2 (.inl rfl)))
  exact absurd this (by decide)

theorem substituted_queryText (hn : NamesValid params) (q : Option Str) :
    substituted params (queryText q) = queryText (q.map (substituted params)) := by
  cases q with
  | none => simp [queryText]
  | some q => exact substituted_cons hn (by decide)

theorem substituted_fragmentText (hn : NamesValid params) (f : Option Str) :
    substituted params (UrlTemplate.fragmentText f) =
      UrlTemplate.fragmentText (f.map (substituted params)) := by
  cases f with
  | none => simp [UrlTemplate.fragmentText]
  | some f => exact substituted_cons hn (by decide)

theorem head?_fragmentText {f : Option Str} (h : c ∈ (UrlTemplate.fragmentText f).head?) : c = '#' := by
  cases f with
  | none => cases h
  | some f => cases h; rfl

theorem takeWhile_fragmentText {f : Option Str} (h : '#' ∉ s) :
    (s ++ UrlTemplate.fragmentText f).takeWhile (· ≠ '#') = s := by
  cases f with
  | none =>
    rw [UrlTemplate.fragmentText, List.append_nil, List.takeWhile_eq_self_iff.2 (decide_ne_of_not_mem h)]
  | some f => exact takeWhile_append_cons (decide_ne_of_not_mem h) (by decide)

theorem head?_queryText {q f : Option Str} (h : c ∈ (queryText q ++ UrlTemplate.fragmentText f).head?) :
    c = '?' ∨ c = '#' := by
  cases q with
  | none => exact .inr (head?_fragmentText h)
  | some q => cases h; exact .inl rfl

theorem head?_tail {p : Str} {q f : Option Str} (hp : p = [] ∨ p.head? = some '/')
    (h : c ∈ (p ++ (queryText q ++ UrlTemplate.fragmentText f)).head?) : c ∈ "/?#".toList := by
  cases p with
  | nil => rcases head?_queryText h with rfl | rfl <;> decide
  | cons d p =>
    rcases hp with hp | hp
    · cases hp
    · cases hp; cases h; decide

theorem mem_delimiters_of_tail (h : c ∈ "/?#".toList) : c ∈ "/?#@:[]".toList :=
  List.mem_append_left "@:[]".toList h

theorem endsAuthority_iff : endsAuthority c = true ↔ c ∈ "/?#".toList := by
  simp [endsAuthority, or_assoc]

theorem resolve_text (hn : NamesValid params) (t : UrlTemplate) :
    (TemplateTarget.mk t.text).resolve params =
      t.scheme ++ "://".toList ++ (substituted params t.authority ++ (substituted params t.path ++
        (queryText (t.query.map (substituted params)) ++
          UrlTemplate.fragmentText (t.fragment.map (substituted params))))) := by
  have h1 : (TemplateTarget.mk t.text).resolve params = substituted params t.text := rfl
  have h2 : t.text = t.scheme ++ ':' :: '/' :: '/' :: (t.authority ++ (t.path ++
      (queryText t.query ++ UrlTemplate.fragmentText t.fragment))) := by
    rw [UrlTemplate.text, List.append_assoc]; rfl
  rw [h1, h2, substituted_append_cons hn (by decide), substituted_cons hn (by decide),
    substituted_cons hn (by decide), substituted_scheme t.scheme_valid.2,
    substituted_append hn fun c hc => mem_delimiters_of_tail (head?_tail t.path_valid.1 hc),
    substituted_append hn fun c hc => by rcases head?_queryText hc with rfl | rfl <;> decide,
    substituted_append hn fun c hc => by rw [head?_fragmentText hc]; decide,
    substituted_queryText hn, substituted_fragmentText hn, List.append_assoc]
  rfl

/-! ### The authority -/

theorem not_mem_authority (t : UrlTemplate) (hc : c ∈ "/?#".toList) : c ∉ t.authority := by
  have hlist : c ∈ "/?#@".toList := List.mem_append_left "@".toList hc
  have hhost : c ∉ t.host.text := by
    have hv := t.host_valid
    cases ht : t.host with
    | name s => rw [ht] at hv; exact hv c (mem_delimiters_of_tail hc)
    | literal s =>
      rw [ht] at hv
      have hne : c ≠ '[' ∧ c ≠ ']' := by constructor <;> rintro rfl <;> revert hc <;> decide
      have hs := hv c (List.mem_append_left "@[]".toList hc)
      simp [HostText.text, hne, hs]
  have hne : c ≠ '@' ∧ c ≠ ':' := by constructor <;> rintro rfl <;> revert hc <;> decide
  rw [UrlTemplate.authority, List.mem_append, List.mem_append, not_or, not_or]
  refine ⟨⟨?_, hhost⟩, ?_⟩
  · cases hu : t.userinfo with
    | none => simp
    | some s => simp [hne, t.userinfo_valid s hu c hlist]
  · cases hp : t.port with
    | none => simp
    | some s => simp [hne, t.port_valid s hp c hlist]

theorem endsAuthority_substituted (h : '/' ∉ substituted params t.authority) :
    ∀ c ∈ substituted params t.authority, endsAuthority c = false := by
  intro c hc
  by_contra hne
  have hm := endsAuthority_iff.1 (by simpa using hne)
  have hcases : c = '/' ∨ c ∈ "?#@[]".toList :=
    (List.mem_cons.1 hm).imp id fun h => List.mem_append_left "@[]".toList h
  rcases hcases with rfl | h'
  · exact h hc
  · exact not_mem_substituted h' (not_mem_authority t hm) hc

theorem substituted_authority (hn : NamesValid params) (t : UrlTemplate) :
    substituted params t.authority =
      (t.userinfo.map (substituted params)).elim [] (· ++ ['@']) ++
        (substituted params t.host.text ++ (t.port.map (substituted params)).elim [] (':' :: ·)) := by
  have hport : ∀ c ∈ (t.port.elim [] (':' :: ·) : Str).head?, c ∈ "/?#@:[]".toList := by
    intro c hc
    cases hp : t.port with
    | none => rw [hp] at hc; cases hc
    | some s => rw [hp] at hc; cases hc; decide
  have hp : substituted params (t.port.elim [] (':' :: ·)) =
      (t.port.map (substituted params)).elim [] (':' :: ·) := by
    cases t.port with
    | none => simp
    | some s => exact substituted_cons hn (by decide)
  rw [UrlTemplate.authority, List.append_assoc]
  cases t.userinfo with
  | none => simp only [Option.elim_none, Option.map_none, List.nil_append, substituted_append hn hport, hp]
  | some s =>
    simp only [Option.elim_some, Option.map_some, List.append_assoc, List.singleton_append]
    rw [substituted_append_cons hn (by decide), substituted_append hn hport, hp]

theorem host_eq_iff (hn : NamesValid params) {a : Authority} (ha : a.str = substituted params t.authority) :
    a.host = substituted params t.host.text ↔
      match t.host with
      | .name s => ':' ∉ substituted params s
      | .literal _ => True := by
  have hport : ∀ c ∈ ((t.port.map (substituted params)).elim [] (':' :: ·) : Str).head?, c = ':' := by
    intro c hc
    cases hp : t.port with
    | none => rw [hp] at hc; cases hc
    | some s => rw [hp] at hc; cases hc; rfl
  have hat : '@' ∉ substituted params t.host.text ++
      ((t.port.map (substituted params)).elim [] (':' :: ·) : Str) := by
    rw [List.mem_append, not_or]
    constructor
    · refine not_mem_substituted (by decide) ?_
      have hv := t.host_valid
      cases ht : t.host with
      | name s => rw [ht] at hv; exact hv '@' (by decide)
      | literal s => rw [ht] at hv; simpa [HostText.text] using hv '@' (by decide)
    · cases hp : t.port with
      | none => simp
      | some s => simpa using not_mem_substituted (by decide) (t.port_valid s hp '@' (by decide))
  have hhp : a.str.rtakeWhile (· ≠ '@') = substituted params t.host.text ++
      ((t.port.map (substituted params)).elim [] (':' :: ·) : Str) := by
    rw [ha, substituted_authority hn]
    cases t.userinfo with
    | none => exact List.rtakeWhile_eq_self_iff.2 (decide_ne_of_not_mem hat)
    | some s =>
      simp only [Option.map_some, Option.elim_some, List.append_assoc, List.singleton_append]
      exact rtakeWhile_at hat
  rw [Authority.host, hhp]
  generalize (t.port.map (substituted params)).elim [] (':' :: ·) = port at hport
  have hv := t.host_valid
  cases ht : t.host with
  | name s =>
    rw [ht] at hv
    exact hostOf_name (not_mem_substituted (by decide) (hv '[' (by decide))) hport
  | literal s =>
    rw [ht] at hv
    have htext : substituted params (HostText.literal s).text = '[' :: substituted params s ++ [']'] := by
      rw [HostText.text, List.cons_append, substituted_cons hn (by decide),
        substituted_append_cons hn (by decide), substituted_nil]
      rfl
    rw [htext, List.append_assoc, List.singleton_append]
    exact iff_of_true (hostOf_literal (not_mem_substituted (by decide) (hv ']' (by decide)))) trivial

/-! ### The components of the resolved URL -/

theorem keepsOut_substitutions_iff (hn : NamesValid params) (hc : c ∈ "/?#@:[]".toList) (hs : c ∉ s) :
    KeepsOut c (substitutions params) s ↔ c ∉ substituted params s := by
  rw [substituted_eq]; exact Replace.keepsOut_iff (delimiter_not_mem hn hc) hs

variable {lib : UriLib} {u : Uri}

/-- A URL resolved from a template has the template's components, with the values in them, exactly
when no value with a `/` got into the authority and none with a `:` into a host name. -/
theorem resolve_keeps_boundaries_iff (hlib : lib.Lawful) (hn : NamesValid params) (t : UrlTemplate)
    (hu : lib.parse ((TemplateTarget.mk t.text).resolve params) = some u) :
    KeepsBoundaries t params u ↔ StaysInside t params := by
  rw [resolve_text hn] at hu
  obtain ⟨s, a, rfl, hs, ha⟩ := hlib.parse_absolute t.scheme_valid.1 t.scheme_valid.2 hu
  have hstay : StaysInside t params ↔ '/' ∉ substituted params t.authority ∧
      match t.host with
      | .name s => ':' ∉ substituted params s
      | .literal _ => True := by
    unfold StaysInside
    rw [keepsOut_substitutions_iff hn (by decide) (not_mem_authority t (by decide))]
    have hv := t.host_valid
    cases ht : t.host with
    | name s =>
      rw [ht] at hv
      simp only [keepsOut_substitutions_iff hn (show ':' ∈ "/?#@:[]".toList by decide) (hv ':' (by decide))]
    | literal s => simp
  rw [hstay]
  have htail : ∀ c ∈ (substituted params t.path ++ (queryText (t.query.map (substituted params)) ++
      UrlTemplate.fragmentText (t.fragment.map (substituted params)))).head?, c ∈ "/?#".toList := by
    refine fun c hc => head?_tail ?_ hc
    rcases t.path_valid.1 with h | h
    · exact .inl (by rw [h, substituted_nil])
    · cases hp : t.path with
      | nil => rw [hp] at h; cases h
      | cons d p => rw [hp] at h; cases h; exact .inr (by rw [substituted_cons hn (by decide)]; rfl)
  constructor
  · intro h
    have hauth : a.str = substituted params t.authority := Option.some.inj h.authority
    refine ⟨?_, (host_eq_iff hn hauth).1 (Option.some.inj h.host)⟩
    rw [← hauth, ha]
    exact slash_not_mem_authorityText _
  · rintro ⟨hslash, hhost⟩
    have hends := endsAuthority_substituted hslash
    have hends' := fun c hc => endsAuthority_iff.2 (htail c hc)
    rw [authorityText_append hends hends'] at ha
    have hpath : '?' ∉ substituted params t.path := not_mem_substituted (by decide) t.path_valid.2.1
    have hpq : pathAndQueryText (substituted params t.authority ++ (substituted params t.path ++
        (queryText (t.query.map (substituted params)) ++
          UrlTemplate.fragmentText (t.fragment.map (substituted params))))) =
        substituted params t.path ++ queryText (t.query.map (substituted params)) := by
      rw [pathAndQueryText_append hends hends', ← List.append_assoc]
      refine takeWhile_fragmentText ?_
      rw [List.mem_append, not_or]
      refine ⟨not_mem_substituted (by decide) t.path_valid.2.2, ?_⟩
      cases hq : t.query with
      | none => simp [queryText]
      | some q => simpa [queryText] using not_mem_substituted (by decide) (t.query_valid q hq)
    rw [hpq]
    refine ⟨⟨s, rfl, hs⟩, congrArg some ha, congrArg some ((host_eq_iff hn ha).2 hhost), ?_,
      PathAndQuery.query_mk hpath⟩
    change PathAndQuery.path _ = _
    rw [PathAndQuery.path, takeWhile_question hpath]

/-- `http://{host}.example.com/api`. -/
def tenantTemplate : UrlTemplate where
  scheme := "http".toList
  userinfo := none
  host := .name "\x7bhost\x7d.example.com".toList
  port := none
  path := "/api".toList
  query := none
  fragment := none
  scheme_valid := by decide
  userinfo_valid := by decide
  host_valid := by unfold HostText.Valid; decide
  port_valid := by decide
  path_valid := by decide
  query_valid := by decide

theorem resolve_keeps_boundaries_iff_tenant :
    ∃ u, UriLib.plain.parse "http://cdn.example.com/api".toList = some u ∧
      KeepsBoundaries tenantTemplate [("host".toList, "cdn".toList)] u :=
  ⟨_, rfl, (resolve_keeps_boundaries_iff
    (u := .absolute .http ⟨"cdn.example.com".toList, by decide⟩ ⟨"/api".toList⟩)
    UriLib.plain_lawful (by decide) tenantTemplate (by decide)).2
    ⟨by decide, show KeepsOut ':' _ "\x7bhost\x7d.example.com".toList by decide⟩⟩

/-- The value `evil.com/x` ends the authority early. -/
theorem resolve_moves_boundary :
    ∃ u, UriLib.plain.parse ((TemplateTarget.mk tenantTemplate.text).resolve
        [("host".toList, "evil.com/x".toList)]) = some u ∧
      u.authority?.map (·.str) = some "evil.com".toList ∧
      ¬ KeepsBoundaries tenantTemplate [("host".toList, "evil.com/x".toList)] u :=
  ⟨.absolute .http ⟨"evil.com".toList, by decide⟩ ⟨"/x.example.com/api".toList⟩, by decide, rfl,
    fun h => absurd h.authority (by decide)⟩

end AxumReverseProxy
