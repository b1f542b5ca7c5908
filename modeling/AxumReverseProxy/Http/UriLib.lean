import AxumReverseProxy.Http.Uri

/-!
# Reading URIs

The grammar of an absolute URI as the text after `://` (`authorityText`, `pathAndQueryText`), what
the `http` crate reads of it (`UriLib`), and the documented behaviour the proxy relies on
(`UriLib.Lawful`). `UriLib.plain` is a reader of URIs with a plain `host:port` authority.
-/

namespace AxumReverseProxy

def isSchemeChar (c : Char) : Bool := c.isAlphanum || c ∈ "+-.".toList

def endsAuthority (c : Char) : Bool := c = '/' || c = '?' || c = '#'

/-- The authority of the text after `://`. -/
def authorityText (rest : Str) : Str := rest.takeWhile fun c => !endsAuthority c

/-- The path and query of the text after `://`, without the fragment. -/
def pathAndQueryText (rest : Str) : Str := (rest.dropWhile fun c => !endsAuthority c).takeWhile (· ≠ '#')

/-- The host of `host:port`, where an address in brackets may hold colons. -/
def hostOf (hostPort : Str) : Str :=
  if hostPort.head? = some '[' then hostPort.takeWhile (· ≠ ']') ++ [']']
  else hostPort.takeWhile (· ≠ ':')

/-- `Uri::host`: what follows the userinfo, without the port. -/
def Authority.host (a : Authority) : Str := hostOf (a.str.rtakeWhile (· ≠ '@'))

def queryText : Option Str → Str
  | none => []
  | some q => '?' :: q

/-- The functions of the `http` crate that read a URI or a part of one, and the characters that
may stand in a path and in a query. -/
structure UriLib where
  parse : Str → Option Uri
  parseScheme : Str → Option Scheme
  parseAuthority : Str → Option Authority
  parsePathAndQuery : Str → Option PathAndQuery
  pathChar : Char → Bool
  queryChar : Char → Bool

namespace UriLib

/-- `Uri::builder()` with a scheme, an authority and a path and query. -/
def build (lib : UriLib) (scheme authority pathAndQuery : Str) : Option Uri := do
  let scheme ← lib.parseScheme scheme
  let authority ← lib.parseAuthority authority
  let pathAndQuery ← lib.parsePathAndQuery pathAndQuery
  Uri.fromParts ⟨scheme, authority, pathAndQuery⟩

def IsPath (lib : UriLib) (p : Str) : Prop := p.head? = some '/' ∧ p.all lib.pathChar = true

def IsQuery (lib : UriLib) (q : Option Str) : Prop := ∀ s ∈ q, s.all lib.queryChar = true

instance (lib : UriLib) (p : Str) : Decidable (lib.IsPath p) := inferInstanceAs (Decidable (_ ∧ _))

instance (lib : UriLib) (q : Option Str) : Decidable (lib.IsQuery q) :=
  inferInstanceAs (Decidable (∀ s ∈ q, _))

/-- What the proxy relies on of the `http` crate. The length limits of a URI are set aside. -/
structure Lawful (lib : UriLib) : Prop where
  parseScheme_http : lib.parseScheme Scheme.http.str = some .http
  /-- The parts of a parsed URI are read again as themselves. -/
  parseScheme_of_parse {t u s} : lib.parse t = some u → u.scheme? = some s →
    lib.parseScheme s.str = some s
  parseAuthority_of_parse {t u a} : lib.parse t = some u → u.authority? = some a →
    lib.parseAuthority a.str = some a
  isPath_of_parse {t u a} : lib.parse t = some u → u.authority? = some a → u.path = [] ∨ lib.IsPath u.path
  pathChar_slash : lib.pathChar '/' = true
  pathChar_question : lib.pathChar '?' = false
  /-- A path and query made of the characters accepted there is accepted and kept as it is. -/
  parsePathAndQuery_eq {p q} : lib.IsPath p → lib.IsQuery q →
    lib.parsePathAndQuery (p ++ queryText q) = some ⟨p ++ queryText q⟩
  /-- An absolute URI is cut up by the grammar. -/
  parse_absolute {sch rest u} : sch ≠ [] → sch.all isSchemeChar = true →
    lib.parse (sch ++ "://".toList ++ rest) = some u →
    ∃ s a, u = .absolute s a ⟨pathAndQueryText rest⟩ ∧ s.str.eqIgnoreAsciiCase sch = true ∧
      a.str = authorityText rest

variable {lib : UriLib} {p : Str} {q : Option Str}

theorem IsPath.ne_nil (h : lib.IsPath p) : p ≠ [] := by rintro rfl; cases h.1

theorem IsPath.question_not_mem (hlib : lib.Lawful) (h : lib.IsPath p) : '?' ∉ p := fun hm => by
  have := List.all_eq_true.1 h.2 _ hm
  rw [hlib.pathChar_question] at this; cases this

theorem Lawful.isPath_slash (hlib : lib.Lawful) : lib.IsPath ['/'] := ⟨rfl, by simp [hlib.pathChar_slash]⟩

theorem IsPath.append {p' : Str} (h : lib.IsPath p) (h' : p'.all lib.pathChar = true) :
    lib.IsPath (p ++ p') := by
  refine ⟨?_, by rw [List.all_append, h.2, h']; rfl⟩
  rw [List.head?_append_of_ne_nil _ h.ne_nil, h.1]

end UriLib

/-! ### Path and query -/

theorem takeWhile_append_cons {α : Type*} {p : α → Bool} {l r : List α} {x : α}
    (hl : ∀ y ∈ l, p y = true) (hx : p x = false) : (l ++ x :: r).takeWhile p = l := by
  rw [List.takeWhile_append_of_pos hl, List.takeWhile_cons_of_neg (by simp [hx]), List.append_nil]

theorem decide_ne_of_not_mem {l : Str} {x : Char} (h : x ∉ l) : ∀ c ∈ l, decide (c ≠ x) = true :=
  fun _ hc => decide_eq_true (ne_of_mem_of_not_mem hc h)

theorem takeWhile_question {p : Str} {q : Option Str} (hp : '?' ∉ p) :
    (p ++ queryText q).takeWhile (· ≠ '?') = p := by
  have h := decide_ne_of_not_mem hp
  cases q with
  | none => rw [queryText, List.append_nil, List.takeWhile_eq_self_iff.2 h]
  | some q => exact takeWhile_append_cons h (by decide)

theorem dropWhile_question {p : Str} {q : Option Str} (hp : '?' ∉ p) :
    (p ++ queryText q).dropWhile (· ≠ '?') = queryText q := by
  rw [List.dropWhile_append_of_pos (decide_ne_of_not_mem hp)]
  cases q <;> rfl

theorem splitOnce_question {p : Str} {q : Option Str} (hp : '?' ∉ p) :
    Str.splitOnce (p ++ queryText q) '?' = q.map fun q => (p, q) := by
  cases q with
  | none =>
    rw [Str.splitOnce, dropWhile_question hp]
    rfl
  | some q => exact Str.splitOnce_append hp q

namespace PathAndQuery

variable {p : Str} {q : Option Str}

theorem path_mk (hp : '?' ∉ p) (hne : p ≠ []) : (⟨p ++ queryText q⟩ : PathAndQuery).path = p := by
  rw [path, takeWhile_question hp]; exact if_neg hne

theorem query_mk (hp : '?' ∉ p) : (⟨p ++ queryText q⟩ : PathAndQuery).query = q := by
  rw [query, splitOnce_question hp]; cases q <;> rfl

end PathAndQuery

/-! ### The text behind `://` -/

section Grammar

variable {auth tail : Str}

theorem authorityText_append (ha : ∀ c ∈ auth, endsAuthority c = false)
    (ht : ∀ c ∈ tail.head?, endsAuthority c = true) : authorityText (auth ++ tail) = auth := by
  rw [authorityText]
  cases tail with
  | nil => rw [List.append_nil]; exact List.takeWhile_eq_self_iff.2 fun c hc => by simp [ha c hc]
  | cons c tail => exact takeWhile_append_cons (fun d hd => by simp [ha d hd]) (by simp [ht c rfl])

theorem pathAndQueryText_append (ha : ∀ c ∈ auth, endsAuthority c = false)
    (ht : ∀ c ∈ tail.head?, endsAuthority c = true) :
    pathAndQueryText (auth ++ tail) = tail.takeWhile (· ≠ '#') := by
  rw [pathAndQueryText, List.dropWhile_append_of_pos fun c hc => by simp [ha c hc]]
  cases tail with
  | nil => rfl
  | cons c tail => rw [List.dropWhile_cons_of_neg (by simp [ht c rfl])]

variable {host port : Str}

theorem rtakeWhile_at {userinfo : Str} (h : '@' ∉ tail) :
    (userinfo ++ '@' :: tail).rtakeWhile (· ≠ '@') = tail := by
  have hr : ∀ c ∈ tail.reverse, decide (c ≠ '@') = true :=
    fun c hc => decide_ne_of_not_mem h c (List.mem_reverse.1 hc)
  rw [List.rtakeWhile, List.reverse_append, List.reverse_cons, List.append_assoc, List.singleton_append,
    takeWhile_append_cons hr (by decide), List.reverse_reverse]

theorem hostOf_name (hh : '[' ∉ host) (hport : ∀ c ∈ port.head?, c = ':') :
    hostOf (host ++ port) = host ↔ ':' ∉ host := by
  have hhead : (host ++ port).head? ≠ some '[' := by
    intro h
    cases host with
    | nil => exact absurd (hport _ h) (by decide)
    | cons c l => cases h; simp at hh
  rw [hostOf, if_neg hhead]
  constructor
  · intro h hm
    rw [← h] at hm
    simpa using List.mem_takeWhile_imp hm
  · intro h
    cases port with
    | nil => rw [List.append_nil]; exact List.takeWhile_eq_self_iff.2 (decide_ne_of_not_mem h)
    | cons c port => rw [hport c rfl]; exact takeWhile_append_cons (decide_ne_of_not_mem h) (by decide)

theorem hostOf_literal (hh : ']' ∉ host) :
    hostOf ('[' :: host ++ ']' :: port) = '[' :: host ++ [']'] := by
  have h : ']' ∉ '[' :: host := by simpa using hh
  have hhead : ('[' :: host ++ ']' :: port).head? = some '[' := rfl
  rw [hostOf, if_pos hhead, takeWhile_append_cons (decide_ne_of_not_mem h) (by decide)]

theorem slash_not_mem_authorityText (rest : Str) : '/' ∉ authorityText rest := fun h => by
  have := List.mem_takeWhile_imp h
  simp [endsAuthority] at this

end Grammar

/-! ### A plain reader -/

namespace UriLib.plain

def pathChar (c : Char) : Bool := 33 ≤ c.toNat && c ∉ "#<>?`".toList

def queryChar (c : Char) : Bool := 33 ≤ c.toNat && c ∉ "\"#<>".toList

/-- A host and perhaps a port, with no userinfo, bracket or escape. -/
def IsAuthority (s : Str) : Prop :=
  s ≠ [] ∧ s.all isUriChar = true ∧ (∀ c ∈ "/?#[]@%".toList, c ∉ s) ∧ s.count ':' ≤ 1

instance (s : Str) : Decidable (IsAuthority s) := inferInstanceAs (Decidable (_ ∧ _))

def IsPathAndQuery (s : Str) : Prop :=
  (s.takeWhile (· ≠ '?')).all pathChar = true ∧ (s.dropWhile (· ≠ '?')).all queryChar = true

instance (s : Str) : Decidable (IsPathAndQuery s) := inferInstanceAs (Decidable (_ ∧ _))

def parseScheme (s : Str) : Option Scheme := if s ≠ [] ∧ s.all isSchemeChar = true then some ⟨s⟩ else none

def parseAuthority (s : Str) : Option Authority :=
  if h : IsAuthority s then some ⟨s, h.2.1⟩ else none

def parsePathAndQuery (s : Str) : Option PathAndQuery :=
  let data := s.takeWhile (· ≠ '#')
  if IsPathAndQuery data then some ⟨data⟩ else none

/-- The text behind `://`, when a scheme stands before it. -/
def splitScheme (t : Str) : Option (Str × Str) :=
  match t.dropWhile isSchemeChar with
  | ':' :: '/' :: '/' :: rest => some (t.takeWhile isSchemeChar, rest)
  | _ => none

def parse (t : Str) : Option Uri :=
  if t.head? = some '/' then (parsePathAndQuery t).map .origin
  else match splitScheme t with
    | some (sch, rest) => do
      let scheme ← parseScheme sch
      let authority ← parseAuthority (authorityText rest)
      let pathAndQuery ← parsePathAndQuery (rest.dropWhile fun c => !endsAuthority c)
      some (.absolute scheme authority pathAndQuery)
    | none => (parseAuthority t).map .authority

end UriLib.plain

def UriLib.plain : UriLib where
  parse := plain.parse
  parseScheme := plain.parseScheme
  parseAuthority := plain.parseAuthority
  parsePathAndQuery := plain.parsePathAndQuery
  pathChar := plain.pathChar
  queryChar := plain.queryChar

namespace UriLib.plain

theorem parsePathAndQuery_eq_some {s : Str} {pq : PathAndQuery} (h : parsePathAndQuery s = some pq) :
    pq.data = s.takeWhile (· ≠ '#') ∧ IsPathAndQuery pq.data := by
  unfold parsePathAndQuery at h
  simp only at h
  split at h
  · next hs => cases h; exact ⟨rfl, hs⟩
  · cases h

theorem parseAuthority_self {s : Str} {a : Authority} (h : parseAuthority s = some a) :
    a.str = s ∧ parseAuthority a.str = some a := by
  have h' := h
  unfold parseAuthority at h'
  split at h'
  · cases h'; exact ⟨rfl, h⟩
  · cases h'

theorem parseScheme_self {s : Str} {sch : Scheme} (h : parseScheme s = some sch) :
    sch.str = s ∧ parseScheme sch.str = some sch := by
  have h' := h
  unfold parseScheme at h'
  split at h'
  · cases h'; exact ⟨rfl, h⟩
  · cases h'

theorem parse_cases {t : Str} {u : Uri} (h : parse t = some u) :
    (∃ pq, u = .origin pq) ∨ (∃ a, u = .authority a ∧ parseAuthority t = some a) ∨
      ∃ sch rest s a pq, splitScheme t = some (sch, rest) ∧ u = .absolute s a pq ∧
        parseScheme sch = some s ∧ parseAuthority (authorityText rest) = some a ∧
        parsePathAndQuery (rest.dropWhile fun c => !endsAuthority c) = some pq := by
  unfold parse at h
  split at h
  · obtain ⟨pq, -, rfl⟩ := Option.map_eq_some_iff.1 h
    exact .inl ⟨pq, rfl⟩
  · split at h
    · next sch rest hs =>
      simp only [Option.bind_eq_bind, Option.bind_eq_some_iff, Option.some.injEq] at h
      obtain ⟨s, h1, a, h2, pq, h3, rfl⟩ := h
      exact .inr (.inr ⟨sch, rest, s, a, pq, hs, rfl, h1, h2, h3⟩)
    · obtain ⟨a, ha, rfl⟩ := Option.map_eq_some_iff.1 h
      exact .inr (.inl ⟨a, rfl, ha⟩)

theorem head?_pathAndQueryText (rest : Str) :
    (pathAndQueryText rest).head? = none ∨ (pathAndQueryText rest).head? = some '/' ∨
      (pathAndQueryText rest).head? = some '?' := by
  unfold pathAndQueryText
  cases hd : rest.dropWhile fun c => !endsAuthority c with
  | nil => exact .inl rfl
  | cons c l =>
    have hc : endsAuthority c = true := by
      have := List.head_dropWhile_not (fun c => !endsAuthority c) (l := rest) (by simp [hd])
      simpa [hd] using this
    simp only [endsAuthority, Bool.or_eq_true, decide_eq_true_eq] at hc
    rcases hc with (rfl | rfl) | rfl <;> simp

theorem isPath_path {rest : Str} {pq : PathAndQuery}
    (h : plain.parsePathAndQuery (rest.dropWhile fun c => !endsAuthority c) = some pq) :
    UriLib.plain.IsPath pq.path := by
  obtain ⟨hd, hpq⟩ := plain.parsePathAndQuery_eq_some h
  have hh := plain.head?_pathAndQueryText rest
  rw [pathAndQueryText, ← hd] at hh
  unfold PathAndQuery.path
  simp only
  split
  · exact ⟨rfl, by decide⟩
  · next hne =>
    refine ⟨?_, hpq.1⟩
    cases hdata : pq.data with
    | nil => simp [hdata] at hne
    | cons c l =>
      rw [hdata] at hh hne
      rcases hh with hh | hh | hh
      · cases hh
      · cases hh; rfl
      · cases hh; simp at hne

theorem hash_not_mem_queryText {q : Option Str} (hq : UriLib.plain.IsQuery q) : '#' ∉ queryText q := by
  intro hc
  cases q with
  | none => cases hc
  | some q =>
    rcases List.mem_cons.1 hc with h | hc
    · exact absurd h (by decide)
    · exact absurd (List.all_eq_true.1 (hq q rfl) _ hc) (by decide)

theorem hash_not_mem {p : Str} {q : Option Str} (hp : UriLib.plain.IsPath p) (hq : UriLib.plain.IsQuery q) :
    '#' ∉ p ++ queryText q := by
  intro hc
  rcases List.mem_append.1 hc with hc | hc
  · exact absurd (List.all_eq_true.1 hp.2 _ hc) (by decide)
  · exact hash_not_mem_queryText hq hc

theorem splitScheme_absolute {sch rest : Str} (hsch : sch.all isSchemeChar = true) :
    splitScheme (sch ++ "://".toList ++ rest) = some (sch, rest) := by
  have he : sch ++ "://".toList ++ rest = sch ++ ':' :: '/' :: '/' :: rest := by
    rw [List.append_assoc]; rfl
  have hall := List.all_eq_true.1 hsch
  rw [splitScheme, he, List.dropWhile_append_of_pos hall, takeWhile_append_cons hall (by decide)]
  rfl

theorem parse_absolute_ne_origin {sch rest : Str} {pq : PathAndQuery} (hne : sch ≠ [])
    (hsch : sch.all isSchemeChar = true) : parse (sch ++ "://".toList ++ rest) ≠ some (.origin pq) := by
  intro h
  rw [parse, splitScheme_absolute hsch, if_neg] at h
  · simp [Option.bind_eq_some_iff] at h
  · cases sch with
    | nil => exact absurd rfl hne
    | cons c sch =>
      intro hc
      cases hc
      simp [isSchemeChar] at hsch

end UriLib.plain

theorem UriLib.plain_lawful : UriLib.plain.Lawful where
  parseScheme_http := by decide
  parseScheme_of_parse {t u s} h hs := by
    rcases plain.parse_cases h with ⟨pq, rfl⟩ | ⟨a, rfl, -⟩ | ⟨sch, rest, s', a, pq, -, rfl, h1, -, -⟩
    · cases hs
    · cases hs
    · cases hs; exact (plain.parseScheme_self h1).2
  parseAuthority_of_parse {t u a} h ha := by
    rcases plain.parse_cases h with ⟨pq, rfl⟩ | ⟨a', rfl, h1⟩ | ⟨sch, rest, s, a', pq, -, rfl, -, h1, -⟩
    · cases ha
    · cases ha; exact (plain.parseAuthority_self h1).2
    · cases ha; exact (plain.parseAuthority_self h1).2
  isPath_of_parse {t u a} h ha := by
    rcases plain.parse_cases h with ⟨pq, rfl⟩ | ⟨a', rfl, -⟩ | ⟨sch, rest, s, a', pq, -, rfl, -, -, h1⟩
    · cases ha
    · exact .inl rfl
    · exact .inr (plain.isPath_path h1)
  pathChar_slash := by decide
  pathChar_question := by decide
  parsePathAndQuery_eq {p q} hp hq := by
    have hp' : '?' ∉ p := fun hm => absurd (List.all_eq_true.1 hp.2 _ hm) (by decide)
    change plain.parsePathAndQuery _ = _
    rw [plain.parsePathAndQuery, List.takeWhile_eq_self_iff.2
      (decide_ne_of_not_mem (plain.hash_not_mem hp hq))]
    refine if_pos ⟨?_, ?_⟩
    · rw [takeWhile_question hp']; exact hp.2
    · rw [dropWhile_question hp']
      cases q with
      | none => rfl
      | some q => exact (List.all_cons ..).trans (Bool.and_eq_true_iff.2 ⟨by decide, hq q rfl⟩)
  parse_absolute {sch rest u} hne hsch h := by
    rcases plain.parse_cases h with ⟨pq, rfl⟩ | ⟨a, rfl, ha⟩ |
      ⟨sch', rest', s, a, pq, hs, rfl, h1, h2, h3⟩
    · exact absurd h (plain.parse_absolute_ne_origin hne hsch)
    · exfalso
      unfold plain.parseAuthority at ha
      split at ha
      · next hA => exact hA.2.2.1 '/' (by decide) (by simp)
      · cases ha
    · rw [plain.splitScheme_absolute hsch] at hs
      cases hs
      refine ⟨s, a, ?_, ?_, (plain.parseAuthority_self h2).1⟩
      · rw [pathAndQueryText, ← (plain.parsePathAndQuery_eq_some h3).1]
      · rw [(plain.parseScheme_self h1).1, Str.eqIgnoreAsciiCase, beq_iff_eq]

end AxumReverseProxy
