import AxumReverseProxy.Lib.QuotedList
import AxumReverseProxy.Http.HeaderMap

/-!
# Reading a `Forwarded` field

The grammar of RFC 7239, as a recipient reads it: elements between commas, pairs between semicolons,
and values that are tokens or quoted strings with backslash escapes. Several lines are one value
with commas between them.
-/

namespace AxumReverseProxy

/-- The parameters of a `forwarded-element` and their values, unquoted. -/
abbrev ForwardedElement := List (Str × Str)

/-- The values of a parameter; its name is compared without case. -/
def ForwardedElement.values (e : ForwardedElement) (name : String) : List Str :=
  (e.filter fun p => p.1.eqIgnoreAsciiCase name.toList).map (·.2)

namespace Forwarded

def scan (s : Str) : QuotedList.Mode := QuotedList.scan '\"' '\\' .plain s

def pieces (sep : Char) (s : Str) : List Str := QuotedList.pieces '\"' '\\' sep .plain s

/-- `value = token / quoted-string`. -/
def parseValue (s : Str) : Option Str :=
  if s.IsToken then some s
  else if s.head? = some '\"' then QuotedList.unquote '\"' '\\' false s.tail
  else none

/-- `forwarded-pair = token "=" value`. -/
def parsePair (s : Str) : Option (Str × Str) :=
  match s.splitOnce '=' with
  | some (name, value) => if name.IsToken then (parseValue value).map (name, ·) else none
  | none => none

/-- `forwarded-element = [ forwarded-pair ] *( ";" [ forwarded-pair ] )`. -/
def parseElement (s : Str) : Option ForwardedElement :=
  ((pieces ';' (CommaList.trimBy isOws s)).filter (· ≠ [])).mapM parsePair

/-- The elements of a value, unless one is malformed or a quoted string is left open. -/
def parse (s : Str) : Option (List ForwardedElement) :=
  if scan s = .plain then (pieces ',' s).mapM parseElement else none

def elements (headers : HeaderMap) : Option (List ForwardedElement) :=
  let lines := (headers.getAll .forwarded).map HeaderValue.latin1
  if lines = [] then some [] else parse (Str.join lines ", ".toList)

example : parse "for=192.0.2.43, For=\"[2001:db8:cafe::17]\";proto=http".toList =
    some [[("for".toList, "192.0.2.43".toList)],
      [("For".toList, "[2001:db8:cafe::17]".toList), ("proto".toList, "http".toList)]] := by decide

/-! ### Joined values -/

variable {a b s p v name : Str} {es fs : List ForwardedElement} {e : ForwardedElement} {c : Char}

theorem parseElement_ows (s : Str) : parseElement (' ' :: s) = parseElement s := by
  rw [parseElement, parseElement]
  exact congrArg (fun t => ((pieces ';' t).filter (· ≠ [])).mapM parsePair)
    (CommaList.trimBy_append_left (a := [' ']) (by decide) s)

theorem parse_append (ha : parse a = some es) (hb : parse b = some fs) :
    parse (a ++ ", ".toList ++ b) = some (es ++ fs) := by
  unfold parse at ha hb
  split at ha
  · next hsa =>
    split at hb
    · next hsb =>
      have hab : a ++ ", ".toList ++ b = a ++ ',' :: (' ' :: b) := by rw [List.append_assoc]; rfl
      have hscan : scan (a ++ ", ".toList ++ b) = .plain := by
        rw [scan, QuotedList.scan_append, QuotedList.scan_append]
        rw [scan] at hsa hsb
        rw [hsa]; exact hsb
      obtain ⟨p, ps, hp⟩ := QuotedList.exists_pieces_eq_cons '\"' '\\' ',' .plain b
      have hspace : (pieces ',' (' ' :: b)).mapM parseElement = some fs := by
        rw [pieces, QuotedList.pieces_cons (by decide)]
        rw [pieces] at hb
        show ((QuotedList.pieces '\"' '\\' ',' .plain b).modifyHead _).mapM parseElement = some fs
        rw [hp] at hb ⊢
        rw [List.modifyHead_cons, List.mapM_cons, parseElement_ows, ← List.mapM_cons]; exact hb
      rw [parse, if_pos hscan, hab, pieces, QuotedList.pieces_append_sep (by decide) hsa, List.mapM_append]
      rw [pieces] at ha hspace
      rw [ha, hspace]; rfl
    · cases hb
  · cases ha

/-! ### The letters of the values -/

theorem parsePair_eq_some {q : Str × Str} (h : parsePair s = some q) :
    s = q.1 ++ '=' :: s.drop (q.1.length + 1) ∧ q.1.IsToken ∧
      parseValue (s.drop (q.1.length + 1)) = some q.2 := by
  unfold parsePair at h
  split at h
  · next n w hs =>
    split at h
    · next hn =>
      obtain ⟨u, hu, rfl⟩ := Option.map_eq_some_iff.1 h
      obtain rfl := Str.eq_of_splitOnce hs
      simp [hn, hu]
    · cases h
  · cases h

theorem mem_of_parseValue (h : parseValue s = some v) (hc : c ∈ v) : c ∈ s := by
  unfold parseValue at h
  split at h
  · cases h; exact hc
  · split at h
    · exact List.mem_of_mem_tail (QuotedList.mem_of_mem_unquote h hc)
    · cases h

theorem mem_parseValue (h : parseValue s = some v) (hc : c ∈ s) (hv : Str.isVisibleAscii c = false) :
    c ∈ v := by
  unfold parseValue at h
  split at h
  · cases h; exact hc
  · split at h
    · next hq =>
      obtain ⟨x, s, rfl⟩ := List.exists_cons_of_ne_nil (List.ne_nil_of_mem hc)
      cases hq
      rcases List.mem_cons.1 hc with rfl | hc
      · exact absurd hv (by decide)
      · exact QuotedList.mem_unquote h hc (fun hx => absurd (hx ▸ hv) (by decide))
          fun hx => absurd (hx ▸ hv) (by decide)
    · cases h

theorem mem_of_parse (h : parse s = some es) (he : e ∈ es) {p : Str × Str} (hp : p ∈ e) (hc : c ∈ p.2) :
    c ∈ s := by
  unfold parse at h
  split at h
  · obtain ⟨t, ht, hte⟩ := (QuotedList.mem_of_mapM h).1 e he
    obtain ⟨u, hu, hup⟩ := (QuotedList.mem_of_mapM hte).1 p hp
    obtain ⟨hu', -, hval⟩ := parsePair_eq_some hup
    have hcu : c ∈ u := by rw [hu']; simp [mem_of_parseValue hval hc]
    exact QuotedList.mem_of_mem_pieces ht
      (CommaList.mem_of_mem_trimBy (QuotedList.mem_of_mem_pieces (List.mem_filter.1 hu).1 hcu))
  · cases h

theorem exists_mem_of_parse (h : parse s = some es) (hc : c ∈ s) (hv : Str.isVisibleAscii c = false) :
    ∃ e ∈ es, ∃ p ∈ e, c ∈ p.2 := by
  have hne : ∀ d : Char, Str.isVisibleAscii d = true → c ≠ d := fun d hd hcd => by
    rw [hcd, hd] at hv; cases hv
  unfold parse at h
  split at h
  · obtain ⟨t, ht, hct⟩ := QuotedList.exists_mem_pieces (q := '\"') (e := '\\') (m := .plain) hc
      (hne ',' (by decide))
    obtain ⟨e, he, hte⟩ := (QuotedList.mem_of_mapM h).2 t ht
    have hows : isOws c = false := by
      simp [isOws, hne ' ' (by decide), hne '\t' (by decide)]
    obtain ⟨u, hu, hcu⟩ := QuotedList.exists_mem_pieces (q := '\"') (e := '\\') (m := .plain)
      (CommaList.mem_trimBy hct hows) (hne ';' (by decide))
    obtain ⟨p, hp, hup⟩ := (QuotedList.mem_of_mapM hte).2 u
      (List.mem_filter.2 ⟨hu, by simpa using List.ne_nil_of_mem hcu⟩)
    obtain ⟨hu', hn, hval⟩ := parsePair_eq_some hup
    rw [hu', List.mem_append, List.mem_cons] at hcu
    have hcn : c ∉ p.1 := fun hcn => by rw [hn.visible c hcn] at hv; cases hv
    exact ⟨e, he, p, hp, mem_parseValue hval ((hcu.resolve_left hcn).resolve_left (hne '=' (by decide))) hv⟩
  · cases h

theorem ne_nil_of_parse (h : parse s = some es) : es ≠ [] := by
  unfold parse at h
  split at h
  · intro he
    have hl := QuotedList.length_of_mapM h
    rw [he] at hl
    exact QuotedList.pieces_ne_nil (List.length_eq_zero_iff.1 hl.symm)
  · cases h

/-! ### Writing an element -/

/-- A text that is one element: its quotes are closed, and it stands alone between commas. -/
structure IsElementText (s : Str) : Prop where
  closed : scan s = .plain
  comma : pieces ',' s = [s]
  head : ∀ c ∈ s.head?, isOws c = false
  last : ∀ c ∈ s.getLast?, isOws c = false
  ne_nil : s ≠ []

theorem IsElementText.semicolon (ha : IsElementText a) (hb : IsElementText b) :
    IsElementText (a ++ ';' :: b) := by
  obtain ⟨x, a, rfl⟩ := List.exists_cons_of_ne_nil ha.ne_nil
  obtain ⟨y, b, rfl⟩ := List.exists_cons_of_ne_nil hb.ne_nil
  have hcomma : pieces ',' (';' :: y :: b) = [';' :: y :: b] := by
    have := hb.comma
    rw [pieces] at this ⊢
    rw [QuotedList.pieces_cons (by decide)]
    exact congrArg (List.modifyHead (';' :: ·)) this
  refine ⟨?_, ?_, ha.head, ?_, by simp⟩
  · have := hb.closed
    rw [scan] at this ⊢
    rw [QuotedList.scan_append, show QuotedList.scan '\"' '\\' .plain (x :: a) = .plain from ha.closed]
    exact this
  · refine QuotedList.pieces_append_self ha.comma ?_
    rw [show QuotedList.scan '\"' '\\' .plain (x :: a) = .plain from ha.closed]
    exact hcomma
  · intro c hc
    rw [Option.mem_def, List.getLast?_append, List.getLast?_cons_cons, List.getLast?_cons, Option.some_or,
      ← List.getLast?_cons] at hc
    exact hb.last c hc

/-- A text that is one pair of an element. -/
structure IsPairText (s : Str) : Prop extends IsElementText s where
  semicolon : pieces ';' s = [s]

theorem isElementText_pairs {ss : List Str} (h : ∀ s ∈ ss, IsPairText s) (hne : ss ≠ []) :
    IsElementText ([';'].intercalate ss) := by
  induction ss with
  | nil => exact absurd rfl hne
  | cons s ss ih =>
    cases ss with
    | nil => simpa using (h s (by simp)).toIsElementText
    | cons t ss =>
      rw [List.intercalate_cons_cons, List.append_assoc]
      exact (h s (by simp)).toIsElementText.semicolon
        (ih (fun t ht => h t (List.mem_cons_of_mem _ ht)) (by simp))

theorem pieces_pairs {ss : List Str} (h : ∀ s ∈ ss, IsPairText s) (hne : ss ≠ []) :
    pieces ';' ([';'].intercalate ss) = ss := by
  induction ss with
  | nil => exact absurd rfl hne
  | cons s ss ih =>
    cases ss with
    | nil => simpa using (h s (by simp)).semicolon
    | cons t ss =>
      have hs := h s (by simp)
      have ht := ih (fun t ht => h t (List.mem_cons_of_mem _ ht)) (by simp)
      rw [List.intercalate_cons_cons, List.append_assoc]
      refine (QuotedList.pieces_append_sep (by decide) hs.closed).trans ?_
      have hps := hs.semicolon
      rw [pieces] at hps ht
      rw [hps]
      exact congrArg (s :: ·) ht

theorem parse_pairs {ss : List Str} (h : ∀ s ∈ ss, IsPairText s) (hne : ss ≠ []) :
    parse ([';'].intercalate ss) = (ss.mapM parsePair).map fun e => [e] := by
  have ht := isElementText_pairs h hne
  have hfilter : ss.filter (· ≠ []) = ss :=
    List.filter_eq_self.2 fun s hs => by simpa using (h s hs).ne_nil
  have he : parseElement ([';'].intercalate ss) = ss.mapM parsePair := by
    rw [parseElement, CommaList.trimBy_eq_self ht.head ht.last, pieces_pairs h hne, hfilter]
  rw [parse, if_pos ht.closed, ht.comma, List.mapM_cons, List.mapM_nil, he]
  cases ss.mapM parsePair <;> rfl

theorem head_of_parse {p : Str × Str} {rest : Str} (ha : IsPairText a) (hp : parsePair a = some p)
    (hr : ∀ c ∈ rest.head?, c = ';') (h : parse (a ++ rest) = some es) :
    es.head?.bind List.head? = some p := by
  have hfirst : ∃ w ws, pieces ',' (a ++ rest) = (a ++ w) :: ws ∧ ∀ c ∈ w.head?, c = ';' := by
    rw [pieces, QuotedList.pieces_append ha.comma,
      show QuotedList.scan '\"' '\\' .plain a = .plain from ha.closed]
    cases rest with
    | nil => exact ⟨[], [], rfl, by simp⟩
    | cons c rest =>
      obtain rfl := hr c rfl
      obtain ⟨w, ws, hw⟩ := QuotedList.exists_pieces_eq_cons '\"' '\\' ','
        (QuotedList.Mode.next '\"' '\\' .plain ';') rest
      rw [QuotedList.pieces_cons (by decide), hw]
      exact ⟨';' :: w, ws, rfl, by simp⟩
  obtain ⟨w, ws, hw, hw'⟩ := hfirst
  have hpairs : ∃ qs, pieces ';' (CommaList.trimBy isOws (a ++ w)) = a :: qs := by
    cases w with
    | nil =>
      rw [List.append_nil, CommaList.trimBy_eq_self ha.head ha.last]
      exact ⟨[], ha.semicolon⟩
    | cons c w =>
      obtain rfl := hw' c rfl
      rw [CommaList.trimBy_append_cons (by decide) ha.head ha.ne_nil, pieces,
        QuotedList.pieces_append_sep (by decide) ha.closed]
      exact ⟨_, congrArg (· ++ _) ha.semicolon⟩
  obtain ⟨qs, hqs⟩ := hpairs
  unfold parse at h
  split at h
  · rw [hw, List.mapM_cons] at h
    obtain ⟨e, he, h⟩ := Option.bind_eq_some_iff.1 h
    obtain ⟨es, -, h⟩ := Option.bind_eq_some_iff.1 h
    cases h
    rw [parseElement, hqs, List.filter_cons_of_pos (by simpa using ha.ne_nil), List.mapM_cons] at he
    obtain ⟨p', hp', he⟩ := Option.bind_eq_some_iff.1 he
    obtain ⟨ps, -, he⟩ := Option.bind_eq_some_iff.1 he
    cases he
    exact hp'.symm.trans hp
  · cases h

/-! ### The two forms of a pair -/

theorem parsePair_of_value (hn : name.IsToken) :
    parsePair (name ++ '=' :: s) = (parseValue s).map (name, ·) := by
  rw [parsePair, Str.splitOnce_append (hn.not_mem (by decide))]
  exact if_pos hn

theorem isPairText_token (hn : name.IsToken) (hv : v.IsToken) : IsPairText (name ++ '=' :: v) := by
  have hmem : ∀ d : Char, isTchar d = false → d ≠ '=' → d ∉ name ++ '=' :: v := by
    intro d hd he h
    rcases List.mem_append.1 h with h | h
    · exact hn.not_mem hd h
    · exact hv.not_mem hd ((List.mem_cons.1 h).resolve_left he)
  have hows : ∀ c ∈ name ++ '=' :: v, isOws c = false := by
    intro c hc
    simp only [isOws, Bool.or_eq_false_iff, decide_eq_false_iff_not]
    exact ⟨fun h => hmem ' ' (by decide) (by decide) (h ▸ hc),
      fun h => hmem '\t' (by decide) (by decide) (h ▸ hc)⟩
  exact {
    closed := QuotedList.scan_plain_of_not_mem (hmem _ (by decide) (by decide))
    comma := QuotedList.pieces_of_not_mem (hmem _ (by decide) (by decide))
    semicolon := QuotedList.pieces_of_not_mem (hmem _ (by decide) (by decide))
    head := fun c hc => hows c (List.mem_of_mem_head? hc)
    last := fun c hc => hows c (List.mem_of_mem_getLast? hc)
    ne_nil := by simp }

theorem parsePair_token (hn : name.IsToken) (hv : v.IsToken) :
    parsePair (name ++ '=' :: v) = some (name, v) := by
  rw [parsePair_of_value hn, parseValue, if_pos hv]; rfl

/-- A pair whose value is quoted as it stands. -/
def quotedPair (name v : Str) : Str := name ++ '=' :: ('\"' :: v ++ ['\"'])

theorem quotedPair_last (hc : c ∈ (quotedPair name v).getLast?) : isOws c = false := by
  have hlast : quotedPair name v = (name ++ '=' :: '\"' :: v) ++ ['\"'] := by simp [quotedPair]
  rw [Option.mem_def, hlast, List.getLast?_concat] at hc
  obtain rfl := Option.some.inj hc
  decide

theorem isPairText_quoted (hn : name.IsToken) (hq : '\"' ∉ v) (he : '\\' ∉ v) :
    IsPairText (quotedPair name v) := by
  have hmem : ∀ d : Char, isTchar d = false → d ≠ '=' → d ∉ name ++ ['='] := by
    intro d hd he h
    rcases List.mem_append.1 h with h | h
    · exact hn.not_mem hd h
    · exact he (List.mem_singleton.1 h)
  have heq : quotedPair name v = (name ++ ['=']) ++ ('\"' :: v ++ ['\"']) := by simp [quotedPair]
  have hscan : QuotedList.scan '\"' '\\' .plain (name ++ ['=']) = .plain :=
    QuotedList.scan_plain_of_not_mem (hmem _ (by decide) (by decide))
  have hpieces : ∀ sep : Char, isTchar sep = false → sep ≠ '=' → sep ≠ '\"' →
      pieces sep (quotedPair name v) = [quotedPair name v] := by
    intro sep h1 h2 h3
    rw [heq]
    refine QuotedList.pieces_append_self (QuotedList.pieces_of_not_mem (hmem sep h1 h2)) ?_
    rw [hscan]
    exact QuotedList.pieces_quote h3 hq he
  refine ⟨⟨?_, hpieces ',' (by decide) (by decide) (by decide), ?_, ?_, by simp [quotedPair]⟩,
    hpieces ';' (by decide) (by decide) (by decide)⟩
  · rw [heq, scan, QuotedList.scan_append, hscan]
    exact QuotedList.scan_quote hq he
  · intro c hc
    obtain ⟨x, name, rfl⟩ := List.exists_cons_of_ne_nil hn.1
    obtain rfl : x = c := by simpa [quotedPair] using hc
    have hx := hn.not_mem (c := ' ') (by decide)
    have hy := hn.not_mem (c := '\t') (by decide)
    simp only [List.mem_cons, not_or] at hx hy
    simp [isOws, Ne.symm hx.1, Ne.symm hy.1]
  · intro c hc
    exact quotedPair_last hc

theorem parsePair_quoted (hn : name.IsToken) (hq : '\"' ∉ v) (he : '\\' ∉ v) :
    parsePair (quotedPair name v) = some (name, v) := by
  have ht : ¬ Str.IsToken ('\"' :: v ++ ['\"']) := fun h => absurd (h.2 '\"' (by simp)) (by decide)
  have hval : parseValue ('\"' :: v ++ ['\"']) = some v := by
    rw [parseValue, if_neg ht]
    exact QuotedList.unquote_append_quote hq he
  rw [quotedPair, parsePair_of_value hn, hval]; rfl

/-- A value pasted between quotes is read back only if it holds no quote and no backslash: otherwise
its escapes make it too long for the text it would have to come from. -/
theorem not_mem_of_parse_quoted {p q : Str × Str} (ha : IsPairText a) (hq : parsePair a = some q)
    (h : parse (a ++ ';' :: quotedPair name v) = some [e]) (hp : p ∈ e) (hne : p ≠ q)
    (hname : p.1.eqIgnoreAsciiCase name = true) (hpv : p.2 = v) : '\"' ∉ v ∧ '\\' ∉ v := by
  by_contra hv
  have helem : parseElement (a ++ ';' :: quotedPair name v) = some e := by
    unfold parse at h
    split at h
    · obtain ⟨w, hw⟩ := List.length_eq_one_iff.1 (QuotedList.length_of_mapM h).symm
      rw [hw, QuotedList.eq_of_pieces_eq_singleton hw, List.mapM_cons] at h
      obtain ⟨e', he, h⟩ := Option.bind_eq_some_iff.1 h
      cases h; exact he
    · cases h
  have hpairs : pieces ';' (CommaList.trimBy isOws (a ++ ';' :: quotedPair name v)) =
      a :: pieces ';' (quotedPair name v) := by
    rw [CommaList.trimBy_append_cons (by decide) ha.head ha.ne_nil,
      CommaList.rdropWhile_eq_self fun c hc => quotedPair_last hc, pieces,
      QuotedList.pieces_append_sep (by decide) ha.closed]
    exact congrArg (· ++ _) ha.semicolon
  rw [parseElement, hpairs] at helem
  obtain ⟨u, hu, hup⟩ := (QuotedList.mem_of_mapM helem).1 p hp
  have hu : u ∈ pieces ';' (quotedPair name v) := by
    rcases List.mem_cons.1 (List.mem_filter.1 hu).1 with rfl | hu
    · exact absurd (Option.some.inj (hup.symm.trans hq)) hne
    · exact hu
  obtain ⟨hu', -, hval⟩ := parsePair_eq_some hup
  have hlen : p.1.length = name.length := by
    have := congrArg List.length (eq_of_beq hname)
    simpa using this
  generalize u.drop (p.1.length + 1) = rest at hu' hval
  -- the value is no token, so it was unquoted
  have hunq : ∃ tail, rest = '\"' :: tail ∧ QuotedList.unquote '\"' '\\' false tail = some v := by
    unfold parseValue at hval
    split at hval
    · next ht =>
      obtain rfl : rest = v := (Option.some.inj hval).trans hpv
      exact absurd ⟨ht.not_mem (by decide), ht.not_mem (by decide)⟩ hv
    · split at hval
      · next hh =>
        obtain ⟨tail, rfl⟩ := List.head?_eq_some_iff.1 hh
        exact ⟨tail, rfl, hval.trans (congrArg some hpv)⟩
      · cases hval
  obtain ⟨tail, rfl, hunq⟩ := hunq
  obtain ⟨hlt, hplain⟩ := QuotedList.unquote_length hunq
  have hul : u.length = name.length + 2 + tail.length := by
    rw [hu', List.length_append, List.length_cons, List.length_cons, hlen]; omega
  have hbl : (quotedPair name v).length = name.length + 3 + v.length := by
    simp only [quotedPair, List.length_append, List.length_cons, List.length_nil]; omega
  have hub : u = quotedPair name v := QuotedList.eq_of_mem_pieces_of_length hu (by omega)
  rw [hub] at hul
  exact hv (hplain (by omega) rfl)

end Forwarded

end AxumReverseProxy
