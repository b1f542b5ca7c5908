import AxumReverseProxy.Policy

/-!
# Hop-by-hop fields

`hop_by_hop_headers` computes the names to strip from a message: the standard ones and those the
readable `Connection` lines nominate. `mem_hopByHopHeaders` says which names these are.
-/

namespace AxumReverseProxy

open HeaderName

def HOP_BY_HOP_HEADERS : List HeaderName :=
  [.connection, .keepAlive, .proxyConnection, .transferEncoding, .te, .trailer, .upgrade]

def isTrailers (v : HeaderValue) : Bool :=
  (v.toStr.map fun s => s.trim.eqIgnoreAsciiCase "trailers".toList).getD false

def insertNominated (strip : List HeaderName) (connection : Str) : List HeaderName :=
  (connection.split ',').foldl (fun strip nominated =>
    match HeaderName.tryFrom nominated.trim with
    | some name => name :: strip
    | none => strip) strip

def hopByHopHeaders (headers : HeaderMap) : List HeaderName :=
  let strip := HOP_BY_HOP_HEADERS
  let strip := match headers.get te with
    | some v => if isTrailers v then strip.filter (· ≠ te) else strip
    | none => strip
  (headers.getAll connection).foldl (fun strip connection =>
    match connection.toStr with
    | some connection => insertNominated strip connection
    | none => strip) strip

def stripHopByHopResponseHeaders (headers : HeaderMap) : HeaderMap :=
  (hopByHopHeaders headers).foldl MultiMap.remove headers

/-! ### Which names are stripped -/

def ElementNames (s : Str) (name : HeaderName) : Prop :=
  ∃ e ∈ s.commaElements, HeaderName.tryFrom e = some name

instance (s : Str) (name : HeaderName) : Decidable (ElementNames s name) :=
  inferInstanceAs (Decidable (∃ e ∈ s.commaElements, _))

/-- A readable `Connection` line names `name`. -/
def NominatedReadably (headers : HeaderMap) (name : HeaderName) : Prop :=
  ∃ s ∈ headers.readable connection, ElementNames s name

instance (headers : HeaderMap) (name : HeaderName) : Decidable (NominatedReadably headers name) :=
  inferInstanceAs (Decidable (∃ s ∈ headers.readable connection, _))

/-- Some `Connection` line, readable or not, names `name` in one of its elements. -/
def Nominated (headers : HeaderMap) (name : HeaderName) : Prop :=
  ∃ v ∈ headers.getAll connection, ∃ e ∈ CommaList.elements ',' isOws v.latin1,
    HeaderName.tryFrom e = some name

instance (headers : HeaderMap) (name : HeaderName) : Decidable (Nominated headers name) :=
  inferInstanceAs (Decidable (∃ v ∈ headers.getAll connection, _))

/-- The first `TE` line is `trailers`. -/
def KeepsTe (headers : HeaderMap) : Prop := (headers.get te).any isTrailers = true

instance (headers : HeaderMap) : Decidable (KeepsTe headers) := inferInstanceAs (Decidable (_ = true))

variable {headers headers' : HeaderMap} {name : HeaderName}

theorem mem_insertNominated {strip : List HeaderName} {s : Str} :
    name ∈ insertNominated strip s ↔ ElementNames s name ∨ name ∈ strip := by
  have h : ∀ (es : List Str) (strip : List HeaderName),
      name ∈ es.foldl (fun strip nominated =>
        match HeaderName.tryFrom nominated.trim with
        | some name => name :: strip
        | none => strip) strip ↔
      (∃ e ∈ es, HeaderName.tryFrom e.trim = some name) ∨ name ∈ strip := by
    intro es
    induction es with
    | nil => simp
    | cons e es ih =>
      intro strip
      rw [List.foldl_cons, ih]
      cases he : HeaderName.tryFrom e.trim with
      | none => simp [he]
      | some n =>
        simp only [List.mem_cons, exists_eq_or_imp, he, Option.some.injEq]
        rw [@eq_comm _ name, or_left_comm, or_assoc]
  rw [insertNominated, h]
  simp [ElementNames, Str.commaElements]

/-- The names stripped are the standard ones, less `te` when it is kept, and the nominated ones. -/
theorem mem_hopByHopHeaders :
    name ∈ hopByHopHeaders headers ↔
      (name ∈ HOP_BY_HOP_HEADERS ∧ ¬ (name = te ∧ KeepsTe headers)) ∨ NominatedReadably headers name := by
  have h : ∀ (vs : List HeaderValue) (strip : List HeaderName),
      name ∈ vs.foldl (fun strip connection =>
        match connection.toStr with
        | some connection => insertNominated strip connection
        | none => strip) strip ↔
      name ∈ strip ∨ ∃ s ∈ vs.filterMap HeaderValue.toStr, ElementNames s name := by
    intro vs
    induction vs with
    | nil => simp
    | cons v vs ih =>
      intro strip
      rw [List.foldl_cons, ih]
      cases hv : v.toStr with
      | none => rw [List.filterMap_cons_none hv]
      | some s =>
        rw [List.filterMap_cons_some hv]
        simp only [mem_insertNominated, List.mem_cons, exists_eq_or_imp]
        rw [@or_comm (ElementNames s name), or_assoc]
  rw [hopByHopHeaders, h]
  refine or_congr ?_ Iff.rfl
  unfold KeepsTe
  cases ht : headers.get te with
  | none => simp
  | some v =>
    by_cases hv : isTrailers v = true
    · simp [hv]
    · simp [hv]

theorem isWhitespace_eq_isOws {c : Char} (h : Str.isVisibleAscii c = true) :
    Str.isWhitespace c = isOws c := by
  have hlt := Str.toNat_lt_of_visible h
  have hall : ∀ i < 128, Str.isVisibleAscii (Char.ofNat i) = true →
      Str.isWhitespace (Char.ofNat i) = isOws (Char.ofNat i) := by decide
  have := hall c.toNat (by omega)
  rw [Char.ofNat_toNat] at this
  exact this h

/-- On readable text the white space of `str::trim` is the one that may surround an element. -/
theorem commaElements_of_visible {s : Str} (h : s.Visible) :
    s.commaElements = CommaList.elements ',' isOws s :=
  List.map_congr_left fun _ hw => CommaList.trimBy_congr fun c hc =>
    isWhitespace_eq_isOws (h c (CommaList.mem_of_mem_splitOn hw hc))

theorem nominated_of_nominatedReadably (h : NominatedReadably headers name) : Nominated headers name := by
  obtain ⟨s, hs, e, he, hn⟩ := h
  obtain ⟨v, hv, hvs⟩ := List.mem_filterMap.1 hs
  obtain ⟨hr, rfl⟩ := HeaderValue.toStr_eq_some.1 hvs
  rw [commaElements_of_visible (HeaderValue.visible_latin1_iff.2 hr)] at he
  exact ⟨v, hv, e, he, hn⟩

theorem getAll_stripHopByHopResponseHeaders :
    (stripHopByHopResponseHeaders headers).getAll name =
      if name ∈ hopByHopHeaders headers then [] else headers.getAll name :=
  MultiMap.getAll_foldl_remove _ _ _

theorem nominatedReadably_congr (h : headers.getAll connection = headers'.getAll connection) :
    NominatedReadably headers name ↔ NominatedReadably headers' name := by
  rw [NominatedReadably, NominatedReadably, HeaderMap.readable_congr h]

theorem keepsTe_congr (h : headers.getAll te = headers'.getAll te) :
    KeepsTe headers ↔ KeepsTe headers' := by
  rw [KeepsTe, KeepsTe, MultiMap.get_congr h]

theorem mem_hopByHopHeaders_congr (hte : headers.getAll te = headers'.getAll te)
    (hc : headers.getAll connection = headers'.getAll connection) :
    name ∈ hopByHopHeaders headers ↔ name ∈ hopByHopHeaders headers' := by
  rw [mem_hopByHopHeaders, mem_hopByHopHeaders, keepsTe_congr hte, nominatedReadably_congr hc]

end AxumReverseProxy
