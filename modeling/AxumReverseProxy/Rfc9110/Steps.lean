import AxumReverseProxy.Rfc9110.Layer

/-!
# The parts of an `Rfc9110` service

What each part of `call` writes and what it leaves alone: `Max-Forwards` is counted down, the fields of
the hop are removed (`mem_headersToRemove`), and `Via` gets the service's own element behind those it
keeps (`addViaHeader_eq`).
-/

namespace AxumReverseProxy.Rfc9110

open HeaderName

def preserves (config : Config) (request : Request) : Bool :=
  config.preserveWebsocketHeaders && isWebsocketUpgradeRequest request

def viaLine (request : Request) : Option Str := (request.headers.get via).bind HeaderValue.toStr

/-- Every element of the `Via` line starts with the protocol version of the request. -/
def SameProtocol (request : Request) : Prop :=
  ∀ s ∈ viaLine request, ((s.split ',').map Str.trim).all (·.startsWith (viaProtocol request.version)) =
    true

instance (request : Request) : Decidable (SameProtocol request) :=
    inferInstanceAs (Decidable (∀ s ∈ viaLine request, _))

/-- The elements of the first `Via` line. -/
def viaEntries (request : Request) : List Str :=
  ((viaLine request).map fun line => (line.split ',').map Str.trim).getD []

/-- The service replaces the elements it finds by its own. -/
def Combines (config : Config) (request : Request) : Prop :=
  config.combineVia = true ∧ config.pseudonym.isSome = true ∧ SameProtocol request

instance (config : Config) (request : Request) : Decidable (Combines config request) :=
  inferInstanceAs (Decidable (_ ∧ _ ∧ _))

def ownText (config : Config) (request : Request) : Str :=
  viaProtocol request.version ++ " ".toList ++ config.pseudonym.getD "proxy".toList

/-- The request a service passes on, unless it answers itself. -/
def step (request : Request) (config : Config) : Option Request :=
  (receive config request).toOption.map (·.request)

variable {request request' : Request} {config : Config} {response : Response} {passed : Passed}
  {n : HeaderName} {headers headers' : HeaderMap} {b : Bool}

/-! ### `Max-Forwards` -/

theorem processMaxForwards_cases (h : processMaxForwards request = .ok request') : request' = request ∨
    request.headers.getAll maxForwards ≠ [] ∧
      ∃ value, request' = { request with headers := request.headers.insert maxForwards value } := by
  unfold processMaxForwards at h
  split at h
  · cases h; exact .inl rfl
  · next v hv =>
    have hne : request.headers.getAll maxForwards ≠ [] := fun hnil => by
      rw [MultiMap.get_eq_none_iff.2 hnil] at hv
      cases hv
    split at h
    · cases h; exact .inl rfl
    · split at h
      · cases h; exact .inl rfl
      · split at h <;> cases h
      · cases h; exact .inr ⟨hne, _, rfl⟩

theorem processMaxForwards_ok (h : processMaxForwards request = .ok request') :
    request'.uri = request.uri ∧ request'.version = request.version ∧
      ∀ n ≠ maxForwards, request'.headers.getAll n = request.headers.getAll n := by
  rcases processMaxForwards_cases h with rfl | ⟨-, value, rfl⟩
  · exact ⟨rfl, rfl, fun _ _ => rfl⟩
  · exact ⟨rfl, rfl, fun n hn => MultiMap.getAll_insert_ne hn⟩

theorem getAll_processMaxForwards_eq_nil_iff (h : processMaxForwards request = .ok request') :
    request'.headers.getAll n = [] ↔ request.headers.getAll n = [] := by
  rcases processMaxForwards_cases h with rfl | ⟨hne, value, rfl⟩
  · rfl
  · by_cases hn : n = maxForwards
    · subst hn
      exact iff_of_false (by simp) hne
    · rw [MultiMap.getAll_insert_ne hn]

theorem processMaxForwards_error (h : processMaxForwards request = .error response) :
    response.status = .ok := by
  unfold processMaxForwards at h
  split at h
  · cases h
  · split at h
    · cases h
    · split at h
      · cases h
      · split at h <;> (cases h; rfl)
      · cases h

theorem preserves_processMaxForwards (h : processMaxForwards request = .ok request') :
    preserves config request' = preserves config request := by
  obtain ⟨-, -, hheaders⟩ := processMaxForwards_ok h
  unfold preserves isWebsocketUpgradeRequest
  rw [MultiMap.containsKey_congr (hheaders _ (by decide)),
    MultiMap.containsKey_congr (hheaders _ (by decide))]

/-! ### Hop-by-hop fields -/

theorem getAll_removeHeaders :
    (removeHeaders headers b).getAll n = if n ∈ headersToRemove headers b then [] else headers.getAll n :=
  MultiMap.getAll_foldl_remove ..

theorem headersToRemove_congr (h : headers.getAll connection = headers'.getAll connection) :
    headersToRemove headers b = headersToRemove headers' b := by
  rw [headersToRemove, headersToRemove, MultiMap.get_congr h]

theorem headersToRemove_processMaxForwards (h : processMaxForwards request = .ok request') :
    headersToRemove request'.headers b = headersToRemove request.headers b :=
  headersToRemove_congr ((processMaxForwards_ok h).2.2 _ (by decide))

/-- The first `Connection` line, if it can be read, names `n`. -/
def NamedFirst (headers : HeaderMap) (n : HeaderName) : Prop :=
  ∃ s ∈ (headers.get connection).bind HeaderValue.toStr, ElementNames s n

instance (headers : HeaderMap) (n : HeaderName) : Decidable (NamedFirst headers n) :=
  inferInstanceAs (Decidable (∃ s ∈ (headers.get connection).bind HeaderValue.toStr, _))

theorem namedFirst_congr (h : headers.getAll connection = headers'.getAll connection) :
    NamedFirst headers n ↔ NamedFirst headers' n := by
  rw [NamedFirst, NamedFirst, MultiMap.get_congr h]

/-- A listed end-to-end field, or one of the pair of a WebSocket upgrade that is preserved. -/
def Exempt (preserve : Bool) (n : HeaderName) : Prop :=
  isEndToEndHeader n = true ∨ preserve = true ∧ n ∈ WEBSOCKET_HEADERS

instance (preserve : Bool) (n : HeaderName) : Decidable (Exempt preserve n) :=
    inferInstanceAs (Decidable (_ ∨ _))

theorem isEndToEndHeader_eq_false : ∀ m ∈ via :: HOP_BY_HOP_HEADERS, isEndToEndHeader m = false := by decide

/-- No hop-by-hop name is a listed end-to-end field, so the list alone decides. -/
theorem hopByHop_or_not_endToEnd (n : HeaderName) :
    (isHopByHopHeader n || !isEndToEndHeader n) = !isEndToEndHeader n := by
  by_cases h : isHopByHopHeader n = true
  · have hmem : n ∈ via :: HOP_BY_HOP_HEADERS := by
      simpa [isHopByHopHeader, or_comm] using h
    rw [isEndToEndHeader_eq_false n hmem]
    simp
  · rw [Bool.not_eq_true] at h
    rw [h, Bool.false_or]

theorem mem_nominatedNames {s : Str} : n ∈ nominatedNames s b ↔ ElementNames s n ∧ ¬ Exempt b n := by
  have hone : ∀ e : Str, (if b && WEBSOCKET_HEADERS.any fun h => e.eqIgnoreAsciiCase h.str then none
      else (HeaderName.tryFrom e).filter fun name => isHopByHopHeader name || !isEndToEndHeader
        name) = some n ↔
        HeaderName.tryFrom e = some n ∧ ¬ Exempt b n := by
    intro e
    simp only [hopByHop_or_not_endToEnd, Bool.and_eq_true, List.any_eq_true, eqIgnoreAsciiCase_iff, Exempt]
    split
    · next h =>
      obtain ⟨hb, m, hm, he⟩ := h
      refine iff_of_false (by simp) ?_
      rintro ⟨hn, hex⟩
      rw [he] at hn
      cases hn
      exact hex (.inr ⟨hb, hm⟩)
    · next h =>
      rw [Option.filter_eq_some_iff]
      refine and_congr_right fun he => ?_
      have hpair : ¬ (b = true ∧ n ∈ WEBSOCKET_HEADERS) := fun hc => h ⟨hc.1, n, hc.2, he⟩
      simp [hpair]
  unfold nominatedNames
  simp only [List.mem_filterMap, hone, ElementNames, Str.commaElements, List.mem_map]
  constructor
  · rintro ⟨e, he, hn, hex⟩
    exact ⟨⟨_, ⟨e, he, rfl⟩, hn⟩, hex⟩
  · rintro ⟨⟨_, ⟨e, he, rfl⟩, hn⟩, hex⟩
    exact ⟨e, he, hn, hex⟩

/-- What is removed: the standard names and those of the first line, less the exempt ones. -/
theorem mem_headersToRemove :
    n ∈ headersToRemove headers b ↔ (n ∈ HOP_BY_HOP_HEADERS ∨ NamedFirst headers n) ∧ ¬ Exempt b n := by
  have hstandard : n ∈ HOP_BY_HOP_HEADERS.filter (fun name => !(b && name ∈ WEBSOCKET_HEADERS)) ↔
      n ∈ HOP_BY_HOP_HEADERS ∧ ¬ Exempt b n := by
    rw [List.mem_filter]
    refine and_congr_right fun hn => ?_
    have he := isEndToEndHeader_eq_false n (List.mem_cons_of_mem _ hn)
    cases b <;> simp [Exempt, he]
  have hfirst : n ∈ (((headers.get connection).bind HeaderValue.toStr).map (nominatedNames · b)).getD [] ↔
      NamedFirst headers n ∧ ¬ Exempt b n := by
    unfold NamedFirst
    cases (headers.get connection).bind HeaderValue.toStr with
    | none => simp
    | some s => simpa using mem_nominatedNames
  rw [headersToRemove, List.mem_append, hstandard, hfirst, or_and_right]

/-! ### `Via` -/

theorem viaLine_congr (h : request.headers.getAll via = request'.headers.getAll via) :
    viaLine request = viaLine request' := by
  rw [viaLine, viaLine, MultiMap.get_congr h]

theorem viaLine_visible {s : Str} (h : viaLine request = some s) : s.Visible := by
  obtain ⟨v, -, hv⟩ := Option.bind_eq_some_iff.1 h
  exact HeaderValue.toStr_visible hv

theorem viaLine_processConnectionHeader (hm : processMaxForwards request = .ok request') :
    viaLine (processConnectionHeader request' b) =
      if via ∈ headersToRemove request.headers b then none else viaLine request := by
  rw [← viaLine_congr ((processMaxForwards_ok hm).2.2 via (by decide)),
    ← headersToRemove_processMaxForwards hm, viaLine,
    viaLine, MultiMap.get, MultiMap.get, processConnectionHeader, getAll_removeHeaders]
  split <;> rfl

theorem ownText_processConnectionHeader (hm : processMaxForwards request = .ok request') :
    ownText config (processConnectionHeader request' b) = ownText config request := by
  simp only [ownText, processConnectionHeader, (processMaxForwards_ok hm).2.1]

theorem viaEntries_eq_nil_iff : viaEntries request = [] ↔ viaLine request = none := by
  unfold viaEntries
  cases viaLine request with
  | none => simp
  | some line => simp [Str.split, List.splitOn_ne_nil]

theorem viaEntries_visible : ∀ e ∈ viaEntries request, e.Visible := by
  intro e he
  unfold viaEntries at he
  cases hl : viaLine request with
  | none => rw [hl] at he; cases he
  | some line =>
    rw [hl] at he
    obtain ⟨w, hw, rfl⟩ := List.mem_map.1 he
    exact fun ch hch => viaLine_visible hl ch (CommaList.mem_of_mem_splitOn hw
      (CommaList.mem_of_mem_trimBy hch))

/-- What is written: the elements that are kept and the service's own behind them. -/
theorem addViaHeader_eq (request : Request) (config : Config) :
    addViaHeader request config = setVia request (Str.join
      ((if Combines config request then [] else viaEntries request) ++ [ownText config request])
        ", ".toList) := by
  unfold addViaHeader Combines SameProtocol viaEntries
  cases hl : (request.headers.get via).bind HeaderValue.toStr with
  | none =>
    have hline : viaLine request = none := hl
    simp [hline, ownText]
  | some line =>
    have hline : viaLine request = some line := hl
    have hown : Str.join [ownText config request] ", ".toList = ownText config request :=
      List.intercalate_singleton
    simp only [hline, Option.mem_some_iff, forall_eq', Option.map_some, Option.getD_some,
      Bool.and_eq_true, and_assoc]
    split
    · rw [List.nil_append, hown]; rfl
    · rfl

theorem getAll_setVia_ne (request : Request) (text : Str) (hn : n ≠ via) :
    (setVia request text).2.headers.getAll n = request.headers.getAll n := by
  unfold setVia
  split
  · exact MultiMap.getAll_insert_ne hn
  · rfl

theorem getAll_addViaHeader_ne (hn : n ≠ via) :
    (addViaHeader request config).2.headers.getAll n = request.headers.getAll n := by
  rw [addViaHeader_eq, getAll_setVia_ne request _ hn]

theorem getAll_setVia_self (request : Request) (text : Str) : (setVia request text).2.headers.getAll via =
    match HeaderValue.fromStr text with
    | some value => [value]
    | none => request.headers.getAll via := by
  unfold setVia
  cases HeaderValue.fromStr text with
  | none => rfl
  | some value => exact MultiMap.getAll_insert_self

/-! ### The service -/

theorem receive_eq_ok (h : receive config request = .ok passed) : detectLoop request config = none ∧
    ∃ r, processMaxForwards request = .ok r ∧ passed.isWebsocket = preserves config request ∧
      (passed.viaHeader, passed.request) =
        addViaHeader (processConnectionHeader r (preserves config request)) config := by
  unfold receive at h
  split at h
  · cases h
  · next hd =>
    cases hm : processMaxForwards request with
    | error response => rw [hm] at h; cases h
    | ok r =>
      rw [hm] at h
      cases h
      rw [← preserves_processMaxForwards hm]
      exact ⟨hd, r, rfl, rfl, rfl⟩

theorem step_eq_some (h : step request config = some request') :
    detectLoop request config = none ∧ ∃ r, processMaxForwards request = .ok r ∧
      request' = (addViaHeader (processConnectionHeader r (preserves config r)) config).2 := by
  unfold step at h
  cases hr : receive config request with
  | error response => rw [hr] at h; cases h
  | ok passed =>
    rw [hr] at h
    cases h
    obtain ⟨hd, r, hm, -, hpass⟩ := receive_eq_ok hr
    refine ⟨hd, r, hm, ?_⟩
    rw [preserves_processMaxForwards hm]
    exact congrArg Prod.snd hpass

end AxumReverseProxy.Rfc9110
