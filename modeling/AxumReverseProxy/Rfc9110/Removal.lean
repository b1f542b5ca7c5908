import AxumReverseProxy.Rfc9110.Steps

/-!
# What `Rfc9110Layer` removes

A message should leave the layer without the fields of its hop, the standard ones and those that any of
its `Connection` lines names, and otherwise as it came. Of several lines only the first is read, and only
if it is visible ASCII. `nominated_removed_iff` says that nothing else goes wrong, for requests and
responses at once.
-/

namespace AxumReverseProxy.Rfc9110

open HeaderName

/-- The fields of the hop are gone, the exempt ones apart, and all others are as they were. The layer
manages `Max-Forwards` and `Via`; of a nominated `Via` there is left what the layer writes itself. -/
structure HopRemoved (preserve : Bool) (own : Option HeaderValue) (before after : HeaderMap) : Prop where
  nominated : ∀ n, Nominated before n → ¬ Exempt preserve n →
    after.getAll n = if n = via then own.toList else []
  standard : ∀ n ∈ HOP_BY_HOP_HEADERS, ¬ Exempt preserve n → after.getAll n = []
  others : ∀ n, n ≠ via → n ≠ maxForwards →
    (n ∈ HOP_BY_HOP_HEADERS ∨ Nominated before n → Exempt preserve n) →
    after.getAll n = before.getAll n

/-- A nominated field that is there and not exempt is a standard one or named by the first line, if it is
readable; only a `Via` may also be one that the layer writes over. -/
def MarkedFirst (preserve : Bool) (writesOver : Prop) (headers : HeaderMap) : Prop :=
  ∀ n, Nominated headers n → headers.getAll n ≠ [] →
    Exempt preserve n ∨ n ∈ HOP_BY_HOP_HEADERS ∨ NamedFirst headers n ∨ n = via ∧ writesOver

/-- The element of the layer can be written, and it takes the place of the lines that are there. -/
def WritesOver (config : Config) (request : Request) : Prop :=
  (HeaderValue.fromStr (ownText config request)).isSome = true ∧
    (viaLine request = none ∨ Combines config request)

variable {config : Config} {request : Request} {passed : Passed} {headers before after : HeaderMap}
  {n : HeaderName} {preserve : Bool} {own : Option HeaderValue} {writesOver : Prop}

theorem nominatedReadably_of_namedFirst (h : NamedFirst headers n) : NominatedReadably headers n := by
  obtain ⟨s, hs, hn⟩ := h
  obtain ⟨v, hv, hvs⟩ := Option.bind_eq_some_iff.1 hs
  exact ⟨s, List.mem_filterMap.2 ⟨v, List.mem_of_mem_head? hv, hvs⟩, hn⟩

theorem nominated_of_namedFirst (h : NamedFirst headers n) : Nominated headers n :=
  nominated_of_nominatedReadably (nominatedReadably_of_namedFirst h)

/-- With one `Connection` line, or none, the layer is right if the line is readable. -/
theorem markedFirst_of_readable (h : ∀ v ∈ headers.getAll connection,
    headers.getAll connection = [v] ∧ v.Readable) :
    MarkedFirst preserve writesOver headers := by
  rintro n ⟨v, hv, e, he, hn⟩ -
  obtain ⟨hone, hr⟩ := h v hv
  rw [← commaElements_of_visible (HeaderValue.visible_latin1_iff.2 hr)] at he
  refine .inr (.inr (.inl ⟨v.latin1, ?_, e, he, hn⟩))
  rw [MultiMap.get, hone]
  exact HeaderValue.toStr_of_readable hr

/-! ### Both directions -/

/-- What is used of a direction: which lines are left of each field. -/
structure Leaves (preserve : Bool) (own : Option HeaderValue) (writesOver : Prop)
    (before after : HeaderMap) : Prop where
  removed : ∀ n ≠ via, n ∈ headersToRemove before preserve → after.getAll n = []
  left : ∀ n ≠ via, n ∉ headersToRemove before preserve → (after.getAll n = [] ↔ before.getAll n = [])
  kept : ∀ n, n ≠ via → n ≠ maxForwards → n ∉ headersToRemove before preserve →
    after.getAll n = before.getAll n
  written : after.getAll via = own.toList ↔
    via ∈ headersToRemove before preserve ∨ before.getAll via = [] ∨ writesOver

theorem markedFirst_iff : MarkedFirst preserve writesOver headers ↔
    ∀ n, Nominated headers n → headers.getAll n ≠ [] → ¬ Exempt preserve n →
      n ∈ headersToRemove headers preserve ∨ n = via ∧ writesOver := by
  refine forall_congr' fun n => imp_congr_right fun _ => imp_congr_right fun _ => ?_
  rw [mem_headersToRemove]
  by_cases hex : Exempt preserve n
  · exact iff_of_true (.inl hex) fun h => absurd hex h
  · simp [hex, or_assoc]

/-- The fields of the hop are gone exactly when the message is marked by its first line. -/
theorem Leaves.hopRemoved_iff (d : Leaves preserve own writesOver before after) :
    HopRemoved preserve own before after ↔ MarkedFirst preserve writesOver before := by
  rw [markedFirst_iff]
  constructor
  · intro h n hnom hne hex
    have hgone := h.nominated n hnom hex
    by_cases hmem : n ∈ headersToRemove before preserve
    · exact .inl hmem
    by_cases hvia : n = via
    · subst hvia
      rw [if_pos rfl, d.written] at hgone
      exact .inr ⟨rfl, (hgone.resolve_left hmem).resolve_left hne⟩
    · rw [if_neg hvia, d.left n hvia hmem] at hgone
      exact absurd hgone hne
  · intro h
    refine ⟨fun n hnom hex => ?_, fun n hn hex => ?_, fun n hvia hmax hex => ?_⟩
    · by_cases hvia : n = via
      · subst hvia
        rw [if_pos rfl, d.written]
        by_cases hne : before.getAll via = []
        · exact .inr (.inl hne)
        · exact (h via hnom hne hex).imp_right fun hover => .inr hover.2
      · rw [if_neg hvia]
        by_cases hmem : n ∈ headersToRemove before preserve
        · exact d.removed n hvia hmem
        rw [d.left n hvia hmem]
        by_contra hne
        exact (h n hnom hne hex).elim hmem fun hover => hvia hover.1
    · have hvia : n ≠ via := (by decide : ∀ m ∈ HOP_BY_HOP_HEADERS, m ≠ via) n hn
      exact d.removed n hvia (mem_headersToRemove.2 ⟨.inl hn, hex⟩)
    · refine d.kept n hvia hmax fun hmem => ?_
      obtain ⟨hn, hnex⟩ := mem_headersToRemove.1 hmem
      exact hnex (hex (hn.imp_right nominated_of_namedFirst))

/-! ### The `Via` of a message -/

theorem writesOver_congr {request' : Request} (hl : viaLine request = viaLine request')
    (hv : request.version = request'.version) : WritesOver config request ↔ WritesOver config request' := by
  simp only [WritesOver, Combines, SameProtocol, ownText, hl, hv]

/-- The text in front of the layer's own element. -/
theorem addViaHeader_eq_append (request : Request) (config : Config) : ∃ kept : Str, kept.Visible ∧
    (kept = [] ↔ viaLine request = none ∨ Combines config request) ∧
      addViaHeader request config = setVia request (kept ++ ownText config request) := by
  rw [addViaHeader_eq, Str.join_concat]
  refine ⟨_, ?_, ?_, rfl⟩
  · intro c hc
    obtain ⟨e, he, hce⟩ := List.mem_flatMap.1 hc
    split at he
    · cases he
    · exact Str.Visible.append (viaEntries_visible e he) (by decide) c hce
  · rw [List.flatMap_eq_nil_iff]
    split
    · next h => simp [h]
    · next h =>
      rw [← viaEntries_eq_nil_iff, or_iff_left h, List.eq_nil_iff_forall_not_mem]
      exact forall₂_congr fun e _ => iff_of_false (by simp) id

theorem viaHeader_isSome_iff : (addViaHeader request config).1.isSome = true ↔
    (HeaderValue.fromStr (ownText config request)).isSome = true := by
  obtain ⟨kept, hvis, -, heq⟩ := addViaHeader_eq_append request config
  rw [heq, ← HeaderValue.fromStr_append_isSome_iff hvis, setVia]
  cases HeaderValue.fromStr (kept ++ ownText config request) <;> rfl

theorem getAll_via_addViaHeader :
    (addViaHeader request config).2.headers.getAll via =
    (HeaderValue.fromStr (ownText config request)).toList ↔
      request.headers.getAll via = [] ∨ WritesOver config request := by
  obtain ⟨kept, hvis, hnil, heq⟩ := addViaHeader_eq_append request config
  rw [heq, getAll_setVia_self, WritesOver, ← hnil]
  have hsome := HeaderValue.fromStr_append_isSome_iff (s := ownText config request) hvis
  cases hown : HeaderValue.fromStr (ownText config request) with
  | none =>
    rw [hown, Option.isSome_none, Option.isSome_iff_ne_none, ne_eq, Bool.false_eq_true, iff_false,
      not_not] at hsome
    simp [hsome]
  | some value =>
    obtain ⟨written, hw⟩ := Option.isSome_iff_exists.1 (hsome.2 (by rw [hown]; rfl))
    have hempty : request.headers.getAll via = [] → kept = [] := by
      intro h
      rw [hnil, viaLine, MultiMap.get_eq_none_iff.2 h]
      exact .inl rfl
    have heq := HeaderValue.fromStr_append_eq_iff hvis hown
    rw [hw, Option.some.injEq] at heq
    simp only [hw, Option.toList_some, List.cons.injEq, and_true, heq, Option.isSome_some, true_and]
    exact ⟨.inr, fun h => h.elim hempty id⟩

/-! ### Requests and responses -/

theorem leaves_receive (h : receive config request = .ok passed) :
    Leaves (preserves config request) (HeaderValue.fromStr (ownText config request))
      (WritesOver config request)
      request.headers passed.request.headers := by
  obtain ⟨-, r, hm, -, hpass⟩ := receive_eq_ok h
  obtain ⟨-, hversion, hheaders⟩ := processMaxForwards_ok hm
  set p := processConnectionHeader r (preserves config request) with hp
  have hpassed : passed.request = (addViaHeader p config).2 := congrArg Prod.snd hpass
  have hgone : ∀ n, p.headers.getAll n =
      if n ∈ headersToRemove request.headers (preserves config request) then [] else
        r.headers.getAll n := by
    intro n
    rw [← headersToRemove_processMaxForwards hm]
    exact getAll_removeHeaders
  have hother : ∀ n ≠ via, passed.request.headers.getAll n = p.headers.getAll n := by
    intro n hn
    rw [hpassed, getAll_addViaHeader_ne hn]
  refine ⟨fun n hn hmem => ?_, fun n hn hmem => ?_, fun n hn hmax hmem => ?_, ?_⟩
  · rw [hother n hn, hgone, if_pos hmem]
  · rw [hother n hn, hgone, if_neg hmem, getAll_processMaxForwards_eq_nil_iff hm]
  · rw [hother n hn, hgone, if_neg hmem, hheaders n hmax]
  · rw [hpassed, ← ownText_processConnectionHeader hm, getAll_via_addViaHeader, hgone]
    by_cases hmem : via ∈ headersToRemove request.headers (preserves config request)
    · simp [hmem]
    · have hline : viaLine p = viaLine request := by
        rw [hp, viaLine_processConnectionHeader hm, if_neg hmem]
      rw [if_neg hmem, hheaders _ (by decide), writesOver_congr hline hversion, or_iff_right hmem]

theorem leaves_answer (h : receive config request = .ok passed) (response : Response) :
    Leaves (preserves config request && response.status = .switchingProtocols) passed.viaHeader
      ((HeaderValue.fromStr (ownText config request)).isSome = true) response.headers
        (answer passed response).headers := by
  obtain ⟨-, r, hm, hws, hpass⟩ := receive_eq_ok h
  have hwritten : passed.viaHeader.isSome = true ↔
    (HeaderValue.fromStr (ownText config request)).isSome = true := by
    rw [← ownText_processConnectionHeader hm, ← viaHeader_isSome_iff, ← hpass]
  rw [← hwritten, ← hws]
  generalize hb : (passed.isWebsocket && decide (response.status = .switchingProtocols)) = b
  have hother : ∀ n ≠ via, (answer passed response).headers.getAll n =
      if n ∈ headersToRemove response.headers b then [] else response.headers.getAll n := by
    intro n hn
    rw [← getAll_removeHeaders, answer, hb]
    cases passed.viaHeader with
    | none => rfl
    | some value => exact MultiMap.getAll_insert_ne hn
  refine ⟨fun n hn hmem => ?_, fun n hn hmem => ?_, fun n hn _ hmem => ?_, ?_⟩
  · rw [hother n hn, if_pos hmem]
  · rw [hother n hn, if_neg hmem]
  · rw [hother n hn, if_neg hmem]
  · rw [answer, hb]
    cases passed.viaHeader with
    | none =>
      simp only [processResponseHeaders, getAll_removeHeaders, Option.toList_none]
      split <;> simp [*]
    | some value => simp

/-- The fields of the hop are removed from a request, and from its response, exactly when the message is
marked by its first `Connection` line. -/
theorem nominated_removed_iff (h : receive config request = .ok passed) :
    (HopRemoved (preserves config request) (HeaderValue.fromStr (ownText config request)) request.headers
        passed.request.headers ↔
      MarkedFirst (preserves config request) (WritesOver config request) request.headers) ∧
    ∀ response : Response,
      HopRemoved (preserves config request && response.status = .switchingProtocols) passed.viaHeader
        response.headers
          (answer passed response).headers ↔
        MarkedFirst (preserves config request && response.status = .switchingProtocols)
          ((HeaderValue.fromStr (ownText config request)).isSome = true) response.headers :=
  ⟨(leaves_receive h).hopRemoved_iff, fun response => (leaves_answer h response).hopRemoved_iff⟩

/-- A request and its response with one `Connection` line each. -/
theorem nominated_removed_iff_single :
    let line : HeaderMap := ⟨[(connection, .fromStatic "close, x-key"),
      (.fromStatic "x-key", .fromStatic "1")]⟩
    let request := { Request.new (.fromBytes []) with headers := line }
    ∃ passed, receive {} request = .ok passed ∧
      HopRemoved false (HeaderValue.fromStr (ownText {} request)) line passed.request.headers ∧
        HopRemoved false passed.viaHeader line
          (answer passed { Response.new (.fromBytes []) with headers := line }).headers := by
  intro line request
  have hone : ∀ v ∈ line.getAll connection, line.getAll connection = [v] ∧ v.Readable := by decide
  obtain ⟨passed, hpassed⟩ : ∃ passed, receive {} request = .ok passed := ⟨_, rfl⟩
  obtain ⟨hrequest, hresponse⟩ := nominated_removed_iff hpassed
  exact ⟨passed, hpassed, hrequest.2 (markedFirst_of_readable hone),
    (hresponse { Response.new (.fromBytes []) with headers := line }).2 (markedFirst_of_readable hone)⟩

/-- Behind a first line `close` the field that a second line names goes through, both ways. -/
theorem second_connection_line_ignored :
    let lines : HeaderMap := ⟨[(connection, .fromStatic "close"), (connection, .fromStatic "x-key"),
      (.fromStatic "x-key", .fromStatic "1")]⟩
    let request := { Request.new (.fromBytes []) with headers := lines }
    Nominated lines (.fromStatic "x-key") ∧ ∃ passed, receive {} request = .ok passed ∧
      ¬ HopRemoved false (HeaderValue.fromStr (ownText {} request)) lines passed.request.headers ∧
        ¬ HopRemoved false passed.viaHeader lines
          (answer passed { Response.new (.fromBytes []) with headers := lines }).headers := by
  intro lines request
  have hnom : Nominated lines (.fromStatic "x-key") := by decide
  have hex : ¬ Exempt false (.fromStatic "x-key") := by decide
  refine ⟨hnom, _, rfl, fun h => ?_, fun h => ?_⟩
  · exact absurd (h.nominated _ hnom hex) (by decide)
  · exact absurd (h.nominated _ hnom hex) (by decide)

end AxumReverseProxy.Rfc9110
