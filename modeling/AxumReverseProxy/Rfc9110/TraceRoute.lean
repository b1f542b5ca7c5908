import AxumReverseProxy.Lib.Lines
import AxumReverseProxy.Rfc9110.Loop
import AxumReverseProxy.Rfc9110.MaxForwards

/-!
# The route of a TRACE request

A TRACE request that may be passed on a number of times is answered by the service it then gets to,
with the request as that service got it, written out. The client reads it line by line (`readEcho`):
the `Via` elements of the services in front, and the fields that neither a credential nor a hop is
in (`trace_route`).
-/

namespace AxumReverseProxy.Rfc9110

open HeaderName
open Run (run run_cons run_append run_concat)

variable {ε : Type} {request request' reached next : Request} {config c last : Config}
  {path rest : List Config} {response r : Response} {n : HeaderName} {v : Nat} {p : Str}

/-! ### Reading an echo -/

/-- A request in the format `message/http`, as its reader has it. -/
structure Echo where
  method : Str
  target : Str
  version : Str
  fields : List (Str × Str)
deriving DecidableEq

def readField (line : Str) : Option (Str × Str) :=
  (line.splitOnce ':').map fun (name, value) => (name, value.drop 1)

def readEcho (text : Str) : Option Echo :=
  match Lines.read '\r' '\n' text with
  | [] => none
  | line :: fields => do
    let (method, rest) ← Str.splitOnce line ' '
    let (target, version) ← Str.splitOnce rest ' '
    let fields ← fields.mapM readField
    some ⟨method, target, version, fields⟩

/-- The lines of a field in an echo. -/
def Echo.getAll (echo : Echo) (n : HeaderName) : List Str :=
  echo.fields.filterMap fun (name, value) => if name = n.str then some value else none

def targetText (request : Request) : Str := (request.uri.pathAndQuery?.map (·.asStr)).getD ['/']

def shownText (value : HeaderValue) : Str := value.toStr.getD "<non-ascii value omitted>".toList

def shownFields (headers : HeaderMap) : List (Str × Str) :=
  (headers.iter.filter fun (name, _) => name ∉ TRACE_SENSITIVE_HEADERS).map fun (name, value) =>
    (name.str, shownText value)

/-- A path and query as `http` has them, without blanks and line ends. -/
def PlainTarget (request : Request) : Prop := ' ' ∉ targetText request ∧ '\n' ∉ targetText request

theorem feed_not_mem_shownText (value : HeaderValue) : '\n' ∉ shownText value := by
  have hvis : (shownText value).Visible := by
    rw [shownText]
    cases h : value.toStr with
    | none => decide
    | some s => exact HeaderValue.toStr_visible h
  exact fun hm => absurd (hvis _ hm) (by decide)

theorem readField_shown (name : HeaderName) (text : Str) :
    readField (name.str ++ ": ".toList ++ text) = some (name.str, text) := by
  have hcolon : ':' ∉ name.str := name.valid.1.not_mem (by decide)
  have hline : name.str ++ ": ".toList ++ text = name.str ++ ':' :: ' ' :: text := List.append_assoc ..
  rw [readField, hline, Str.splitOnce_append hcolon]
  rfl

theorem mapM_readField (fields : List (Str × Str)) (h : ∀ f ∈ fields, ∃ name : HeaderName, f.1 = name.str) :
    (fields.map fun f => f.1 ++ ": ".toList ++ f.2).mapM readField = some fields := by
  induction fields with
  | nil => rfl
  | cons f fields ih =>
    obtain ⟨⟨name, hn⟩, hrest⟩ := List.forall_mem_cons.1 h
    rw [List.map_cons, List.mapM_cons, hn, readField_shown, ih hrest, ← hn]
    rfl

theorem traceEchoBody_eq (request : Request) : traceEchoBody request =
    Lines.write '\r' '\n' ((methodStr request.method ++ " ".toList ++ targetText request ++ " ".toList ++
      versionDebug request.version) :: (shownFields request.headers).map fun f => f.1 ++
        ": ".toList ++ f.2) ++
      '\r' :: '\n' :: [] := by
  rw [traceEchoBody, Lines.write, shownFields, List.flatMap_cons, List.map_map, List.flatMap_map]
  simp only [targetText, shownText, Function.comp_def, List.append_assoc]
  rfl

/-- What is written for a TRACE request is read back. -/
theorem readEcho_traceEchoBody (hm : request.method = .trace) (ht : PlainTarget request) :
    readEcho (traceEchoBody request) =
      some ⟨"TRACE".toList, targetText request, versionDebug request.version,
        shownFields request.headers⟩ := by
  have hstart : methodStr request.method ++ " ".toList ++ targetText request ++ " ".toList ++
    versionDebug request.version =
      "TRACE".toList ++ ' ' :: (targetText request ++ ' ' :: versionDebug request.version) := by
    rw [hm]
    simp [methodStr]
  have hlines := @Lines.read_write Char _ '\r' '\n' (("TRACE".toList ++ ' ' :: (targetText request ++ ' ' ::
    versionDebug request.version)) :: (shownFields request.headers).map fun f => f.1 ++ ": ".toList ++
      f.2) (by decide) ?_ []
  · rw [readEcho, traceEchoBody_eq, hstart, hlines]
    show (Str.splitOnce _ ' ').bind _ = _
    rw [Str.splitOnce_append (by decide)]
    show (Str.splitOnce _ ' ').bind _ = _
    rw [Str.splitOnce_append ht.1]
    show (List.mapM readField _).bind _ = _
    rw [mapM_readField]
    · rfl
    · intro f hf
      obtain ⟨e, -, rfl⟩ := List.mem_map.1 hf
      exact ⟨e.1, rfl⟩
  · refine List.forall_mem_cons.2 ⟨⟨by simp, ?_⟩, fun line hl => ?_⟩
    · have hv : '\n' ∉ versionDebug request.version := by cases request.version <;> decide
      simp [ht.2, hv]
    · obtain ⟨f, hf, rfl⟩ := List.mem_map.1 hl
      obtain ⟨e, -, rfl⟩ := List.mem_map.1 hf
      have hname : '\n' ∉ e.1.str := e.1.valid.1.not_mem (by decide)
      simp [hname, feed_not_mem_shownText]

theorem getAll_shown (method target version : Str) (headers : HeaderMap) (n : HeaderName) :
    (Echo.mk method target version (shownFields headers)).getAll n =
      if n ∈ TRACE_SENSITIVE_HEADERS then [] else (headers.getAll n).map shownText := by
  have hstr : ∀ m : HeaderName, m.str = n.str ↔ m = n := fun ⟨s, _⟩ => by
    obtain ⟨t, _⟩ := n
    simp
  rw [Echo.getAll, shownFields, ← MultiMap.getAll_iter, MultiMap.getAll]
  induction headers.iter with
  | nil => simp
  | cons e entries ih =>
    by_cases hn : e.1 = n
    · subst hn
      by_cases hs : e.1 ∈ TRACE_SENSITIVE_HEADERS
      · simpa [hs] using ih
      · simpa [hs] using ih
    · by_cases hs : e.1 ∈ TRACE_SENSITIVE_HEADERS
      · simpa [hs, hn] using ih
      · simpa [hs, hn, hstr] using ih

/-! ### A service that answers -/

theorem processMaxForwards_trace (hm : request.method = .trace) (hv : maxForwardsOf request = some 0) :
    ∃ response, processMaxForwards request = .error response ∧ response.status = .ok ∧
      response.body = .fromBytes (traceEchoBody request).asBytes ∧
      response.headers.getAll contentType = [.fromStatic "message/http"] := by
  have hparsed := parsed_eq request
  rw [hv, Option.filter_some, if_pos (by decide)] at hparsed
  have hmethod : ¬ (request.method ≠ .trace ∧ request.method ≠ .options) := fun h => h.1 hm
  unfold processMaxForwards
  cases hget : request.headers.get maxForwards with
  | none => rw [hget] at hparsed; cases hparsed
  | some value =>
    rw [hget, Option.bind_some] at hparsed
    simp only [if_neg hmethod, hparsed]
    exact ⟨_, if_pos hm, rfl, rfl, MultiMap.getAll_insert_self⟩

theorem call_trace (inner : Request → Except ε Response) (hd : detectLoop request config = none)
    (hm : request.method = .trace) (hv : maxForwardsOf request = some 0) :
    ∃ response, call config inner request = .ok response ∧ response.status = .ok ∧
      response.body = .fromBytes (traceEchoBody request).asBytes ∧
      response.headers.getAll contentType = [.fromStatic "message/http"] := by
  obtain ⟨response, hr, hrest⟩ := processMaxForwards_trace hm hv
  refine ⟨response, ?_, hrest⟩
  rw [call, receive, hd, hr]
  rfl

/-! ### Services around services -/

/-- Services of these configurations, the first one outermost. -/
def stack (configs : List Config) (inner : Request → Except ε Response) : Request → Except ε Response :=
  configs.foldr call inner

theorem getAll_contentType_answer (passed : Passed) (response : Response) :
    (answer passed response).headers.getAll contentType = response.headers.getAll contentType := by
  have hex : ∀ b, contentType ∉ headersToRemove response.headers b := fun b h =>
    (mem_headersToRemove.1 h).2 (.inl (by decide))
  have hleft : ∀ b, (processResponseHeaders response b).headers.getAll contentType =
      response.headers.getAll contentType := fun b => by
    rw [processResponseHeaders, getAll_removeHeaders, if_neg (hex b)]
  unfold answer
  simp only
  split
  · rw [MultiMap.getAll_insert_ne (by decide), hleft]
  · exact hleft _

/-- What answers a request that has got past some services answers it through these. -/
theorem stack_of_run {inner : Request → Except ε Response} (h : run step request path = some reached)
    (hr : stack rest inner reached = .ok response) : ∃ r, stack (path ++ rest) inner request = .ok r ∧
      r.status = response.status ∧ r.body = response.body ∧
      r.headers.getAll contentType = response.headers.getAll contentType := by
  induction path generalizing request with
  | nil =>
    cases h
    exact ⟨response, hr, rfl, rfl, rfl⟩
  | cons c path ih =>
    obtain ⟨next, hs, h⟩ := Option.bind_eq_some_iff.1 (run_cons.symm.trans h)
    obtain ⟨r, hr, hstatus, hbody, hctype⟩ := ih h
    unfold step at hs
    cases hreceive : receive c request with
    | error res => rw [hreceive] at hs; cases hs
    | ok passed =>
      rw [hreceive] at hs
      cases hs
      refine ⟨answer passed r, ?_, ?_, ?_, ?_⟩
      · show call c (stack (path ++ rest) inner) request = _
        rw [call, hreceive]
        exact congrArg (Except.map (answer passed)) hr
      · rw [← hstatus, answer]
        split <;> rfl
      · rw [← hbody, answer]
        split <;> rfl
      · rw [getAll_contentType_answer, hctype]

/-! ### The route -/

/-- A service with a token as its pseudonym, that the request neither names nor has been through. -/
def Fresh (request : Request) (config : Config) : Prop :=
  ∃ p, config.pseudonym = some p ∧ p.IsToken ∧ ¬ Carries request p ∧ ¬ NamesServer request config

theorem Fresh.detectLoop_eq_none (h : Fresh request config) : detectLoop request config = none := by
  obtain ⟨p, hp, -, hcarries, hserver⟩ := h
  exact (detectLoop_eq_none_iff hp).2 ⟨hserver, hcarries⟩

theorem Fresh.step {d : Config} (hd : Fresh request d) (hc : Fresh request config)
    (hne : d.pseudonym ≠ config.pseudonym)
    (h : step request config = some next) : Fresh next d := by
  obtain ⟨p, hp, ht, -⟩ := hc
  obtain ⟨q, hq, htq, hcarries, hserver⟩ := hd
  have hqp : q ≠ p := by
    rintro rfl
    exact hne (hq.trans hp.symm)
  refine ⟨q, hq, htq, fun hn => hcarries ((carries_step_ne hp ht hqp h).1 hn).1, fun hn => hserver ?_⟩
  rwa [NamesServer, (viaHops_step hp ht h).2] at hn

/-- A request gets past as many fresh services as it may be passed on. -/
theorem exists_run_of_fresh (hc : Counted request (path.length + v)) (hnew : ∀ c ∈ path, Fresh request c)
    (hdist : (path.map (·.pseudonym)).Nodup) : ∃ reached, run step request path = some reached ∧
      Counted reached v ∧
      ∀ d, Fresh request d → d.pseudonym ∉ path.map (·.pseudonym) → Fresh reached d := by
  induction path generalizing request with
  | nil =>
    rw [List.length_nil, Nat.zero_add] at hc
    exact ⟨request, rfl, hc, fun d hd _ => hd⟩
  | cons c path ih =>
    have hfresh := hnew c (by simp)
    obtain ⟨hnot, hdist⟩ := List.nodup_cons.1 hdist
    rw [List.length_cons, Nat.add_right_comm] at hc
    obtain ⟨next, hpass, hcounted⟩ := exists_passOn_of_counted hc c
    have hs : step request c = some next := by
      rw [step_eq_passOn hfresh.detectLoop_eq_none, hpass]
    have hnext : ∀ d ∈ path, Fresh next d := fun d hd =>
      (hnew d (by simp [hd])).step hfresh (fun he => hnot (List.mem_map.2 ⟨d, hd, he⟩)) hs
    obtain ⟨reached, hrun, hc, hlater⟩ := ih hcounted hnext hdist
    refine ⟨reached, by rw [run_cons, hs]; exact hrun, hc, fun d hd hmem => ?_⟩
    obtain ⟨hne, hmem⟩ := not_or.1 (fun h => hmem (List.mem_cons.2 h))
    exact hlater d (hd.step hfresh hne hs) hmem

/-- The fields that the services manage, and the pair of a WebSocket upgrade. -/
def managed : List HeaderName := [via, maxForwards, connection, upgrade]

/-- A request behind the services of `path`. -/
structure Routed (request : Request) (path : List Config) (reached : Request) : Prop where
  start : path = [] → reached = request
  method : reached.method = request.method
  uri : reached.uri = request.uri
  version : reached.version = request.version
  named : ∀ n, NamedFirst reached.headers n → NamedFirst request.headers n
  line : path ≠ [] → ∃ text, ∃ h : Str.Visible text, reached.headers.getAll via = [.ofVisible text h]
  hops : (∀ c ∈ path, c.combineVia = false) → ¬ NamedFirst request.headers via →
    viaHops reached = viaHops request ++ path.map fun c => [viaProtocol request.version,
      c.pseudonym.getD []]
  fields : ∀ n ∉ managed, reached.headers.getAll n =
    if path ≠ [] ∧ n ∈ headersToRemove request.headers false then [] else request.headers.getAll n

theorem routed_nil : Routed request [] request :=
  ⟨fun _ => rfl, rfl, rfl, rfl, fun _ h => h, fun h => absurd rfl h, fun _ _ => by simp, fun _ _ => by simp⟩

/-- Whether a field that is not managed is removed does not depend on the WebSocket setting. -/
theorem mem_headersToRemove_of_not_managed {headers : HeaderMap} {b : Bool} (h : n ∉ managed) :
    n ∈ headersToRemove headers b ↔ n ∈ headersToRemove headers false := by
  have hpair : n ∉ WEBSOCKET_HEADERS := fun hn => h (List.mem_cons_of_mem _ (List.mem_cons_of_mem _ hn))
  rw [mem_headersToRemove, mem_headersToRemove]
  simp [Exempt, hpair]

theorem Routed.step (hr : Routed request path reached) (hc : config.pseudonym = some p) (hp : p.IsToken)
    (h : step reached config = some next) : Routed request (path ++ [config]) next := by
  obtain ⟨hhops, -⟩ := viaHops_step hc hp h
  obtain ⟨-, r, hm, rfl⟩ := step_eq_some h
  obtain ⟨huri, hversion, hheaders⟩ := processMaxForwards_ok hm
  obtain ⟨-, huri', hversion'⟩ := addViaHeader_spec (processConnectionHeader r (preserves config r)) hc hp
  have hnamed : ∀ m, NamedFirst r.headers m → NamedFirst request.headers m := fun m hn =>
    hr.named m ((namedFirst_congr (hheaders _ (by decide))).1 hn)
  refine ⟨fun h => by simp at h, ?_, huri'.trans (huri.trans hr.uri),
    hversion'.trans (hversion.trans hr.version),
    fun m hn => hnamed m (namedFirst_of_removed hn), fun _ => ?_, fun hkeep hvia => ?_, fun n hn => ?_⟩
  · have hmr : r.method = reached.method := by
      rcases processMaxForwards_cases hm with rfl | ⟨-, value, rfl⟩ <;> rfl
    rw [method_addViaHeader]
    exact hmr.trans hr.method
  · have hvis := viaText_visible (processConnectionHeader r (preserves config r)) hc hp
    refine ⟨_, hvis, ?_⟩
    rw [addViaHeader_eq, getAll_setVia_self, HeaderValue.fromStr_of_visible hvis]
  · have hnot : ¬ ForgetsVia config reached := by
      rintro (hf | hf)
      · rcases (mem_headersToRemove.1 hf).1 with hf | hf
        · exact absurd hf (by decide)
        · exact hvia (hr.named _ hf)
      · exact absurd hf.1 (by simp [hkeep config (by simp)])
    rw [hhops, if_neg hnot, hr.hops (fun c hc => hkeep c (List.mem_append_left _ hc)) hvia, hr.version,
      List.map_append, List.map_singleton, hc, List.append_assoc]
    rfl
  · obtain ⟨hnv, hnm, -⟩ : n ≠ via ∧ n ≠ maxForwards ∧ _ := by simpa [managed] using hn
    have hiff : n ∈ headersToRemove r.headers (preserves config r) ↔
      n ∈ headersToRemove reached.headers false := by
      rw [mem_headersToRemove_of_not_managed hn, headersToRemove_processMaxForwards hm]
    rw [getAll_addViaHeader_ne hnv, processConnectionHeader, getAll_removeHeaders, hheaders n hnm,
      hr.fields n hn]
    by_cases hmem : n ∈ headersToRemove request.headers false
    · rw [if_pos (⟨by simp, hmem⟩ : path ++ [config] ≠ [] ∧ _)]
      by_cases hnil : path = []
      · rw [if_pos (hiff.2 (by rw [hr.start hnil]; exact hmem))]
      · rw [if_pos (⟨hnil, hmem⟩ : path ≠ [] ∧ _), ite_self]
    · have hkept : n ∉ headersToRemove r.headers (preserves config r) := fun hn => hmem
        (mem_headersToRemove.2 ((mem_headersToRemove.1 (hiff.1 hn)).imp_left (Or.imp_right (hr.named n))))
      rw [if_neg hkept, if_neg fun h => hmem h.2, if_neg fun h => hmem h.2]

theorem routed_of_run (htok : ∀ c ∈ path, ∃ p, c.pseudonym = some p ∧ p.IsToken)
    (h : run step request path = some reached) :
    Routed request path reached := by
  revert htok
  refine Run.run_invariant (fun as t => (∀ c ∈ as, ∃ p, c.pseudonym = some p ∧ p.IsToken) →
    Routed request as t)
    (fun _ => routed_nil) ?_ h
  intro as t c t' ih hs htok
  obtain ⟨p, hp, ht⟩ := htok c (by simp)
  exact (ih fun d hd => htok d (List.mem_append_left _ hd)).step hp ht hs

theorem viaHops_of_line {text : Str} (ht : text.Visible)
    (h : request.headers.getAll via = [.ofVisible text ht]) :
    viaHops request = hopsOf text ∧ (request.headers.getAll via).map shownText = [text] := by
  have hline : viaLine request = some text := by
    rw [viaLine, MultiMap.get, h]
    exact HeaderValue.toStr_ofVisible ht
  rw [viaHops, hline, h, List.map_singleton, shownText, HeaderValue.toStr_ofVisible]
  exact ⟨rfl, rfl⟩

theorem via_not_sensitive : via ∉ TRACE_SENSITIVE_HEADERS := by decide

/-- A TRACE request that may be passed on as often as there are services in front of `last` is answered by
that one. The client reads there the target and the version it sent, the `Via` elements of the services in
their order behind those it sent, and every other field it sent, but for the credentials and the fields of
the hop. -/
theorem trace_route (inner : Request → Except ε Response) (path : List Config) (last : Config)
    (rest : List Config)
    (request : Request) (hm : request.method = .trace) (hc : Counted request path.length)
    (ht : PlainTarget request)
    (hnew : ∀ c ∈ path ++ [last], Fresh request c) (hdist : ((path ++ [last]).map (·.pseudonym)).Nodup)
    (hkeep : ∀ c ∈ path, c.combineVia = false) (hvia : ¬ NamedFirst request.headers via) :
    ∃ r text echo, stack (path ++ last :: rest) inner request = .ok r ∧ r.status = .ok ∧
      r.headers.getAll contentType = [.fromStatic "message/http"] ∧
      r.body = .fromBytes (Str.asBytes text) ∧ readEcho text = some echo ∧ echo.method = "TRACE".toList ∧
      echo.target = targetText request ∧ echo.version = versionDebug request.version ∧
      (path ≠ [] → (echo.getAll via).map hopsOf =
        [viaHops request ++ path.map fun c => [viaProtocol request.version, c.pseudonym.getD []]]) ∧
      ∀ n ∉ managed, echo.getAll n =
        if n ∈ TRACE_SENSITIVE_HEADERS ∨ path ≠ [] ∧ n ∈ headersToRemove request.headers false then []
        else (request.headers.getAll n).map shownText := by
  obtain ⟨hdist, -, hlast⟩ := List.nodup_append.1 (List.map_append ▸ hdist)
  obtain ⟨reached, hrun, hzero, hfresh⟩ := exists_run_of_fresh (v := 0) hc
    (fun c h => hnew c (by simp [h])) hdist
  have hd := (hfresh last (hnew last (by simp)) fun hmem => hlast _ hmem _ (by simp) rfl).detectLoop_eq_none
  have hrouted := routed_of_run (fun c h => (hnew c (by simp [h])).imp fun p hp => ⟨hp.1, hp.2.1⟩) hrun
  obtain ⟨response, hcall, hstatus, hbody, hctype⟩ :=
    call_trace (stack rest inner) hd (hrouted.method.trans hm) hzero.eq
  have hstack : stack (last :: rest) inner reached = .ok response := hcall
  obtain ⟨r, hr, hrstatus, hrbody, hrctype⟩ := stack_of_run hrun hstack
  have htarget : targetText reached = targetText request := by
    rw [targetText, targetText, hrouted.uri]
  refine ⟨r, traceEchoBody reached, _, hr, hrstatus.trans hstatus, hrctype.trans hctype, hrbody.trans hbody,
    readEcho_traceEchoBody (hrouted.method.trans hm) ?_, rfl, htarget, ?_, fun hne => ?_, fun n hn => ?_⟩
  · rw [PlainTarget, htarget]
    exact ht
  · rw [hrouted.version]
  · obtain ⟨text, hvis, hline⟩ := hrouted.line hne
    obtain ⟨hhops, hshown⟩ := viaHops_of_line hvis hline
    rw [getAll_shown, if_neg via_not_sensitive, hshown, List.map_singleton, ← hhops,
      hrouted.hops hkeep hvia]
  · rw [getAll_shown, hrouted.fields n hn]
    by_cases hs : n ∈ TRACE_SENSITIVE_HEADERS
    · rw [if_pos hs, if_pos (.inl hs)]
    · rw [if_neg hs]
      simp only [hs, false_or]
      split <;> rfl

theorem trace_route_two :
    let request := { Request.new (.fromBytes []) with
      method := .trace
      headers := ⟨[(maxForwards, .fromStatic "2"), (cookie, .fromStatic "secret"),
        (etag, .fromStatic "e")]⟩ }
    ∃ r text echo, stack [separate "a", separate "b", separate "c"] (fun _ => .error ()) request = .ok r ∧
      r.body = .fromBytes (Str.asBytes text) ∧ readEcho text = some echo ∧
      (echo.getAll via).map hopsOf = [[["1.1".toList, "a".toList], ["1.1".toList, "b".toList]]] ∧
      echo.getAll cookie = [] ∧ echo.getAll etag = ["e".toList] := by
  intro request
  have hfresh : ∀ c ∈ [separate "a", separate "b"] ++ [separate "c"], Fresh request c := by
    intro c hc
    have hnone : ∀ p, ¬ Carries request p := fun p ⟨e, he, _⟩ => List.not_mem_nil he
    simp only [List.cons_append, List.nil_append, List.mem_cons, List.not_mem_nil, or_false] at hc
    rcases hc with rfl | rfl | rfl
    · exact ⟨"a".toList, rfl, by decide, hnone _, nofun⟩
    · exact ⟨"b".toList, rfl, by decide, hnone _, nofun⟩
    · exact ⟨"c".toList, rfl, by decide, hnone _, nofun⟩
  obtain ⟨r, text, echo, hr, -, -, hbody, hread, -, -, -, hroute, hfields⟩ :=
    trace_route (fun _ => .error ())
    [separate "a", separate "b"] (separate "c") [] request rfl
      ⟨.inl rfl, by decide, by decide, by decide⟩ ⟨by decide, by decide⟩
    hfresh (by decide) (by decide) (by decide)
  refine ⟨r, text, echo, hr, hbody, hread, hroute (by simp), ?_, ?_⟩
  · rw [hfields cookie (by decide)]
    decide
  · rw [hfields etag (by decide)]
    decide

end AxumReverseProxy.Rfc9110
