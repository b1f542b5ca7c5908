import AxumReverseProxy.Lib.Run
import AxumReverseProxy.Rfc9110.Steps

/-!
# Loops through `Rfc9110Layer`

A request that travels unchanged from one service to the next. A service reads and writes one `Via`
line: it adds its own element behind those of the line (`viaHops_step`), unless it combines them or
`Connection` has it remove them (`ForgetsVia`). So the element of a service is still there when the
request comes back exactly when no service since has forgotten it.
-/

namespace AxumReverseProxy.Rfc9110

open HeaderName
open Run (run run_concat run_append run_iff_forall)

/-- The words of each element of a line. -/
def hopsOf (line : Str) : List (List Str) := (line.split ',').map Str.splitWhitespace

/-- The elements of the first `Via` line. -/
def viaHops (request : Request) : List (List Str) :=
  ((viaLine request).map hopsOf).getD []

/-- The service drops the `Via` elements it finds: `Connection` names `via`, or it combines them. -/
def ForgetsVia (config : Config) (request : Request) : Prop :=
  via ∈ headersToRemove request.headers (preserves config request) ∨ config.combineVia = true ∧
    SameProtocol request

instance (config : Config) (request : Request) : Decidable (ForgetsVia config request) :=
  inferInstanceAs (Decidable (_ ∨ _))

variable {request request' reached : Request} {config c d : Config} {response : Response} {p : Str}

/-! ### The `Via` line -/

theorem viaHops_congr (h : viaLine request = viaLine request') : viaHops request = viaHops request' := by
  rw [viaHops, viaHops, h]

theorem setVia_of_visible (request : Request) {text : Str} (h : text.Visible) :
    viaHops (setVia request text).2 = hopsOf text ∧ (setVia request text).2.uri = request.uri ∧
      (setVia request text).2.version = request.version := by
  rw [setVia, HeaderValue.fromStr_of_visible h]
  refine ⟨?_, rfl, rfl⟩
  have hline : ((request.headers.insert via (.ofVisible text h)).get via).bind HeaderValue.toStr =
    some text := by
    rw [MultiMap.get, MultiMap.getAll_insert_self]
    exact HeaderValue.toStr_ofVisible h
  rw [viaHops, viaLine, hline]
  rfl

theorem hopsOf_own (version : Version) (hp : p.IsToken) :
    hopsOf (viaProtocol version ++ " ".toList ++ p) = [[viaProtocol version, p]] := by
  rw [hopsOf, Str.split, List.splitOn_eq_singleton (comma_not_mem_own version hp.isPseudonym),
    List.map_singleton, splitWhitespace_own version hp.isPseudonym]

theorem hopsOf_trim {line e : Str} (he : e ∈ line.split ',') : hopsOf e.trim = [e.splitWhitespace] := by
  have hc : ',' ∉ e.trim := fun h =>
    CommaList.sep_not_mem_of_mem_splitOn he (CommaList.mem_of_mem_trimBy h)
  rw [hopsOf, Str.split, List.splitOn_eq_singleton hc, List.map_singleton]
  exact congrArg (fun w => [w]) (CommaList.words_trimBy e)

/-- Elements that are joined with one more read as they and that one. -/
theorem hopsOf_join (entries : List Str) (own : Str) :
    hopsOf (Str.join (entries ++ [own]) ", ".toList) = entries.flatMap hopsOf ++ hopsOf own := by
  have hsep : ',' ∉ [' '] := by decide
  refine (CommaList.map_splitOn_join hsep splitWhitespace_space (by simp)).trans ?_
  rw [List.flatMap_append, List.flatMap_singleton]
  rfl

theorem flatMap_hopsOf_viaEntries (request : Request) :
    (viaEntries request).flatMap hopsOf = viaHops request := by
  unfold viaEntries viaHops
  cases viaLine request with
  | none => rfl
  | some line =>
    rw [Option.map_some, Option.getD_some, Option.map_some, Option.getD_some, List.flatMap_map, hopsOf,
      List.map_eq_flatMap]
    exact List.flatMap_congr fun e he => hopsOf_trim he

theorem viaText_visible (request : Request) (hc : config.pseudonym = some p) (hp : p.IsToken) :
    (Str.join ((if Combines config request then [] else viaEntries request) ++ [ownText config request])
      ", ".toList).Visible := by
  refine .join (fun e he => ?_) (by decide)
  rcases List.mem_append.1 he with he | he
  · split at he
    · cases he
    · exact viaEntries_visible e he
  · rw [List.mem_singleton.1 he, ownText, hc]
    exact own_visible request.version hp.isPseudonym

/-- The elements found are kept, or all forgotten, and the service's own comes behind them. -/
theorem addViaHeader_spec (request : Request) (hc : config.pseudonym = some p) (hp : p.IsToken) :
    viaHops (addViaHeader request config).2 =
        (if config.combineVia = true ∧ SameProtocol request then [] else viaHops request) ++
          [[viaProtocol request.version, p]] ∧
      (addViaHeader request config).2.uri = request.uri ∧ (addViaHeader request config).2.version =
        request.version := by
  have hown : ownText config request = viaProtocol request.version ++ " ".toList ++ p := by
    rw [ownText, hc, Option.getD_some]
  have hcomb : Combines config request ↔ config.combineVia = true ∧ SameProtocol request := by
    simp [Combines, hc]
  have hvis := viaText_visible request hc hp
  obtain ⟨hhops, hrest⟩ := setVia_of_visible request hvis
  rw [addViaHeader_eq]
  refine ⟨?_, hrest⟩
  rw [hhops, hopsOf_join, hown, hopsOf_own request.version hp]
  simp only [hcomb]
  split
  · rfl
  · rw [flatMap_hopsOf_viaEntries]

/-! ### Passing a service -/

def Carries (request : Request) (p : Str) : Prop := ∃ e ∈ viaHops request, e[1]? = some p

/-- `Max-Forwards` has no part in what becomes of `Via`. -/
theorem viaHops_step (hc : config.pseudonym = some p) (hp : p.IsToken)
    (h : step request config = some request') :
    viaHops request' = (if ForgetsVia config request then [] else viaHops request) ++
      [[viaProtocol request.version, p]] ∧
      request'.uri = request.uri := by
  obtain ⟨-, r, hm, rfl⟩ := step_eq_some h
  obtain ⟨huri, hversion, -⟩ := processMaxForwards_ok hm
  obtain ⟨hhops, huri', -⟩ := addViaHeader_spec (processConnectionHeader r (preserves config r)) hc hp
  refine ⟨?_, huri'.trans huri⟩
  have hline : viaLine (processConnectionHeader r (preserves config r)) =
      if via ∈ headersToRemove request.headers (preserves config request) then none else
        viaLine request := by
    rw [viaLine_processConnectionHeader hm, preserves_processMaxForwards hm]
  have hver : (processConnectionHeader r (preserves config r)).version = request.version := hversion
  rw [hhops, hver]
  refine congrArg (· ++ _) ?_
  by_cases hn : via ∈ headersToRemove request.headers (preserves config request)
  · rw [if_pos hn] at hline
    have hnil : viaHops (processConnectionHeader r (preserves config r)) = [] := by
      rw [viaHops, hline]
      rfl
    rw [if_pos (show ForgetsVia config request from .inl hn), hnil, ite_self]
  · rw [if_neg hn] at hline
    have hsame : SameProtocol (processConnectionHeader r (preserves config r)) ↔ SameProtocol request := by
      rw [SameProtocol, SameProtocol, hline, hver]
    rw [viaHops_congr hline]
    simp only [hsame, ForgetsVia, hn, false_or]

theorem carries_step_self (hc : config.pseudonym = some p) (hp : p.IsToken)
    (h : step request config = some request') :
    Carries request' p :=
  ⟨[viaProtocol request.version, p], by rw [(viaHops_step hc hp h).1]; simp, rfl⟩

theorem carries_step_ne {q : Str} (hc : config.pseudonym = some p) (hp : p.IsToken) (hne : q ≠ p)
    (h : step request config = some request') :
    Carries request' q ↔ Carries request q ∧ ¬ ForgetsVia config request := by
  unfold Carries
  rw [(viaHops_step hc hp h).1]
  by_cases hf : ForgetsVia config request
  · rw [if_pos hf]
    simp [hf, Ne.symm hne]
  · rw [if_neg hf]
    simp [hf, or_and_right, exists_or, Ne.symm hne]

/-! ### Coming back -/

def NamesServer (request : Request) (config : Config) : Prop :=
  (config.serverNames.any fun serverNames => (request.uri.authority?.map (·.host)).any
    serverNames.contains) = true

theorem carriesPseudonym_iff {entry : Str} :
    carriesPseudonym p entry = true ↔ entry.splitWhitespace[1]? = some p :=
  second_eq_iff

theorem detectLoop_eq_none_iff (hc : config.pseudonym = some p) :
    detectLoop request config = none ↔ ¬ NamesServer request config ∧ ¬ Carries request p := by
  have hcarries : (((request.headers.get via).bind HeaderValue.toStr).any fun viaStr =>
      ((viaStr.split ',').map Str.trim).any (carriesPseudonym (config.pseudonym.getD "proxy".toList))) =
        true ↔
        Carries request p := by
    rw [hc, Option.getD_some, Carries, viaHops, viaLine]
    cases (request.headers.get via).bind HeaderValue.toStr with
    | none => simp
    | some line =>
      simp only [Option.any_some, List.any_map, List.any_eq_true, Function.comp, carriesPseudonym_iff,
        Option.map_some, Option.getD_some, hopsOf, List.mem_map, exists_exists_and_eq_and]
      refine exists_congr fun e => and_congr_right fun _ => ?_
      rw [Str.splitWhitespace, Str.trim, CommaList.words_trimBy]
      rfl
  unfold detectLoop
  rw [← hcarries]
  split
  · next h => exact iff_of_false (by simp) fun hn => hn.1 h
  · next h =>
    split
    · next h' => exact iff_of_false (by simp) fun hn => hn.2 h'
    · next h' => exact iff_of_true rfl ⟨h, h'⟩

theorem detectLoop_eq_some (h : detectLoop request config = some response) : response = loopDetected := by
  unfold detectLoop at h
  split at h
  · cases h; rfl
  · split at h
    · cases h; rfl
    · cases h

theorem status_of_receive_error (h : receive config request = .error response)
    (hs : response.status = .loopDetected) : detectLoop request config ≠ none := by
  intro hd
  unfold receive at h
  rw [hd] at h
  cases hm : processMaxForwards request with
  | error res =>
    rw [hm] at h
    cases h
    rw [processMaxForwards_error hm] at hs
    exact absurd hs (by decide)
  | ok r => rw [hm] at h; cases h

/-- A service answers 508, without a call of the one it wraps, exactly when it detects a loop. -/
theorem answers_508_iff : (∃ response, response.status = .loopDetected ∧
      ∀ inner : Request → Except Unit Response, call config inner request = .ok response) ↔
    detectLoop request config ≠ none := by
  constructor
  · rintro ⟨response, hs, h⟩
    have hcall := h fun _ => .error ()
    unfold call at hcall
    split at hcall
    · next res hr =>
      cases hcall
      exact status_of_receive_error hr hs
    · cases hcall
  · intro hd
    obtain ⟨response, hd⟩ := Option.ne_none_iff_exists'.1 hd
    refine ⟨response, by rw [detectLoop_eq_some hd]; rfl, fun inner => ?_⟩
    rw [call, receive, hd]

theorem uri_of_run {path : List Config} (htok : ∀ d ∈ path, ∃ p, d.pseudonym = some p ∧ p.IsToken)
    (h : run step request path = some reached) : reached.uri = request.uri := by
  revert htok
  refine Run.run_invariant (fun as (t : Request) =>
    (∀ d ∈ as, ∃ p, d.pseudonym = some p ∧ p.IsToken) → t.uri = request.uri) (fun _ => rfl) ?_ h
  intro as t d t' ih hs htok
  obtain ⟨p, hp, ht⟩ := htok d (by simp)
  exact (viaHops_step hp ht hs).2.trans (ih fun d' hd' => htok d' (List.mem_append_left _ hd'))

/-- A request that comes back to a service it has passed is answered 508 exactly when no service it has
passed since then has forgotten the `Via` elements it found. -/
theorem loop_detected_iff (before since : List Config) (c : Config) (request reached : Request)
    (htok : ∀ d ∈ before ++ c :: since, ∃ p, d.pseudonym = some p ∧ p.IsToken)
    (hdist : ∀ d ∈ before ++ c :: since, ∀ d' ∈ before ++ c :: since, d.pseudonym = d'.pseudonym → d = d')
    (hlast : c ∉ since) (h : run step request (before ++ c :: since) = some reached) :
    (∃ response, response.status = .loopDetected ∧
        ∀ inner : Request → Except Unit Response, call c inner reached = .ok response) ↔
      ∀ mid d rest r, since = mid ++ d :: rest → run step request (before ++ c :: mid) = some r →
        ¬ ForgetsVia d r := by
  have hsplit : ∀ l, run step request (before ++ c :: l) = (run step request (before ++ [c])).bind
    (run step · l) := by
    intro l
    rw [List.append_cons, run_append]
  obtain ⟨p, hp, ht⟩ := htok c (by simp)
  have hsince : ∀ d ∈ since, ∃ q, d.pseudonym = some q ∧ q.IsToken ∧ p ≠ q := by
    intro d hd
    obtain ⟨q, hq, htq⟩ := htok d (by simp [hd])
    refine ⟨q, hq, htq, ?_⟩
    rintro rfl
    exact hlast (hdist c (by simp) d (by simp [hd]) (hp.trans hq.symm) ▸ hd)
  rw [hsplit, Option.bind_eq_some_iff] at h
  obtain ⟨passed, hpassed, h⟩ := h
  obtain ⟨arrived, -, hstep⟩ : ∃ arrived, run step request before = some arrived ∧
    step arrived c = some passed := by
    rwa [run_concat, Option.bind_eq_some_iff] at hpassed
  have hserver : ¬ NamesServer reached c := by
    have huri : reached.uri = arrived.uri :=
      (uri_of_run (fun d hd => htok d (by simp [hd])) h).trans (viaHops_step hp ht hstep).2
    rw [NamesServer, huri]
    exact ((detectLoop_eq_none_iff hp).1 (step_eq_some hstep).1).1
  rw [answers_508_iff, Ne, detectLoop_eq_none_iff hp, and_iff_right hserver, not_not,
    run_iff_forall (P := fun r d => ¬ ForgetsVia d r) (Q := (Carries · p)) (carries_step_self hp
      ht hstep) ?_ h]
  · refine forall_congr' fun mid => forall_congr' fun d => forall_congr' fun rest => forall_congr' fun r =>
      forall_congr' fun _ => ?_
    rw [hsplit, hpassed, Option.bind_some]
  · intro d hd t t' hs
    obtain ⟨q, hq, htq, hne⟩ := hsince d hd
    exact carries_step_ne hq htq hne hs

/-- A service that never combines `Via`. -/
def separate (p : String) : Config := { pseudonym := some p.toList, combineVia := false }

/-- A request that passes `a` and `b`, neither of which combines, and comes back to `a`. -/
theorem loop_detected_iff_separate : ∃ reached, run step (.new (.fromBytes []))
    [separate "a", separate "b"] = some reached ∧
    ∃ response, response.status = .loopDetected ∧
      ∀ inner : Request → Except Unit Response, call (separate "a") inner reached = .ok response := by
  obtain ⟨passed, reached, hpassed, h, hforgets⟩ : ∃ passed reached,
      run step (.new (.fromBytes [])) [separate "a"] = some passed ∧
        run step (.new (.fromBytes [])) [separate "a", separate "b"] = some reached ∧
          ¬ ForgetsVia (separate "b") passed := ⟨_, _, rfl, rfl, by decide⟩
  refine ⟨reached, h, (loop_detected_iff [] [separate "b"] (separate "a") _ reached ?_ ?_ (by decide) h).2
    ?_⟩
  · intro d hd
    rcases List.mem_pair.1 hd with rfl | rfl <;> exact ⟨_, rfl, by decide⟩
  · decide
  · intro mid d rest r heq hr
    cases mid with
    | nil =>
      cases heq
      obtain rfl : passed = r := Option.some.inj (hpassed.symm.trans hr)
      exact hforgets
    | cons x mid => simp at heq

/-- With the default configuration `b` combines the element of `a` away, and in a handshake whose
`Connection` names `via` it removes it; `a` then passes the request on a second time. -/
theorem combined_loop_undetected :
    let a : Config := { pseudonym := some ['a'] }
    let b : Config := { pseudonym := some ['b'] }
    let handshake : HeaderMap := ⟨[(connection, .fromStatic "upgrade, via"),
      (secWebsocketKey, .fromStatic "a2V5"), (secWebsocketVersion, .fromStatic "13")]⟩
    (run step (.new (.fromBytes [])) [a, b, a]).isSome = true ∧
      (run step { Request.new (.fromBytes []) with headers := handshake } [separate "a", separate "b",
        separate "a"]).isSome =
        true := by
  decide

end AxumReverseProxy.Rfc9110
