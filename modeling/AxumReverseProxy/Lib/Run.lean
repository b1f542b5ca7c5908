import Mathlib.Data.List.Induction

/-!
# Runs of a labelled step function

A step may be refused (`none`). A run takes the labels of a list one after the other; what holds at
its end is shown by an invariant over the labels taken so far (`run_invariant`).
-/

namespace Run

variable {σ α : Type*}

def run (step : σ → α → Option σ) (s : σ) (labels : List α) : Option σ := labels.foldlM step s

variable {step : σ → α → Option σ} {s t : σ} {labels : List α}

@[simp] theorem run_nil : run step s [] = some s := rfl

theorem run_cons {a : α} : run step s (a :: labels) = (step s a).bind fun t => run step t labels := rfl

theorem run_append {labels' : List α} :
    run step s (labels ++ labels') = (run step s labels).bind fun t => run step t labels' := by
  induction labels generalizing s with
  | nil => rfl
  | cons a labels ih =>
    rw [List.cons_append, run_cons, run_cons, Option.bind_assoc]
    exact congrArg _ (funext fun t => ih)

theorem run_concat {a : α} : run step s (labels ++ [a]) = (run step s labels).bind (step · a) := by
  rw [run_append]
  refine congrArg _ (funext fun t => ?_)
  rw [run_cons]
  cases step t a <;> rfl

/-- What holds at the start and is kept by every step, together with the labels taken, holds at the
end of a run. -/
theorem run_invariant (Inv : List α → σ → Prop) (h0 : Inv [] s)
    (hstep : ∀ {as t a t'}, Inv as t → step t a = some t' → Inv (as ++ [a]) t')
    (h : run step s labels = some t) : Inv labels t := by
  induction labels using List.reverseRecOn generalizing t with
  | nil => cases h; exact h0
  | append_singleton labels a ih =>
    rw [run_concat, Option.bind_eq_some_iff] at h
    obtain ⟨u, hu, ha⟩ := h
    exact hstep (ih hu) ha

theorem run_preserves (P : σ → Prop) (h0 : P s) (hstep : ∀ {t a t'}, P t → step t a = some t' → P t')
    (h : run step s labels = some t) : P t :=
  run_invariant (fun _ => P) h0 hstep h

/-- A run from which no step is refused goes on for ever. -/
theorem exists_run (P : σ → Prop) (h0 : P s) (hstep : ∀ {t} a, P t → ∃ t', step t a = some t' ∧ P t')
    (labels : List α) : ∃ t, run step s labels = some t ∧ P t := by
  induction labels generalizing s with
  | nil => exact ⟨s, rfl, h0⟩
  | cons a labels ih =>
    obtain ⟨u, hu, hP⟩ := hstep a h0
    obtain ⟨t, ht, hPt⟩ := ih hP
    exact ⟨t, by rw [run_cons, hu, Option.bind_some, ht], hPt⟩

/-- What a step keeps under a condition on it, and never brings back, holds at the end of a run exactly
when every step met its condition. The step may rest on an invariant. -/
theorem run_iff_forall_of_invariant {I Q : σ → Prop} {P : σ → α → Prop} (hI0 : I s)
    (hI : ∀ {t a t'}, I t → step t a = some t' → I t') (h0 : Q s)
    (hstep : ∀ a ∈ labels, ∀ t t', I t → step t a = some t' → (Q t' ↔ Q t ∧ P t a))
    (h : run step s labels = some t) :
    Q t ↔ ∀ pre a post u, labels = pre ++ a :: post → run step s pre = some u → P u a := by
  induction labels using List.reverseRecOn generalizing t with
  | nil =>
    cases h
    exact iff_of_true h0 fun pre a post u heq => by simp at heq
  | append_singleton labels b ih =>
    rw [run_concat, Option.bind_eq_some_iff] at h
    obtain ⟨v, hv, hb⟩ := h
    rw [hstep b (by simp) v t (run_preserves I hI0 hI hv) hb,
      ih (fun a ha => hstep a (List.mem_append_left _ ha)) hv]
    constructor
    · rintro ⟨hall, hlast⟩ pre a post u heq hu
      rcases List.eq_nil_or_concat post with rfl | ⟨post, c, rfl⟩
      · obtain ⟨rfl, hab⟩ := List.append_inj' heq rfl
        cases hab
        rw [hv] at hu
        cases hu
        exact hlast
      · refine hall pre a post u ?_ hu
        rw [List.concat_eq_append, ← List.cons_append, ← List.append_assoc] at heq
        exact (List.append_inj' heq rfl).1
    · intro hall
      refine ⟨fun pre a post u heq hu => hall pre a (post ++ [b]) u (by rw [heq]; simp) hu,
        hall labels b [] v rfl hv⟩

theorem run_iff_forall {Q : σ → Prop} {P : σ → α → Prop} (h0 : Q s)
    (hstep : ∀ a ∈ labels, ∀ t t', step t a = some t' → (Q t' ↔ Q t ∧ P t a))
    (h : run step s labels = some t) :
    Q t ↔ ∀ pre a post u, labels = pre ++ a :: post → run step s pre = some u → P u a :=
  run_iff_forall_of_invariant (I := fun _ => True) trivial (fun _ _ => trivial) h0
    (fun a ha t t' _ hs => hstep a ha t t' hs) h

/-- A run is no longer than what its start has to spend, when every step spends something. -/
theorem length_add_le_of_potential (P : σ → Prop) (Φ : σ → Nat) (h0 : P s)
    (hstep : ∀ {t a t'}, P t → step t a = some t' → P t' ∧ Φ t' + 1 ≤ Φ t)
    (h : run step s labels = some t) :
    labels.length + Φ t ≤ Φ s := by
  have hinv := run_invariant (fun labels t => P t ∧ labels.length + Φ t ≤ Φ s) ⟨h0, by simp⟩ ?_ h
  · exact hinv.2
  · rintro as t a t' ⟨hP, hle⟩ hs
    obtain ⟨hP', hlt⟩ := hstep hP hs
    refine ⟨hP', ?_⟩
    rw [List.length_append, List.length_singleton]
    omega

end Run
