import Mathlib.Data.List.Induction
import Mathlib.Data.List.Nodup
import Mathlib.Data.List.Perm.Basic

/-!
# Single-use tokens

A trace grants and spends tokens, one kind for each `i`; a second grant before the token is spent
adds nothing. A trace is disciplined when everything it spends was granted since it was last spent.
An account is what an owner of `i` believes of the token; `Agrees` keeps the accounts of distinct
owners true along a trace.
-/

namespace Token

inductive Use (ι : Type*)
  | grant (i : ι)
  | spend (i : ι)
deriving DecidableEq

variable {ι : Type*} [DecidableEq ι]

/-- Whether a token of `i` is at hand after a trace. -/
def held (uses : List (Use ι)) (i : ι) : Bool :=
  uses.foldl (fun h u => match u with | .grant j => h || j = i | .spend j => h && j ≠ i) false

def Disciplined (uses : List (Use ι)) : Prop :=
  ∀ pre i post, uses = pre ++ .spend i :: post → held pre i = true

variable {uses uses' : List (Use ι)} {i j : ι}

theorem held_concat_grant : held (uses ++ [.grant j]) i = (held uses i || decide (j = i)) := by
  rw [held, List.foldl_append]; rfl

theorem held_concat_spend : held (uses ++ [.spend j]) i = (held uses i && decide (j ≠ i)) := by
  rw [held, List.foldl_append]; rfl

omit [DecidableEq ι] in
theorem concat_eq_append_cons {u v : Use ι} {pre post : List (Use ι)} (h : uses ++ [u] = pre ++ v :: post) :
    (uses = pre ∧ u = v ∧ post = []) ∨ ∃ post', post = post' ++ [u] ∧ uses = pre ++ v :: post' := by
  rcases List.eq_nil_or_concat post with rfl | ⟨post, w, rfl⟩
  · obtain ⟨hp, hu⟩ := List.append_inj' h rfl
    exact .inl ⟨hp, List.singleton_inj.1 hu, rfl⟩
  · rw [List.concat_eq_append, ← List.cons_append, ← List.append_assoc] at h
    obtain ⟨hp, hu⟩ := List.append_inj' h rfl
    exact .inr ⟨post, by rw [List.concat_eq_append, List.singleton_inj.1 hu], hp⟩

/-- A token is at hand when it was granted and not spent since. -/
theorem held_iff : held uses i = true ↔ ∃ a b, uses = a ++ .grant i :: b ∧ .spend i ∉ b := by
  induction uses using List.reverseRecOn with
  | nil => simp [held]
  | append_singleton uses u ih =>
    cases u with
    | grant j =>
      rw [held_concat_grant, Bool.or_eq_true, decide_eq_true_eq, ih]
      constructor
      · rintro (⟨a, b, rfl, hb⟩ | rfl)
        · exact ⟨a, b ++ [.grant j], by simp, by simpa using hb⟩
        · exact ⟨uses, [], rfl, by simp⟩
      · rintro ⟨a, b, h, hb⟩
        rcases concat_eq_append_cons h with ⟨-, hu, -⟩ | ⟨b, rfl, rfl⟩
        · exact .inr (Use.grant.inj hu)
        · exact .inl ⟨a, b, rfl, fun hm => hb (by simp [hm])⟩
    | spend j =>
      rw [held_concat_spend, Bool.and_eq_true, decide_eq_true_eq, ih]
      constructor
      · rintro ⟨⟨a, b, rfl, hb⟩, hj⟩
        exact ⟨a, b ++ [.spend j], by simp, by simpa [hb] using Ne.symm hj⟩
      · rintro ⟨a, b, h, hb⟩
        rcases concat_eq_append_cons h with ⟨-, hu, -⟩ | ⟨b, rfl, rfl⟩
        · cases hu
        · exact ⟨⟨a, b, rfl, fun hm => hb (by simp [hm])⟩, by rintro rfl; simp at hb⟩

theorem disciplined_nil : Disciplined ([] : List (Use ι)) := by
  intro pre i post h
  simp at h

theorem disciplined_concat_grant : Disciplined (uses ++ [.grant j]) ↔ Disciplined uses := by
  constructor
  · intro h pre i post he
    exact h pre i (post ++ [.grant j]) (by rw [he]; simp)
  · intro h pre i post he
    rcases concat_eq_append_cons he with ⟨-, hu, -⟩ | ⟨post, -, he⟩
    · cases hu
    · exact h pre i post he

theorem disciplined_concat_spend :
    Disciplined (uses ++ [.spend j]) ↔ Disciplined uses ∧ held uses j = true := by
  constructor
  · intro h
    refine ⟨fun pre i post he => ?_, h uses j [] rfl⟩
    exact h pre i (post ++ [.spend j]) (by rw [he]; simp)
  · rintro ⟨h, hj⟩ pre i post he
    rcases concat_eq_append_cons he with ⟨rfl, hu, -⟩ | ⟨post, -, he⟩
    · cases hu
      exact hj
    · exact h pre i post he

/-! ### Accounts -/

/-- Distinct owners, each right about its token where it believes anything. -/
structure Agrees (uses : List (Use ι)) (accounts : List (ι × Option Bool)) : Prop where
  distinct : (accounts.map (·.1)).Nodup
  right : ∀ a ∈ accounts, ∀ b ∈ a.2, held uses a.1 = b

variable {accounts accounts' : List (ι × Option Bool)} {b b' : Option Bool}

theorem Agrees.perm (h : Agrees uses accounts) (hp : accounts.Perm accounts') : Agrees uses accounts' :=
  ⟨(hp.map _).nodup_iff.1 h.distinct, fun a ha => h.right a (hp.mem_iff.2 ha)⟩

theorem Agrees.head (h : Agrees uses ((i, some true) :: accounts)) : held uses i = true :=
  h.right _ (List.mem_cons_self ..) true rfl

theorem Agrees.head_spent (h : Agrees uses ((i, some false) :: accounts)) : held uses i = false :=
  h.right _ (List.mem_cons_self ..) false rfl

theorem Agrees.forget (h : Agrees uses ((i, b) :: accounts)) (hb : b' = b ∨ b' = none) :
    Agrees uses ((i, b') :: accounts) := by
  refine ⟨h.distinct, List.forall_mem_cons.2 ⟨fun c hc => ?_,
    fun a ha => h.right a (List.mem_cons_of_mem _ ha)⟩⟩
  rcases hb with rfl | rfl
  · exact h.right _ (List.mem_cons_self ..) c hc
  · cases hc

theorem Agrees.fresh (h : Agrees uses accounts) (hi : i ∉ accounts.map (·.1)) :
    Agrees uses ((i, none) :: accounts) :=
  ⟨List.nodup_cons.2 ⟨hi, h.distinct⟩, List.forall_mem_cons.2 ⟨by simp, h.right⟩⟩

theorem Agrees.grant (h : Agrees uses ((i, b) :: accounts)) (hb : b' ≠ some false) :
    Agrees (uses ++ [.grant i]) ((i, b') :: accounts) := by
  refine ⟨h.distinct, List.forall_mem_cons.2 ⟨fun c hc => ?_, fun a ha c hc => ?_⟩⟩
  · cases hc
    cases c with
    | false => exact absurd rfl hb
    | true => simp [held_concat_grant]
  · have hne : i ≠ a.1 := fun hi => (List.nodup_cons.1 h.distinct).1 (List.mem_map.2 ⟨a, ha, hi.symm⟩)
    rw [held_concat_grant, h.right a (List.mem_cons_of_mem _ ha) c hc]
    simp [hne]

theorem Agrees.spend (h : Agrees uses ((i, b) :: accounts)) (hb : b' ≠ some true) :
    Agrees (uses ++ [.spend i]) ((i, b') :: accounts) := by
  refine ⟨h.distinct, List.forall_mem_cons.2 ⟨fun c hc => ?_, fun a ha c hc => ?_⟩⟩
  · cases hc
    cases c with
    | true => exact absurd rfl hb
    | false => simp [held_concat_spend]
  · have hne : i ≠ a.1 := fun hi => (List.nodup_cons.1 h.distinct).1 (List.mem_map.2 ⟨a, ha, hi.symm⟩)
    rw [held_concat_spend, h.right a (List.mem_cons_of_mem _ ha) c hc]
    simp [hne]

end Token
