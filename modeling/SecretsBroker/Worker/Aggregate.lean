import Mathlib.Data.Multiset.Lattice
import Mathlib.Order.Basic
import SecretsBroker.Worker.Access

/-!
# The worst status

`Aggregate` goes through the statuses with the worst outcome so far, returns at once on the worst of
all, and compares in each case with some of the other outcomes only. `Severity` is the order that
the cases amount to: `aggregateFrom_eq` says that the loop computes the maximum, from any outcome
but the worst. What `Aggregate` is used for follows from the laws of the maximum
(`aggregate_eq_worst`).
-/

namespace SecretsBroker.AccessDiag

/-- How bad a status is, from the best to the worst. -/
inductive Severity
  | accessible
  | inaccessible
  | unknownError
  | apiError
  | networkError
  | authenticationError
  deriving DecidableEq

namespace Severity

def rank : Severity → ℕ
  | accessible => 0
  | inaccessible => 1
  | unknownError => 2
  | apiError => 3
  | networkError => 4
  | authenticationError => 5

theorem rank_injective : Function.Injective rank := by
  intro a b h
  cases a <;> cases b <;> first | rfl | cases h

instance : LinearOrder Severity := LinearOrder.lift' rank rank_injective

instance : OrderBot Severity where
  bot := accessible
  bot_le a := Nat.zero_le a.rank

theorem accessible_le (a : Severity) : accessible ≤ a := bot_le

theorem le_authenticationError (a : Severity) : a ≤ authenticationError := by
  change a.rank ≤ 5
  cases a <;> decide

/-- The status of a severity. -/
def status : Severity → Bytes
  | accessible => StatusAccessible
  | inaccessible => StatusInaccessible
  | unknownError => StatusUnknownError
  | apiError => StatusAPIError
  | networkError => StatusNetworkError
  | authenticationError => StatusAuthenticationError

/-- The outcome of a severity. -/
def outcome : Severity → Bytes
  | accessible => OutcomeAllAccessible
  | inaccessible => OutcomeInaccessible
  | unknownError => OutcomeUnknownError
  | apiError => OutcomeAPIError
  | networkError => OutcomeNetworkError
  | authenticationError => OutcomeAuthenticationError

def all : List Severity :=
  [accessible, inaccessible, unknownError, apiError, networkError, authenticationError]

/-- The severity that a text stands for. -/
def find (text : Severity → Bytes) (t : Bytes) : Severity :=
  (all.find? fun a => text a = t).getD accessible

def ofStatus : Bytes → Severity := find status

def ofOutcome : Bytes → Severity := find outcome

@[simp] theorem ofStatus_status (a : Severity) : ofStatus a.status = a := by
  cases a <;> decide +kernel

@[simp] theorem ofOutcome_outcome (a : Severity) : ofOutcome a.outcome = a := by
  cases a <;> decide +kernel

theorem status_injective : Function.Injective status := fun a b h => by
  rw [← ofStatus_status a, h, ofStatus_status]

theorem outcome_injective : Function.Injective outcome := fun a b h => by
  rw [← ofOutcome_outcome a, h, ofOutcome_outcome]

theorem exists_of_mem_statuses {t : Bytes} (h : t ∈ statuses) : ∃ a : Severity, t = a.status := by
  have hall : ∀ t ∈ statuses, t = (ofStatus t).status := by decide +kernel
  exact ⟨ofStatus t, hall t h⟩

end Severity

open Severity

/-- The greatest severity of the projects. -/
def worst (ps : List ProjectResult) : Severity :=
  (Multiset.ofList (ps.map fun p => ofStatus p.status)).sup

section Worst

variable {ps xs ys : List ProjectResult}

theorem worst_cons (p : ProjectResult) (ps : List ProjectResult) :
    worst (p :: ps) = ofStatus p.status ⊔ worst ps := by
  rw [worst, List.map_cons, ← Multiset.cons_coe, Multiset.sup_cons, worst]

theorem worst_append (xs ys : List ProjectResult) : worst (xs ++ ys) = worst xs ⊔ worst ys := by
  rw [worst, List.map_append, ← Multiset.coe_add, Multiset.sup_add, worst, worst]

theorem worst_perm (h : xs.Perm ys) : worst ys = worst xs := by
  rw [worst, worst, Multiset.coe_eq_coe.2 (h.map _)]

theorem worst_le_iff {a : Severity} : worst ps ≤ a ↔ ∀ p ∈ ps, ofStatus p.status ≤ a := by
  rw [worst, Multiset.sup_le]
  simp

/-- The greatest severity is that of a project. -/
theorem exists_eq_worst (h : ps ≠ []) : ∃ p ∈ ps, ofStatus p.status = worst ps := by
  induction ps with
  | nil => exact absurd rfl h
  | cons p ps ih =>
    rw [worst_cons]
    rcases le_total (worst ps) (ofStatus p.status) with hle | hle
    · exact ⟨p, by simp, (sup_eq_left.2 hle).symm⟩
    · by_cases hnil : ps = []
      · subst hnil
        have hbot : worst [] ≤ ofStatus p.status := worst_le_iff.2 (by simp)
        exact ⟨p, by simp, (sup_eq_left.2 hbot).symm⟩
      · obtain ⟨q, hq, heq⟩ := ih hnil
        exact ⟨q, by simp [hq], heq.trans (sup_eq_right.2 hle).symm⟩

end Worst

/-! ## The loop -/

/-- What a status other than the worst makes of the worst outcome so far. -/
def worsen (worst status : Bytes) : Bytes :=
  if status = StatusNetworkError then
    if worst ≠ OutcomeAuthenticationError then OutcomeNetworkError else worst
  else if status = StatusAPIError then
    if worst ≠ OutcomeNetworkError then OutcomeAPIError else worst
  else if status = StatusUnknownError then
    if worst ≠ OutcomeNetworkError ∧ worst ≠ OutcomeAPIError then OutcomeUnknownError else worst
  else if status = StatusInaccessible then
    if worst = OutcomeAllAccessible then OutcomeInaccessible else worst
  else worst

theorem aggregateFrom_cons (outcome : Bytes) (p : ProjectResult) (ps : List ProjectResult) :
    aggregateFrom outcome (p :: ps) =
      if p.status = StatusAuthenticationError then OutcomeAuthenticationError
      else aggregateFrom (worsen outcome p.status) ps := by
  simp only [aggregateFrom, worsen]
  split_ifs <;> rfl

/-- The cases of the loop are those of the maximum, as long as the worst is not reached. -/
theorem worsen_eq {a b : Severity} (ha : a ≠ authenticationError) (hb : b ≠ authenticationError) :
    worsen a.outcome b.status = (a ⊔ b).outcome ∧ a ⊔ b ≠ authenticationError := by
  cases a <;> cases b <;> first | exact absurd rfl ha | exact absurd rfl hb | decide +kernel

/-- **The loop computes the maximum**, from any outcome but the worst. -/
theorem aggregateFrom_eq {a : Severity} (ha : a ≠ authenticationError) {ps : List ProjectResult}
    (hps : ∀ p ∈ ps, p.status ∈ statuses) :
    aggregateFrom a.outcome ps = (a ⊔ worst ps).outcome := by
  induction ps generalizing a with
  | nil =>
    have hbot : worst [] ≤ a := worst_le_iff.2 (by simp)
    rw [sup_eq_left.2 hbot]
    rfl
  | cons p ps ih =>
    obtain ⟨b, hb⟩ := exists_of_mem_statuses (hps p (by simp))
    rw [aggregateFrom_cons, worst_cons, hb, ofStatus_status]
    by_cases hworst : b = authenticationError
    · -- the loop returns, and nothing is greater
      subst hworst
      have hle : a ⊔ (authenticationError ⊔ worst ps) = authenticationError := by
        rw [sup_eq_left.2 (le_authenticationError _), sup_eq_right.2 (le_authenticationError _)]
      have hstatus : authenticationError.status = StatusAuthenticationError := rfl
      rw [if_pos hstatus, hle]
      rfl
    · have hne : b.status ≠ StatusAuthenticationError := fun h => hworst (status_injective h)
      obtain ⟨heq, hbelow⟩ := worsen_eq ha hworst
      rw [if_neg hne, heq, ih hbelow fun q hq => hps q (by simp [hq]), sup_assoc]

theorem aggregate_eq {ps : List ProjectResult} (hps : ∀ p ∈ ps, p.status ∈ statuses) :
    aggregate ps = (worst ps).outcome := by
  have h := @aggregateFrom_eq accessible (by decide) ps hps
  rwa [sup_eq_right.2 (accessible_le _)] at h

/-- **`Aggregate` is the outcome of the worst status.** It does not depend on the order, that of two
lists together follows from those of the two, and all is accessible exactly if every project is. -/
theorem aggregate_eq_worst {xs ys : List ProjectResult} (hxs : ∀ p ∈ xs, p.status ∈ statuses)
    (hys : ∀ p ∈ ys, p.status ∈ statuses) :
    (aggregate xs = (worst xs).outcome ∧ (∀ p ∈ xs, ofStatus p.status ≤ worst xs) ∧
      (xs ≠ [] → ∃ p ∈ xs, ofStatus p.status = worst xs)) ∧
    (∀ zs, xs.Perm zs → aggregate zs = aggregate xs) ∧
    aggregate (xs ++ ys) = (ofOutcome (aggregate xs) ⊔ ofOutcome (aggregate ys)).outcome ∧
    (aggregate xs = OutcomeAllAccessible ↔ ∀ p ∈ xs, p.status = StatusAccessible) := by
  refine ⟨⟨aggregate_eq hxs, worst_le_iff.1 le_rfl, exists_eq_worst⟩, fun zs h => ?_, ?_, ?_⟩
  · have hzs : ∀ p ∈ zs, p.status ∈ statuses := fun p hp => hxs p (h.mem_iff.2 hp)
    rw [aggregate_eq hzs, aggregate_eq hxs, worst_perm h]
  · have hboth : ∀ p ∈ xs ++ ys, p.status ∈ statuses := fun p hp =>
      (List.mem_append.1 hp).elim (hxs p) (hys p)
    rw [aggregate_eq hboth, aggregate_eq hxs, aggregate_eq hys, ofOutcome_outcome,
      ofOutcome_outcome, worst_append]
  · have houtcome : (worst xs).outcome = OutcomeAllAccessible ↔ worst xs = accessible :=
      outcome_injective.eq_iff' rfl
    have hbest : worst xs = accessible ↔ worst xs ≤ accessible := le_bot_iff.symm
    rw [aggregate_eq hxs, houtcome, hbest, worst_le_iff]
    refine forall₂_congr fun p hp => ?_
    obtain ⟨a, ha⟩ := exists_of_mem_statuses (hxs p hp)
    rw [ha, ofStatus_status]
    have haccessible : a ≤ accessible ↔ a = accessible := le_bot_iff
    exact haccessible.trans (status_injective.eq_iff' rfl).symm

/-! Three projects with errors, and one that is accessible. -/

def failedResults : List ProjectResult :=
  [⟨str "a", str "1", StatusAPIError⟩, ⟨str "b", str "2", StatusNetworkError⟩,
    ⟨str "c", str "3", StatusUnknownError⟩]

def grantedResults : List ProjectResult := [⟨str "d", str "4", StatusAccessible⟩]

/-- The network error is the worst one, and stays it with the accessible project. -/
theorem aggregate_eq_worst_network :
    worst failedResults = networkError ∧
      aggregate (failedResults ++ grantedResults) = (networkError ⊔ accessible).outcome := by
  have hfailed : ∀ q ∈ failedResults, q.status ∈ statuses := by decide +kernel
  have hgranted : ∀ q ∈ grantedResults, q.status ∈ statuses := by decide +kernel
  obtain ⟨-, -, happend, -⟩ := aggregate_eq_worst hfailed hgranted
  exact ⟨by decide +kernel, happend.trans (by decide +kernel)⟩

end SecretsBroker.AccessDiag
