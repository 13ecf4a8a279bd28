import Mathlib.Data.List.TFAE
import Mathlib.Tactic.TFAE
import SecretsBroker.Foundations.SortSlice
import SecretsBroker.Relay.Store

/-!
# What can still be decided

`Get`, `Pending` and `Decide` each test the status and the deadline of a request in their own way.
`live_iff_get`, `mem_pending` and `live_iff_decide` bring all of them to one test, `Live`: the
request is stored as pending and its deadline has not passed. `pending_agrees` is the result: at
every instant the three agree on every id, and a listing is the strictly increasing list of the live
requests, in whatever order the map was iterated.
-/

namespace SecretsBroker.Relay.Store

variable {s : Store} {t : ℤ} {id : Bytes}

/-- The comparison of `Pending`. -/
def less : Request → Request → Bool := lessBy Request.deadline Request.id

/-- The test of `Pending` on a stored request. -/
def isLive (t : ℤ) (r : Request) : Bool := r.status = .pending ∧ ¬ r.deadline < t

/-- What `Pending` may return: the map is iterated in some order, and the live requests that were
gathered are sorted. -/
def Lists (s : Store) (t : ℤ) (out : List Request) : Prop :=
  ∃ order : List Request, order.Perm s.requests ∧ Sorts less (order.filter (isLive t)) out

/-- The request of an id can be decided: it is pending and its deadline has not passed. -/
def Live (s : Store) (t : ℤ) (id : Bytes) : Prop :=
  ∃ r, s.lookup id = some r ∧ r.status = .pending ∧ t ≤ r.deadline

theorem isLive_iff {r : Request} : isLive t r = true ↔ r.status = .pending ∧ t ≤ r.deadline := by
  simp [isLive]

/-! ## The three operations -/

theorem live_iff_get : s.Live t id ↔ ∃ r, s.get t id = .ok r ∧ r.status = .pending := by
  unfold Live get
  cases s.lookup id with
  | none => simp
  | some r =>
    simp only [Option.some.injEq, Except.ok.injEq, exists_eq_left']
    by_cases h : r.status = .pending ∧ r.deadline < t
    · rw [if_pos h]
      simp [h.2]
    · rw [if_neg h]
      exact ⟨And.left, fun hp => ⟨hp, Int.not_lt.1 fun hlt => h ⟨hp, hlt⟩⟩⟩

theorem live_iff_decide (approve : Bool) :
    s.Live t id ↔ ∃ s', s.decide t id approve = .ok s' := by
  constructor
  · rintro ⟨r, hr, hp, hle⟩
    refine ⟨s.setStatus id (if approve then .approved else .denied), ?_⟩
    simp only [decide, hr, if_neg (Int.not_lt.2 hle), if_neg (not_not.2 hp)]
  · rintro ⟨s', h⟩
    obtain ⟨r, hr, hp, hle, -⟩ := decide_ok h
    exact ⟨r, hr, hp, hle⟩

/-! ## The listing -/

theorem less_iff {a b : Request} :
    less a b = true ↔ a.deadline < b.deadline ∨ a.deadline = b.deadline ∧ a.id < b.id :=
  lessBy_iff

/-- The order that `pending` sorts by. -/
theorem before_iff {a b : Request} : before a b = true ↔ less b a = false := by
  unfold less before
  rw [lessBy_eq_false_iff]
  split_ifs with h
  · simp [h]
  · simp [h]

theorem lists_pending (s : Store) (t : ℤ) : s.Lists t (s.pending t) := by
  refine ⟨s.requests, .refl _, ?_⟩
  have hsort : Sorts less _ ((s.requests.filter (isLive t)).insertionSort
      fun a b => less b a = false) := sorts_insertionSort _
  have hrel : (fun a b => before a b = true) = fun a b => less b a = false :=
    funext₂ fun _ _ => propext before_iff
  unfold pending
  convert hsort using 2
  rfl

namespace Lists

variable {out : List Request}

theorem mem_iff (h : s.Lists t out) {r : Request} :
    r ∈ out ↔ r ∈ s.requests ∧ r.status = .pending ∧ t ≤ r.deadline := by
  obtain ⟨order, hperm, hsort⟩ := h
  rw [hsort.perm.mem_iff, List.mem_filter, hperm.mem_iff, isLive_iff]

/-- No two of the gathered requests have one id. -/
theorem nodup_gathered {order : List Request} (h : order.Perm s.requests) :
    ((order.filter (isLive t)).map Request.id).Nodup :=
  (List.filter_sublist.map _).nodup ((h.map _).nodup_iff.2 s.nodup)

theorem eq_pending (h : s.Lists t out) : out = s.pending t := by
  obtain ⟨order, hperm, hsort⟩ := h
  obtain ⟨order', hperm', hsort'⟩ := lists_pending s t
  exact hsort.unique hsort' ((hperm.trans hperm'.symm).filter _) (nodup_gathered hperm)

theorem increasing (h : s.Lists t out) : out.Pairwise fun a b => less a b = true := by
  obtain ⟨order, hperm, hsort⟩ := h
  exact hsort.increasing (nodup_gathered hperm)

theorem live_iff_exists (h : s.Lists t out) : s.Live t id ↔ ∃ r ∈ out, r.id = id := by
  constructor
  · rintro ⟨r, hr, hlive⟩
    exact ⟨r, h.mem_iff.2 ⟨lookup_mem hr, hlive⟩, lookup_id hr⟩
  · rintro ⟨r, hmem, hid⟩
    obtain ⟨hstored, hlive⟩ := h.mem_iff.1 hmem
    exact ⟨r, lookup_eq_some.2 ⟨hstored, hid⟩, hlive⟩

/-- A live request is listed once, as it is stored. -/
theorem filter_eq (h : s.Lists t out) {r : Request} (hr : s.lookup id = some r)
    (hlive : r.status = .pending ∧ t ≤ r.deadline) : out.filter (fun r => r.id = id) = [r] := by
  have hnodup : (out.map Request.id).Nodup := by
    obtain ⟨order, hperm, hsort⟩ := h
    exact (hsort.perm.map _).nodup_iff.2 (nodup_gathered hperm)
  refine List.perm_singleton.1 ((List.perm_ext_iff_of_nodup (hnodup.of_map.filter _)
    (List.nodup_singleton r)).2 fun r' => ?_)
  rw [List.mem_filter, List.mem_singleton, h.mem_iff]
  constructor
  · rintro ⟨⟨hmem, -⟩, hid⟩
    exact Option.some.inj ((lookup_eq_some.2 ⟨hmem, by simpa using hid⟩).symm.trans hr)
  · rintro rfl
    exact ⟨⟨lookup_mem hr, hlive⟩, by simpa using lookup_id hr⟩

end Lists

/-- **`Get`, `Pending` and `Decide` agree at every instant**, the deadline of a request included,
and `Pending` has one result: the live requests as they are stored, each once, by deadline and then
by id. -/
theorem pending_agrees (s : Store) (t : ℤ) :
    s.Lists t (s.pending t) ∧ ∀ out, s.Lists t out → out = s.pending t ∧
      (∀ id approve, List.TFAE [
        ∃ r, s.get t id = .ok r ∧ r.status = .pending,
        ∃ r ∈ out, r.id = id,
        ∃ s', s.decide t id approve = .ok s',
        ∃ r, s.lookup id = some r ∧ r.status = .pending ∧ t ≤ r.deadline]) ∧
      (∀ id r, s.lookup id = some r → r.status = .pending ∧ t ≤ r.deadline →
        out.filter (fun r => r.id = id) = [r]) ∧
      out.Pairwise fun a b => a.deadline < b.deadline ∨ a.deadline = b.deadline ∧ a.id < b.id := by
  refine ⟨lists_pending s t, fun out h => ⟨h.eq_pending, fun id approve => ?_,
    fun id r hr hlive => h.filter_eq hr hlive, h.increasing.imp less_iff.1⟩⟩
  tfae_have 4 ↔ 1 := live_iff_get
  tfae_have 4 ↔ 2 := h.live_iff_exists
  tfae_have 4 ↔ 3 := live_iff_decide approve
  tfae_finish

/-- At its deadline a request is still listed, and one with an earlier deadline is not. -/
example : (⟨[⟨[2], [], .pending, 0, 5⟩, ⟨[1], [], .pending, 0, 5⟩, ⟨[3], [], .pending, 0, 4⟩], 3,
    by decide⟩ : Store).pending 5 = [⟨[1], [], .pending, 0, 5⟩, ⟨[2], [], .pending, 0, 5⟩] := by
  decide

end SecretsBroker.Relay.Store
