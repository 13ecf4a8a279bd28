import Mathlib.Data.Int.Notation
import Mathlib.Data.List.Sort
import SecretsBroker.Foundations.Quote

/-!
# The relay's table of approval requests

`internal/relay/store.go`: an in-memory table of requests with a status and a deadline. The clock is
an argument of each operation, in nanoseconds. The ids of a store are pairwise distinct, as the keys
of the map they stand for.
-/

namespace SecretsBroker.Relay

inductive Status
  | pending
  | approved
  | denied
  | expired
  deriving DecidableEq

def Status.text : Status → Bytes
  | .pending => str "pending"
  | .approved => str "approved"
  | .denied => str "denied"
  | .expired => str "expired"

structure Request where
  id : Bytes
  prompt : Bytes
  status : Status
  createdAt : ℤ
  deadline : ℤ
  deriving DecidableEq

inductive StoreError
  | notFound
  | alreadyExists (id : Bytes)
  | full
  | hasExpired (id : Bytes)
  | alreadyDecided (id : Bytes) (status : Status)
  deriving DecidableEq

def StoreError.text [Unicode] : StoreError → Bytes
  | .notFound => str "request not found"
  | .alreadyExists id => str "request " ++ quote id ++ str " already exists"
  | .full => str "request store is full"
  | .hasExpired id => str "request " ++ quote id ++ str " has expired"
  | .alreadyDecided id status =>
    str "request " ++ quote id ++ str " was already decided (" ++ status.text ++ str ")"

structure Store where
  requests : List Request
  limit : ℤ
  nodup : (requests.map Request.id).Nodup
  deriving DecidableEq

namespace Store

/-- `NewStoreWithLimit`. -/
def newWithLimit (limit : ℤ) : Store := ⟨[], limit, List.nodup_nil⟩

/-- `NewStore`. -/
def new : Store := newWithLimit 1024

/-- The request that is stored under an id. -/
def lookup (s : Store) (id : Bytes) : Option Request := s.requests.find? fun r => r.id == id

theorem lookup_mem {s : Store} {id : Bytes} {r : Request} (h : s.lookup id = some r) :
    r ∈ s.requests := List.mem_of_find?_eq_some h

theorem lookup_id {s : Store} {id : Bytes} {r : Request} (h : s.lookup id = some r) :
    r.id = id := by
  simpa using List.find?_some h

theorem lookup_eq_none {s : Store} {id : Bytes} :
    s.lookup id = none ↔ id ∉ s.requests.map Request.id := by
  simp [lookup, List.find?_eq_none]

theorem lookup_eq_some {s : Store} {id : Bytes} {r : Request} :
    s.lookup id = some r ↔ r ∈ s.requests ∧ r.id = id := by
  refine ⟨fun h => ⟨lookup_mem h, lookup_id h⟩, fun ⟨hmem, hid⟩ => ?_⟩
  cases h : s.lookup id with
  | none => exact absurd (List.mem_map.2 ⟨r, hmem, hid⟩) (lookup_eq_none.1 h)
  | some r' =>
    -- two requests with one id are the same one
    have := List.inj_on_of_nodup_map s.nodup (lookup_mem h) hmem ((lookup_id h).trans hid.symm)
    rw [this]

/-- `Create`. -/
def create (s : Store) (now : ℤ) (id prompt : Bytes) (ttl : ℤ) : Except StoreError Store :=
  if hid : id ∈ s.requests.map Request.id then .error (.alreadyExists id)
  else if s.limit ≤ s.requests.length then .error .full
  else .ok
    { s with
      requests := s.requests ++ [⟨id, prompt, .pending, now, now + ttl⟩]
      nodup := by
        rw [List.map_append, List.map_singleton, ← List.concat_eq_append]
        exact s.nodup.concat hid }

/-- `Get`: a pending request past its deadline is reported as expired. -/
def get (s : Store) (now : ℤ) (id : Bytes) : Except StoreError Request :=
  match s.lookup id with
  | none => .error .notFound
  | some r =>
    .ok (if r.status = .pending ∧ r.deadline < now then { r with status := .expired } else r)

/-- The order of the pending requests: by deadline, then by id. -/
def before (a b : Request) : Bool :=
  if a.deadline = b.deadline then decide (a.id ≤ b.id) else decide (a.deadline < b.deadline)

/-- `Pending`. -/
def pending (s : Store) (now : ℤ) : List Request :=
  (s.requests.filter fun r => r.status = .pending ∧ ¬ r.deadline < now).insertionSort
    fun a b => before a b = true

/-- The stored requests with one of them changed in its status. -/
def setStatus (s : Store) (id : Bytes) (status : Status) : Store :=
  { s with
    requests := s.requests.map fun r => if r.id = id then { r with status := status } else r
    nodup := by
      have : ((s.requests.map fun r => if r.id = id then { r with status := status } else r).map
          Request.id) = s.requests.map Request.id := by
        rw [List.map_map]
        apply List.map_congr_left
        intro r _
        by_cases h : r.id = id <;> simp [h]
      rw [this]
      exact s.nodup }

/-- `Decide`. -/
def decide (s : Store) (now : ℤ) (id : Bytes) (approve : Bool) : Except StoreError Store :=
  match s.lookup id with
  | none => .error .notFound
  | some r =>
    if r.deadline < now then .error (.hasExpired id)
    else if r.status ≠ .pending then .error (.alreadyDecided id r.status)
    else .ok (s.setStatus id (if approve then .approved else .denied))

/-- `Sweep`: the number of removed requests, and the store without them. -/
def sweep (s : Store) (now olderThan : ℤ) : ℕ × Store :=
  let gone := fun r : Request => Decidable.decide (r.deadline < now - olderThan)
  (s.requests.countP gone,
    { s with
      requests := s.requests.filter fun r => !gone r
      nodup := (List.filter_sublist.map _).nodup s.nodup })

/-! ## What the operations do to a stored request -/

theorem create_ok {s s' : Store} {now ttl : ℤ} {id prompt : Bytes}
    (h : s.create now id prompt ttl = .ok s') :
    s.lookup id = none ∧ ∀ r, r ∈ s'.requests ↔
      r ∈ s.requests ∨ r = ⟨id, prompt, .pending, now, now + ttl⟩ := by
  unfold create at h
  split_ifs at h with hid hfull
  obtain rfl := Except.ok.inj h
  exact ⟨lookup_eq_none.2 hid, fun r => by simp⟩

theorem decide_ok {s s' : Store} {now : ℤ} {id : Bytes} {approve : Bool}
    (h : s.decide now id approve = .ok s') :
    ∃ r, s.lookup id = some r ∧ r.status = .pending ∧ now ≤ r.deadline ∧
      s' = s.setStatus id (if approve then .approved else .denied) := by
  unfold decide at h
  split at h
  · exact absurd h (by simp)
  · next r hr =>
    by_cases h₁ : r.deadline < now
    · rw [if_pos h₁] at h
      exact absurd h (by simp)
    · by_cases h₂ : r.status = .pending
      · rw [if_neg h₁, if_neg (not_not.2 h₂)] at h
        exact ⟨r, hr, h₂, Int.not_lt.1 h₁, (Except.ok.inj h).symm⟩
      · rw [if_neg h₁, if_pos h₂] at h
        exact absurd h (by simp)

theorem mem_setStatus {s : Store} {id : Bytes} {status : Status} {r : Request} :
    r ∈ (s.setStatus id status).requests ↔
      (r ∈ s.requests ∧ r.id ≠ id) ∨
        ∃ r₀ ∈ s.requests, r₀.id = id ∧ r = { r₀ with status := status } := by
  simp only [setStatus, List.mem_map]
  constructor
  · rintro ⟨r₀, hmem, rfl⟩
    by_cases hid : r₀.id = id
    · exact Or.inr ⟨r₀, hmem, hid, by simp [hid]⟩
    · exact Or.inl (by simp [hid, hmem])
  · rintro (⟨hmem, hid⟩ | ⟨r₀, hmem, hid, rfl⟩)
    · exact ⟨r, hmem, by simp [hid]⟩
    · exact ⟨r₀, hmem, by simp [hid]⟩

theorem mem_of_mem_sweep {s : Store} {now olderThan : ℤ} {r : Request}
    (h : r ∈ (s.sweep now olderThan).2.requests) : r ∈ s.requests := (List.mem_filter.1 h).1

/-- A request that is reported as approved is stored as approved. -/
theorem get_approved {s : Store} {now : ℤ} {id : Bytes} {r : Request} (h : s.get now id = .ok r)
    (hs : r.status = .approved) : r ∈ s.requests ∧ r.id = id := by
  unfold get at h
  split at h
  · exact absurd h (by simp)
  · next r₀ hr₀ =>
    obtain rfl := Except.ok.inj h
    split_ifs at hs ⊢ with hexp
    exact ⟨lookup_mem hr₀, lookup_id hr₀⟩

end Store

end SecretsBroker.Relay
