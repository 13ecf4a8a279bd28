import Mathlib.Logic.Relation
import Mathlib.Logic.Function.Basic
import SecretsBroker.Approval.Tailscale

/-!
# Approval over the network

Any number of calls of `Approve`, the relay with its two ports, and the messages between them. A
message that was sent may be delivered at any time, any number of times or never, so the network is
the list of what was ever sent; what the decision port receives is arbitrary; sweeps and restarts
happen at any time. The relay's clock is read anew at each operation.

Beside the relay's store, `Ledger` records what the relay performed. Every creation gets a number,
so a decision names the very entry it was made on, also when an id is registered again after a
restart. The invariant `Ledger.Inv` ties the store to the record, `System.Inv` ties the messages and
the calls to it, and `approved_was_decided` follows.
-/

namespace SecretsBroker.Approval

open Relation

/-! ## The relay and its record -/

/-- What the relay performed successfully: the creation number `serial` of an entry, with its id,
prompt and deadline; a decision on the entry `serial`, at a time of the relay's clock. -/
inductive Event
  | created (serial : ℕ) (id prompt : Bytes) (deadline : ℤ)
  | decided (serial : ℕ) (id : Bytes) (approve : Bool) (now : ℤ)

/-- The store, the record, the number of the latest entry of each id, and the next number. -/
structure Ledger where
  store : Relay.Store
  log : List Event
  serial : Bytes → ℕ
  next : ℕ

namespace Ledger

/-- The relay as it starts. -/
def init : Ledger := ⟨.new, [], fun _ => 0, 0⟩

/-- The entry `r` was created. -/
def afterCreate (w : Ledger) (store : Relay.Store) (r : Relay.Request) : Ledger where
  store := store
  log := .created w.next r.id r.prompt r.deadline :: w.log
  serial := Function.update w.serial r.id w.next
  next := w.next + 1

/-- A decision on the entry of `id` was recorded. -/
def afterDecide (w : Ledger) (store : Relay.Store) (id : Bytes) (approve : Bool) (now : ℤ) :
    Ledger :=
  { w with store := store, log := .decided (w.serial id) id approve now :: w.log }

/-- The store matches the record. -/
structure Inv (w : Ledger) : Prop where
  created_lt : ∀ n id prompt deadline, .created n id prompt deadline ∈ w.log → n < w.next
  decided_lt : ∀ n id approve now, .decided n id approve now ∈ w.log → n < w.next
  created_unique : ∀ n id prompt deadline id' prompt' deadline',
    .created n id prompt deadline ∈ w.log → .created n id' prompt' deadline' ∈ w.log →
      id = id' ∧ prompt = prompt' ∧ deadline = deadline'
  decided_once : ∀ n id approve now id' approve' now',
    .decided n id approve now ∈ w.log → .decided n id' approve' now' ∈ w.log → approve = approve'
  stored : ∀ r ∈ w.store.requests, .created (w.serial r.id) r.id r.prompt r.deadline ∈ w.log
  undecided : ∀ r ∈ w.store.requests, r.status = .pending →
    ∀ id approve now, .decided (w.serial r.id) id approve now ∉ w.log
  approved : ∀ r ∈ w.store.requests, r.status = .approved →
    ∃ now ≤ r.deadline, .decided (w.serial r.id) r.id true now ∈ w.log

theorem inv_init : init.Inv := by
  refine ⟨?_, ?_, ?_, ?_, ?_, ?_, ?_⟩ <;> simp [init, Relay.Store.new, Relay.Store.newWithLimit]

/-- Fewer stored requests, the same record. -/
theorem Inv.of_subset {w : Ledger} (h : w.Inv) {store : Relay.Store}
    (hsub : ∀ r ∈ store.requests, r ∈ w.store.requests) : Inv { w with store := store } where
  created_lt := h.created_lt
  decided_lt := h.decided_lt
  created_unique := h.created_unique
  decided_once := h.decided_once
  stored r hr := h.stored r (hsub r hr)
  undecided r hr := h.undecided r (hsub r hr)
  approved r hr := h.approved r (hsub r hr)

/-- A creation keeps the invariant: the number is new, and the id was not in use. -/
theorem Inv.afterCreate {w : Ledger} (h : w.Inv) {store : Relay.Store} {now ttl : ℤ}
    {id prompt : Bytes} (hc : w.store.create now id prompt ttl = .ok store) :
    (w.afterCreate store ⟨id, prompt, .pending, now, now + ttl⟩).Inv := by
  obtain ⟨hfree, hmem⟩ := Relay.Store.create_ok hc
  have hne : ∀ r ∈ w.store.requests, r.id ≠ id := fun r hr he =>
    Relay.Store.lookup_eq_none.1 hfree (List.mem_map.2 ⟨r, hr, he⟩)
  have hserial : ∀ r ∈ w.store.requests, Function.update w.serial id w.next r.id = w.serial r.id :=
    fun r hr => Function.update_of_ne (hne r hr) _ _
  refine ⟨?_, ?_, ?_, ?_, ?_, ?_, ?_⟩
  · intro n id' prompt' deadline' hn
    rcases List.mem_cons.1 hn with he | hn
    · simp only [Event.created.injEq] at he
      exact he.1 ▸ Nat.lt_succ_self _
    · exact Nat.lt_succ_of_lt (h.created_lt _ _ _ _ hn)
  · intro n id' approve now' hn
    rcases List.mem_cons.1 hn with he | hn
    · exact absurd he (by simp)
    · exact Nat.lt_succ_of_lt (h.decided_lt _ _ _ _ hn)
  · intro n id₁ p₁ d₁ id₂ p₂ d₂ h₁ h₂
    rcases List.mem_cons.1 h₁ with e₁ | h₁ <;> rcases List.mem_cons.1 h₂ with e₂ | h₂
    · simp only [Event.created.injEq] at e₁ e₂
      simp [e₁, e₂]
    · simp only [Event.created.injEq] at e₁
      have := h.created_lt _ _ _ _ h₂
      omega
    · simp only [Event.created.injEq] at e₂
      have := h.created_lt _ _ _ _ h₁
      omega
    · exact h.created_unique _ _ _ _ _ _ _ h₁ h₂
  · intro n id₁ a₁ t₁ id₂ a₂ t₂ h₁ h₂
    rcases List.mem_cons.1 h₁ with e₁ | h₁
    · exact absurd e₁ (by simp)
    rcases List.mem_cons.1 h₂ with e₂ | h₂
    · exact absurd e₂ (by simp)
    exact h.decided_once _ _ _ _ _ _ _ h₁ h₂
  · intro r hr
    rcases (hmem r).1 hr with hr | rfl
    · change Event.created (Function.update w.serial id w.next r.id) r.id r.prompt r.deadline ∈ _
      rw [hserial r hr]
      exact List.mem_cons_of_mem _ (h.stored r hr)
    · simp [Ledger.afterCreate]
  · intro r hr hpending id' approve now' hn
    rcases List.mem_cons.1 hn with he | hn
    · exact absurd he (by simp)
    rcases (hmem r).1 hr with hr | rfl
    · change Event.decided (Function.update w.serial id w.next r.id) id' approve now' ∈ _ at hn
      rw [hserial r hr] at hn
      exact h.undecided r hr hpending _ _ _ hn
    · have := h.decided_lt _ _ _ _ hn
      simp [Ledger.afterCreate] at this
  · intro r hr happroved
    rcases (hmem r).1 hr with hr | rfl
    · obtain ⟨t, ht, hdec⟩ := h.approved r hr happroved
      refine ⟨t, ht, ?_⟩
      change Event.decided (Function.update w.serial id w.next r.id) r.id true t ∈ _
      rw [hserial r hr]
      exact List.mem_cons_of_mem _ hdec
    · exact absurd happroved (by simp)

/-- A decision keeps the invariant: it was made on a pending entry, within its deadline. -/
theorem Inv.afterDecide {w : Ledger} (h : w.Inv) {store : Relay.Store} {now : ℤ} {id : Bytes}
    {approve : Bool} (hd : w.store.decide now id approve = .ok store) :
    (w.afterDecide store id approve now).Inv := by
  obtain ⟨r₀, hr₀, hpending, hdeadline, rfl⟩ := Relay.Store.decide_ok hd
  have hmem₀ := Relay.Store.lookup_mem hr₀
  have hid₀ := Relay.Store.lookup_id hr₀
  -- entries with different ids have different numbers
  have hserial : ∀ r ∈ w.store.requests, r.id ≠ id → w.serial r.id ≠ w.serial id := by
    intro r hr hne he
    have h₁ := h.stored r hr
    have h₂ := h.stored r₀ hmem₀
    rw [hid₀] at h₂
    rw [he] at h₁
    exact hne (h.created_unique _ _ _ _ _ _ _ h₁ h₂).1
  have hfresh : ∀ id' a t, .decided (w.serial id) id' a t ∉ w.log := by
    intro id' a t
    have := h.undecided r₀ hmem₀ hpending id' a t
    rwa [hid₀] at this
  refine ⟨?_, ?_, ?_, ?_, ?_, ?_, ?_⟩
  · intro n id' p d hn
    rcases List.mem_cons.1 hn with he | hn
    · exact absurd he (by simp)
    · exact h.created_lt _ _ _ _ hn
  · intro n id' a t hn
    rcases List.mem_cons.1 hn with he | hn
    · simp only [Event.decided.injEq] at he
      have := h.created_lt _ _ _ _ (h.stored r₀ hmem₀)
      rw [he.1, ← hid₀]
      exact this
    · exact h.decided_lt _ _ _ _ hn
  · intro n id₁ p₁ d₁ id₂ p₂ d₂ h₁ h₂
    rcases List.mem_cons.1 h₁ with e₁ | h₁
    · exact absurd e₁ (by simp)
    rcases List.mem_cons.1 h₂ with e₂ | h₂
    · exact absurd e₂ (by simp)
    exact h.created_unique _ _ _ _ _ _ _ h₁ h₂
  · intro n id₁ a₁ t₁ id₂ a₂ t₂ h₁ h₂
    rcases List.mem_cons.1 h₁ with e₁ | h₁ <;> rcases List.mem_cons.1 h₂ with e₂ | h₂
    · simp only [Event.decided.injEq] at e₁ e₂
      rw [e₁.2.2.1, e₂.2.2.1]
    · simp only [Event.decided.injEq] at e₁
      rw [e₁.1] at h₂
      exact absurd h₂ (hfresh _ _ _)
    · simp only [Event.decided.injEq] at e₂
      rw [e₂.1] at h₁
      exact absurd h₁ (hfresh _ _ _)
    · exact h.decided_once _ _ _ _ _ _ _ h₁ h₂
  · intro r hr
    refine List.mem_cons_of_mem _ ?_
    rcases Relay.Store.mem_setStatus.1 hr with ⟨hr, -⟩ | ⟨r', hr', -, rfl⟩
    · exact h.stored r hr
    · exact h.stored r' hr'
  · intro r hr hp id' a t hn
    rcases Relay.Store.mem_setStatus.1 hr with ⟨hr, hne⟩ | ⟨r', -, -, rfl⟩
    · rcases List.mem_cons.1 hn with he | hn
      · simp only [Event.decided.injEq] at he
        exact hserial r hr hne he.1
      · exact h.undecided r hr hp _ _ _ hn
    · cases approve <;> simp at hp
  · intro r hr ha
    rcases Relay.Store.mem_setStatus.1 hr with ⟨hr, hne⟩ | ⟨r', hr', hid', rfl⟩
    · obtain ⟨t, ht, hdec⟩ := h.approved r hr ha
      exact ⟨t, ht, List.mem_cons_of_mem _ hdec⟩
    · obtain rfl : r' = r₀ :=
        Option.some.inj ((Relay.Store.lookup_eq_some.2 ⟨hr', hid'⟩).symm.trans hr₀)
      refine ⟨now, hdeadline, ?_⟩
      cases approve with
      | false => simp at ha
      | true => simp [Ledger.afterDecide, hid₀]

end Ledger

/-! ## Calls, messages and the relay together -/

/-- A call of `Approve`: the request id it drew and its prompt. -/
structure ApproveCall where
  id : Bytes
  prompt : Bytes

/-- What is sent, with the call it belongs to: the two requests of the client, the relay's note that
a registration created its entry, and the two answers. -/
inductive Message (ι : Type)
  | register (i : ι) (id body : Bytes)
  | created (i : ι) (id : Bytes)
  | registerReply (i : ι) (resp : Relay.Response)
  | poll (i : ι) (id : Bytes)
  | pollReply (i : ι) (resp : Relay.Response)

/-- The relay, the phase of each call, and everything that was ever sent. -/
structure System (ι : Type) where
  relay : Ledger
  phase : ι → Phase
  sent : List (Message ι)

namespace System

variable {ι : Type}

def init : System ι := ⟨.init, fun _ => .idle, []⟩

def setPhase [DecidableEq ι] (s : System ι) (i : ι) (p : Phase) : System ι :=
  { s with phase := Function.update s.phase i p }

def send (s : System ι) (m : Message ι) : System ι := { s with sent := m :: s.sent }

/-- One step. The answer to an exchange is one that was sent for this call, or an error. -/
inductive Step [DecidableEq ι] [Platform] [Relay.Forms] (calls : ι → ApproveCall) (ttl : ℤ) :
    System ι → System ι → Prop
  /-- A call registers. -/
  | start {s : System ι} {i : ι} (hp : s.phase i = .idle) :
    Step calls ttl s ((s.setPhase i .registering).send
      (.register i (calls i).id (registerBody (calls i).prompt)))
  /-- A call fails before it has an id. -/
  | idFailed {s : System ι} {i : ι} {err : Bytes} (hp : s.phase i = .idle) :
    Step calls ttl s (s.setPhase i (Phase.begin (newRequestID (.error err))))
  /-- The relay refuses a registration. -/
  | refuse {s : System ι} {i : ι} {id body : Bytes} {now : ℤ} {resp : Relay.Response}
    (hm : .register i id body ∈ s.sent)
    (hr : Relay.register s.relay.store ttl now id body = .error resp) :
    Step calls ttl s (s.send (.registerReply i resp))
  /-- The relay creates the entry of a registration. -/
  | create {s : System ι} {i : ι} {id body : Bytes} {now : ℤ} {store : Relay.Store}
    {r : Relay.Request} (hm : .register i id body ∈ s.sent)
    (hr : Relay.register s.relay.store ttl now id body = .ok store)
    (hentry : store.lookup id = some r) :
    Step calls ttl s
      ({ s with relay := s.relay.afterCreate store r }.send (.created i id))
  /-- The relay answers a registration that created its entry. -/
  | confirm {s : System ι} {i : ι} {id : Bytes} {now : ℤ} (hm : .created i id ∈ s.sent) :
    Step calls ttl s (s.send (.registerReply i (Relay.registered s.relay.store now id)))
  /-- The registration of a call returns. -/
  | registered {s : System ι} {i : ι} {res : Except Bytes Relay.Response}
    (hp : s.phase i = .registering) (hm : ∀ resp, res = .ok resp → .registerReply i resp ∈ s.sent) :
    Step calls ttl s (s.setPhase i (Phase.registered (registerResult res)))
  /-- The ticker of a call fires. -/
  | tick {s : System ι} {i : ι} {f : ℕ} {ok : Bool} (hp : s.phase i = .waiting f ok) :
    Step calls ttl s ((s.setPhase i (.polling f ok)).send (.poll i (calls i).id))
  /-- The relay answers a poll. -/
  | answer {s : System ι} {i : ι} {id : Bytes} {now : ℤ} (hm : .poll i id ∈ s.sent) :
    Step calls ttl s (s.send (.pollReply i (Relay.poll s.relay.store now id)))
  /-- A poll of a call returns. -/
  | polled {s : System ι} {i : ι} {f : ℕ} {ok ctxDone : Bool} {res : Except Bytes Relay.Response}
    (hp : s.phase i = .polling f ok) (hm : ∀ resp, res = .ok resp → .pollReply i resp ∈ s.sent) :
    Step calls ttl s (s.setPhase i (Phase.polled f ok ctxDone (pollResult res)))
  /-- The context of a call is done. -/
  | timeout {s : System ι} {i : ι} {f : ℕ} {ok : Bool} (hp : s.phase i = .waiting f ok) :
    Step calls ttl s (s.setPhase i (Phase.timedOut f ok))
  /-- The decision port takes a decision. Requests that it refuses change nothing. -/
  | decide {s : System ι} {req : Relay.DecideRequest} {approve : Bool} {now : ℤ}
    {store : Relay.Store} (ha : Relay.readApprove req = .ok approve)
    (hd : Relay.decide s.relay.store now req = .ok store) :
    Step calls ttl s { s with relay := s.relay.afterDecide store req.id approve now }
  | sweep {s : System ι} {now olderThan : ℤ} :
    Step calls ttl s
      { s with relay := { s.relay with store := (s.relay.store.sweep now olderThan).2 } }
  /-- The relay is started again, with an empty store. -/
  | restart {s : System ι} :
    Step calls ttl s { s with relay := { s.relay with store := .new } }

/-- Any number of steps. -/
abbrev Steps [DecidableEq ι] [Platform] [Relay.Forms] (calls : ι → ApproveCall) (ttl : ℤ) :
    System ι → System ι → Prop :=
  ReflTransGen (Step calls ttl)

/-! ## The invariant -/

/-- The record shows that the request of `id` was approved in time. -/
def Approved (log : List Event) (id : Bytes) : Prop :=
  ∃ n prompt deadline now, .created n id prompt deadline ∈ log ∧ .decided n id true now ∈ log ∧
    now ≤ deadline

/-- What the messages and the calls say is in the relay's record. -/
structure Inv (calls : ι → ApproveCall) (s : System ι) : Prop where
  relay : s.relay.Inv
  register : ∀ i id body, .register i id body ∈ s.sent →
    id = (calls i).id ∧ body = registerBody (calls i).prompt
  poll : ∀ i id, .poll i id ∈ s.sent → id = (calls i).id
  created : ∀ n id prompt deadline, .created n id prompt deadline ∈ s.relay.log →
    ∃ i, id = (calls i).id ∧
      Relay.registrationPrompt (registerBody (calls i).prompt) = some prompt
  pollReply : ∀ i resp, .pollReply i resp ∈ s.sent →
    pollResult (.ok resp) = .ok RelayStatusApproved → Approved s.relay.log (calls i).id
  done : ∀ i cause err, s.phase i = .done Decision.approved cause err →
    Approved s.relay.log (calls i).id

variable {calls : ι → ApproveCall}

theorem inv_init : (init : System ι).Inv calls := by
  refine ⟨Ledger.inv_init, ?_, ?_, ?_, ?_, ?_⟩ <;> simp [init, Ledger.init]

theorem Approved.mono {log log' : List Event} {id : Bytes} (h : Approved log id)
    (hsub : ∀ e ∈ log, e ∈ log') : Approved log' id := by
  obtain ⟨n, prompt, deadline, now, hc, hd, ht⟩ := h
  exact ⟨n, prompt, deadline, now, hsub _ hc, hsub _ hd, ht⟩

/-- The relay changed, the messages and the calls did not. -/
theorem Inv.setRelay {s : System ι} (h : s.Inv calls) {relay : Ledger} (hr : relay.Inv)
    (hsub : ∀ e ∈ s.relay.log, e ∈ relay.log)
    (hcreated : ∀ n id prompt deadline, .created n id prompt deadline ∈ relay.log →
      ∃ i, id = (calls i).id ∧
        Relay.registrationPrompt (registerBody (calls i).prompt) = some prompt) :
    Inv calls { s with relay := relay } where
  relay := hr
  register := h.register
  poll := h.poll
  created := hcreated
  pollReply i resp hm hp := (h.pollReply i resp hm hp).mono hsub
  done i cause err hd := (h.done i cause err hd).mono hsub

/-- A call moved to a phase that is not an approval, or is one that the record shows. -/
theorem Inv.setPhase [DecidableEq ι] {s : System ι} (h : s.Inv calls) {i : ι} {p : Phase}
    (hp : ∀ cause err, p = .done Decision.approved cause err → Approved s.relay.log (calls i).id) :
    (s.setPhase i p).Inv calls where
  relay := h.relay
  register := h.register
  poll := h.poll
  created := h.created
  pollReply := h.pollReply
  done j cause err hd := by
    by_cases hj : j = i
    · subst hj
      exact hp cause err (by simpa [System.setPhase] using hd)
    · exact h.done j cause err (by simpa [System.setPhase, Function.update_of_ne hj] using hd)

/-- A message was sent of which the invariant holds. -/
theorem Inv.send {s : System ι} (h : s.Inv calls) {m : Message ι}
    (hm : match m with
      | .register i id body => id = (calls i).id ∧ body = registerBody (calls i).prompt
      | .poll i id => id = (calls i).id
      | .pollReply i resp => pollResult (.ok resp) = .ok RelayStatusApproved →
        Approved s.relay.log (calls i).id
      | _ => True) : (s.send m).Inv calls where
  relay := h.relay
  register i id body hmem := by
    rcases List.mem_cons.1 hmem with rfl | hmem
    · exact hm
    · exact h.register i id body hmem
  poll i id hmem := by
    rcases List.mem_cons.1 hmem with rfl | hmem
    · exact hm
    · exact h.poll i id hmem
  created := h.created
  pollReply i resp hmem hp := by
    rcases List.mem_cons.1 hmem with rfl | hmem
    · exact hm hp
    · exact h.pollReply i resp hmem hp
  done := h.done

/-- What a registration that was accepted created. -/
theorem register_ok [Unicode] {ttl : ℤ} {store store' : Relay.Store} {now : ℤ} {id body : Bytes}
    (h : Relay.register store ttl now id body = .ok store') :
    ∃ prompt, Relay.registrationPrompt body = some prompt ∧
      store.create now id prompt ttl = .ok store' := by
  unfold Relay.register at h
  split_ifs at h
  cases hp : Relay.registrationPrompt body with
  | none => simp [hp] at h
  | some prompt =>
    simp only [hp] at h
    cases hc : store.create now id prompt ttl with
    | error err => simp [hc] at h
    | ok s =>
      simp only [hc, Except.ok.injEq] at h
      exact ⟨prompt, rfl, h ▸ hc⟩

/-- What a decision that was accepted decided. -/
theorem decide_ok [Platform] [Relay.Forms] {store store' : Relay.Store} {now : ℤ}
    {req : Relay.DecideRequest} {approve : Bool} (ha : Relay.readApprove req = .ok approve)
    (h : Relay.decide store now req = .ok store') :
    store.decide now req.id approve = .ok store' := by
  unfold Relay.decide at h
  simp only [ha] at h
  split at h
  · exact absurd h (by simp)
  · exact absurd h (by simp)
  · next hd => rw [hd, ← Except.ok.inj h]

variable [DecidableEq ι] [Platform] [Relay.Forms] {ttl : ℤ}

/-- **Every step keeps the invariant.** -/
theorem Step.inv {s s' : System ι} (hs : Step calls ttl s s') (h : s.Inv calls) : s'.Inv calls := by
  cases hs with
  | start hp => exact (h.setPhase (by simp)).send ⟨rfl, rfl⟩
  | idFailed hp =>
    exact h.setPhase (by simp [Phase.begin, newRequestID, Decision.denied, Decision.approved])
  | refuse hm hr => exact h.send trivial
  | @create i id body now store r hm hr hentry =>
    refine Inv.send ?_ trivial
    obtain ⟨prompt, hprompt, hc⟩ := register_ok hr
    -- the entry under the id is the one that was just created
    have hr : r = ⟨id, prompt, .pending, now, now + ttl⟩ := by
      have := (Relay.Store.create_ok hc).2 ⟨id, prompt, .pending, now, now + ttl⟩
      have hlookup := Relay.Store.lookup_eq_some.2 ⟨this.2 (Or.inr rfl), rfl⟩
      exact Option.some.inj (hentry.symm.trans hlookup)
    subst hr
    refine h.setRelay (h.relay.afterCreate hc) (fun e he => List.mem_cons_of_mem _ he) ?_
    intro n id' prompt' deadline' hmem
    rcases List.mem_cons.1 hmem with he | hmem
    · simp only [Event.created.injEq] at he
      obtain ⟨-, rfl, rfl, -⟩ := he
      obtain ⟨rfl, rfl⟩ := h.register _ _ _ hm
      exact ⟨i, rfl, hprompt⟩
    · exact h.created _ _ _ _ hmem
  | confirm hm => exact h.send trivial
  | registered hp hm =>
    exact h.setPhase fun cause err he => absurd he (Phase.registered_ne_approved _ _ _)
  | tick hp => exact (h.setPhase (by simp)).send rfl
  | @answer i id now hm =>
    refine h.send fun hp => ?_
    obtain ⟨r, hget, happroved⟩ := pollResult_poll hp
    obtain ⟨hmem, hid⟩ := Relay.Store.get_approved hget happroved
    obtain ⟨t, ht, hdec⟩ := h.relay.approved r hmem happroved
    have hcreated := h.relay.stored r hmem
    rw [hid, h.poll i id hm] at hcreated hdec
    exact ⟨_, _, _, t, hcreated, hdec, ht⟩
  | @polled i f ok ctxDone res hp hm =>
    refine h.setPhase fun cause err he => ?_
    have hres := Phase.polled_approved he
    cases res with
    | error err' => simp [pollResult] at hres
    | ok resp => exact h.pollReply i resp (hm resp rfl) hres
  | timeout hp =>
    exact h.setPhase fun cause err he => absurd he (Phase.timedOut_ne_approved _ _ _ _)
  | decide ha hd =>
    refine h.setRelay (h.relay.afterDecide (decide_ok ha hd))
      (fun e he => List.mem_cons_of_mem _ he) fun n id prompt deadline hmem => ?_
    rcases List.mem_cons.1 hmem with he | hmem
    · exact absurd he (by simp)
    · exact h.created _ _ _ _ hmem
  | sweep =>
    exact h.setRelay (h.relay.of_subset fun r hr => Relay.Store.mem_of_mem_sweep hr)
      (fun e he => he) h.created
  | restart =>
    refine h.setRelay (h.relay.of_subset ?_) (fun e he => he) h.created
    simp [Relay.Store.new, Relay.Store.newWithLimit]

theorem Steps.inv {s s' : System ι} (hs : Steps calls ttl s s') (h : s.Inv calls) :
    s'.Inv calls := by
  induction hs with
  | refl => exact h
  | tail _ hstep ih => exact hstep.inv ih

/-- The relay's record only grows. -/
theorem Steps.log_subset {s s' : System ι} (hs : Steps calls ttl s s') :
    ∀ e ∈ s.relay.log, e ∈ s'.relay.log := by
  induction hs with
  | refl => exact fun e he => he
  | tail _ hstep ih =>
    intro e he
    have := ih e he
    cases hstep with
    | create => exact List.mem_cons_of_mem _ this
    | decide => exact List.mem_cons_of_mem _ this
    | _ => exact this

/-- **An approval was decided, for this very prompt, in time and never otherwise.** For any number
of calls with pairwise distinct ids, any requests to the decision port, sweeps and restarts of the
relay, and any delay, loss, duplication or reordering of messages: when a call whose prompt is one
of the broker has returned `Approved`, the relay has performed an approving decision on an entry
that was created under the call's id with the call's prompt, not after that entry's deadline; and no
denying decision on that entry is in the record then or at any later time. -/
theorem approved_was_decided (hids : Function.Injective fun i => (calls i).id) {s : System ι}
    (hreach : Steps calls ttl init s) {i : ι} {cause : Cause} {err : Option Bytes}
    (hdone : s.phase i = .done Decision.approved cause err) {project workingDir : Bytes}
    {argv : List Bytes} (hprompt : (calls i).prompt = formatPrompt project workingDir argv) :
    ∃ n deadline now, .created n (calls i).id (calls i).prompt deadline ∈ s.relay.log ∧
      .decided n (calls i).id true now ∈ s.relay.log ∧ now ≤ deadline ∧
      ∀ s', Steps calls ttl s s' →
        (∀ id now', .decided n id false now' ∉ s'.relay.log) ∧
        ∀ id prompt deadline', .created n id prompt deadline' ∈ s'.relay.log →
          id = (calls i).id ∧ prompt = (calls i).prompt ∧ deadline' = deadline := by
  have hinv := Steps.inv hreach inv_init
  obtain ⟨n, prompt, deadline, now, hcreated, hdecided, htime⟩ := hinv.done i cause err hdone
  -- the entry was created for a registration with this id, which only this call sends
  obtain ⟨j, hid, hreg⟩ := hinv.created _ _ _ _ hcreated
  obtain rfl : j = i := hids hid.symm
  have hvalid : Utf8.Valid (calls j).prompt := hprompt ▸ valid_formatPrompt _ _ _
  obtain rfl := registrationPrompt_registerBody hvalid hreg
  refine ⟨n, deadline, now, hcreated, hdecided, htime, fun s' hs' => ⟨?_, ?_⟩⟩
  · intro id now' hdenied
    have hinv' := Steps.inv hs' hinv
    have := hinv'.relay.decided_once _ _ _ _ _ _ _ (Steps.log_subset hs' _ hdecided) hdenied
    simp at this
  · intro id prompt deadline' hcreated'
    have hinv' := Steps.inv hs' hinv
    exact hinv'.relay.created_unique _ _ _ _ _ _ _ hcreated'
      (Steps.log_subset hs' _ hcreated)

end System

/-! One call that is registered, approved on the decision port and polled. -/

section Witness

local instance demoPlatform : Platform where
  isPrint _ := false
  unmarshal _ := .error []
  parseURL _ := none

local instance demoForms : Relay.Forms := ⟨fun _ _ _ => none⟩

def demoPrompt : Bytes := formatPrompt (str "app") (str "/srv") [str "deploy"]

def demoCalls (_ : Unit) : ApproveCall := ⟨str "0a1b", demoPrompt⟩

def demoRequest (status : Relay.Status) : Relay.Request := ⟨str "0a1b", demoPrompt, status, 0, 300⟩

def demoStore (status : Relay.Status) : Relay.Store := ⟨[demoRequest status], 1024, by simp⟩

def demoDecision : Relay.DecideRequest where
  id := str "0a1b"
  origin := []
  referer := []
  host := str "relay:7621"
  tls := false
  contentType := str "application/json"
  body := Json.encodeObject [(str "decision", Json.encodeString (str "approve"))]

def demoRegistering : System Unit :=
  (System.init.setPhase () .registering).send
    (.register () (str "0a1b") (registerBody demoPrompt))

def demoCreated : System Unit :=
  { demoRegistering with
    relay := demoRegistering.relay.afterCreate (demoStore .pending) (demoRequest .pending) }.send
      (.created () (str "0a1b"))

def demoConfirmed : System Unit :=
  demoCreated.send (.registerReply () (Relay.registered (demoStore .pending) 1 (str "0a1b")))

def demoWaiting : System Unit :=
  demoConfirmed.setPhase () (Phase.registered (registerResult
    (.ok (Relay.registered (demoStore .pending) 1 (str "0a1b")))))

def demoPolling : System Unit :=
  (demoWaiting.setPhase () (.polling 0 false)).send (.poll () (str "0a1b"))

def demoDecided : System Unit :=
  { demoPolling with
    relay := demoPolling.relay.afterDecide (demoStore .approved) (str "0a1b") true 7 }

def demoAnswered : System Unit :=
  demoDecided.send (.pollReply () (Relay.poll (demoStore .approved) 8 (str "0a1b")))

def demoDone : System Unit :=
  demoAnswered.setPhase () (Phase.polled 0 false false
    (pollResult (.ok (Relay.poll (demoStore .approved) 8 (str "0a1b")))))

theorem steps_demoDone : System.Steps demoCalls 300 System.init demoDone := by
  have h₁ : System.Step demoCalls 300 System.init demoRegistering := .start rfl
  have hr : Relay.register demoRegistering.relay.store 300 0 (str "0a1b")
      (registerBody demoPrompt) = .ok (demoStore .pending) := by decide +kernel
  have h₂ : System.Step demoCalls 300 demoRegistering demoCreated :=
    .create (by simp [demoRegistering, System.send]) hr (by decide +kernel)
  have h₃ : System.Step demoCalls 300 demoCreated demoConfirmed :=
    .confirm (by simp [demoCreated, System.send])
  have h₄ : System.Step demoCalls 300 demoConfirmed demoWaiting :=
    .registered rfl fun resp hresp => by
      obtain rfl := Except.ok.inj hresp
      simp [demoConfirmed, System.send]
  have h₅ : System.Step demoCalls 300 demoWaiting demoPolling := .tick (by decide +kernel)
  have ha : Relay.readApprove demoDecision = .ok true := by decide +kernel
  have hd : Relay.decide demoPolling.relay.store 7 demoDecision = .ok (demoStore .approved) := by
    decide +kernel
  have h₆ : System.Step demoCalls 300 demoPolling demoDecided := .decide ha hd
  have h₇ : System.Step demoCalls 300 demoDecided demoAnswered :=
    .answer (by simp [demoDecided, demoPolling, System.send])
  have h₈ : System.Step demoCalls 300 demoAnswered demoDone :=
    .polled (by decide +kernel) fun resp hresp => by
      obtain rfl := Except.ok.inj hresp
      simp [demoAnswered, System.send]
  exact (((((((ReflTransGen.single h₁).tail h₂).tail h₃).tail h₄).tail h₅).tail h₆).tail h₇).tail h₈

theorem approved_was_decided_once : ∃ n deadline now,
    .created n (str "0a1b") demoPrompt deadline ∈ demoDone.relay.log ∧
      .decided n (str "0a1b") true now ∈ demoDone.relay.log ∧ now ≤ deadline := by
  have hdone : demoDone.phase () = .done Decision.approved .expired none := by decide +kernel
  have hids : Function.Injective fun i => (demoCalls i).id := fun _ _ _ => rfl
  obtain ⟨n, deadline, now, h₁, h₂, h₃, -⟩ :=
    System.approved_was_decided hids steps_demoDone hdone rfl
  exact ⟨n, deadline, now, h₁, h₂, h₃⟩

end Witness

end SecretsBroker.Approval
