import Mathlib.Data.List.Basic
import SecretsBroker.Foundations.Utf8

/-!
# The slots of the listener

`peerListener` of the administrator web server accepts a connection only while one of eight slots is
free: `Accept` takes a slot before it waits for a peer and gives it back when that fails or when the
peer is rejected, and a connection that it returns gives the slot back when it is closed. `State`
has any number of `Accept` calls and of `Close` calls on the returned connections, each of them
where it stands between two operations, and `step` is one operation of one of them. What the
operating system and the check answer is part of the event.

`Inv` is what every reachable state keeps, `slots_conserved` draws from it that slots are neither
lost nor freed twice.
-/

namespace SecretsBroker.AdminWeb.Listener

/-! ## The machine -/

/-- The capacity of `slots`. -/
def capacity : ℕ := 8

/-- `net.ErrClosed` -/
def errClosed : Bytes := str "use of closed network connection"

/-- Where a call of `Accept` stands. -/
inductive Accept
  /-- At the `select`. -/
  | selecting
  /-- In `l.Listener.Accept`. -/
  | accepting
  /-- That failed; before `<-l.slots`. -/
  | failing (err : Bytes)
  /-- In `l.check`. -/
  | checking
  /-- The peer is rejected; in `conn.Close`. -/
  | dropping
  /-- Before the `<-l.slots` of a rejected peer. -/
  | dropped
  /-- With the number of the connection, or with an error. -/
  | returned (r : Except Bytes ℕ)
  deriving DecidableEq

/-- The `sync.Once` of a connection. -/
inductive Once
  | fresh
  /-- The `Close` call runs `release`, and waits for `<-l.slots`. -/
  | running (call : ℕ)
  /-- `release` is over, and `Do` is not. -/
  | ran (call : ℕ)
  | done
  deriving DecidableEq

/-- Where a call of `peerConn.Close` stands. -/
inductive Closing
  /-- In `c.Conn.Close`. -/
  | closing
  /-- Before or in `c.once.Do`, waiting for its turn. -/
  | entering (err : Option Bytes)
  /-- In `release`, before `<-l.slots`. -/
  | releasing (err : Option Bytes)
  /-- After `release`, in `c.once.Do`. -/
  | released (err : Option Bytes)
  | returned (err : Option Bytes)
  deriving DecidableEq

/-- A call of `Close` on a connection. -/
structure Closer where
  conn : ℕ
  phase : Closing
  deriving DecidableEq

/-- A listener, with every call of `Accept`, every connection that one has returned and every call
of `Close` on a connection, all of them in the order in which they came to be. -/
structure State where
  occupied : ℕ
  done : Bool
  accepts : List Accept
  conns : List Once
  closes : List Closer
  deriving DecidableEq

/-- `newPeerListener` -/
def State.new : State := ⟨0, false, [], [], []⟩

inductive Event
  /-- `Accept` is called. -/
  | accept
  /-- The `select` of a call sends to `slots`. -/
  | take (i : ℕ)
  /-- The `select` of a call finds `done` closed. -/
  | quit (i : ℕ)
  /-- `l.Listener.Accept` gives a connection or an error. -/
  | accepted (i : ℕ) (err : Option Bytes)
  /-- `l.check` lets the peer pass or not. -/
  | checked (i : ℕ) (err : Option Bytes)
  /-- `conn.Close` of a rejected peer returns. -/
  | dropped (i : ℕ) (err : Option Bytes)
  /-- A call of `Accept` receives from `slots`. -/
  | free (i : ℕ)
  /-- `peerListener.Close` is called; its `sync.Once` closes `done` the first time. -/
  | shut
  /-- `Close` is called on a returned connection. -/
  | close (n : ℕ)
  /-- `c.Conn.Close` returns. -/
  | closed (k : ℕ) (err : Option Bytes)
  /-- A call of `Close` is let into `c.once.Do`, or past it. -/
  | enter (k : ℕ)
  /-- A call of `Close` receives from `slots`. -/
  | release (k : ℕ)
  /-- `c.once.Do` returns to the call that ran `release`. -/
  | leave (k : ℕ)
  deriving DecidableEq

/-- One operation of one call, unless the call is elsewhere or has to wait. A send to `slots` waits
while they are full, a receive while they are empty, and `once.Do` while another call is in it. -/
def step (s : State) : Event → Option State
  | .accept => some { s with accepts := s.accepts ++ [.selecting] }
  | .take i =>
    match s.accepts[i]? with
    | some .selecting =>
      if s.occupied < capacity then
        some { s with occupied := s.occupied + 1, accepts := s.accepts.set i .accepting }
      else none
    | _ => none
  | .quit i =>
    match s.accepts[i]? with
    | some .selecting =>
      if s.done then some { s with accepts := s.accepts.set i (.returned (.error errClosed)) }
      else none
    | _ => none
  | .accepted i err =>
    match s.accepts[i]?, err with
    | some .accepting, some err => some { s with accepts := s.accepts.set i (.failing err) }
    | some .accepting, none => some { s with accepts := s.accepts.set i .checking }
    | _, _ => none
  | .checked i err =>
    match s.accepts[i]?, err with
    | some .checking, some _ => some { s with accepts := s.accepts.set i .dropping }
    | some .checking, none =>
      some { s with
        accepts := s.accepts.set i (.returned (.ok s.conns.length))
        conns := s.conns ++ [.fresh] }
    | _, _ => none
  | .dropped i _ =>
    match s.accepts[i]? with
    | some .dropping => some { s with accepts := s.accepts.set i .dropped }
    | _ => none
  | .free i =>
    if s.occupied = 0 then none
    else
      match s.accepts[i]? with
      | some (.failing err) =>
        some { s with
          occupied := s.occupied - 1, accepts := s.accepts.set i (.returned (.error err)) }
      | some .dropped =>
        some { s with occupied := s.occupied - 1, accepts := s.accepts.set i .selecting }
      | _ => none
  | .shut => some { s with done := true }
  | .close n =>
    if n < s.conns.length then some { s with closes := s.closes ++ [⟨n, .closing⟩] } else none
  | .closed k err =>
    match s.closes[k]? with
    | some ⟨n, .closing⟩ => some { s with closes := s.closes.set k ⟨n, .entering err⟩ }
    | _ => none
  | .enter k =>
    match s.closes[k]? with
    | some ⟨n, .entering err⟩ =>
      match s.conns[n]? with
      | some .fresh =>
        some { s with
          conns := s.conns.set n (.running k), closes := s.closes.set k ⟨n, .releasing err⟩ }
      | some .done => some { s with closes := s.closes.set k ⟨n, .returned err⟩ }
      | _ => none
    | _ => none
  | .release k =>
    if s.occupied = 0 then none
    else
      match s.closes[k]? with
      | some ⟨n, .releasing err⟩ =>
        some { s with
          occupied := s.occupied - 1
          conns := s.conns.set n (.ran k), closes := s.closes.set k ⟨n, .released err⟩ }
      | _ => none
  | .leave k =>
    match s.closes[k]? with
    | some ⟨n, .released err⟩ =>
      some { s with conns := s.conns.set n .done, closes := s.closes.set k ⟨n, .returned err⟩ }
    | _ => none

/-- The states that some interleaving reaches. -/
inductive Reached : State → Prop
  | new : Reached .new
  | step {s s' : State} (h : Reached s) (e : Event) (hs : step s e = some s') : Reached s'

/-! ## Who has a slot -/

/-- The call of `Accept` has sent to `slots`, and neither received from it nor returned. -/
def Accept.holds : Accept → Bool
  | .accepting | .failing _ | .checking | .dropping | .dropped => true
  | .selecting | .returned _ => false

/-- `release` of the connection has not received from `slots`. -/
def Once.held : Once → Bool
  | .fresh | .running _ => true
  | .ran _ | .done => false

theorem countP_set_add {α : Type} {l : List α} {i : ℕ} {b : α} (h : l[i]? = some b) (p : α → Bool)
    (a : α) :
    (l.set i a).countP p + (p b).toNat = l.countP p + (p a).toNat := by
  obtain ⟨hi, rfl⟩ := List.getElem?_eq_some_iff.1 h
  have hpos : p l[i] = true → 0 < l.countP p := fun hp =>
    List.countP_pos_iff.2 ⟨l[i], List.getElem_mem hi, hp⟩
  rw [List.countP_set hi]
  cases hb : p l[i] with
  | false => cases p a <;> simp
  | true =>
    have := hpos hb
    cases p a <;> simp <;> omega

/-! ## The invariant -/

/-- The call of `Close` is in the `sync.Once` of its connection. -/
def Closing.inOnce : Closing → Bool
  | .releasing _ | .released _ => true
  | .closing | .entering _ | .returned _ => false

/-- What a call of `Close` knows about the `sync.Once` of its connection. -/
def Closing.Fits (k : ℕ) (once : Once) : Closing → Prop
  | .closing | .entering _ => True
  | .releasing _ => once = .running k
  | .released _ => once = .ran k
  | .returned _ => once = .done

/-- The `sync.Once` of a connection was moved by calls of `Close` on it, and who is in it is
there. -/
def Once.Owned (closes : List Closer) (n : ℕ) : Once → Prop
  | .fresh => True
  | .running k => ∃ err, closes[k]? = some ⟨n, .releasing err⟩
  | .ran k => ∃ err, closes[k]? = some ⟨n, .released err⟩
  | .done => n ∈ closes.map Closer.conn

/-- The call of `Close` may move the `sync.Once`. -/
def Once.Free (k : ℕ) (once : Once) : Prop := once = .fresh ∨ once = .running k ∨ once = .ran k

/-- While one call may move the `sync.Once`, what the others know does not rest on it. -/
theorem Closing.Fits.other {k k' : ℕ} {once once' : Once} {phase : Closing}
    (h : phase.Fits k' once) (hfree : once.Free k) (hne : k' ≠ k) : phase.Fits k' once' := by
  cases phase with
  | closing | entering => trivial
  | releasing err | released err | returned err =>
    obtain rfl := h
    simp [Once.Free, hne] at hfree

structure Inv (s : State) : Prop where
  slots : s.occupied = s.accepts.countP Accept.holds + s.conns.countP Once.held
  room : s.occupied ≤ capacity
  fits : ∀ (k : ℕ) (c : Closer), s.closes[k]? = some c →
    ∃ once, s.conns[c.conn]? = some once ∧ c.phase.Fits k once
  owned : ∀ (n : ℕ) (once : Once), s.conns[n]? = some once → once.Owned s.closes n

theorem inv_new : Inv .new := ⟨rfl, by decide, by simp [State.new], by simp [State.new]⟩

section Closes

variable {closes : List Closer} {n : ℕ} {once : Once}

theorem Once.Owned.called (h : once.Owned closes n) (hfresh : once ≠ .fresh) :
    n ∈ closes.map Closer.conn := by
  cases once with
  | fresh => exact absurd rfl hfresh
  | running k | ran k =>
    obtain ⟨err, hk⟩ := h
    exact List.mem_map.2 ⟨_, List.mem_of_getElem? hk, rfl⟩
  | done => exact h

theorem Once.Owned.append (h : once.Owned closes n) (c : Closer) :
    once.Owned (closes ++ [c]) n := by
  cases once with
  | fresh => trivial
  | running k | ran k =>
    obtain ⟨err, hk⟩ := h
    refine ⟨err, ?_⟩
    rwa [List.getElem?_append_left (List.getElem?_eq_some_iff.1 hk).1]
  | done =>
    change n ∈ (closes ++ [c]).map Closer.conn
    rw [List.map_append]
    exact List.mem_append_left _ h

/-- A call of `Close` stays with its connection. -/
theorem map_conn_set {k m : ℕ} {phase : Closing} (hk : closes[k]? = some ⟨m, phase⟩)
    (phase' : Closing) :
    (closes.set k ⟨m, phase'⟩).map Closer.conn = closes.map Closer.conn := by
  obtain ⟨hlt, hget⟩ := List.getElem?_eq_some_iff.1 hk
  refine List.ext_getElem (by simp) fun j hj hj' => ?_
  rw [List.getElem_map, List.getElem_map, List.getElem_set]
  split_ifs with heq
  · subst heq
    rw [hget]
  · rfl

/-- A call that is not in the `sync.Once` of the connection can go on. -/
theorem Once.Owned.set {k m : ℕ} {phase : Closing} (h : once.Owned closes n)
    (hk : closes[k]? = some ⟨m, phase⟩) (hout : n = m → phase.inOnce = false) (phase' : Closing) :
    once.Owned (closes.set k ⟨m, phase'⟩) n := by
  cases once with
  | fresh => trivial
  | running j | ran j =>
    obtain ⟨err, hj⟩ := h
    refine ⟨err, ?_⟩
    have hne : k ≠ j := by
      rintro rfl
      obtain ⟨rfl, rfl⟩ := Closer.mk.inj (Option.some.inj (hk.symm.trans hj))
      exact absurd (hout rfl) (by simp [Closing.inOnce])
    rwa [List.getElem?_set_ne hne]
  | done =>
    change n ∈ (closes.set k ⟨m, phase'⟩).map Closer.conn
    rwa [map_conn_set hk]

end Closes

section Moves

variable {s : State}

/-- A call of `Accept` goes on. -/
theorem Inv.accept {i : ℕ} {p p' : Accept} {occupied : ℕ} (h : Inv s) (hi : s.accepts[i]? = some p)
    (hslots : occupied + p.holds.toNat = s.occupied + p'.holds.toNat)
    (hroom : occupied ≤ capacity) :
    Inv { s with occupied := occupied, accepts := s.accepts.set i p' } := by
  have hcount := countP_set_add hi Accept.holds p'
  have hbefore := h.slots
  refine ⟨?_, hroom, h.fits, h.owned⟩
  dsimp only
  omega

/-- A call of `Accept` goes on without touching `slots`. -/
theorem Inv.accept_same {i : ℕ} {p p' : Accept} (h : Inv s) (hi : s.accepts[i]? = some p)
    (hholds : p'.holds = p.holds) : Inv { s with accepts := s.accepts.set i p' } :=
  h.accept hi (by rw [hholds]) h.room

/-- A call of `Accept` returns a connection, which has its slot from then on. -/
theorem Inv.accept_conn {i : ℕ} {p : Accept} {r : Except Bytes ℕ} (h : Inv s)
    (hi : s.accepts[i]? = some p) (hholds : p.holds = true) :
    Inv { s with accepts := s.accepts.set i (.returned r), conns := s.conns ++ [.fresh] } := by
  refine ⟨?_, h.room, fun k c hc => ?_, fun n once hn => ?_⟩
  · have hcount := countP_set_add hi Accept.holds (.returned r)
    have hconns : (s.conns ++ [Once.fresh]).countP Once.held = s.conns.countP Once.held + 1 := by
      simp [Once.held]
    have hbefore := h.slots
    rw [hholds, Bool.toNat_true, show (Accept.returned r).holds.toNat = 0 from rfl] at hcount
    dsimp only
    omega
  · obtain ⟨once, honce, hfits⟩ := h.fits k c hc
    refine ⟨once, ?_, hfits⟩
    dsimp only
    rwa [List.getElem?_append_left (List.getElem?_eq_some_iff.1 honce).1]
  · dsimp only at hn
    rcases Nat.lt_or_ge n s.conns.length with hold | hnew
    · rw [List.getElem?_append_left hold] at hn
      exact h.owned n once hn
    · rw [List.getElem?_append_right hnew] at hn
      obtain rfl := List.mem_singleton.1 (List.mem_of_getElem? hn)
      trivial

/-- `Close` is called. -/
theorem Inv.close {n : ℕ} (h : Inv s) (hn : n < s.conns.length) :
    Inv { s with closes := s.closes ++ [⟨n, .closing⟩] } := by
  refine ⟨h.slots, h.room, fun k c hc => ?_, fun m once hm => (h.owned m once hm).append _⟩
  dsimp only at hc
  rcases Nat.lt_or_ge k s.closes.length with hold | hnew
  · rw [List.getElem?_append_left hold] at hc
    exact h.fits k c hc
  · rw [List.getElem?_append_right hnew] at hc
    obtain rfl := List.mem_singleton.1 (List.mem_of_getElem? hc)
    exact ⟨_, List.getElem?_eq_getElem hn, trivial⟩

/-- A call of `Close` goes on outside the `sync.Once`. -/
theorem Inv.close_same {k n : ℕ} {phase phase' : Closing} (h : Inv s)
    (hk : s.closes[k]? = some ⟨n, phase⟩) (hout : phase.inOnce = false)
    (hfits : ∀ once, s.conns[n]? = some once → phase'.Fits k once) :
    Inv { s with closes := s.closes.set k ⟨n, phase'⟩ } := by
  refine ⟨h.slots, h.room, fun j c hc => ?_,
    fun m once hm => (h.owned m once hm).set hk (fun _ => hout) phase'⟩
  dsimp only at hc
  rw [List.getElem?_set] at hc
  split_ifs at hc with heq
  · obtain rfl := Option.some.inj hc
    obtain rfl := heq
    obtain ⟨once, honce, -⟩ := h.fits k _ hk
    exact ⟨once, honce, hfits once honce⟩
  · exact h.fits j c hc

/-- A call of `Close` moves the `sync.Once` of its connection. -/
theorem Inv.close_once {k n occupied : ℕ} {phase phase' : Closing} {once once' : Once} (h : Inv s)
    (hk : s.closes[k]? = some ⟨n, phase⟩) (hn : s.conns[n]? = some once) (hfree : once.Free k)
    (hfits : phase'.Fits k once') (howned : once'.Owned (s.closes.set k ⟨n, phase'⟩) n)
    (hslots : occupied + once.held.toNat = s.occupied + once'.held.toNat)
    (hroom : occupied ≤ capacity) :
    Inv { s with
      occupied := occupied, conns := s.conns.set n once',
      closes := s.closes.set k ⟨n, phase'⟩ } := by
  have hlt : n < s.conns.length := (List.getElem?_eq_some_iff.1 hn).1
  refine ⟨?_, hroom, fun j c hc => ?_, fun m before hm => ?_⟩
  · have hcount := countP_set_add hn Once.held once'
    have hbefore := h.slots
    dsimp only
    omega
  · dsimp only at hc ⊢
    rw [List.getElem?_set] at hc
    split_ifs at hc with heq hj
    · obtain rfl := Option.some.inj hc
      obtain rfl := heq
      exact ⟨once', List.getElem?_set_self hlt, hfits⟩
    · obtain ⟨before, hbefore, hfit⟩ := h.fits j c hc
      rw [List.getElem?_set]
      split_ifs with hconn
      · -- another call on the same connection
        subst hconn
        obtain rfl : once = before := Option.some.inj (hn.symm.trans hbefore)
        exact ⟨once', rfl, hfit.other hfree (Ne.symm heq)⟩
      · exact ⟨before, hbefore, hfit⟩
  · dsimp only at hm ⊢
    rw [List.getElem?_set] at hm
    split_ifs at hm with hconn
    · obtain rfl := Option.some.inj hm
      exact hconn ▸ howned
    · exact (h.owned m before hm).set hk (fun heq => absurd heq.symm hconn) phase'

end Moves

/-- The `sync.Once` of a connection whose `release` a call of `Close` runs. -/
theorem Inv.running {s : State} {k n : ℕ} {err : Option Bytes} (h : Inv s)
    (hk : s.closes[k]? = some ⟨n, .releasing err⟩) : s.conns[n]? = some (.running k) := by
  obtain ⟨once, hn, rfl⟩ := h.fits k _ hk
  exact hn

/-- **Every operation keeps the invariant.** -/
theorem Inv.step {s s' : State} {e : Event} (h : Inv s) (hs : step s e = some s') : Inv s' := by
  have hroom := h.room
  cases e with
  | accept =>
    obtain rfl := Option.some.inj hs
    exact ⟨by simpa [Accept.holds] using h.slots, h.room, h.fits, h.owned⟩
  | take i =>
    simp only [Listener.step] at hs
    split at hs
    · next hi =>
      split_ifs at hs with hfree
      obtain rfl := Option.some.inj hs
      exact h.accept hi rfl hfree
    · cases hs
  | quit i =>
    simp only [Listener.step] at hs
    split at hs
    · next hi =>
      split_ifs at hs with hdone
      obtain rfl := Option.some.inj hs
      exact h.accept_same hi rfl
    · cases hs
  | accepted i err =>
    simp only [Listener.step] at hs
    split at hs
    · next hi =>
      obtain rfl := Option.some.inj hs
      exact h.accept_same hi rfl
    · next hi =>
      obtain rfl := Option.some.inj hs
      exact h.accept_same hi rfl
    · cases hs
  | checked i err =>
    simp only [Listener.step] at hs
    split at hs
    · next hi =>
      obtain rfl := Option.some.inj hs
      exact h.accept_same hi rfl
    · next hi =>
      obtain rfl := Option.some.inj hs
      exact h.accept_conn hi rfl
    · cases hs
  | dropped i err =>
    simp only [Listener.step] at hs
    split at hs
    · next hi =>
      obtain rfl := Option.some.inj hs
      exact h.accept_same hi rfl
    · cases hs
  | free i =>
    simp only [Listener.step] at hs
    split_ifs at hs with hzero
    split at hs
    · next err hi =>
      obtain rfl := Option.some.inj hs
      exact h.accept hi (Nat.sub_add_cancel (Nat.pos_of_ne_zero hzero)) (by omega)
    · next hi =>
      obtain rfl := Option.some.inj hs
      exact h.accept hi (Nat.sub_add_cancel (Nat.pos_of_ne_zero hzero)) (by omega)
    · cases hs
  | shut =>
    obtain rfl := Option.some.inj hs
    exact ⟨h.slots, h.room, h.fits, h.owned⟩
  | close n =>
    simp only [Listener.step] at hs
    split_ifs at hs with hn
    obtain rfl := Option.some.inj hs
    exact h.close hn
  | closed k err =>
    simp only [Listener.step] at hs
    split at hs
    · next n hk =>
      obtain rfl := Option.some.inj hs
      exact h.close_same hk rfl fun _ _ => trivial
    · cases hs
  | enter k =>
    simp only [Listener.step] at hs
    split at hs
    · next n err hk =>
      split at hs
      · next hn =>
        obtain rfl := Option.some.inj hs
        refine h.close_once hk hn (.inl rfl) rfl ⟨err, ?_⟩ rfl hroom
        exact List.getElem?_set_self (List.getElem?_eq_some_iff.1 hk).1
      · next hn =>
        obtain rfl := Option.some.inj hs
        exact h.close_same hk rfl fun once honce => Option.some.inj (honce.symm.trans hn)
      · cases hs
    · cases hs
  | release k =>
    simp only [Listener.step] at hs
    split_ifs at hs with hzero
    split at hs
    · next n err hk =>
      obtain rfl := Option.some.inj hs
      refine h.close_once hk (h.running hk) (.inr (.inl rfl)) rfl ⟨err, ?_⟩
        (Nat.sub_add_cancel (Nat.pos_of_ne_zero hzero)) (by omega)
      exact List.getElem?_set_self (List.getElem?_eq_some_iff.1 hk).1
    · cases hs
  | leave k =>
    simp only [Listener.step] at hs
    split at hs
    · next n err hk =>
      obtain rfl := Option.some.inj hs
      obtain ⟨once, hn, rfl⟩ := h.fits k _ hk
      refine h.close_once hk hn (.inr (.inr rfl)) rfl ?_ rfl hroom
      change n ∈ (s.closes.set k ⟨n, .returned err⟩).map Closer.conn
      rw [map_conn_set hk]
      exact List.mem_map.2 ⟨_, List.mem_of_getElem? hk, rfl⟩
    · cases hs

theorem Reached.inv {s : State} (h : Reached s) : Inv s := by
  induction h with
  | new => exact inv_new
  | step _ e hs ih => exact ih.step hs

/-! ## What follows for the slots -/

/-- Slots are neither lost nor freed twice. -/
structure Conserved (s : State) : Prop where
  /-- Every slot is that of a connection that is not yet closed or of an `Accept` in progress. -/
  slots : s.occupied = s.conns.countP Once.held + s.accepts.countP Accept.holds
  /-- At most eight connections are open at once. -/
  atMost : s.conns.countP Once.held ≤ capacity
  /-- A connection on which `Close` was never called is open. -/
  not_closed : ∀ (n : ℕ) (once : Once), s.conns[n]? = some once → n ∉ s.closes.map Closer.conn →
    once.held = true
  /-- A connection on which a call of `Close` has returned is not. -/
  closed : ∀ (n : ℕ) (err : Option Bytes), ⟨n, .returned err⟩ ∈ s.closes →
    ∃ once, s.conns[n]? = some once ∧ once.held = false
  /-- An `Accept` that failed gives back its slot without waiting, and returns. -/
  failing : ∀ (i : ℕ) (err : Bytes), s.accepts[i]? = some (.failing err) →
    step s (.free i) = some { s with
      occupied := s.occupied - 1, accepts := s.accepts.set i (.returned (.error err)) }
  /-- An `Accept` that rejected its peer gives back its slot without waiting, and goes on. -/
  dropped : ∀ i : ℕ, s.accepts[i]? = some .dropped →
    step s (.free i) = some { s with
      occupied := s.occupied - 1, accepts := s.accepts.set i .selecting }
  /-- `release` gives back the slot of its own connection without waiting, and no other call is in
  the `sync.Once` of that connection. -/
  releasing : ∀ (k n : ℕ) (err : Option Bytes), s.closes[k]? = some ⟨n, .releasing err⟩ →
    s.conns[n]? = some (.running k) ∧
      (∀ (j : ℕ) (phase : Closing), s.closes[j]? = some ⟨n, phase⟩ → phase.inOnce = true → j = k) ∧
      step s (.release k) = some { s with
        occupied := s.occupied - 1
        conns := s.conns.set n (.ran k), closes := s.closes.set k ⟨n, .released err⟩ }
  /-- A call of `Close` waits only for one that is in the `sync.Once` of the same connection. -/
  entering : ∀ (k n : ℕ) (err : Option Bytes), s.closes[k]? = some ⟨n, .entering err⟩ →
    step s (.enter k) = none → ∃ (j : ℕ) (phase : Closing),
      s.closes[j]? = some ⟨n, phase⟩ ∧ phase.inOnce = true
  /-- All slots are free when no `Accept` holds one and no connection is open. -/
  none_left : (∀ p ∈ s.accepts, p.holds = false) → (∀ once ∈ s.conns, once.held = false) →
    s.occupied = 0

section Conserved

variable {s : State}

theorem Inv.pos_of_holds (h : Inv s) {i : ℕ} {p : Accept} (hi : s.accepts[i]? = some p)
    (hp : p.holds = true) : s.occupied ≠ 0 := by
  have hpos : 0 < s.accepts.countP Accept.holds :=
    List.countP_pos_iff.2 ⟨p, List.mem_of_getElem? hi, hp⟩
  have hslots := h.slots
  omega

theorem Inv.pos_of_held (h : Inv s) {n : ℕ} {once : Once} (hn : s.conns[n]? = some once)
    (hheld : once.held = true) : s.occupied ≠ 0 := by
  have hpos : 0 < s.conns.countP Once.held :=
    List.countP_pos_iff.2 ⟨once, List.mem_of_getElem? hn, hheld⟩
  have hslots := h.slots
  omega

/-- One call at a time is in the `sync.Once` of a connection. -/
theorem Inv.inOnce_unique (h : Inv s) {j k n : ℕ} {phase : Closing}
    (hn : s.conns[n]? = some (.running k)) (hj : s.closes[j]? = some ⟨n, phase⟩)
    (hin : phase.inOnce = true) : j = k := by
  obtain ⟨once, honce, hfits⟩ := h.fits j _ hj
  obtain rfl : Once.running k = once := Option.some.inj (hn.symm.trans honce)
  cases phase with
  | closing | entering | returned => cases hin
  | releasing err => exact (Once.running.inj hfits).symm
  | released err => cases hfits

theorem Inv.entering (h : Inv s) {k n : ℕ} {err : Option Bytes}
    (hk : s.closes[k]? = some ⟨n, .entering err⟩) (hs : Listener.step s (.enter k) = none) :
    ∃ (j : ℕ) (phase : Closing),
      s.closes[j]? = some ⟨n, phase⟩ ∧ phase.inOnce = true := by
  obtain ⟨once, hn, -⟩ := h.fits k _ hk
  dsimp only at hn
  have howned := h.owned n once hn
  simp only [Listener.step, hk, hn] at hs
  cases once with
  | fresh | done => cases hs
  | running j | ran j =>
    obtain ⟨err', hj⟩ := howned
    exact ⟨j, _, hj, rfl⟩

end Conserved

/-- **Slots are conserved**, whatever the order in which any number of `Accept` calls, of `Close`
calls on the connections and of `Close` calls on the listener go on. -/
theorem slots_conserved {s : State} (h : Reached s) : Conserved s := by
  have hinv := h.inv
  have hslots := hinv.slots
  have hroom := hinv.room
  refine ⟨by omega, by omega, fun n once hn hcalled => ?_, fun n err hmem => ?_,
    fun i err hi => ?_, fun i hi => ?_, fun k n err hk => ?_, fun k n err => hinv.entering,
    fun hholds hheld => ?_⟩
  · by_contra hheld
    refine hcalled ((hinv.owned n once hn).called ?_)
    rintro rfl
    exact hheld rfl
  · obtain ⟨k, hk⟩ := List.mem_iff_getElem?.1 hmem
    obtain ⟨once, hn, rfl⟩ := hinv.fits k _ hk
    exact ⟨.done, hn, rfl⟩
  · simp only [step, if_neg (hinv.pos_of_holds hi rfl), hi]
  · simp only [step, if_neg (hinv.pos_of_holds hi rfl), hi]
  · have hn := hinv.running hk
    refine ⟨hn, fun j phase hj hin => hinv.inOnce_unique hn hj hin, ?_⟩
    simp only [step, if_neg (hinv.pos_of_held hn rfl), hk]
  · have haccepts : s.accepts.countP Accept.holds = 0 :=
      List.countP_eq_zero.2 fun p hp => by simp [hholds p hp]
    have hconns : s.conns.countP Once.held = 0 :=
      List.countP_eq_zero.2 fun once honce => by simp [hheld once honce]
    omega

/-- The operations one after the other. -/
def run (s : State) (events : List Event) : Option State := events.foldlM step s

theorem reached_of_run {s s' : State} {events : List Event} (h : Reached s)
    (hrun : run s events = some s') : Reached s' := by
  induction events generalizing s with
  | nil =>
    obtain rfl := Option.some.inj hrun
    exact h
  | cons e events ih =>
    obtain ⟨next, hnext, hrest⟩ := Option.bind_eq_some_iff.1 hrun
    exact ih (h.step e hnext) hrest

/-- A connection is accepted and closed twice at the same time, while a second peer is rejected. -/
def demoEvents : List Event :=
  [.accept, .take 0, .accepted 0 none, .checked 0 none, .accept, .take 1, .accepted 1 none,
    .checked 1 (some (str "tailscaled peer required")), .dropped 1 none,
    .close 0, .close 0, .closed 0 none, .closed 1 none, .enter 1]

def demoState : State :=
  ⟨2, false, [.returned (.ok 0), .dropped], [.running 1],
    [⟨0, .entering none⟩, ⟨0, .releasing none⟩]⟩

theorem slots_conserved_demo : Conserved demoState :=
  slots_conserved (reached_of_run .new (by decide : run .new demoEvents = some demoState))

end SecretsBroker.AdminWeb.Listener
