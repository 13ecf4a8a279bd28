import SecretsBroker.Approval.Tailscale

/-!
# One call of the approver

`TailscaleApprover.Approve` as a function of what happens to it: the registration returns, and then
the loop takes one event after another, a poll that returned or the context that is done. The select
statement may take either when both are ready, so the events are an arbitrary list.

* `loop_eq` computes the loop: the first decisive reply before the context is done decides, and
  without one the context does. `approve_spec` is the specification of the call, with the cause that
  it records. The loop is the machine of `Phase` (`loop_eq_phase`).
* `serverApprover_exact_iff`: the durations that `Server.Serve` computes in 64 bits are the
  configured ones exactly when the timeout is at most 9223372036 seconds.
-/

namespace SecretsBroker.Approval

/-! ## The approver -/

/-- `time.Duration(seconds) * time.Second`: nanoseconds, in 64 bits. -/
def duration (seconds : ℤ) : ℤ := (seconds * 1000000000).bmod (2 ^ 64)

structure TailscaleApprover where
  pollInterval : ℤ
  timeout : ℤ
  /-- What the latest call recorded; none is the empty text. -/
  cause : Option Cause

def newTailscaleApprover (pollInterval timeout : ℤ) : TailscaleApprover :=
  ⟨pollInterval, timeout, none⟩

/-- The approver that `Server.Serve` makes for a configuration. -/
def serverApprover (cfg : Config) : TailscaleApprover :=
  newTailscaleApprover (duration cfg.approvalSource.tailscaleRelay.pollIntervalSeconds)
    (duration cfg.approvalSource.tailscaleRelay.timeoutSeconds)

namespace TailscaleApprover

def approveCause (a : TailscaleApprover) : Cause := a.cause.getD .expired

/-- The deadline of the context of a call that begins at `now`. -/
def deadline (a : TailscaleApprover) (now : ℤ) : ℤ := now + a.timeout

/-- What the loop finds: the context is done, or a tick came and the poll has returned, `ctxDone`
telling whether the context was done by then. -/
inductive Event
  | contextDone
  | polled (ctxDone : Bool) (reply : Except Bytes RelayStatus)

/-- How a call ends. -/
inductive Outcome
  | returned (decision : Decision) (err : Option Bytes)
  | panicked (message : Bytes)
  deriving DecidableEq

/-- The loop of `Approve`; none as long as it waits. -/
def loop (a : TailscaleApprover) (pollFailures : ℕ) (pollSucceeded : Bool) :
    List Event → Option (Outcome × TailscaleApprover)
  | [] => none
  | .contextDone :: _ =>
    some (.returned Decision.denied none,
      if 0 < pollFailures ∧ pollSucceeded = false then { a with cause := some .unreachable } else a)
  | .polled ctxDone (.error _) :: events =>
    loop a (if ctxDone then pollFailures else pollFailures + 1) pollSucceeded events
  | .polled _ (.ok status) :: events =>
    if status = RelayStatusApproved then some (.returned Decision.approved none, a)
    else if status = RelayStatusDenied then
      some (.returned Decision.denied none, { a with cause := some .rejected })
    else if status = RelayStatusExpired then
      some (.returned Decision.denied none, { a with cause := some .expired })
    else loop a pollFailures true events

/-- `time.NewTicker` panics on an interval that is not positive. -/
def errTicker : Bytes := str "non-positive interval for NewTicker"

/-- `Approve`, from the random bytes, what the registration returns and the events of the loop. -/
def approve (a : TailscaleApprover) (random : Except Bytes Bytes) (register : Except Bytes Unit)
    (events : List Event) : Option (Outcome × TailscaleApprover) :=
  let a := { a with cause := some .expired }
  match newRequestID random with
  | .error err => some (.returned Decision.denied (some (str "generating request id: " ++ err)), a)
  | .ok _ =>
    match register with
    | .error err =>
      some (.returned Decision.denied (some (str "registering with relay: " ++ err)),
        { a with cause := some .unreachable })
    | .ok () => if a.pollInterval ≤ 0 then some (.panicked errTicker, a) else loop a 0 false events

/-! ## What the events amount to -/

namespace Event

def isPoll : Event → Bool
  | contextDone => false
  | polled _ _ => true

/-- The status that a poll returned. -/
def reply : Event → Option RelayStatus
  | polled _ (.ok status) => some status
  | _ => none

/-- A poll that failed before the deadline. -/
def isFailure : Event → Bool
  | polled false (.error _) => true
  | _ => false

/-- The events before the context is done. -/
def before (events : List Event) : List Event := events.takeWhile isPoll

def replies (events : List Event) : List RelayStatus := (before events).filterMap reply

def failures (events : List Event) : ℕ := (before events).countP isFailure

/-- The first reply that decides. -/
def decisive (events : List Event) : Option RelayStatus :=
  (replies events).find? fun status =>
    status = RelayStatusApproved ∨ status = RelayStatusDenied ∨ status = RelayStatusExpired

theorem before_polled (ctxDone : Bool) (r : Except Bytes RelayStatus) (events : List Event) :
    before (polled ctxDone r :: events) = polled ctxDone r :: before events := rfl

theorem decisive_mem {events : List Event} {status : RelayStatus}
    (h : decisive events = some status) :
    status ∈ replies events ∧ (status = RelayStatusApproved ∨ status = RelayStatusDenied ∨
      status = RelayStatusExpired) :=
  ⟨List.mem_of_find?_eq_some h, by simpa using List.find?_some h⟩

end Event

open Event

/-- How the loop ends on a decisive reply. -/
def decided (a : TailscaleApprover) (status : RelayStatus) : Outcome × TailscaleApprover :=
  if status = RelayStatusApproved then (.returned Decision.approved none, a)
  else if status = RelayStatusDenied then
    (.returned Decision.denied none, { a with cause := some .rejected })
  else (.returned Decision.denied none, { a with cause := some .expired })

/-- **What the loop returns**: the first decisive reply decides, and without one the context that is
done. -/
theorem loop_eq (a : TailscaleApprover) (f : ℕ) (ok : Bool) (events : List Event) :
    a.loop f ok events =
      match decisive events with
      | some status => some (a.decided status)
      | none =>
        if (events.all isPoll) = true then none
        else some (.returned Decision.denied none,
          if 0 < f + failures events ∧ ok = false ∧ replies events = [] then
            { a with cause := some .unreachable }
          else a) := by
  induction events generalizing f ok with
  | nil => rfl
  | cons event events ih =>
    cases event with
    | contextDone => simp [loop, decisive, replies, failures, before, isPoll]
    | polled ctxDone r =>
      cases r with
      | error err =>
        have hreplies : replies (polled ctxDone (.error err) :: events) = replies events := rfl
        have hdecisive : decisive (polled ctxDone (.error err) :: events) = decisive events := rfl
        have hfailures : f + failures (polled ctxDone (.error err) :: events) =
            (if ctxDone then f else f + 1) + failures events := by
          rw [failures, before_polled, List.countP_cons]
          cases ctxDone <;> simp [failures, isFailure]
          omega
        rw [loop, ih, hreplies, hdecisive, hfailures]
        rfl
      | ok status =>
        have hreplies : replies (polled ctxDone (.ok status) :: events) =
            status :: replies events := rfl
        have hfailures : failures (polled ctxDone (.ok status) :: events) = failures events := by
          cases ctxDone <;> rfl
        have hdecisive : decisive (polled ctxDone (.ok status) :: events) =
            if status = RelayStatusApproved ∨ status = RelayStatusDenied ∨
              status = RelayStatusExpired then some status else decisive events := by
          rw [decisive, hreplies, List.find?_cons]
          split_ifs with h <;> simp [h, decisive]
        by_cases happroved : status = RelayStatusApproved
        · rw [hdecisive, if_pos (.inl happroved), loop, if_pos happroved]
          simp only [decided, if_pos happroved]
        by_cases hdenied : status = RelayStatusDenied
        · rw [hdecisive, if_pos (.inr (.inl hdenied)), loop, if_neg happroved, if_pos hdenied]
          simp only [decided, if_neg happroved, if_pos hdenied]
        by_cases hexpired : status = RelayStatusExpired
        · rw [hdecisive, if_pos (.inr (.inr hexpired)), loop, if_neg happroved, if_neg hdenied,
            if_pos hexpired]
          simp only [decided, if_neg happroved, if_neg hdenied]
        · rw [hdecisive, if_neg (by simp [happroved, hdenied, hexpired]), loop, if_neg happroved,
            if_neg hdenied, if_neg hexpired, ih, hreplies, hfailures]
          simp [isPoll]

theorem all_isPoll_iff {events : List Event} :
    events.all isPoll = true ↔ Event.contextDone ∉ events := by
  rw [List.all_eq_true]
  constructor
  · intro h hmem
    exact absurd (h _ hmem) (by decide)
  · intro h event hmem
    cases event with
    | contextDone => exact absurd hmem h
    | polled ctxDone r => rfl

/-! ## The specification -/

section Spec

variable (a : TailscaleApprover) (random : Except Bytes Bytes) (register : Except Bytes Unit)
  (events : List Event)

/-- The request was registered. -/
def Registered : Prop := (∃ id, newRequestID random = .ok id) ∧ register = .ok ()

/-- The registration failed. -/
def Unregistered : Prop := (∃ id, newRequestID random = .ok id) ∧ ∃ err, register = .error err

/-- A call with a ticker, from its four parts. -/
theorem approve_eq (hpos : 0 < a.pollInterval) :
    (∃ err, newRequestID random = .error err ∧ a.approve random register events =
      some (.returned Decision.denied (some (str "generating request id: " ++ err)),
        { a with cause := some .expired })) ∨
    (∃ err, Unregistered random register ∧ a.approve random register events =
      some (.returned Decision.denied (some err), { a with cause := some .unreachable })) ∨
    (Registered random register ∧ a.approve random register events =
      loop { a with cause := some .expired } 0 false events) := by
  unfold approve Unregistered Registered
  cases newRequestID random with
  | error err => exact .inl ⟨err, rfl, rfl⟩
  | ok id =>
    cases register with
    | error err => exact .inr (.inl ⟨_, ⟨⟨id, rfl⟩, err, rfl⟩, rfl⟩)
    | ok u => exact .inr (.inr ⟨⟨⟨id, rfl⟩, rfl⟩, by simp only [if_neg (not_le.2 hpos)]⟩)

theorem approved_ne_denied : Decision.approved ≠ Decision.denied := by decide

/-- The loop of a call that was registered. -/
theorem loop_spec {outcome : Outcome} {a' : TailscaleApprover}
    (h : loop { a with cause := some .expired } 0 false events = some (outcome, a')) :
    (∃ decision, outcome = .returned decision none ∧
      (decision = Decision.approved ↔ decisive events = some RelayStatusApproved) ∧
      (decision ≠ Decision.approved → decision = Decision.denied)) ∧
    (a'.approveCause = .rejected ↔ decisive events = some RelayStatusDenied) ∧
    (a'.approveCause = .unreachable ↔ replies events = [] ∧ 0 < failures events) ∧
    (a'.approveCause = .rejected ∨ a'.approveCause = .unreachable ∨
      a'.approveCause = .expired) := by
  have h₁ : RelayStatusDenied ≠ RelayStatusApproved := by decide
  have h₂ : RelayStatusExpired ≠ RelayStatusApproved := by decide
  have h₃ : RelayStatusExpired ≠ RelayStatusDenied := by decide
  rw [loop_eq] at h
  cases hd : decisive events with
  | some status =>
    obtain ⟨hmem, hstatus⟩ := decisive_mem hd
    have hne : replies events ≠ [] := List.ne_nil_of_mem hmem
    simp only [hd, Option.some.injEq] at h
    rcases hstatus with rfl | rfl | rfl
    · rw [decided, if_pos rfl] at h
      obtain ⟨rfl, rfl⟩ := Prod.mk.inj h
      exact ⟨⟨_, rfl, by simp, fun hne => absurd rfl hne⟩, by simp [approveCause, h₁.symm],
        by simp [approveCause, hne], .inr (.inr rfl)⟩
    · rw [decided, if_neg h₁, if_pos rfl] at h
      obtain ⟨rfl, rfl⟩ := Prod.mk.inj h
      exact ⟨⟨_, rfl, by simp [h₁, approved_ne_denied.symm], fun _ => rfl⟩, by simp [approveCause],
        by simp [approveCause, hne], .inl rfl⟩
    · rw [decided, if_neg h₂, if_neg h₃] at h
      obtain ⟨rfl, rfl⟩ := Prod.mk.inj h
      exact ⟨⟨_, rfl, by simp [h₂, approved_ne_denied.symm], fun _ => rfl⟩,
        by simp [approveCause, h₃], by simp [approveCause, hne], .inr (.inr rfl)⟩
  | none =>
    simp only [hd] at h
    split_ifs at h with hall hcause
    · obtain ⟨rfl, rfl⟩ := Prod.mk.inj (Option.some.inj h)
      exact ⟨⟨_, rfl, by simp [approved_ne_denied.symm], fun _ => rfl⟩, by simp [approveCause],
        by simpa [approveCause] using ⟨hcause.2.2, by omega⟩, .inr (.inl rfl)⟩
    · obtain ⟨rfl, rfl⟩ := Prod.mk.inj (Option.some.inj h)
      refine ⟨⟨_, rfl, by simp [approved_ne_denied.symm], fun _ => rfl⟩, by simp [approveCause], ?_,
        .inr (.inr rfl)⟩
      simp only [approveCause, Option.getD_some, reduceCtorEq, false_iff]
      rintro ⟨hreplies, hfailures⟩
      exact hcause ⟨by omega, trivial, hreplies⟩

/-- **The specification of `Approve`**, for every outcome of the registration and every list of
events, whatever an earlier call recorded. The call returns unless it waits in its loop. It approves
when the request was registered and the first decisive reply before the context is done is
`approved`, and denies otherwise. The cause is `rejected` when this reply is `denied`, `unreachable`
when the registration failed, or no poll succeeded and one failed before the deadline, and `expired`
otherwise. -/
theorem approve_spec (hpos : 0 < a.pollInterval) :
    (a.approve random register events = none ↔ Registered random register ∧
      decisive events = none ∧ Event.contextDone ∉ events) ∧
    ∀ outcome a', a.approve random register events = some (outcome, a') →
      (∃ decision err, outcome = .returned decision err ∧
        (decision = Decision.approved ↔
          Registered random register ∧ decisive events = some RelayStatusApproved) ∧
        (decision ≠ Decision.approved → decision = Decision.denied)) ∧
      (a'.approveCause = .rejected ↔
        Registered random register ∧ decisive events = some RelayStatusDenied) ∧
      (a'.approveCause = .unreachable ↔ Unregistered random register ∨
        Registered random register ∧ replies events = [] ∧ 0 < failures events) ∧
      (a'.approveCause = .rejected ∨ a'.approveCause = .unreachable ∨
        a'.approveCause = .expired) := by
  rcases a.approve_eq random register events hpos with ⟨err, hid, h⟩ | ⟨err, hun, h⟩ | ⟨hreg, h⟩
  · have hreg : ¬ Registered random register := by
      rintro ⟨⟨id, hok⟩, -⟩
      rw [hid] at hok
      cases hok
    have hun : ¬ Unregistered random register := by
      rintro ⟨⟨id, hok⟩, -⟩
      rw [hid] at hok
      cases hok
    rw [h]
    refine ⟨by simp [hreg], fun outcome a' hret => ?_⟩
    obtain ⟨rfl, rfl⟩ := Prod.mk.inj (Option.some.inj hret)
    exact ⟨⟨_, _, rfl, by simp [hreg, approved_ne_denied.symm], fun _ => rfl⟩,
      by simp [approveCause, hreg], by simp [approveCause, hreg, hun], .inr (.inr rfl)⟩
  · have hreg : ¬ Registered random register := by
      rintro ⟨-, hok⟩
      obtain ⟨-, e, herr⟩ := hun
      rw [hok] at herr
      cases herr
    rw [h]
    refine ⟨by simp [hreg], fun outcome a' hret => ?_⟩
    obtain ⟨rfl, rfl⟩ := Prod.mk.inj (Option.some.inj hret)
    exact ⟨⟨_, _, rfl, by simp [hreg, approved_ne_denied.symm], fun _ => rfl⟩,
      by simp [approveCause, hreg], by simp [approveCause, hun], .inr (.inl rfl)⟩
  · have hun : ¬ Unregistered random register := by
      rintro ⟨-, e, herr⟩
      rw [hreg.2] at herr
      cases herr
    rw [h]
    refine ⟨?_, fun outcome a' hret => ?_⟩
    · rw [loop_eq, ← all_isPoll_iff]
      cases decisive events with
      | some status => simp
      | none => by_cases hall : events.all isPoll = true <;> simp [hall, hreg]
    · obtain ⟨⟨decision, rfl, happroved, hdenied⟩, hrejected, hunreachable, hcause⟩ :=
        a.loop_spec events hret
      exact ⟨⟨decision, none, rfl, by simp [hreg, happroved], hdenied⟩, by simp [hreg, hrejected],
        by simp [hreg, hun, hunreachable], hcause⟩

/-- A poll fails, the next one finds the request denied, and the context is done behind it. An
earlier call had found the relay unreachable. -/
theorem approve_spec_denied :
    ∃ a', approve ⟨2000000000, 300000000000, some .unreachable⟩ (.ok []) (.ok ())
        [.polled false (.error []), .polled false (.ok RelayStatusDenied), .contextDone] =
          some (.returned Decision.denied none, a') ∧ a'.approveCause = .rejected := by
  have hspec := approve_spec ⟨2000000000, 300000000000, some .unreachable⟩ (.ok []) (.ok ())
    [.polled false (.error []), .polled false (.ok RelayStatusDenied), .contextDone] (by decide)
  have hdecisive : decisive [.polled false (.error []), .polled false (.ok RelayStatusDenied),
      .contextDone] = some RelayStatusDenied := by decide
  exact ⟨_, rfl, (hspec.2 _ _ rfl).2.1.2 ⟨⟨⟨_, rfl⟩, rfl⟩, hdecisive⟩⟩

end Spec

/-! ## The phases of the loop -/

/-- What an event does in a phase. -/
def step : Phase → Event → Phase
  | .waiting f ok, .contextDone => .timedOut f ok
  | .waiting f ok, .polled ctxDone r => .polled f ok ctxDone r
  | phase, _ => phase

/-- The phase in which a call ends. -/
def lastPhase (random : Except Bytes Bytes) (register : Except Bytes Unit) (events : List Event) :
    Phase :=
  match Phase.begin (newRequestID random) with
  | .registering => events.foldl step (.registered register)
  | phase => phase

/-- What a call returns in its last phase, and the approver it leaves. -/
def ended (a : TailscaleApprover) : Phase → Option (Outcome × TailscaleApprover)
  | .done decision cause err => some (.returned decision err, { a with cause := some cause })
  | _ => none

theorem foldl_step_done (decision : Decision) (cause : Cause) (err : Option Bytes)
    (events : List Event) :
    events.foldl step (.done decision cause err) = .done decision cause err := by
  induction events with
  | nil => rfl
  | cons event events ih => cases event <;> exact ih

theorem loop_eq_phase (a : TailscaleApprover) (f : ℕ) (ok : Bool) (events : List Event) :
    loop { a with cause := some .expired } f ok events =
      a.ended (events.foldl step (.waiting f ok)) := by
  induction events generalizing f ok with
  | nil => rfl
  | cons event events ih =>
    rw [List.foldl_cons]
    cases event with
    | contextDone =>
      rw [step, Phase.timedOut, foldl_step_done, loop, ended]
      split_ifs <;> rfl
    | polled ctxDone r =>
      cases r with
      | error err => exact ih _ ok
      | ok status =>
        rw [step, Phase.polled, loop]
        split_ifs
        · rw [foldl_step_done]
          rfl
        · rw [foldl_step_done]
          rfl
        · rw [foldl_step_done]
          rfl
        · exact ih f true

/-- **The call is a run of the machine of `Phase`.** -/
theorem approve_eq_phase (a : TailscaleApprover) (hpos : 0 < a.pollInterval)
    (random : Except Bytes Bytes) (register : Except Bytes Unit) (events : List Event) :
    a.approve random register events = a.ended (lastPhase random register events) := by
  unfold approve lastPhase
  cases newRequestID random with
  | error err => rfl
  | ok id =>
    simp only [Phase.begin]
    cases register with
    | error err =>
      rw [Phase.registered, foldl_step_done]
      rfl
    | ok u =>
      rw [Phase.registered, ← loop_eq_phase]
      simp only [if_neg (not_le.2 hpos)]

end TailscaleApprover

/-! ## The durations of the worker -/

section Durations

variable [Platform] {data : Bytes} {cfg : Config}

/-- What `Parse` and `ValidateWorker` establish about the two numbers of seconds. -/
theorem seconds_of_parse (h : Config.parse data = .ok cfg) (hw : cfg.validateWorker = .ok ()) :
    0 < cfg.approvalSource.tailscaleRelay.pollIntervalSeconds ∧
      cfg.approvalSource.tailscaleRelay.pollIntervalSeconds <
        cfg.approvalSource.tailscaleRelay.timeoutSeconds := by
  obtain ⟨raw, -, -, hval⟩ := Config.parse_eq_ok h
  obtain ⟨-, happroval, -⟩ := Config.validate_ok_iff.1 hval
  have hbackend : cfg.approvalSource.backend = Config.ApprovalBackendTailscaleRelay := by
    unfold Config.validateWorker at hw
    simp only [Fallible.throw_if_eq_ok] at hw
    exact not_not.1 hw.2.2.1
  have hne : Config.ApprovalBackendTailscaleRelay ≠ Config.ApprovalBackendKDialog := by decide
  simp only [Config.validateApprovalSource, hbackend, if_neg hne, if_true] at happroval
  split_ifs at happroval with h₁ h₂ h₃ h₄ h₅
  exact ⟨not_le.1 h₃, not_le.1 h₅⟩

/-- The greatest number of seconds whose nanoseconds are in 64 bits. -/
def maxSeconds : ℤ := 9223372036

omit [Platform] in
theorem duration_eq_iff {seconds : ℤ} (h : 0 < seconds) :
    duration seconds = seconds * 1000000000 ↔ seconds ≤ maxSeconds := by
  rw [duration, maxSeconds, Int.bmod_def]
  have hpow : ((2 ^ 64 : ℕ) : ℤ) = 18446744073709551616 := by rfl
  rw [hpow]
  split_ifs <;> omega

omit [Platform] in
/-- A call of an approver with a positive interval does not panic. -/
theorem TailscaleApprover.approve_ne_panicked {a a' : TailscaleApprover} (hpos : 0 < a.pollInterval)
    {random : Except Bytes Bytes} {register : Except Bytes Unit} {events : List Event}
    {message : Bytes} : a.approve random register events ≠ some (.panicked message, a') := by
  intro h
  rw [a.approve_eq_phase hpos] at h
  unfold ended at h
  split at h <;> simp at h

/-- **The durations of an accepted configuration are exact up to 9223372036 seconds.** Then both are
positive, the interval is less than the timeout, no call panics and its deadline is in the
future. -/
theorem serverApprover_exact_iff (h : Config.parse data = .ok cfg)
    (hw : cfg.validateWorker = .ok ()) :
    (0 < (serverApprover cfg).pollInterval ∧ 0 < (serverApprover cfg).timeout ∧
      (serverApprover cfg).pollInterval =
        cfg.approvalSource.tailscaleRelay.pollIntervalSeconds * 1000000000 ∧
      (serverApprover cfg).timeout =
        cfg.approvalSource.tailscaleRelay.timeoutSeconds * 1000000000 ∧
      (serverApprover cfg).pollInterval < (serverApprover cfg).timeout ∧
      (∀ random register events message a',
        (serverApprover cfg).approve random register events ≠ some (.panicked message, a')) ∧
      ∀ now, now < (serverApprover cfg).deadline now) ↔
    cfg.approvalSource.tailscaleRelay.timeoutSeconds ≤ maxSeconds := by
  obtain ⟨hpoll, hlt⟩ := seconds_of_parse h hw
  constructor
  · rintro ⟨-, -, -, htimeout, -⟩
    exact (duration_eq_iff (hpoll.trans hlt)).1 htimeout
  · intro hmax
    have hp : (serverApprover cfg).pollInterval =
        cfg.approvalSource.tailscaleRelay.pollIntervalSeconds * 1000000000 :=
      (duration_eq_iff hpoll).2 (hlt.le.trans hmax)
    have ht : (serverApprover cfg).timeout =
        cfg.approvalSource.tailscaleRelay.timeoutSeconds * 1000000000 :=
      (duration_eq_iff (hpoll.trans hlt)).2 hmax
    have hpos : 0 < (serverApprover cfg).pollInterval := by omega
    refine ⟨hpos, by omega, hp, ht, by omega, fun _ _ _ _ _ => ?_, fun now => ?_⟩
    · exact TailscaleApprover.approve_ne_panicked hpos
    · rw [TailscaleApprover.deadline]
      omega

/-! A policy of a relay with a poll interval and a timeout. -/

def relayConfig (poll timeout : ℤ) : Config where
  runtime := ⟨str "/usr/bin/bws", str "/usr/bin", str "/home/broker"⟩
  tokenSource := ⟨Config.BackendFile, [], str "/etc/token"⟩
  approvalSource := ⟨Config.ApprovalBackendTailscaleRelay, ⟨str "http://relay", poll, timeout⟩⟩
  projects := [⟨str "app", str "p1", str "t1", str "/srv/app", Config.ApprovalPrompt, none⟩]

/-- A decoder that reads this policy in any text. -/
@[reducible] def relayPlatform (poll timeout : ℤ) : Platform where
  isPrint _ := false
  unmarshal _ := .ok (relayConfig poll timeout)
  parseURL _ := some ⟨str "http", str "relay", false, [], [], []⟩

omit [Platform] in
/-- The default values. -/
theorem serverApprover_exact_default :
    (serverApprover (relayConfig 2 300)).timeout = 300000000000 :=
  ((@serverApprover_exact_iff (relayPlatform 2 300) [] (relayConfig 2 300) (by decide +kernel)
    (by decide +kernel)).2 (by decide)).2.2.2.1

omit [Platform] in
/-- **An accepted interval wraps.** The interval is negative, the timeout a third of a second, and a
call whose registration succeeds panics. -/
theorem serverApprover_wraps :
    @Config.parse (relayPlatform 9223372037 18446744074) [] =
        .ok (relayConfig 9223372037 18446744074) ∧
      @Config.validateWorker (relayPlatform 9223372037 18446744074)
        (relayConfig 9223372037 18446744074) = .ok () ∧
      (serverApprover (relayConfig 9223372037 18446744074)).pollInterval = -9223372036709551616 ∧
      (serverApprover (relayConfig 9223372037 18446744074)).timeout = 290448384 ∧
      (((serverApprover (relayConfig 9223372037 18446744074)).approve (.ok []) (.ok ()) []).map
        Prod.fst = some (.panicked TailscaleApprover.errTicker)) := by
  decide +kernel

end Durations

end SecretsBroker.Approval
