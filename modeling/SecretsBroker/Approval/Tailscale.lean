import SecretsBroker.Foundations.Digest
import SecretsBroker.Broker.Run
import SecretsBroker.Relay.Server

/-!
# The approver that asks a relay

`internal/approval`: `HTTPRelayClient` (what it sends, and what it makes of an answer) and
`TailscaleApprover.Approve`. The loop of `Approve` waits for whatever comes first, so it is a state
machine here: a phase, and one function for each thing that can happen in it.
-/

namespace SecretsBroker.Approval

/-- `RelayStatus`, the text that the relay reports. -/
abbrev RelayStatus := Bytes

def RelayStatusApproved : RelayStatus := str "approved"
def RelayStatusDenied : RelayStatus := str "denied"
def RelayStatusExpired : RelayStatus := str "expired"

inductive Cause
  | rejected
  | expired
  | unreachable
  | unavailable
  deriving DecidableEq

def Cause.text : Cause → Bytes
  | .rejected => str "rejected"
  | .expired => str "expired"
  | .unreachable => str "unreachable"
  | .unavailable => str "unavailable"

/-! ## `HTTPRelayClient` -/

/-- The body of a registration. -/
def registerBody (prompt : Bytes) : Bytes :=
  Json.encodeObject [(str "prompt", Json.encodeString prompt)]

/-- What `Register` makes of an answer, or of the error of the exchange. -/
def registerResult : Except Bytes Relay.Response → Except Bytes Unit
  | .error err => .error (str "registering with relay: " ++ err)
  | .ok resp =>
    if resp.code ≠ 201 then
      .error (str "relay returned " ++ itoa resp.code ++ str " registering request")
    else .ok ()

/-- What `Poll` makes of an answer, or of the error of the exchange. -/
def pollResult : Except Bytes Relay.Response → Except Bytes RelayStatus
  | .error err => .error (str "polling relay: " ++ err)
  | .ok resp =>
    if resp.code ≠ 200 then
      .error (str "relay returned " ++ itoa resp.code ++ str " polling request")
    else
      match (Json.decodeWithin (64 * 2 ^ 10) resp.body).bind (Json.decodeSingle (str "status")) with
      | none => .error (str "decoding poll response: ")
      | some status => .ok status

/-! ## `TailscaleApprover` -/

/-- `newRequestID`, from the random bytes it reads. -/
def newRequestID : Except Bytes Bytes → Except Bytes Bytes
  | .error err => .error err
  | .ok random => .ok (hexEncode random)

/-- Where a call of `Approve` stands, with what its loop counts. -/
inductive Phase
  | idle
  | registering
  | waiting (pollFailures : ℕ) (pollSucceeded : Bool)
  | polling (pollFailures : ℕ) (pollSucceeded : Bool)
  | done (decision : Decision) (cause : Cause) (err : Option Bytes)
  deriving DecidableEq

namespace Phase

/-- `Approve` up to the registration. -/
def begin : Except Bytes Bytes → Phase
  | .error err => .done Decision.denied .expired (some (str "generating request id: " ++ err))
  | .ok _ => .registering

/-- The registration has returned. -/
def registered : Except Bytes Unit → Phase
  | .error err =>
    .done Decision.denied .unreachable (some (str "registering with relay: " ++ err))
  | .ok () => .waiting 0 false

/-- The context is done while the loop waits. -/
def timedOut (pollFailures : ℕ) (pollSucceeded : Bool) : Phase :=
  .done Decision.denied
    (if 0 < pollFailures ∧ pollSucceeded = false then .unreachable else .expired) none

/-- A poll has returned; `ctxDone` tells whether the context was done by then. -/
def polled (pollFailures : ℕ) (pollSucceeded ctxDone : Bool) : Except Bytes RelayStatus → Phase
  | .error _ => .waiting (if ctxDone then pollFailures else pollFailures + 1) pollSucceeded
  | .ok status =>
    if status = RelayStatusApproved then .done Decision.approved .expired none
    else if status = RelayStatusDenied then .done Decision.denied .rejected none
    else if status = RelayStatusExpired then .done Decision.denied .expired none
    else .waiting pollFailures true

theorem registered_ne_approved (res : Except Bytes Unit) (cause : Cause) (err : Option Bytes) :
    registered res ≠ .done Decision.approved cause err := by
  cases res <;> simp [registered, Decision.denied, Decision.approved]

theorem timedOut_ne_approved (f : ℕ) (ok : Bool) (cause : Cause) (err : Option Bytes) :
    timedOut f ok ≠ .done Decision.approved cause err := by
  simp [timedOut, Decision.denied, Decision.approved]

/-- Only the status `approved` makes the loop approve. -/
theorem polled_approved {f : ℕ} {ok ctxDone : Bool} {res : Except Bytes RelayStatus} {cause : Cause}
    {err : Option Bytes} (h : polled f ok ctxDone res = .done Decision.approved cause err) :
    res = .ok RelayStatusApproved := by
  cases res with
  | error e => simp [polled] at h
  | ok status =>
    simp only [polled] at h
    split_ifs at h with h₁
    · rw [h₁]
    all_goals simp [Decision.denied, Decision.approved] at h

end Phase

/-! ## What arrives of a prompt and of a status -/

open Utf8

/-- What the relay reads from the body of a registration: the prompt, up to invalid UTF-8, when the
body and the prompt keep to their limits. -/
theorem registrationPrompt_registerBody_eq (prompt : Bytes) :
    Relay.registrationPrompt (registerBody prompt) =
      if (registerBody prompt).length ≤ 16 * 2 ^ 10 ∧ toValid prompt ≠ [] ∧
        (toValid prompt).length ≤ 8 * 2 ^ 10 then some (toValid prompt) else none := by
  have hkey : toValid (str "prompt") = str "prompt" := (toValid_eq_self_iff _).2 (valid_str _)
  have hfield : Json.lookupField [(str "prompt", ())] (str "prompt") = some () := by decide +kernel
  have hparse := @Json.parse_encodeObject_strings [(str "prompt", prompt)] (by simp) []
  rw [List.append_nil] at hparse
  change Json.parse (registerBody prompt) = _ at hparse
  have hread : Json.decodeSingle (str "prompt")
      (.object [(toValid (str "prompt"), .string (toValid prompt))]) = some (toValid prompt) := by
    simp [Json.decodeSingle, Json.singleMember, hkey, hfield, Json.decodeString]
  simp only [Relay.registrationPrompt, Json.decodeWithin, hparse, List.map_cons, List.map_nil,
    List.length_nil, Nat.sub_zero]
  by_cases hbody : (registerBody prompt).length ≤ 16 * 2 ^ 10
  · simp only [hbody, if_true, Option.bind_some, hread, true_and]
    by_cases hprompt : toValid prompt ≠ [] ∧ (toValid prompt).length ≤ 8 * 2 ^ 10
    · rw [if_pos hprompt, if_neg (by rw [not_or, not_lt]; exact hprompt)]
    · rw [if_neg hprompt, if_pos (by rwa [← not_lt, ← not_or, not_not] at hprompt)]
  · simp only [hbody, if_false, Option.bind_none, false_and]

/-- **A prompt in valid UTF-8 is registered as it is.** -/
theorem registrationPrompt_registerBody {prompt p : Bytes} (hv : Valid prompt)
    (h : Relay.registrationPrompt (registerBody prompt) = some p) : p = prompt := by
  rw [registrationPrompt_registerBody_eq, (toValid_eq_self_iff _).2 hv] at h
  split_ifs at h
  exact (Option.some.inj h).symm

/-- A poll that reads the status `approved` was answered with a view of an approved request. -/
theorem pollResult_poll [Unicode] {s : Relay.Store} {now : ℤ} {id : Bytes}
    (h : pollResult (.ok (Relay.poll s now id)) = .ok RelayStatusApproved) :
    ∃ r, s.get now id = .ok r ∧ r.status = .approved := by
  unfold Relay.poll at h
  split_ifs at h with hid
  · simp [pollResult, Relay.httpError] at h
  · cases hget : s.get now id with
    | error err => simp [hget, pollResult, Relay.httpError] at h
    | ok r =>
      refine ⟨r, rfl, ?_⟩
      -- the view has the status under its own key, and no other key is taken for it
      have hkey : ∀ key, toValid (str key) = str key :=
        fun key => (toValid_eq_self_iff _).2 (valid_str key)
      have h₁ : Json.lookupField [(str "status", ())] (str "id") = none := by decide +kernel
      have h₂ : Json.lookupField [(str "status", ())] (str "status") = some () := by decide +kernel
      have h₃ : Json.lookupField [(str "status", ())] (str "deadline") = none := by decide +kernel
      have hstatus : toValid r.status.text = r.status.text := by cases r.status <;> exact hkey _
      have hparse := @Json.parse_encodeObject_strings
        [(str "id", r.id), (str "status", r.status.text),
          (str "deadline", Relay.rfc3339 r.deadline)]
        (by simp) [0x0A]
      change Json.parse (Relay.encodeView (some r)) = _ at hparse
      simp only [hget, pollResult, Json.decodeWithin, hparse] at h
      split_ifs at h with hsize
      · simp [Json.decodeSingle, Json.singleMember, hkey, h₁, h₂, h₃, Json.decodeString, hstatus]
          at h
        revert h
        cases r.status <;> decide
      · simp at h

end SecretsBroker.Approval
