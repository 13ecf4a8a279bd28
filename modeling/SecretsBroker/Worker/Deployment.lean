import SecretsBroker.Approval.Safety
import SecretsBroker.Worker.Accounting

/-!
# The deployment

Any number of sessions of the worker, each with the call of `Approve` that it may make, and the
relay that their calls share. A session goes on by one call at a time, whose answer is arbitrary,
except that `Approve` answers with what its call over the network has come to; and a call over the
network does something only while its session waits for it. Sessions, messages, decisions, sweeps
and restarts of the relay interleave in any order.

* `execution_authorised`: at every execution the session is behind the gate, and where a human has
  to approve, the relay has recorded the approval of this very request, which is used once.
* `entry_was_asked`: the relay holds nothing but the prompts of requests that the policy of their
  project leaves to a human.
-/

namespace SecretsBroker

open Interaction Relation

/-! ## Where the broker asks -/

namespace Broker

/-- `before` is what a run has done when it asks for the approval of `prompt`. -/
def Asking [Unicode] (b : Broker) (req : RunRequest) (before : Calls) (prompt : Bytes) : Prop :=
  ∃ runID project dirCalls,
    before = ⟨.start (startRecord req), .ok runID⟩ :: dirCalls ∧
    b.cfg.project req.project = some project ∧ DirAccepted project req dirCalls ∧
    project.decide req.argv = .prompt ∧
    prompt = formatPrompt req.project req.workingDir req.argv

/-- Calls that ask for no approval. -/
def NoApproval (c : Call) : Prop := (c matches .approve _) = false

/-- A program without approvals has none in its runs. -/
theorem not_mem_of_noApproval {α : Type} {p : Program α} (hp : Only NoApproval p) {tr : Calls}
    {a : α} (h : Runs p tr a) (prompt : Bytes) (r : Decision × Option Bytes) :
    (⟨.approve prompt, r⟩ : Event Call.Answer) ∉ tr :=
  fun hmem => absurd (hp.of_runs h _ hmem) (by simp [NoApproval])

theorem noApproval_deny (runID : Bytes) (reason : Reason) : Only NoApproval (deny runID reason) :=
  only_deny (fun _ _ => rfl) _ _

theorem noApproval_execute (runID : Bytes) (project : Project) (req : RunRequest) :
    Only NoApproval (execute runID project req) :=
  only_execute (fun _ _ => rfl) (fun _ => rfl) (fun _ => rfl) _ _ _

theorem noApproval_rejected (b : Broker) (runID : Bytes) : Only NoApproval (b.rejected runID) :=
  only_rejected (P := NoApproval) (fun _ _ => rfl) rfl _ _

theorem noApproval_sameWorkingDir (allowed requested : Bytes) :
    Only NoApproval (sameWorkingDir allowed requested) :=
  only_sameWorkingDir (fun _ => rfl) _ _

theorem authorise_asks [Unicode] {b : Broker} {runID : Bytes} {project : Project}
    {req : RunRequest} {before after : Calls} {out : RunOutcome} {prompt : Bytes}
    {r : Decision × Option Bytes} (h : Runs (b.authorise runID project req)
      (before ++ ⟨.approve prompt, r⟩ :: after) out) :
    before = [] ∧ project.decide req.argv = .prompt ∧
      prompt = formatPrompt req.project req.workingDir req.argv := by
  unfold authorise at h
  split at h
  · exact absurd (by simp) (not_mem_of_noApproval (noApproval_deny _ _) h prompt r)
  · next hv =>
    obtain ⟨⟨decision, err⟩, tr, htr, h₁⟩ := runs_ask_bind.1 h
    -- behind the approval there is no other
    have hrest : (⟨.approve prompt, r⟩ : Event Call.Answer) ∉ tr := by
      simp only at h₁
      split at h₁
      · exact not_mem_of_noApproval (noApproval_rejected _ _) h₁ prompt r
      · exact not_mem_of_noApproval (noApproval_execute _ _ _) h₁ prompt r
    cases before with
    | nil =>
      obtain ⟨he, -⟩ := List.cons.inj htr
      obtain ⟨hp, -⟩ := Sigma.mk.inj he
      exact ⟨rfl, hv, Call.approve.inj hp⟩
    | cons e before =>
      obtain ⟨-, rfl⟩ := List.cons.inj htr
      exact absurd (by simp) hrest
  · exact absurd (by simp) (not_mem_of_noApproval (noApproval_execute _ _ _) h prompt r)

/-- A run asks for an approval at one place: after the directory was accepted, where the policy of
the project leaves the command to a human. -/
theorem run_asks [Unicode] {b : Broker} {req : RunRequest} {before after : Calls}
    {out : RunOutcome} {prompt : Bytes} {r : Decision × Option Bytes}
    (h : Runs (b.run req) (before ++ ⟨.approve prompt, r⟩ :: after) out) :
    b.Asking req before prompt := by
  obtain ⟨res, tr, htr, h₁⟩ := runs_ask_bind.1 h
  obtain ⟨before, rfl, rfl⟩ := split_right (List.singleton_append.trans htr.symm) (by simp)
  cases res with
  | error err =>
    obtain ⟨hnil, -⟩ := runs_pure.1 h₁
    simp at hnil
  | ok runID =>
    cases hproj : b.cfg.project req.project with
    | none =>
      simp only [hproj] at h₁
      exact absurd (by simp) (not_mem_of_noApproval (noApproval_deny _ _) h₁ prompt r)
    | some project =>
      simp only [hproj] at h₁
      split at h₁
      · next hdir =>
        obtain ⟨dirCalls, tr, ok, heq, h₂, h₃⟩ := runs_bind.1 h₁
        obtain ⟨before, rfl, rfl⟩ := split_right heq.symm
          (not_mem_of_noApproval (noApproval_sameWorkingDir _ _) h₂ prompt r)
        cases ok with
        | false =>
          exact absurd (by simp) (not_mem_of_noApproval (noApproval_deny _ _) h₃ prompt r)
        | true =>
          obtain ⟨rfl, hv, hprompt⟩ := authorise_asks h₃
          exact ⟨runID, project, dirCalls, by simp [startRecord], hproj, Or.inr ⟨hdir, h₂⟩, hv,
            hprompt⟩
      · next hdir =>
        obtain ⟨rfl, hv, hprompt⟩ := authorise_asks h₁
        exact ⟨runID, project, [], rfl, hproj, Or.inl ⟨not_not.1 hdir, rfl⟩, hv, hprompt⟩

theorem noApproval_dryRun [Unicode] (b : Broker) (project workingDir : Bytes)
    (argv : List Bytes) : Only NoApproval (b.dryRun project workingDir argv) :=
  only_dryRun (fun _ => rfl) _ _ _ _

end Broker

namespace Worker.Session

/-! ## Where a session asks and where it executes -/

/-- The session has read `req` under the policy `cfg`, and the broker has made the calls
`before`. -/
def Entered [Platform] (s : Server) (tr : Calls) (req : Request) (cfg : Config)
    (before : Broker.Calls) : Prop :=
  ∃ input, silent tr = ⟨.openLog, none⟩ :: ⟨.input, input⟩ :: lift before ∧
    decodeRequest input = .ok req ∧ config s = .ok cfg ∧ req.dryRun = false

theorem lift_split {tr₀ : Broker.Calls} {c : Broker.Call} {r : c.Answer} {pre post : Calls}
    (h : lift tr₀ = pre ++ ⟨.adapter c, r⟩ :: post) :
    ∃ before after, tr₀ = before ++ ⟨c, r⟩ :: after ∧ pre = lift before := by
  obtain ⟨before, rest, rfl, rfl, hrest⟩ := List.map_eq_append_iff.1 h
  obtain ⟨⟨c', r'⟩, after, rfl, he, -⟩ := List.map_eq_cons_iff.1 hrest
  obtain ⟨hc, hr⟩ := Sigma.mk.inj he
  obtain rfl := Call.adapter.inj hc
  obtain rfl := eq_of_heq hr
  exact ⟨before, after, rfl, rfl⟩

theorem Ran.asks [Unicode] {cfg : Config} {req : Request} {output : List (Stream × Bytes)}
    {out : RunOutcome} {prompt : Bytes} {r : Decision × Option Bytes} {calls pre post : Calls}
    (h : Ran cfg req calls output out)
    (hcalls : calls = pre ++ ⟨.adapter (.approve prompt), r⟩ :: post) :
    ∃ before, pre = lift before ∧ (broker cfg).Asking (runRequest req) before prompt := by
  cases h with
  | stopped hrun hno =>
    obtain ⟨before, after, rfl, rfl⟩ := lift_split hcalls
    exact ⟨before, rfl, Broker.run_asks hrun⟩
  | refused hrun hpassed hcheck hout =>
    obtain ⟨post', hlift⟩ := split_left hcalls (by simp)
    obtain ⟨before, after, rfl, rfl⟩ := lift_split hlift
    rw [List.append_assoc] at hrun
    exact ⟨before, rfl, Broker.run_asks hrun⟩
  | executed hrun hpassed hcheck hends hout =>
    obtain ⟨post', hlift⟩ := split_left hcalls (by simp)
    obtain ⟨before, after, rfl, rfl⟩ := lift_split hlift
    rw [List.append_assoc] at hrun
    exact ⟨before, rfl, Broker.run_asks hrun⟩

def isExec (e : Event Call.Answer) : Bool := e.1 matches .exec _

theorem not_exec_lift (tr₀ : Broker.Calls) : ∀ e ∈ lift tr₀, isExec e = false := by
  intro e he
  obtain ⟨e', -, rfl⟩ := List.mem_map.1 he
  rfl

theorem Ran.executes [Unicode] {cfg : Config} {req : Request} {output : List (Stream × Bytes)}
    {out : RunOutcome} {cmd : Cmd} {spawned : Spawned} {calls pre post : Calls}
    (h : Ran cfg req calls output out) (hcalls : calls = pre ++ ⟨.exec cmd, spawned⟩ :: post) :
    ∃ runID before spec, pre = lift before ∧ cmd = (runner cfg).cmd spec ∧
      (runner cfg).check spec = .ok () ∧
      Broker.Passed Broker.Cleared (broker cfg) (runRequest req) runID before spec := by
  cases h with
  | @stopped tr out hrun hno =>
    have := not_exec_lift tr ⟨.exec cmd, spawned⟩ (hcalls ▸ by simp)
    simp [isExec] at this
  | @refused runID err before spec res out hrun hpassed hcheck hout =>
    have := not_exec_lift (before ++ [⟨.finish runID (Broker.finishRecord out), res⟩])
      ⟨.exec cmd, spawned⟩ (by
        rw [lift, List.map_append]
        exact hcalls ▸ by simp)
    simp [isExec] at this
  | @executed runID before spec spawned' child res out hrun hpassed hcheck hends hout =>
    obtain ⟨rfl, he, -⟩ := split_unique (P := isExec) hcalls (not_exec_lift before)
      (by simp [isExec]) rfl
    obtain ⟨hc, -⟩ := Sigma.mk.inj he
    exact ⟨runID, before, spec, rfl, Call.exec.inj hc, hcheck, hpassed⟩

/-- The calls that the broker's part of a session is recognised by. -/
def isDeed (e : Event Call.Answer) : Bool :=
  match e.1 with
  | .adapter (.approve _) => true
  | .exec _ => true
  | _ => false

theorem not_deed_auditDenied {req : Request} {outcome : Bytes} {tr : Calls}
    {auditErr : Option Bytes} (h : Runs (auditDenied req outcome) tr auditErr) :
    ∀ e ∈ tr, isDeed e = false := by
  obtain ⟨r, tr₁, rfl, h₁⟩ := runs_ask_bind.1 h
  cases r with
  | error err =>
    obtain ⟨rfl, -⟩ := runs_pure.1 h₁
    simp [isDeed]
  | ok runID =>
    rw [runs_ask.1 h₁]
    simp [isDeed]

theorem not_deed_lift {tr₀ : Broker.Calls} (h : ∀ e ∈ tr₀, Broker.NoApproval e.1) :
    ∀ e ∈ lift tr₀, isDeed e = false := by
  intro e he
  obtain ⟨⟨c, r⟩, hmem, rfl⟩ := List.mem_map.1 he
  have hc := h _ hmem
  cases c <;> first | rfl | exact absurd hc (by simp [Broker.NoApproval])

variable [Platform] {s : Server}

/-- A session that asks or executes has run the broker. -/
theorem Served.entered {calls pre post : Calls} {output : List (Stream × Bytes)}
    {last : List Frame} {e : Event Call.Answer} (h : Served s calls output last)
    (hcalls : calls = pre ++ e :: post) (he : isDeed e = true) :
    ∃ input req cfg pre' out, pre = ⟨.openLog, none⟩ :: ⟨.input, input⟩ :: pre' ∧
      decodeRequest input = .ok req ∧ config s = .ok cfg ∧ req.dryRun = false ∧
      Ran cfg req (pre' ++ e :: post) output out := by
  -- neither the opening of the log nor the reading of the request is such a call
  have hhead : ∀ {input : Reader} {tr : Calls},
      ⟨.openLog, none⟩ :: ⟨.input, input⟩ :: tr = pre ++ e :: post →
      ∃ pre', pre = ⟨.openLog, none⟩ :: ⟨.input, input⟩ :: pre' ∧ tr = pre' ++ e :: post := by
    intro input tr htr
    change [⟨.openLog, none⟩, ⟨.input, input⟩] ++ tr = _ at htr
    refine split_right htr fun hmem => ?_
    rcases List.mem_cons.1 hmem with rfl | hmem
    · cases he
    · rw [List.mem_singleton.1 hmem] at he
      cases he
  have hnot : ∀ {tr pre' : Calls}, (∀ e ∈ tr, isDeed e = false) → tr ≠ pre' ++ e :: post := by
    intro tr pre' hall htr
    have := hall e (by simp [htr])
    rw [he] at this
    cases this
  cases h with
  | noLog err => exact absurd hcalls (hnot (by simp [isDeed]))
  | refused hwhy haudit =>
    obtain ⟨pre', -, htr⟩ := hhead hcalls
    exact absurd htr (hnot (not_deed_auditDenied haudit))
  | dryRun hreq hcfg hdry hrun =>
    obtain ⟨pre', -, htr⟩ := hhead hcalls
    exact absurd htr
      (hnot (not_deed_lift ((Broker.noApproval_dryRun _ _ _ _).of_runs hrun)))
  | @ran input req cfg calls output out hreq hcfg hdry hran =>
    obtain ⟨pre', rfl, rfl⟩ := hhead hcalls
    exact ⟨input, req, cfg, pre', out, rfl, hreq, hcfg, hdry, hran⟩

/-- What a session that is about to make a call has done is the beginning of a whole session. -/
theorem served_at {tr : Calls} {c : Call} {k : c.Answer → Program Encoder}
    (h : Reaches (serve s) tr (.call c k)) (hc : ∀ f, c ≠ .write f) :
    ∃ r post output last, Served s (silent tr ++ ⟨c, r⟩ :: post) output last := by
  obtain ⟨rest, enc, hruns⟩ := (h.snoc (someAnswer c)).completes someAnswer
  obtain ⟨calls, writes, output, last, mid, heq, hserved, -, hend⟩ := served_of_runs hruns
  have hone : silent [⟨c, someAnswer c⟩] = [⟨c, someAnswer c⟩] := by
    cases c <;> first | rfl | exact absurd rfl (hc _)
  have hsilent : silent calls = silent tr ++ ⟨c, someAnswer c⟩ :: silent rest := by
    have := congrArg silent heq
    rw [silent_append, silent_append, silent_append, hend.silent_eq, List.append_nil,
      List.append_assoc, hone] at this
    exact this.symm
  exact ⟨_, _, output, last, hsilent ▸ hserved⟩

/-- **Where a session asks.** -/
theorem asks_of_reaches {tr : Calls} {prompt : Bytes}
    {k : Decision × Option Bytes → Program Encoder}
    (h : Reaches (serve s) tr (.call (.adapter (.approve prompt)) k)) :
    ∃ req cfg before, Entered s tr req cfg before ∧
      (broker cfg).Asking (runRequest req) before prompt := by
  obtain ⟨r, post, output, last, hserved⟩ := served_at h (by simp)
  obtain ⟨input, req, cfg, pre, out, hpre, hreq, hcfg, hdry, hran⟩ := hserved.entered rfl rfl
  obtain ⟨before, rfl, hasking⟩ := hran.asks rfl
  exact ⟨req, cfg, before, ⟨input, hpre, hreq, hcfg, hdry⟩, hasking⟩

/-- **Where a session executes.** -/
theorem executes_of_reaches {tr : Calls} {cmd : Cmd} {k : Spawned → Program Encoder}
    (h : Reaches (serve s) tr (.call (.exec cmd) k)) :
    ∃ req cfg runID before spec, Entered s tr req cfg before ∧ cmd = (runner cfg).cmd spec ∧
      Broker.Gated (broker cfg) (runRequest req) runID before spec := by
  obtain ⟨r, post, output, last, hserved⟩ := served_at h (by simp)
  obtain ⟨input, req, cfg, pre, out, hpre, hreq, hcfg, hdry, hran⟩ := hserved.entered rfl rfl
  obtain ⟨runID, before, spec, rfl, hcmd, -, hpassed⟩ := hran.executes rfl
  exact ⟨req, cfg, runID, before, spec, ⟨input, hpre, hreq, hcfg, hdry⟩, hcmd,
    hpassed.gated (config_accepted hcfg)⟩

end Worker.Session

/-! ## The calls over the network -/

namespace Approval.System

variable {ι : Type} [DecidableEq ι] [Platform] [Relay.Forms] {calls : ι → ApproveCall} {ttl : ℤ}
  {s s' : System ι}

/-- What a step does to the phases: at most one of them changes; it was not final, and the call has
begun. -/
theorem Step.phase_cases (h : Step calls ttl s s') :
    s'.phase = s.phase ∨ ∃ i p, s'.phase = Function.update s.phase i p ∧ p ≠ .idle ∧
      ∀ decision cause err, s.phase i ≠ .done decision cause err := by
  cases h with
  | @start i hp => exact Or.inr ⟨i, _, rfl, by simp, by simp [hp]⟩
  | @idFailed i err hp =>
    exact Or.inr ⟨i, _, rfl, by simp [Phase.begin, newRequestID], by simp [hp]⟩
  | @registered i res hp hm =>
    refine Or.inr ⟨i, _, rfl, ?_, by simp [hp]⟩
    cases registerResult res <;> simp [Phase.registered]
  | @tick i f ok hp => exact Or.inr ⟨i, _, rfl, by simp, by simp [hp]⟩
  | @polled i f ok ctxDone res hp hm =>
    refine Or.inr ⟨i, _, rfl, ?_, by simp [hp]⟩
    cases pollResult res with
    | error err => simp [Phase.polled]
    | ok status =>
      simp only [Phase.polled]
      split_ifs <;> simp
  | @timeout i f ok hp => exact Or.inr ⟨i, _, rfl, by simp [Phase.timedOut], by simp [hp]⟩
  | refuse | create | confirm | answer | decide | sweep | restart => exact Or.inl rfl

/-- A call that has returned stays as it is. -/
theorem Step.phase_done (h : Step calls ttl s s') {i : ι} {decision : Decision} {cause : Cause}
    {err : Option Bytes} (hi : s.phase i = .done decision cause err) :
    s'.phase i = .done decision cause err := by
  rcases h.phase_cases with hp | ⟨j, p, hp, -, hj⟩
  · rw [hp, hi]
  · have hne : i ≠ j := by
      rintro rfl
      exact hj _ _ _ hi
    rw [hp, Function.update_of_ne hne, hi]

/-- A call that has begun does not go back. -/
theorem Step.phase_ne_idle (h : Step calls ttl s s') {i : ι} (hi : s.phase i ≠ .idle) :
    s'.phase i ≠ .idle := by
  rcases h.phase_cases with hp | ⟨j, p, hp, hne, -⟩
  · rwa [hp]
  · rw [hp]
    by_cases hij : i = j
    · rw [hij, Function.update_self]
      exact hne
    · rwa [Function.update_of_ne hij]

/-- Registrations are sent by the calls that begin. -/
theorem Step.register_cases (h : Step calls ttl s s') {i : ι} {id body : Bytes}
    (hm : .register i id body ∈ s'.sent) :
    .register i id body ∈ s.sent ∨ s'.phase i = .registering := by
  cases h with
  | @start j hp =>
    rcases List.mem_cons.1 hm with he | hm
    · obtain ⟨rfl, -, -⟩ := Message.register.inj he
      exact Or.inr (by simp [send, setPhase])
    · exact Or.inl hm
  | refuse | create | confirm | tick | answer =>
    rcases List.mem_cons.1 hm with he | hm
    · cases he
    · exact Or.inl hm
  | idFailed | registered | polled | timeout | decide | sweep | restart => exact Or.inl hm

/-- Entries are created by registrations. -/
theorem Step.created_cases (h : Step calls ttl s s') {n : ℕ} {id prompt : Bytes} {deadline : ℤ}
    (hc : .created n id prompt deadline ∈ s'.relay.log) :
    .created n id prompt deadline ∈ s.relay.log ∨ ∃ i body, .register i id body ∈ s.sent ∧
      Relay.registrationPrompt body = some prompt := by
  cases h with
  | @create i id' body now store r hm hr hentry =>
    rcases List.mem_cons.1 hc with he | hc
    · obtain ⟨prompt', hprompt, hstore⟩ := register_ok hr
      have hnew := (Relay.Store.create_ok hstore).2 ⟨id', prompt', .pending, now, now + ttl⟩
      have hlookup := Relay.Store.lookup_eq_some.2 ⟨hnew.2 (Or.inr rfl), rfl⟩
      obtain rfl := Option.some.inj (hentry.symm.trans hlookup)
      obtain ⟨-, rfl, rfl, -⟩ := Event.created.inj he
      exact Or.inr ⟨i, body, hm, hprompt⟩
    · exact Or.inl hc
  | decide =>
    rcases List.mem_cons.1 hc with he | hc
    · cases he
    · exact Or.inl hc
  | start | idFailed | refuse | confirm | registered | tick | answer | polled | timeout | sweep
  | restart => exact Or.inl hc

/-- What the network and the relay hold comes from calls that have begun. -/
structure Begun (calls : ι → ApproveCall) (s : System ι) : Prop where
  register : ∀ i id body, .register i id body ∈ s.sent → s.phase i ≠ .idle
  created : ∀ n id prompt deadline, .created n id prompt deadline ∈ s.relay.log →
    ∃ i, id = (calls i).id ∧ s.phase i ≠ .idle ∧
      Relay.registrationPrompt (registerBody (calls i).prompt) = some prompt

omit [DecidableEq ι] [Platform] [Relay.Forms] in
theorem begun_init : Begun calls (init : System ι) := by
  constructor <;> simp [init, Ledger.init]

theorem Step.begun (h : Step calls ttl s s') (hinv : s.Inv calls) (hb : s.Begun calls) :
    s'.Begun calls where
  register i id body hm := by
    rcases h.register_cases hm with hm | hp
    · exact h.phase_ne_idle (hb.register i id body hm)
    · simp [hp]
  created n id prompt deadline hc := by
    rcases h.created_cases hc with hc | ⟨i, body, hm, hprompt⟩
    · obtain ⟨i, hid, hi, hprompt⟩ := hb.created n id prompt deadline hc
      exact ⟨i, hid, h.phase_ne_idle hi, hprompt⟩
    · obtain ⟨rfl, rfl⟩ := hinv.register i _ _ hm
      exact ⟨i, rfl, h.phase_ne_idle (hb.register _ _ _ hm), hprompt⟩

end Approval.System

namespace Worker

open Approval

/-! ## Sessions and the relay together -/

/-- The relay with the calls of `Approve`, what each session still has to do, and what it has
done. -/
structure Deployment (ι : Type) where
  approvals : System ι
  left : ι → Session.Program Session.Encoder
  done : ι → Session.Calls

namespace Deployment

section System

variable {ι : Type} [DecidableEq ι] [Platform] [Relay.Forms] (servers : ι → Server)
  (calls : ι → ApproveCall) (ttl : ℤ)

def init : Deployment ι := ⟨.init, fun i => Session.serve (servers i), fun _ => []⟩

/-- The session waits for the answer of `Approve`. -/
def Asks (d : Deployment ι) (i : ι) : Prop :=
  ∃ k, d.left i = .call (.adapter (.approve (calls i).prompt)) k

/-- The answers that a session may get: `Approve` returns what the call has come to, and
`ApproveCause` the cause that it has left; everything else is arbitrary. -/
def Answers (s : System ι) (i : ι) : Interaction.Event Session.Call.Answer → Prop
  | ⟨.adapter (.approve prompt), r⟩ =>
    prompt = (calls i).prompt ∧ ∃ cause, s.phase i = .done r.1 cause r.2
  | ⟨.adapter .approveCause, text⟩ =>
    ∃ decision cause err, s.phase i = .done decision cause err ∧ text = cause.text
  | _ => True

/-- One step: of the calls over the network, each while its session waits for it, or of a
session. -/
inductive Step : Deployment ι → Deployment ι → Prop
  | approvals {d : Deployment ι} {s : System ι} (h : System.Step calls ttl d.approvals s)
    (hwait : ∀ i, s.phase i ≠ d.approvals.phase i → d.Asks calls i) :
    Step d { d with approvals := s }
  | session {d : Deployment ι} {i : ι} {c : Session.Call} {k : c.Answer → _} (r : c.Answer)
    (hleft : d.left i = .call c k) (hr : Answers calls d.approvals i ⟨c, r⟩) :
    Step d { d with
      left := Function.update d.left i (k r)
      done := Function.update d.done i (d.done i ++ [⟨c, r⟩]) }

/-- Any number of steps. -/
abbrev Steps : Deployment ι → Deployment ι → Prop := ReflTransGen (Step calls ttl)

/-- What holds of every state: the calls over the network are in order, each session is where its
program leads, an approval that a session has got is the one that its call has come to, and a call
has begun only for a session that asks or has asked. -/
structure Inv (d : Deployment ι) : Prop where
  approvals : d.approvals.Inv calls
  begun : d.approvals.Begun calls
  reaches : ∀ i, Reaches (Session.serve (servers i)) (d.done i) (d.left i)
  approve : ∀ i prompt r, ⟨.adapter (.approve prompt), r⟩ ∈ d.done i →
    prompt = (calls i).prompt ∧ ∃ cause, d.approvals.phase i = .done r.1 cause r.2
  asked : ∀ i, d.approvals.phase i ≠ .idle →
    d.Asks calls i ∨ ∃ r, ⟨.adapter (.approve (calls i).prompt), r⟩ ∈ d.done i

variable {servers calls ttl} {d d' : Deployment ι}

omit [DecidableEq ι] [Relay.Forms] in
theorem inv_init : Inv servers calls (init servers) where
  approvals := System.inv_init
  begun := System.begun_init
  reaches i := .refl _
  approve i prompt r h := by simp [init] at h
  asked i h := absurd rfl h

/-- **Every step keeps the invariant.** -/
theorem Step.inv (h : Step calls ttl d d') (hd : Inv servers calls d) : Inv servers calls d' := by
  cases h with
  | @approvals s h hwait =>
    refine ⟨h.inv hd.approvals, h.begun hd.approvals hd.begun, hd.reaches, ?_, ?_⟩
    · intro i prompt r hmem
      obtain ⟨hprompt, cause, hdone⟩ := hd.approve i prompt r hmem
      exact ⟨hprompt, cause, h.phase_done hdone⟩
    · intro i hi
      by_cases hsame : s.phase i = d.approvals.phase i
      · exact hd.asked i (hsame ▸ hi)
      · exact Or.inl (hwait i hsame)
  | @session i c k r hleft hr =>
    refine ⟨hd.approvals, hd.begun, fun j => ?_, fun j prompt r' hmem => ?_, fun j hj => ?_⟩
    · by_cases hj : j = i
      · subst hj
        simp only [Function.update_self]
        exact (hleft ▸ hd.reaches j).snoc r
      · simp only [Function.update_of_ne hj]
        exact hd.reaches j
    · by_cases hj : j = i
      · subst hj
        simp only [Function.update_self] at hmem
        rcases List.mem_append.1 hmem with hmem | hmem
        · exact hd.approve j prompt r' hmem
        · rw [← List.mem_singleton.1 hmem] at hr
          exact hr
      · simp only [Function.update_of_ne hj] at hmem
        exact hd.approve j prompt r' hmem
    · by_cases hij : j = i
      · subst hij
        refine Or.inr ?_
        simp only [Function.update_self]
        rcases hd.asked j hj with ⟨k', hk'⟩ | ⟨r', hr'⟩
        · -- the session was waiting for this very answer
          obtain ⟨rfl, -⟩ := Prog.call.inj (hleft.symm.trans hk')
          exact ⟨r, by simp⟩
        · exact ⟨r', List.mem_append_left _ hr'⟩
      · simp only [Asks, Function.update_of_ne hij]
        exact hd.asked j hj

theorem Steps.inv (h : Steps calls ttl d d') (hd : Inv servers calls d) :
    Inv servers calls d' := by
  induction h with
  | refl => exact hd
  | tail _ hstep ih => exact hstep.inv ih

/-! ## What is executed and what is shown -/

/-- The record shows the entry `n` as an approval of `prompt` under `id`: in time, and not
denied. -/
def Warrant (log : List Approval.Event) (id prompt : Bytes) (n : ℕ) : Prop :=
  ∃ deadline now, .created n id prompt deadline ∈ log ∧ .decided n id true now ∈ log ∧
    now ≤ deadline ∧ ∀ id' now', .decided n id' false now' ∉ log

omit [DecidableEq ι] [Platform] [Relay.Forms] in
/-- A call with a prompt of the broker that has returned `Approved` has its entry. -/
theorem warrant_of_done (hids : Function.Injective fun i => (calls i).id) {s : System ι}
    (hs : s.Inv calls) {i : ι} {cause : Cause} {err : Option Bytes}
    (hdone : s.phase i = .done Decision.approved cause err) (hv : Utf8.Valid (calls i).prompt) :
    ∃ n, Warrant s.relay.log (calls i).id (calls i).prompt n := by
  obtain ⟨n, prompt, deadline, now, hcreated, hdecided, htime⟩ := hs.done i cause err hdone
  obtain ⟨j, hid, hreg⟩ := hs.created _ _ _ _ hcreated
  obtain rfl : j = i := hids hid.symm
  obtain rfl := registrationPrompt_registerBody hv hreg
  refine ⟨n, deadline, now, hcreated, hdecided, htime, fun id' now' hdenied => ?_⟩
  have := hs.relay.decided_once _ _ _ _ _ _ _ hdecided hdenied
  simp at this

/-- **Every execution is authorised.** Whatever the order of the steps, when a session is about to
execute a command, it has executed nothing yet, the command is the runner's for a request that has
passed the gate, and either the policy allows the command as it is, or the relay has recorded, in
time, the approval of the prompt of this very request. The entry of that approval belongs to no
other session. -/
theorem execution_authorised (hids : Function.Injective fun i => (calls i).id)
    (hreach : Steps calls ttl (init servers) d) {i : ι} {cmd : Cmd}
    {k : Session.Spawned → Session.Program Session.Encoder}
    (hnext : d.left i = .call (.exec cmd) k) :
    ∃ req cfg project runID before spec,
      Session.Entered (servers i) (d.done i) req cfg before ∧
      cfg.project req.project = some project ∧
      Broker.Gated (Session.broker cfg) (Session.runRequest req) runID before spec ∧
      cmd = (Session.runner cfg).cmd spec ∧
      ((req.argv ∈ project.allowArgv ∧
          (project.approval = Config.ApprovalNever ∨ project.approval = Config.ApprovalPrompt)) ∨
        ∃ n, Warrant d.approvals.relay.log (calls i).id
            (formatPrompt req.project req.workingDir req.argv) n ∧
          ∀ j prompt, Warrant d.approvals.relay.log (calls j).id prompt n → j = i) := by
  have hinv := Steps.inv hreach inv_init
  obtain ⟨req, cfg, runID, before, spec, hentered, hcmd, hgated⟩ :=
    Session.executes_of_reaches (hnext ▸ hinv.reaches i)
  have hgate := hgated
  obtain ⟨project, tok, dirCalls, approvalCalls, rfl, hproj, -, hauth, -⟩ := hgated
  refine ⟨req, cfg, project, runID, _, spec, hentered, hproj, hgate, hcmd, ?_⟩
  rcases hauth with ⟨-, hallow⟩ | ⟨rfl, -⟩
  · exact Or.inl hallow
  refine Or.inr ?_
  -- the approval is among the calls of the session
  have hmem : ⟨.adapter (.approve (formatPrompt req.project req.workingDir req.argv)),
      (Decision.approved, none)⟩ ∈ d.done i := by
    obtain ⟨input, hsilent, -⟩ := hentered
    refine List.mem_of_mem_filter (p := fun e => !Session.isWrite e) ?_
    rw [show (d.done i).filter _ = _ from hsilent]
    simp [Session.lift, Session.runRequest]
  obtain ⟨hprompt, cause, hdone⟩ := hinv.approve i _ _ hmem
  have hv : Utf8.Valid (calls i).prompt := hprompt ▸ valid_formatPrompt _ _ _
  obtain ⟨n, hn⟩ := warrant_of_done hids hinv.approvals hdone hv
  refine ⟨n, hprompt ▸ hn, fun j prompt hj => ?_⟩
  obtain ⟨deadline, now, hcreated, -⟩ := hn
  obtain ⟨deadline', now', hcreated', -⟩ := hj
  exact hids (hinv.approvals.relay.created_unique _ _ _ _ _ _ _ hcreated' hcreated).1

/-- **The relay holds nothing but what the sessions asked.** Every entry that it ever created is
under the id of a session that has read a request, checked its directory and found that the policy
of the project leaves the command to a human, and the text of the entry is the prompt of that
request. -/
theorem entry_was_asked (hreach : Steps calls ttl (init servers) d) {n : ℕ} {id prompt : Bytes}
    {deadline : ℤ} (hc : .created n id prompt deadline ∈ d.approvals.relay.log) :
    ∃ i asked req cfg before, id = (calls i).id ∧ asked <+: d.done i ∧
      Session.Entered (servers i) asked req cfg before ∧
      (Session.broker cfg).Asking (Session.runRequest req) before prompt := by
  have hinv := Steps.inv hreach inv_init
  obtain ⟨i, hid, hphase, hreg⟩ := hinv.begun.created n id prompt deadline hc
  -- the session is at its question, or was
  obtain ⟨asked, k, hpre, hasks⟩ : ∃ asked k, asked <+: d.done i ∧
      Reaches (Session.serve (servers i)) asked
        (.call (.adapter (.approve (calls i).prompt)) k) := by
    rcases hinv.asked i hphase with ⟨k, hk⟩ | ⟨r, hr⟩
    · exact ⟨d.done i, k, List.prefix_refl _, hk ▸ hinv.reaches i⟩
    · obtain ⟨asked, rest, hsplit⟩ := List.append_of_mem hr
      have := hinv.reaches i
      rw [hsplit] at this
      obtain ⟨k, hk⟩ := this.of_append_cons
      exact ⟨asked, k, ⟨_, hsplit.symm⟩, hk⟩
  obtain ⟨req, cfg, before, hentered, hasking⟩ := Session.asks_of_reaches hasks
  have hv : Utf8.Valid (calls i).prompt := by
    obtain ⟨-, -, -, -, -, -, -, hprompt⟩ := hasking
    exact hprompt ▸ valid_formatPrompt _ _ _
  obtain rfl := registrationPrompt_registerBody hv hreg
  exact ⟨i, asked, req, cfg, before, hid, hpre, hentered, hasking⟩

/-! One session that asks, is approved over the network, and executes its command. -/

/-- A session goes on by the calls of its program. -/
theorem steps_session {i : ι} {tr : Session.Calls} {p : Session.Program Session.Encoder}
    (h : Reaches (d.left i) tr p) (hr : ∀ e ∈ tr, Answers calls d.approvals i e) :
    Steps calls ttl d { d with
      left := Function.update d.left i p
      done := Function.update d.done i (d.done i ++ tr) } := by
  generalize hq : d.left i = q at h
  induction h generalizing d with
  | refl q =>
    rw [← hq, Function.update_eq_self, List.append_nil, Function.update_eq_self]
  | @call c k r tr p h ih =>
    refine .head (.session r hq (hr _ (by simp))) ?_
    have := @ih { d with
      left := Function.update d.left i (k r)
      done := Function.update d.done i (d.done i ++ [⟨c, r⟩]) }
      (fun e he => hr e (by simp [he])) (by simp)
    simpa using this

/-- Calls that have nothing to do with an approval. -/
def isPlain (e : Interaction.Event Session.Call.Answer) : Bool :=
  match e.1 with
  | .adapter (.approve _) => false
  | .adapter .approveCause => false
  | _ => true

omit [DecidableEq ι] [Platform] [Relay.Forms] in
theorem answers_of_isPlain {s : System ι} {i : ι} {e : Interaction.Event Session.Call.Answer}
    (h : isPlain e = true) : Answers calls s i e := by
  obtain ⟨c, r⟩ := e
  cases c with
  | adapter c =>
    cases c with
    | approve prompt => cases h
    | approveCause => cases h
    | _ => trivial
  | _ => trivial

/-- The approval of `prompt`. -/
def isApproval (prompt : Bytes) : Interaction.Event Session.Call.Answer → Bool
  | ⟨.adapter (.approve p), r⟩ => p = prompt && r = (Decision.approved, none)
  | _ => false

omit [DecidableEq ι] [Platform] [Relay.Forms] in
theorem answers_of_isApproval {s : System ι} {i : ι} {e : Interaction.Event Session.Call.Answer}
    {prompt : Bytes} {cause : Cause} (h : isApproval prompt e = true)
    (hprompt : prompt = (calls i).prompt)
    (hdone : s.phase i = .done Decision.approved cause none) : Answers calls s i e := by
  obtain ⟨c, r⟩ := e
  cases c with
  | adapter c =>
    cases c with
    | approve p =>
      simp only [isApproval, Bool.and_eq_true, decide_eq_true_eq] at h
      obtain ⟨rfl, rfl⟩ := h
      exact ⟨hprompt, cause, hdone⟩
    | _ => cases h
  | _ => cases h

def isQuestion (prompt : Bytes) : Session.Call → Bool
  | .adapter (.approve p) => p = prompt
  | _ => false

omit [Platform] [Relay.Forms] in
theorem eq_of_isQuestion {prompt : Bytes} {c : Session.Call} (h : isQuestion prompt c = true) :
    c = .adapter (.approve prompt) := by
  unfold isQuestion at h
  split at h
  · rw [of_decide_eq_true h]
  · cases h

def isExecution : Session.Call → Bool
  | .exec _ => true
  | _ => false

omit [Platform] [Relay.Forms] in
theorem eq_of_isExecution {c : Session.Call} (h : isExecution c = true) : ∃ cmd, c = .exec cmd := by
  unfold isExecution at h
  split at h
  · exact ⟨_, rfl⟩
  · cases h

/-- The calls over the network go on while all sessions wait for them. -/
theorem steps_approvals {s : System ι} (h : System.Steps calls ttl d.approvals s)
    (hasks : ∀ i, d.Asks calls i) : Steps calls ttl d { d with approvals := s } := by
  induction h with
  | refl => exact .refl
  | tail _ hstep ih => exact ih.tail (.approvals hstep fun i _ => hasks i)

end System

section Witness

local instance examplePlatform : Platform := Session.examplePlatform

local instance exampleForms : Relay.Forms := ⟨fun _ _ _ => none⟩

def exampleCalls (_ : Unit) : ApproveCall :=
  ⟨str "0a1b", formatPrompt (str "app") (str "/srv/app") [str "deploy"]⟩

def exampleEntry (status : Relay.Status) : Relay.Request :=
  ⟨str "0a1b", (exampleCalls ()).prompt, status, 0, 300⟩

def exampleStore (status : Relay.Status) : Relay.Store := ⟨[exampleEntry status], 1024, by simp⟩

def exampleDecision : Relay.DecideRequest where
  id := str "0a1b"
  origin := []
  referer := []
  host := str "relay:7621"
  tls := false
  contentType := str "application/json"
  body := Json.encodeObject [(str "decision", Json.encodeString (str "approve"))]

def exampleRegistering : System Unit :=
  (System.init.setPhase () .registering).send
    (.register () (str "0a1b") (registerBody (exampleCalls ()).prompt))

def exampleCreated : System Unit :=
  { exampleRegistering with
    relay := exampleRegistering.relay.afterCreate (exampleStore .pending) (exampleEntry .pending)
    }.send (.created () (str "0a1b"))

def exampleConfirmed : System Unit :=
  exampleCreated.send (.registerReply () (Relay.registered (exampleStore .pending) 1 (str "0a1b")))

def exampleWaiting : System Unit :=
  exampleConfirmed.setPhase () (Phase.registered (registerResult
    (.ok (Relay.registered (exampleStore .pending) 1 (str "0a1b")))))

def examplePolling : System Unit :=
  (exampleWaiting.setPhase () (.polling 0 false)).send (.poll () (str "0a1b"))

def exampleDecided : System Unit :=
  { examplePolling with
    relay := examplePolling.relay.afterDecide (exampleStore .approved) (str "0a1b") true 7 }

def exampleAnswered : System Unit :=
  exampleDecided.send (.pollReply () (Relay.poll (exampleStore .approved) 8 (str "0a1b")))

def exampleApproved : System Unit :=
  exampleAnswered.setPhase () (Phase.polled 0 false false
    (pollResult (.ok (Relay.poll (exampleStore .approved) 8 (str "0a1b")))))

theorem steps_exampleCreated : System.Steps exampleCalls 300 System.init exampleCreated := by
  have h₁ : System.Step exampleCalls 300 System.init exampleRegistering := .start rfl
  have hr : Relay.register exampleRegistering.relay.store 300 0 (str "0a1b")
      (registerBody (exampleCalls ()).prompt) = .ok (exampleStore .pending) := by decide +kernel
  have h₂ : System.Step exampleCalls 300 exampleRegistering exampleCreated :=
    .create (by simp [exampleRegistering, System.send]) hr (by decide +kernel)
  exact (ReflTransGen.single h₁).tail h₂

theorem steps_exampleApproved : System.Steps exampleCalls 300 exampleCreated exampleApproved := by
  have h₃ : System.Step exampleCalls 300 exampleCreated exampleConfirmed :=
    .confirm (by simp [exampleCreated, System.send])
  have h₄ : System.Step exampleCalls 300 exampleConfirmed exampleWaiting :=
    .registered rfl fun resp hresp => by
      obtain rfl := Except.ok.inj hresp
      simp [exampleConfirmed, System.send]
  have h₅ : System.Step exampleCalls 300 exampleWaiting examplePolling :=
    .tick (by decide +kernel)
  have ha : Relay.readApprove exampleDecision = .ok true := by decide +kernel
  have hd : Relay.decide examplePolling.relay.store 7 exampleDecision =
      .ok (exampleStore .approved) := by decide +kernel
  have h₆ : System.Step exampleCalls 300 examplePolling exampleDecided := .decide ha hd
  have h₇ : System.Step exampleCalls 300 exampleDecided exampleAnswered :=
    .answer (by simp [exampleDecided, examplePolling, System.send])
  have h₈ : System.Step exampleCalls 300 exampleAnswered exampleApproved :=
    .polled (by decide +kernel) fun resp hresp => by
      obtain rfl := Except.ok.inj hresp
      simp [exampleAnswered, System.send]
  exact (((((ReflTransGen.single h₃).tail h₄).tail h₅).tail h₆).tail h₇).tail h₈

/-- The session up to its question, and what is left of it. -/
def exampleAsking : Session.Calls × Session.Program Session.Encoder :=
  (Session.serve Session.exampleServer).advance
    (Session.exampleAnswers (Session.exampleRequest [str "deploy"])) 5

/-- The session from its question up to the execution. -/
def exampleExecuting : Session.Calls × Session.Program Session.Encoder :=
  exampleAsking.2.advance (Session.exampleAnswers (Session.exampleRequest [str "deploy"])) 2

def exampleDeployment (s : System Unit) : Deployment Unit :=
  ⟨s, Function.update (init fun _ => Session.exampleServer).left () exampleAsking.2,
    Function.update (init fun _ => Session.exampleServer).done () ([] ++ exampleAsking.1)⟩

def exampleFinal : Deployment Unit :=
  ⟨exampleApproved,
    Function.update (exampleDeployment exampleApproved).left () exampleExecuting.2,
    Function.update (exampleDeployment exampleApproved).done ()
      ((exampleDeployment exampleApproved).done () ++ exampleExecuting.1)⟩

theorem asks_exampleDeployment (s : System Unit) (i : Unit) :
    (exampleDeployment s).Asks exampleCalls i := by
  cases i
  have hnext : exampleAsking.2.next (isQuestion (exampleCalls ()).prompt) = true := by
    decide +kernel
  obtain ⟨c, k, hk, hc⟩ := Prog.exists_of_next hnext
  obtain rfl := eq_of_isQuestion hc
  exact ⟨k, by simpa [exampleDeployment] using hk⟩

theorem steps_exampleAsking :
    Steps exampleCalls 300 (init fun _ => Session.exampleServer)
      (exampleDeployment exampleCreated) := by
  have hplain : ∀ e ∈ exampleAsking.1, isPlain e = true := by decide +kernel
  have hsession : Steps exampleCalls 300 (init fun _ => Session.exampleServer)
      (exampleDeployment .init) :=
    steps_session (reaches_advance _ 5 _) fun e he => answers_of_isPlain (hplain e he)
  have hnetwork := steps_approvals (d := exampleDeployment .init) steps_exampleCreated
    (asks_exampleDeployment _)
  exact hsession.trans hnetwork

/-- The entry of the example. -/
theorem entry_was_asked_deploy :
    ∃ i asked req cfg before, str "0a1b" = (exampleCalls i).id ∧
      asked <+: (exampleDeployment exampleCreated).done i ∧
      Session.Entered Session.exampleServer asked req cfg before ∧
      (Session.broker cfg).Asking (Session.runRequest req) before (exampleCalls ()).prompt := by
  have hmem : .created 0 (str "0a1b") (exampleCalls ()).prompt 300 ∈
      (exampleDeployment exampleCreated).approvals.relay.log := List.mem_cons_self
  exact entry_was_asked steps_exampleAsking hmem

theorem steps_exampleFinal :
    Steps exampleCalls 300 (init fun _ => Session.exampleServer) exampleFinal := by
  have hnetwork := steps_approvals (d := exampleDeployment exampleCreated) steps_exampleApproved
    (asks_exampleDeployment _)
  have hphase : exampleApproved.phase () = .done Decision.approved .expired none := by
    decide +kernel
  have hanswers : ∀ e ∈ exampleExecuting.1, isPlain e = true ∨
      isApproval (exampleCalls ()).prompt e = true := by decide +kernel
  have hsession : Steps exampleCalls 300 (exampleDeployment exampleApproved) exampleFinal := by
    refine steps_session (reaches_advance _ 2 _) fun e he => ?_
    rcases hanswers e he with h | h
    · exact answers_of_isPlain h
    · exact answers_of_isApproval h rfl hphase
  exact (steps_exampleAsking.trans hnetwork).trans hsession

/-- The execution of the example. -/
theorem execution_authorised_deploy :
    ∃ cmd k, exampleFinal.left () = .call (.exec cmd) k ∧
      .decided 0 (str "0a1b") true 7 ∈ exampleFinal.approvals.relay.log ∧
      ∃ req cfg runID before spec,
        Session.Entered Session.exampleServer (exampleFinal.done ()) req cfg before ∧
        Broker.Gated (Session.broker cfg) (Session.runRequest req) runID before spec ∧
        cmd = (Session.runner cfg).cmd spec := by
  have hnext : exampleExecuting.2.next isExecution = true := by decide +kernel
  obtain ⟨c, k, hk, hc⟩ := Prog.exists_of_next hnext
  obtain ⟨cmd, rfl⟩ := eq_of_isExecution hc
  have hleft : exampleFinal.left () = .call (.exec cmd) k := by simpa [exampleFinal] using hk
  have hids : Function.Injective fun i => (exampleCalls i).id := fun _ _ _ => rfl
  obtain ⟨req, cfg, project, runID, before, spec, hentered, -, hgated, hcmd, -⟩ :=
    execution_authorised hids steps_exampleFinal hleft
  exact ⟨cmd, k, hleft, List.mem_cons_self, req, cfg, runID, before, spec, hentered, hgated, hcmd⟩

end Witness

end Deployment

end Worker

end SecretsBroker
