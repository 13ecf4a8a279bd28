import SecretsBroker.Audit.Trail
import SecretsBroker.Foundations.JsonStrings
import SecretsBroker.Worker.Deployment

/-!
# The audit trail

Any number of sessions of the worker that append to one audit log, each going on by one call at a
time, in any order. A call of the audit log is `JSONLLogger.Start` or `JSONLLogger.Finish`: what it
answers and what it leaves in the file come from the same append. A session that is killed, also
within an append, is one that goes no further.

What an auditor reads is the file alone. As long as no append has left a part of its line,
`executions_on_record` says what the file tells of each session, and that no command was executed
that it does not tell of. The texts of the records cause no loss: a request is decoded from JSON,
whose strings are valid UTF-8 whatever bytes the caller sent.
-/

namespace SecretsBroker

open Interaction

/-- A record that the call gives to the audit log has valid texts. -/
def Broker.RecordsText : Broker.Call → Prop
  | .start rec =>
    Utf8.Valid rec.project ∧ Utf8.Valid rec.workingDir ∧ ∀ arg ∈ rec.argv, Utf8.Valid arg
  | .finish _ rec => Utf8.Valid rec.outcome
  | _ => True

namespace Audit

theorem Record.valid_start {runID : Bytes} {rec : StartRecord} (now : Timestamp)
    (hid : Utf8.Valid runID) (h : Broker.RecordsText (.start rec)) :
    (Record.start runID now rec).Valid :=
  ⟨hid, Utf8.valid_str _, h.1, h.2.1, h.2.2, Utf8.valid_str ""⟩

theorem Record.valid_finish {runID : Bytes} {rec : FinishRecord} (now : Timestamp)
    (hid : Utf8.Valid runID) (h : Broker.RecordsText (.finish runID rec)) :
    (Record.finish runID now rec).Valid :=
  ⟨hid, Utf8.valid_str _, Utf8.valid_str "", Utf8.valid_str "", by simp [Record.finish], h⟩

end Audit

namespace Worker

/-! ## What is decoded is text -/

theorem Request.Valid.set {req req' : Request} {value : Json} {field : Field} (hreq : req.Valid)
    (hvalue : value.Text) (h : req.set value field = some req') : req'.Valid := by
  cases field with
  | project =>
    obtain ⟨s, hs, rfl⟩ := Option.map_eq_some_iff.1 h
    exact ⟨Json.valid_decodeString hvalue hreq.1 hs, hreq.2⟩
  | workingDir =>
    obtain ⟨s, hs, rfl⟩ := Option.map_eq_some_iff.1 h
    exact ⟨hreq.1, Json.valid_decodeString hvalue hreq.2.1 hs, hreq.2.2⟩
  | argv =>
    obtain ⟨ss, hss, rfl⟩ := Option.map_eq_some_iff.1 h
    exact ⟨hreq.1, hreq.2.1, Json.valid_decodeStrings hvalue hreq.2.2 hss⟩
  | dryRun =>
    obtain ⟨b, -, rfl⟩ := Option.map_eq_some_iff.1 h
    exact hreq

theorem valid_decodeMembers {members : List (Bytes × Json)} (hmembers : ∀ m ∈ members, m.2.Text)
    {st : Request × Option DecodeError} (hst : st.1.Valid) :
    (members.foldl decodeMember st).1.Valid := by
  induction members generalizing st with
  | nil => exact hst
  | cons m members ih =>
    refine ih (fun m hm => hmembers m (by simp [hm])) ?_
    unfold decodeMember
    split
    · exact hst
    · split
      · exact hst
      · next req hset => exact hst.set (hmembers m (by simp)) hset

/-- **A request that was decoded is valid UTF-8**, whatever bytes the caller sent. -/
theorem valid_decodeRequest {r : Reader} {req : Request} (h : decodeRequest r = .ok req) :
    req.Valid := by
  have hempty : Request.Valid {} := ⟨Utf8.valid_str "", Utf8.valid_str "", by simp⟩
  have hvalue : ∀ {value : Json} {req : Request}, value.Text → decodeValue value = .ok req →
      req.Valid := by
    intro value req hvalue hdec
    cases hvalue with
    | null =>
      obtain rfl := Except.ok.inj hdec
      exact hempty
    | @object members hmembers =>
      have hvalid := @valid_decodeMembers members hmembers ({}, none) hempty
      simp only [decodeValue] at hdec
      split at hdec
      · cases hdec
      · next req' heq =>
        obtain rfl := Except.ok.inj hdec
        rwa [heq] at hvalid
    | bool | number | string | array => cases hdec
  unfold decodeRequest at h
  split at h
  · cases h
  split at h
  · cases h
  split at h
  · cases h
  next value rest hparse =>
  split at h
  · cases h
  next req' hdec =>
  split_ifs at h
  unfold Request.check at h
  split_ifs at h
  obtain rfl := Except.ok.inj h
  exact hvalue (Json.text_parse hparse) hdec

end Worker

/-! ## What is recorded is text -/

theorem Broker.valid_finishRecord (out : RunOutcome) : Utf8.Valid (finishRecord out).outcome := by
  unfold finishRecord
  split
  · refine Utf8.valid_append (Utf8.valid_str _) ?_
    cases out.reason with
    | none => exact Utf8.valid_str ""
    | some reason => cases reason <;> exact Utf8.valid_str _
  · exact Utf8.valid_str _

theorem Broker.recordsText_run [Unicode] (b : Broker) {req : RunRequest}
    (h : RecordsText (.start (startRecord req))) : Only RecordsText (b.run req) := by
  obtain ⟨k, hk, honly⟩ := only_started (P := RecordsText) (fun _ out => valid_finishRecord out)
    (fun c hc => by cases c <;> trivial) b req
  rw [hk]
  exact ⟨h, honly⟩

namespace Worker.Session

def RecordsText : Call → Prop
  | .adapter c => Broker.RecordsText c
  | _ => True

theorem recordsText_answer (enc : Encoder) (c : Host.Call)
    (hc : ∀ c', c = .adapter c' → Broker.RecordsText c') : Only RecordsText (answer enc c) := by
  cases c with
  | adapter c => exact only_ask_bind (hc c rfl) fun _ => trivial
  | exec cmd =>
    refine only_ask_bind trivial fun spawned => ?_
    cases spawned with
    | notStarted err => trivial
    | ended output exit readErr ctxErr =>
      exact only_bind (only_copyOutput (fun _ => trivial) _ _) fun _ => trivial

theorem recordsText_adapters (r : BWSRunner) {c : Broker.Call} (hc : Broker.RecordsText c) :
    Only (fun h => ∀ c', h = .adapter c' → Broker.RecordsText c') (Host.adapters r c) := by
  have hask : ∀ c : Broker.Call, Broker.RecordsText c →
      ∀ c', Host.Call.adapter c = .adapter c' → Broker.RecordsText c' := by
    rintro c hc _ ⟨⟩
    exact hc
  cases c with
  | run spec =>
    refine (only_true (r.run spec)).interp fun c _ => ?_
    cases c with
    | run cmd => exact ⟨fun c' h => (nomatch h), fun _ => trivial⟩
  | _ => exact ⟨hask _ hc, fun _ => trivial⟩

/-- **A session records text only.** -/
theorem recordsText_serve [Platform] (s : Server) : Only RecordsText (serve s) := by
  have hrefuse : ∀ {req : Request} {outcome err : Bytes}, req.Valid → Utf8.Valid outcome →
      Only RecordsText (writeAuditedWorkerError req outcome err) := by
    intro req outcome err hreq hout
    have hdenied : Utf8.Valid (str "denied:" ++ outcome) :=
      Utf8.valid_append (Utf8.valid_str _) hout
    exact only_bind (only_auditDenied hreq fun _ => hdenied)
      fun _ => only_encode (fun _ => trivial) _ _
  refine only_ask_bind trivial fun opened => ?_
  cases opened with
  | some err => exact only_encode (fun _ => trivial) _ _
  | none =>
    refine only_ask_bind trivial fun input => ?_
    split
    · exact hrefuse ⟨Utf8.valid_str "", Utf8.valid_str "", by simp⟩ (Utf8.valid_str _)
    · next req hreq =>
      have hvalid := valid_decodeRequest hreq
      split
      · exact hrefuse hvalid (Utf8.valid_str _)
      · next cfg _ =>
        split
        · refine only_bind ?_ fun _ => only_encode (fun _ => trivial) _ _
          refine (Broker.only_dryRun (P := Broker.RecordsText) (fun _ => trivial) _ _ _ _).interp
            fun c hc => ⟨hc, fun _ => trivial⟩
        · refine only_bind ?_ fun x => only_report (fun _ => trivial) _ _
          refine Only.thread (Only.interp ((broker cfg).recordsText_run hvalid)
            fun c hc => recordsText_adapters (runner cfg) hc) recordsText_answer

/-! ## What a session leaves in the log -/

/-- The appends that a call leaves, if it is answered so: `JSONLLogger.Start` and
`JSONLLogger.Finish`. -/
def Logged : Event Call.Answer → List (Audit.Calls × Audit.Record) → Prop
  | ⟨.adapter (.start rec), res⟩, appends =>
    ∃ random now calls, Audit.JSONLLogger.start now rec random calls = (res, appends)
  | ⟨.adapter (.finish runID rec), res⟩, appends =>
    ∃ now calls, Audit.JSONLLogger.finish now runID rec calls = (res, appends)
  | _, appends => appends = []

/-- The appends of a session that has made the calls. -/
abbrev Leaves : Calls → List (Audit.Calls × Audit.Record) → Prop := Audit.Leaves Logged

/-- Calls that an auditor does not look for leave nothing. -/
theorem leaves_milestones {tr : Calls} {appends : List (Audit.Calls × Audit.Record)}
    (h : Leaves tr appends) : Leaves (milestones tr) appends := by
  induction h with
  | nil => exact .nil
  | @cons e tr new appends he _ ih =>
    cases hm : isMilestone e with
    | true =>
      rw [milestones, List.filter_cons_of_pos hm]
      exact .cons he ih
    | false =>
      have hnew : new = [] := by
        obtain ⟨c, r⟩ := e
        cases c with
        | adapter c => cases c <;> first | exact he | cases hm
        | _ => exact he
      rw [milestones, List.filter_cons_of_neg (by simp [hm]), hnew]
      exact ih

/-- What the log holds of the end of a session: the finish record, or nothing if the append
failed. -/
def Closes (runID : Bytes) (fin : FinishRecord) (res : Option Bytes) (closing : List Audit.Record) :
    Prop :=
  (closing = [] ∧ res ≠ none) ∨ ∃ now, closing = [.finish runID now fin]

/-- What the log holds of a session, by the audit calls and the command that the session has made:
nothing without a start record, the start record of every session that went on, and then the finish
record unless its append failed. A session that executed nothing is never recorded as executed. -/
inductive Account : Calls → List Audit.Record → Prop
  | silent : Account [] []
  | lost (rec : StartRecord) (err : Bytes) : Account [⟨.adapter (.start rec), .error err⟩] []
  | unsynced (rec : StartRecord) (err runID : Bytes) (now : Audit.Timestamp) :
    Account [⟨.adapter (.start rec), .error err⟩] [.start runID now rec]
  | opened (rec : StartRecord) (runID : Bytes) (now : Audit.Timestamp) :
    Account [⟨.adapter (.start rec), .ok runID⟩] [.start runID now rec]
  | executing (rec : StartRecord) (runID : Bytes) (now : Audit.Timestamp) (cmd : Cmd)
    (spawned : Spawned) :
    Account [⟨.adapter (.start rec), .ok runID⟩, ⟨.exec cmd, spawned⟩] [.start runID now rec]
  | denied (rec : StartRecord) (runID : Bytes) (now : Audit.Timestamp) (reason : Bytes)
    {res : Option Bytes} {closing : List Audit.Record}
    (h : Closes runID ⟨str "denied:" ++ reason, none⟩ res closing) :
    Account [⟨.adapter (.start rec), .ok runID⟩,
      ⟨.adapter (.finish runID ⟨str "denied:" ++ reason, none⟩), res⟩]
      (.start runID now rec :: closing)
  | executed (rec : StartRecord) (runID : Bytes) (now : Audit.Timestamp) (cmd : Cmd)
    (spawned : Spawned) {fin : FinishRecord} {res : Option Bytes} {closing : List Audit.Record}
    (h : Closes runID fin res closing) :
    Account [⟨.adapter (.start rec), .ok runID⟩, ⟨.exec cmd, spawned⟩,
      ⟨.adapter (.finish runID fin), res⟩] (.start runID now rec :: closing)

theorem closes_of_finish {runID : Bytes} {fin : FinishRecord} {res : Option Bytes}
    {new : List (Audit.Calls × Audit.Record)}
    (h : Logged ⟨.adapter (.finish runID fin), res⟩ new) :
    Closes runID fin res (Audit.JSONLLogger.kept new) := by
  obtain ⟨now, calls, h⟩ := h
  exact (Audit.Logger.kept_appendFinish h).imp_right fun hkept => ⟨now, hkept⟩

theorem Tells.denied {rec : FinishRecord} {last : Frame} (h : Tells rec last)
    (hrefusal : Refusal last) : ∃ reason, rec = ⟨str "denied:" ++ reason, none⟩ := by
  rcases h with ⟨message, outcome, -, rfl, -⟩ | ⟨r, rfl, ⟨-, rfl⟩ | ⟨code, hd, -, -⟩⟩
  · exact ⟨outcome, rfl⟩
  · exact ⟨r.reason, rfl⟩
  · -- a result that was not denied is no refusal
    rcases hrefusal with ⟨message, heq⟩ | ⟨r', heq, hd'⟩
    · exact absurd (congrArg Frame.result heq) (by simp [Frame.ofResult, Frame.ofError])
    · have hr : r = r' := Option.some.inj (congrArg Frame.result heq)
      rw [← hr, hd] at hd'
      cases hd'

/-- The record that a session has closed with its own. -/
theorem Closes.valid {runID : Bytes} {fin : FinishRecord} {res : Option Bytes}
    {closing : List Audit.Record} (h : Closes runID fin res closing) (hid : Utf8.Valid runID)
    (hfin : Broker.RecordsText (.finish runID fin)) : ∀ r ∈ closing, r.Valid := by
  rcases h with ⟨rfl, -⟩ | ⟨now, rfl⟩
  · simp
  · exact List.forall_mem_singleton.2 (Audit.Record.valid_finish now hid hfin)

/-- The log of a session whose milestones are the beginning of those of a whole session. -/
theorem account_of_accounted {tr rest : Calls} {last : Frame}
    {appends : List (Audit.Calls × Audit.Record)} (h : Accounted (tr ++ rest) last)
    (hleaves : Leaves tr appends) (htext : ∀ e ∈ tr, RecordsText e.1) :
    Account tr (Audit.JSONLLogger.kept appends) ∧
      ∀ r ∈ Audit.JSONLLogger.kept appends, r.Valid := by
  have hopened : ∀ {rec : StartRecord} {runID : Bytes} {new : List (Audit.Calls × Audit.Record)},
      Logged ⟨.adapter (.start rec), .ok runID⟩ new → Broker.RecordsText (.start rec) →
      ∃ now, Audit.JSONLLogger.kept new = [.start runID now rec] ∧ Utf8.Valid runID ∧
        (Audit.Record.start runID now rec).Valid := by
    intro rec runID new hnew hrec
    obtain ⟨random, now, calls, hnew⟩ := hnew
    obtain ⟨hid, hkept⟩ := Audit.Logger.kept_appendStart hnew
    exact ⟨now, hkept, hid, Audit.Record.valid_start now hid hrec⟩
  cases hleaves with
  | nil => exact ⟨.silent, by simp⟩
  | @cons e tr new appends he hleaves =>
    rw [Audit.Logger.kept_append]
    have hfirst := htext e (by simp)
    rw [List.cons_append] at h
    generalize hm : e :: (tr ++ rest) = m at h
    cases h with
    | unaudited => cases hm
    | unrecorded rec err hrefusal =>
      obtain ⟨rfl, htr⟩ := List.cons.inj hm
      obtain ⟨rfl, rfl⟩ := List.append_eq_nil_iff.1 htr
      cases hleaves
      obtain ⟨random, now, calls, he⟩ := he
      rcases Audit.Logger.kept_appendStart_error he with hkept | ⟨runID, hid, hkept⟩
      · rw [hkept]
        exact ⟨.lost rec err, by simp⟩
      · rw [hkept]
        exact ⟨.unsynced rec err runID now,
          List.forall_mem_singleton.2 (Audit.Record.valid_start now hid hfirst)⟩
    | @denied rec runID fin res last htells hrefusal =>
      obtain ⟨rfl, htr⟩ := List.cons.inj hm
      obtain ⟨now, hkept, hid, hvalid⟩ := hopened he hfirst
      rw [hkept]
      cases hleaves with
      | nil => exact ⟨.opened rec runID now, List.forall_mem_singleton.2 hvalid⟩
      | @cons e tr new appends he hleaves =>
        obtain ⟨rfl, htr'⟩ := List.cons.inj htr
        obtain ⟨rfl, rfl⟩ := List.append_eq_nil_iff.1 htr'
        cases hleaves
        have hcloses := closes_of_finish he
        have hall := hcloses.valid hid (htext ⟨.adapter (.finish runID fin), res⟩ (by simp))
        obtain ⟨reason, rfl⟩ := htells.denied hrefusal
        rw [List.append_nil]
        exact ⟨.denied rec runID now reason hcloses, List.forall_mem_cons.2 ⟨hvalid, hall⟩⟩
    | @executed rec runID cmd spawned fin res last htells =>
      obtain ⟨rfl, htr⟩ := List.cons.inj hm
      obtain ⟨now, hkept, hid, hvalid⟩ := hopened he hfirst
      rw [hkept]
      cases hleaves with
      | nil => exact ⟨.opened rec runID now, List.forall_mem_singleton.2 hvalid⟩
      | @cons e tr new appends he hleaves =>
        obtain ⟨rfl, htr'⟩ := List.cons.inj htr
        obtain rfl : new = [] := he
        rw [List.nil_append]
        cases hleaves with
        | nil =>
          exact ⟨.executing rec runID now cmd spawned, List.forall_mem_singleton.2 hvalid⟩
        | @cons e tr new appends he hleaves =>
          obtain ⟨rfl, hnil⟩ := List.cons.inj htr'
          obtain ⟨rfl, rfl⟩ := List.append_eq_nil_iff.1 hnil
          cases hleaves
          have hcloses := closes_of_finish he
          have hall := hcloses.valid hid (htext ⟨.adapter (.finish runID fin), res⟩ (by simp))
          rw [List.append_nil]
          exact ⟨.executed rec runID now cmd spawned hcloses,
            List.forall_mem_cons.2 ⟨hvalid, hall⟩⟩

/-- **The log of a session that was cut off at any point.** -/
theorem account_of_reaches [Platform] {s : Server} {tr : Calls} {p : Program Encoder}
    {appends : List (Audit.Calls × Audit.Record)} (h : Reaches (serve s) tr p)
    (hleaves : Leaves tr appends) :
    Account (milestones tr) (Audit.JSONLLogger.kept appends) ∧
      ∀ r ∈ Audit.JSONLLogger.kept appends, r.Valid := by
  obtain ⟨rest, enc, hruns⟩ := h.completes someAnswer
  obtain ⟨calls, writes, output, frames, mid, heq, hserved, -, hend⟩ := served_of_runs hruns
  obtain ⟨warnings, last, -, hacc, -⟩ := hserved.accounted
  rw [← milestones_of_writes hend.isWrite, ← heq, milestones_append] at hacc
  exact account_of_accounted hacc (leaves_milestones hleaves) fun e he =>
    (recordsText_serve s).of_reaches h e (List.mem_filter.1 he).1

/-- A start that a session has seen acknowledged is in the file. -/
theorem start_mem_kept {tr : Calls} {appends : List (Audit.Calls × Audit.Record)}
    {rec : StartRecord} {runID : Bytes} (h : Leaves tr appends)
    (hmem : ⟨.adapter (.start rec), .ok runID⟩ ∈ tr) :
    ∃ now, .start runID now rec ∈ Audit.JSONLLogger.kept appends := by
  obtain ⟨new, ⟨random, now, calls, hnew⟩, hkept⟩ := h.mem_kept hmem
  exact ⟨now, hkept _ (by simp [(Audit.Logger.kept_appendStart hnew).2])⟩

end Worker.Session

namespace Worker

/-! ## Sessions with one log -/

/-- The appends to the log, by the sessions that made them and in the order of their writes; what
each session still has to do, and what it has done. -/
structure Trail (ι : Type) where
  log : List (ι × Audit.Calls × Audit.Record)
  left : ι → Session.Program Session.Encoder
  done : ι → Session.Calls

namespace Trail

variable {ι : Type} [DecidableEq ι] [Platform] (servers : ι → Server)

def init : Trail ι := ⟨[], fun i => Session.serve (servers i), fun _ => []⟩

def appends (t : Trail ι) : List (Audit.Calls × Audit.Record) := t.log.map Prod.snd

/-- The records whose lines were written, by the sessions that wrote them. -/
def entries (t : Trail ι) : List (ι × Audit.Record) := Audit.JSONLLogger.entries t.log

/-- The records of a session. -/
def recordsOf (t : Trail ι) (i : ι) : List Audit.Record := Audit.ofWriter i t.entries

/-- A session makes a call, with what it leaves in the log. -/
inductive Step : Trail ι → Trail ι → Prop
  | call {t : Trail ι} {i : ι} {c : Session.Call} {k : c.Answer → _} (r : c.Answer)
    {new : List (Audit.Calls × Audit.Record)} (hleft : t.left i = .call c k)
    (hnew : Session.Logged ⟨c, r⟩ new) :
    Step t {
      log := t.log ++ new.map fun p => (i, p)
      left := Function.update t.left i (k r)
      done := Function.update t.done i (t.done i ++ [⟨c, r⟩]) }

abbrev Steps : Trail ι → Trail ι → Prop := Relation.ReflTransGen Step

/-- Each session is where its program leads, and the log holds what it has left. -/
structure Inv (t : Trail ι) : Prop where
  reaches : ∀ i, Reaches (Session.serve (servers i)) (t.done i) (t.left i)
  leaves : ∀ i, Session.Leaves (t.done i) (Audit.ofWriter i t.log)

variable {servers} {t t' : Trail ι}

theorem inv_init : Inv servers (init servers) := ⟨fun _ => .refl _, fun _ => .nil⟩

theorem Step.inv (h : Step t t') (ht : Inv servers t) : Inv servers t' := by
  cases h with
  | @call i c k r new hleft hnew =>
    refine ⟨fun j => ?_, fun j => ?_⟩
    · by_cases hj : j = i
      · subst hj
        simp only [Function.update_self]
        exact (hleft ▸ ht.reaches j).snoc r
      · simp only [Function.update_of_ne hj]
        exact ht.reaches j
    · by_cases hj : j = i
      · subst hj
        simp only [Function.update_self, Audit.ofWriter_append_self]
        exact (ht.leaves j).snoc hnew
      · simp only [Function.update_of_ne hj, Audit.ofWriter_append_of_ne hj]
        exact ht.leaves j

theorem Steps.inv (h : Steps t t') (ht : Inv servers t) : Inv servers t' := by
  induction h with
  | refl => exact ht
  | tail _ hstep ih => exact hstep.inv ih

/-- **What an auditor reads.** In every state of any number of sessions that share the log, if no
append has left a part of its line: the file is read back as the records that the sessions have
written, in the order of their writes. Of each session it holds what `Account` says. And of every
command that was executed it holds the start record, with the project, the directory and the command
of the request that the session has read and that has passed the gate. -/
theorem executions_on_record (hreach : Steps (init servers) t)
    (hwhole : ∀ p ∈ t.appends, ¬ (Audit.JSONLLogger.attempt p).Torn) :
    Audit.recordFormat.read (Audit.JSONLLogger.file t.appends) = t.entries.map Prod.snd ∧
      (∀ i, Session.Account (Session.milestones (t.done i)) (t.recordsOf i)) ∧
      ∀ i cmd spawned, ⟨.exec cmd, spawned⟩ ∈ t.done i →
        ∃ asked req cfg runID before spec now, asked <+: t.done i ∧
          Session.Entered (servers i) asked req cfg before ∧
          Broker.Gated (Session.broker cfg) (Session.runRequest req) runID before spec ∧
          cmd = (Session.runner cfg).cmd spec ∧
          (i, .start runID now ⟨req.project, req.workingDir, req.argv⟩) ∈ t.entries := by
  have hinv := Steps.inv hreach inv_init
  have haccount := fun i => Session.account_of_reaches (hinv.reaches i) (hinv.leaves i)
  simp only [← Audit.Logger.ofWriter_entries] at haccount
  refine ⟨?_, fun i => (haccount i).1, fun i cmd spawned hexec => ?_⟩
  · rw [Audit.Logger.read_file hwhole, appends, Audit.Logger.kept_map_snd]
    refine (List.map_congr_left fun r hr => ?_).trans (List.map_id _)
    refine (Audit.Record.toValid_eq_self_iff r).2 ?_
    obtain ⟨⟨i, r⟩, hp, rfl⟩ := List.mem_map.1 hr
    exact (haccount i).2 r (Audit.mem_ofWriter.2 hp)
  · obtain ⟨asked, rest, hsplit⟩ := List.append_of_mem hexec
    have hreaches := hinv.reaches i
    rw [hsplit] at hreaches
    obtain ⟨k, hk⟩ := hreaches.of_append_cons
    obtain ⟨req, cfg, runID, before, spec, hentered, hcmd, hgated⟩ := Session.executes_of_reaches hk
    -- the start record was acknowledged before the command
    have hstart : ⟨.adapter (.start ⟨req.project, req.workingDir, req.argv⟩), .ok runID⟩ ∈
        t.done i := by
      obtain ⟨input, hsilent, -⟩ := hentered
      obtain ⟨project, tok, dirCalls, approvalCalls, rfl, -⟩ := hgated
      rw [hsplit]
      refine List.mem_append_left _ (List.mem_of_mem_filter (p := fun e => !Session.isWrite e) ?_)
      rw [show asked.filter _ = _ from hsilent]
      simp [Session.lift, Broker.startRecord, Session.runRequest]
    obtain ⟨now, hnow⟩ := Session.start_mem_kept (hinv.leaves i) hstart
    rw [← Audit.Logger.ofWriter_entries] at hnow
    exact ⟨asked, req, cfg, runID, before, spec, now, ⟨_, hsplit.symm⟩, hentered, hgated, hcmd,
      Audit.mem_ofWriter.1 hnow⟩

/-! The example session, with a log that takes every line. -/

omit [Platform] in
/-- A session goes on by the calls of its program. -/
theorem steps_session {i : ι} {tr : Session.Calls} {p : Session.Program Session.Encoder}
    {new : List (Audit.Calls × Audit.Record)} (h : Reaches (t.left i) tr p)
    (hnew : Session.Leaves tr new) :
    Steps t {
      log := t.log ++ new.map fun p => (i, p)
      left := Function.update t.left i p
      done := Function.update t.done i (t.done i ++ tr) } := by
  generalize hq : t.left i = q at h
  induction h generalizing t new with
  | refl q =>
    cases hnew
    simp only [← hq, List.map_nil, List.append_nil, Function.update_eq_self]
    exact .refl
  | @call c k r tr p h ih =>
    cases hnew with
    | @cons _ _ first rest hfirst hrest =>
      refine .head (.call r hq hfirst) ?_
      have := @ih {
        log := t.log ++ first.map fun p => (i, p)
        left := Function.update t.left i (k r)
        done := Function.update t.done i (t.done i ++ [⟨c, r⟩]) } _ hrest (by simp)
      simpa using this

end Trail

section Witness

open Session Trail

/-- What a log that takes every line is left with. -/
def exampleLogged : Event Session.Call.Answer → List (Audit.Calls × Audit.Record)
  | ⟨.adapter (.start rec), .ok runID⟩ => [({}, .start runID .zero rec)]
  | ⟨.adapter (.finish runID rec), _⟩ => [({}, .finish runID .zero rec)]
  | _ => []

theorem leaves_play (req : Request) (p : Session.Program Session.Encoder) :
    Leaves (p.play (exampleAnswers req)).1
      ((p.play (exampleAnswers req)).1.flatMap exampleLogged) := by
  induction p with
  | ret a => exact .nil
  | call c k ih =>
    rw [Prog.play, List.flatMap_cons]
    refine .cons ?_ (ih _)
    cases c with
    | adapter c =>
      cases c with
      | start rec => exact ⟨.ok _, .zero, {}, rfl⟩
      | finish runID rec => exact ⟨.zero, {}, rfl⟩
      | _ => rfl
    | _ => rfl

theorem not_torn_exampleLogged {e : Event Session.Call.Answer} {p : Audit.Calls × Audit.Record}
    (h : p ∈ exampleLogged e) : ¬ (Audit.JSONLLogger.attempt p).Torn := by
  have hcalls : p.1 = {} := by
    unfold exampleLogged at h
    split at h
    · rw [List.mem_singleton.1 h]
    · rw [List.mem_singleton.1 h]
    · cases h
  obtain ⟨calls, rec⟩ := p
  obtain rfl : calls = {} := hcalls
  exact fun htorn => Nat.lt_irrefl _ htorn.2

local instance : Platform := examplePlatform

def examplePush : Session.Calls × Encoder :=
  exampleSession (exampleRequest [str "git", str "push"])

/-- The log of the example session. -/
def exampleTrail : Trail Unit where
  log := (examplePush.1.flatMap exampleLogged).map fun p => ((), p)
  left := Function.update (fun _ => serve exampleServer) () (.ret examplePush.2)
  done := Function.update (fun _ => []) () examplePush.1

theorem executions_on_record_push :
    Audit.recordFormat.read (Audit.JSONLLogger.file exampleTrail.appends) =
        exampleTrail.entries.map Prod.snd ∧
      (exampleTrail.entries.map fun p => (p.2.event, p.2.outcome)) =
        [(str "start", []), (str "finish", str "executed")] ∧
      Account (milestones (exampleTrail.done ())) (exampleTrail.recordsOf ()) := by
  have hsteps : Steps (Trail.init fun _ : Unit => exampleServer) exampleTrail :=
    steps_session (t := Trail.init fun _ : Unit => exampleServer) (i := ())
      (runs_play (exampleAnswers (exampleRequest [str "git", str "push"])) _).reaches
      (leaves_play _ _)
  have hwhole : ∀ p ∈ exampleTrail.appends, ¬ (Audit.JSONLLogger.attempt p).Torn := by
    intro p hp
    obtain ⟨q, hq, rfl⟩ := List.mem_map.1 hp
    obtain ⟨p, hlogged, rfl⟩ := List.mem_map.1 hq
    obtain ⟨e, -, he⟩ := List.mem_flatMap.1 hlogged
    exact not_torn_exampleLogged he
  obtain ⟨hread, haccount, -⟩ := executions_on_record hsteps hwhole
  exact ⟨hread, by decide +kernel, haccount ()⟩

end Witness

end Worker

end SecretsBroker
