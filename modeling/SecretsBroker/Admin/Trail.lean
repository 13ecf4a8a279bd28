import SecretsBroker.Admin.Atomic
import SecretsBroker.Admin.Publication
import SecretsBroker.Audit.Trail
import SecretsBroker.Foundations.Threaded

/-!
# The administrator's audit trail

Any number of audited mutations of one policy, commands of the CLI and commits of the web page, with
their calls interleaved in any order. A call on the policy directory acts on the shared volume, and
a call of the audit log is `MutationJSONLLogger.Start` or `MutationJSONLLogger.Finish`. A mutation
that is killed at any point is one that goes no further.

`Asked.Next` is the protocol of one audited mutation: it works on the policy only between its start
record and its finish record, and the outcome it gives to the finish record is true of what it has
done. `policy_changes_on_record` says what follows for somebody who has the log and the policy.
-/

namespace SecretsBroker.Admin

open Files Interaction Replacement

/-! ## The calls of an editor -/

/-- The call is one of the mutation itself, not of its audit records. -/
def Unaudited : Call → Prop
  | .file _ _ | .now => True
  | _ => False

theorem unaudited_of_onPolicy (c : Call) (h : OnPolicy c) : Unaudited c := by
  cases c <;> trivial

section Unaudited

variable (e : Editor)

theorem unaudited_requireSame (original : Stamp) (message : Bytes) :
    Only Unaudited (e.requireSame original message) := by
  refine only_bind ((onPolicy_metadata e).mono unaudited_of_onPolicy) fun r => ?_
  cases r <;> trivial

theorem unaudited_lockPolicy : Only Unaudited e.lockPolicy := by
  refine only_ask_bind trivial fun r => ?_
  cases r with
  | error err => trivial
  | ok fd =>
    refine only_ask_bind trivial fun r => ?_
    cases r with
    | none => trivial
    | some err =>
      refine only_ask_bind trivial fun _ => ?_
      cases err with
      | wouldBlock =>
        change Only Unaudited (if _ then _ else _)
        split <;> trivial
      | other text => trivial

theorem unaudited_fillTemp (temp : ℕ) (data : Bytes) (original : Stamp) :
    Only Unaudited (Editor.fillTemp temp data original) := by
  refine only_ask_bind trivial fun r => ?_
  cases r with
  | error err => trivial
  | ok info =>
    have howned : Only Unaudited (Editor.preserveOwner temp info original) := by
      unfold Editor.preserveOwner
      split
      · exact ⟨trivial, fun _ => trivial⟩
      · trivial
    refine only_bind howned fun r => ?_
    cases r with
    | some err => trivial
    | none =>
      refine only_ask_bind trivial fun r => ?_
      cases r with
      | some err => trivial
      | none =>
        refine only_ask_bind trivial fun r => ?_
        obtain ⟨n, err⟩ := r
        cases err with
        | some err => trivial
        | none => exact only_ask_bind trivial fun r => by cases r <;> trivial

theorem unaudited_discardTemp (tempName err : Bytes) :
    Only Unaudited (Editor.discardTemp tempName err) :=
  only_ask_bind trivial fun _ => trivial

theorem unaudited_install (tempName : Bytes) (original : Stamp) :
    Only Unaudited (e.install tempName original) := by
  refine only_bind (unaudited_requireSame e _ _) fun r => ?_
  cases r with
  | some err => exact unaudited_discardTemp _ _
  | none =>
    refine only_ask_bind trivial fun r => ?_
    cases r with
    | some err => exact unaudited_discardTemp _ _
    | none =>
      refine only_ask_bind trivial fun r => ?_
      cases r with
      | some err => trivial
      | none => exact only_ask_bind trivial fun _ => only_ask_bind trivial fun _ => trivial

theorem unaudited_writeAtomic (data : Bytes) (original : Stamp) :
    Only Unaudited (e.writeAtomic data original) := by
  unfold Editor.writeAtomic
  split
  · trivial
  · refine only_bind (unaudited_lockPolicy e) fun r => ?_
    cases r with
    | error err => trivial
    | ok lock =>
      refine only_bind ?_ fun _ => only_ask_bind trivial fun _ => trivial
      refine only_bind (unaudited_requireSame e _ _) fun r => ?_
      cases r with
      | some err => trivial
      | none =>
        refine only_ask_bind trivial fun r => ?_
        cases r with
        | error err => trivial
        | ok r =>
          refine only_bind (unaudited_fillTemp _ _ _) fun r => ?_
          cases r with
          | some err => exact only_ask_bind trivial fun _ => unaudited_discardTemp _ _
          | none =>
            refine only_ask_bind trivial fun r => ?_
            cases r with
            | some err => exact unaudited_discardTemp _ _
            | none => exact unaudited_install e _ _

end Unaudited

namespace RecoveryStore

variable (s : RecoveryStore)

theorem unaudited_validateRecoveryDir : Only Unaudited s.validateRecoveryDir :=
  only_ask_bind trivial fun r => by cases r <;> trivial

theorem unaudited_validateRecoveryFile (name : Bytes) :
    Only Unaudited (s.validateRecoveryFile name) :=
  only_ask_bind trivial fun r => by cases r <;> trivial

theorem unaudited_syncDirectory : Only Unaudited syncDirectory := by
  refine only_ask_bind trivial fun r => ?_
  cases r with
  | some err => trivial
  | none => exact only_ask_bind trivial fun _ => only_ask_bind trivial fun _ => trivial

theorem unaudited_failRemoving (err : Bytes) (names : List Bytes) :
    Only Unaudited (failRemoving err names) := by
  induction names with
  | nil => trivial
  | cons name names ih => exact only_ask_bind trivial fun _ => ih

theorem unaudited_fillArtifact (temp : ℕ) (tempName encoded : Bytes) :
    Only Unaudited (s.fillArtifact temp tempName encoded) := by
  refine only_ask_bind trivial fun r => ?_
  cases r with
  | some err => trivial
  | none =>
    refine only_bind (s.unaudited_validateRecoveryFile tempName) fun r => ?_
    cases r with
    | error err => trivial
    | ok u =>
      have hwrite : Only Unaudited (writeAll temp encoded) := by
        refine only_ask_bind trivial fun r => ?_
        obtain ⟨n, err⟩ := r
        cases err <;> trivial
      refine only_bind hwrite fun r => ?_
      cases r with
      | some err => trivial
      | none => exact only_ask_bind trivial fun r => by cases r <;> trivial

variable [Platform]

theorem unaudited_linkArtifact (tempName recoveryID : Bytes) :
    Only Unaudited (linkArtifact tempName recoveryID) := by
  refine only_ask_bind trivial fun r => ?_
  cases r with
  | some err => cases err <;> exact unaudited_failRemoving _ _
  | none =>
    refine only_ask_bind trivial fun r => ?_
    cases r with
    | some err => exact unaudited_failRemoving _ _
    | none =>
      refine only_bind unaudited_syncDirectory fun r => ?_
      cases r with
      | none => trivial
      | some err =>
        exact only_ask_bind trivial fun _ => only_bind unaudited_syncDirectory fun _ =>
          unaudited_failRemoving _ _

theorem unaudited_publishEncoded (recoveryID encoded : Bytes) :
    Only Unaudited (s.publishEncoded recoveryID encoded) := by
  unfold publishEncoded
  split
  · trivial
  · refine only_ask_bind trivial fun r => ?_
    cases r with
    | error err => trivial
    | ok r =>
      refine only_bind (s.unaudited_fillArtifact r.1 r.2 encoded) fun filled => ?_
      cases filled with
      | some err => exact only_ask_bind trivial fun _ => unaudited_failRemoving _ _
      | none =>
        refine only_ask_bind trivial fun closed => ?_
        cases closed with
        | some err => exact unaudited_failRemoving _ _
        | none => exact unaudited_linkArtifact _ _

variable [Codec]

theorem unaudited_publish (input : RecoveryArtifactInput) : Only Unaudited (s.publish input) := by
  unfold publish
  split
  · trivial
  · split
    · trivial
    · refine only_bind s.unaudited_validateRecoveryDir fun r => ?_
      cases r with
      | error err => trivial
      | ok u =>
        refine only_ask_bind trivial fun now => ?_
        split
        · trivial
        · exact s.unaudited_publishEncoded _ _

theorem unaudited_readArtifact (recoveryID : Bytes) :
    Only Unaudited (s.readArtifact recoveryID) := by
  unfold readArtifact
  split
  · trivial
  · refine only_bind s.unaudited_validateRecoveryDir fun r => ?_
    cases r with
    | error err => trivial
    | ok u =>
      refine only_bind (s.unaudited_validateRecoveryFile recoveryID) fun r => ?_
      cases r with
      | error err => trivial
      | ok u =>
        refine only_bind ?_ fun r => by cases r <;> trivial
        refine only_ask_bind trivial fun r => ?_
        cases r with
        | error err => trivial
        | ok fd =>
          refine only_bind ?_ fun _ => only_ask_bind trivial fun _ => trivial
          refine only_ask_bind trivial fun r => ?_
          cases r with
          | error err => trivial
          | ok info =>
            dsimp only
            split
            · trivial
            · refine only_ask_bind trivial fun r => ?_
              cases r with
              | error err => trivial
              | ok data =>
                change Only Unaudited (if _ then _ else _)
                split <;> trivial

end RecoveryStore

section Mutators

variable [Platform] (e : Editor)

theorem unaudited_readPolicy : Only Unaudited e.readPolicy :=
  (onPolicy_readPolicy e).mono unaudited_of_onPolicy

theorem unaudited_mutate (m : Mutation) : Only Unaudited (e.mutate m) := by
  unfold Editor.mutate
  split
  · trivial
  · refine only_bind (unaudited_readPolicy e) fun r => ?_
    cases r with
    | error err => trivial
    | ok r =>
      dsimp only
      split
      · trivial
      · trivial
      · refine only_bind (unaudited_writeAtomic e _ _) fun r => ?_
        cases r <;> trivial

variable [Codec]

theorem unaudited_removeProject (name confirmation recoveryID : Bytes) :
    Only Unaudited (e.removeProject name confirmation recoveryID) := by
  unfold Editor.removeProject
  split
  · trivial
  · next store _ =>
    split
    · trivial
    · refine only_bind (unaudited_readPolicy e) fun r => ?_
      cases r with
      | error err => trivial
      | ok r =>
        dsimp only
        split
        · trivial
        · refine only_bind (store.unaudited_publish _) fun r => ?_
          cases r with
          | some err => trivial
          | none =>
            refine only_bind (unaudited_writeAtomic e _ _) fun r => ?_
            cases r <;> trivial

theorem unaudited_restoreProject (recoveryID confirmation : Bytes) :
    Only Unaudited (e.restoreProject recoveryID confirmation) := by
  unfold Editor.restoreProject
  split
  · trivial
  · next store _ =>
    split
    · trivial
    · refine only_bind (store.unaudited_readArtifact _) fun r => ?_
      cases r with
      | error err => trivial
      | ok artifact =>
        dsimp only
        unfold Editor.restoreFrom
        split
        · trivial
        · refine only_bind (unaudited_readPolicy e) fun r => ?_
          cases r with
          | error err => trivial
          | ok r =>
            dsimp only
            split
            · trivial
            · refine only_bind (unaudited_writeAtomic e _ _) fun r => ?_
              cases r <;> trivial

end Mutators

/-! ## One audited mutation -/

/-- A mutation that somebody has asked for, with the login that `actorLogger` adds to the records of
the web page; those of the CLI have none. -/
structure Asked where
  editor : AuditedEditor
  login : Bytes
  request : Request

/-- Where an audited mutation stands: in the protocol of the policy file, with the start record that
was acknowledged, and with the outcome that was given to the finish record. -/
structure Stage where
  phase : Phase
  start : Option (MutationStart × Bytes)
  outcome : Option Bytes

/-- The outcome is true of what a mutation has done to the policy. `failed` says nothing: the policy
may be replaced before a later call fails. -/
def Truthful (outcome : Bytes) (q : Phase) : Prop :=
  (outcome = MutationChanged → ∃ b c, q.result = some (b, c)) ∧
    (outcome = MutationNoChange → q.result = none)

theorem truthful_of_ends {Permits : Bytes → Bytes → Prop} {changed : Bool} {err : Option Bytes}
    {q : Phase} (h : Ends Permits changed err q) : Truthful (outcomeOf changed err) q := by
  have hne : MutationFailed ≠ MutationChanged ∧ MutationFailed ≠ MutationNoChange ∧
      MutationNoChange ≠ MutationChanged ∧ MutationChanged ≠ MutationNoChange := by decide
  obtain ⟨hfc, hfn, hnc, hcn⟩ := hne
  rcases h with ⟨rfl, hq⟩ | ⟨b, c, -, rfl, rfl⟩
  · have hresult : q.result = none := by
      cases q <;> first | rfl | cases hq
    cases err with
    | none => exact ⟨fun h => absurd h hnc, fun _ => hresult⟩
    | some err => exact ⟨fun h => absurd h hfc, fun h => absurd h hfn⟩
  · cases err with
    | none => exact ⟨fun _ => ⟨b, c, rfl⟩, fun h => absurd h hcn⟩
    | some err => exact ⟨fun h => absurd h hfc, fun h => absurd h hfn⟩

section Protocol

variable [Platform]

namespace Asked

def action (a : Asked) : Action :=
  match a.request with
  | .mutate m => .mutate m
  | .remove name confirmation => .remove name confirmation []
  | .restore recoveryID confirmation => .restore recoveryID confirmation

def session (a : Asked) : Session := ⟨a.editor.editor, a.action⟩

def program [Codec] (a : Asked) : Program (Bool × Option Bytes) := a.editor.program a.request

/-- The start record says who asks for what. -/
def Describes (a : Asked) (start : MutationStart) : Prop :=
  match a.request with
  | .mutate m => start = a.editor.startOf m
  | .remove name _ =>
    ∃ recoveryID, start = ⟨a.editor.actorUID, name, MutationRemoveProject, [], [], recoveryID, []⟩
  | .restore recoveryID confirmation =>
    start = ⟨a.editor.actorUID, confirmation, MutationRestoreProject, [], [], recoveryID, []⟩

/-- The protocol of an audited mutation. -/
inductive Next (a : Asked) : Stage → (c : Call) → c.Answer → Stage → Prop
  | named {s : Stage} {r : Except Bytes Bytes} : Next a s .newRecoveryID r s
  | refused {s : Stage} {start : MutationStart} {err : Bytes} (h : a.Describes start) :
    Next a s (.auditStart start) (.error err) s
  | opens {q : Phase} {start : MutationStart} {id : Bytes} (h : a.Describes start) :
    Next a ⟨q, none, none⟩ (.auditStart start) (.ok id) ⟨q, some (start, id), none⟩
  | works {q q' : Phase} {start : MutationStart × Bytes} {c : Call} {r : c.Answer}
    (hc : Unaudited c) (h : PolicyNext a.editor.editor.name a.session.Permits q c r q') :
    Next a ⟨q, some start, none⟩ c r ⟨q', some start, none⟩
  | closes {q : Phase} {start : MutationStart} {id outcome : Bytes} {r : Option Bytes}
    (h : Truthful outcome q) :
    Next a ⟨q, some (start, id), none⟩ (.auditFinish id outcome) r
      ⟨q, some (start, id), some outcome⟩

variable {a : Asked}

/-- An audited mutation follows the protocol of the policy file. -/
theorem Next.policy {s s' : Stage} {c : Call} {r : c.Answer} (h : a.Next s c r s') :
    PolicyNext a.editor.editor.name a.session.Permits s.phase c r s'.phase := by
  cases h with
  | works _ h => exact h
  | _ => rfl

/-- The mutation itself, between the two records. -/
theorem conforms_unaudited {β : Type} {p : Program β} {q : Phase} {Post : β → Phase → Prop}
    {start : MutationStart × Bytes} (honly : Only Unaudited p)
    (h : Conforms (PolicyNext a.editor.editor.name a.session.Permits) p q Post) :
    Conforms a.Next p ⟨q, some start, none⟩ fun x s =>
      ∃ q', s = ⟨q', some start, none⟩ ∧ Post x q' := by
  induction p generalizing q with
  | ret x => exact ⟨q, rfl, h⟩
  | call c k ih =>
    intro r
    obtain ⟨q', hn, hk⟩ := h r
    exact ⟨⟨q', some start, none⟩, .works honly.1 hn, ih r (honly.2 r) hk⟩

theorem conforms_audited {β : Type} {zero : β} {changedOf : β → Bool} {start : MutationStart}
    {update : Program (β × Option Bytes)} (hstart : a.Describes start)
    (honly : Only Unaudited update)
    (hupdate : Conforms (PolicyNext a.editor.editor.name a.session.Permits) update .idle fun x q =>
      Ends a.session.Permits (changedOf x.1) x.2 q) :
    Conforms a.Next (audited zero changedOf start update) ⟨.idle, none, none⟩ fun _ _ => True := by
  refine conforms_ask_bind fun r => ?_
  cases r with
  | error err => exact ⟨_, .refused hstart, trivial⟩
  | ok id =>
    refine ⟨_, .opens hstart, conforms_bind (conforms_unaudited honly hupdate) fun x s hx => ?_⟩
    obtain ⟨q, rfl, hends⟩ := hx
    refine conforms_ask_bind fun r => ⟨_, .closes (truthful_of_ends hends), ?_⟩
    cases r <;> trivial

variable [Codec] (a)

/-- **An audited mutation follows its protocol**, whatever its calls are answered. -/
theorem conforms : Conforms a.Next a.program ⟨.idle, none, none⟩ fun _ _ => True := by
  obtain ⟨e, login, request⟩ := a
  cases request with
  | mutate m => exact conforms_audited rfl (unaudited_mutate _ m) (mutate_conforms e.editor m)
  | remove name confirmation =>
    refine conforms_bind (?_ : Conforms _ _ _ fun _ _ => True) fun _ _ _ => trivial
    refine conforms_ask_bind fun r => ⟨_, .named, ?_⟩
    cases r with
    | error err => trivial
    | ok recoveryID =>
      exact conforms_audited ⟨recoveryID, rfl⟩ (unaudited_removeProject _ name confirmation _)
        (remove_conforms e.editor name confirmation recoveryID)
  | restore recoveryID confirmation =>
    refine conforms_bind (?_ : Conforms _ _ _ fun _ _ => True) fun _ _ _ => trivial
    exact conforms_audited rfl (unaudited_restoreProject _ recoveryID confirmation)
      (restore_conforms e.editor recoveryID confirmation)

end Asked

end Protocol

/-! ## What a mutation leaves in the log -/

namespace Asked

/-- The appends that a call leaves, if it is answered so: `MutationJSONLLogger.Start` and
`MutationJSONLLogger.Finish`. -/
def Logged (a : Asked) : Event Call.Answer → List (Audit.Calls × Audit.MutationRecord) → Prop
  | ⟨.auditStart start, res⟩, appends => ∃ random now calls,
    Audit.MutationJSONLLogger.start now a.login start random calls = (res, appends)
  | ⟨.auditFinish id outcome, res⟩, appends => ∃ now calls,
    Audit.MutationJSONLLogger.finish now id outcome a.login calls = (res, appends)
  | _, appends => appends = []

/-- What the log holds of a mutation: its start record if it was acknowledged, and nothing but start
records that describe it and finish records that are true. -/
structure Account (a : Asked) (s : Stage) (records : List Audit.MutationRecord) : Prop where
  opened : ∀ start id, s.start = some (start, id) →
    a.Describes start ∧ ∃ now, .start id now a.login start ∈ records
  unopened : s.start = none → s.phase.result = none
  sound : ∀ r ∈ records,
    (∃ id now start, a.Describes start ∧ r = .start id now a.login start) ∨
      ∃ id now outcome, r = .finish id now outcome a.login ∧ s.outcome = some outcome ∧
        Truthful outcome s.phase

variable {a : Asked}

theorem logged_unaudited {c : Call} {r : c.Answer} {new : List (Audit.Calls × Audit.MutationRecord)}
    (hc : Unaudited c) (h : a.Logged ⟨c, r⟩ new) : new = [] := by
  cases c with
  | file | now => exact h
  | newRecoveryID | auditStart | auditFinish => cases hc

theorem account_init : a.Account ⟨.idle, none, none⟩ [] :=
  ⟨fun _ _ h => (by cases h), fun _ => rfl, fun _ h => (by cases h)⟩

/-- Without a finish record there are start records only. -/
theorem Account.starts {s : Stage} {records : List Audit.MutationRecord} (h : a.Account s records)
    (hout : s.outcome = none) {r : Audit.MutationRecord} (hr : r ∈ records) :
    ∃ id now start, a.Describes start ∧ r = .start id now a.login start := by
  rcases h.sound r hr with hstart | ⟨id, now, outcome, -, hsome, -⟩
  · exact hstart
  · rw [hout] at hsome
    cases hsome

theorem Account.opened_append {s : Stage} {records : List Audit.MutationRecord}
    (h : a.Account s records) (new : List Audit.MutationRecord) (start : MutationStart) (id : Bytes)
    (hs : s.start = some (start, id)) :
    a.Describes start ∧ ∃ now, .start id now a.login start ∈ records ++ new := by
  obtain ⟨hd, now, hmem⟩ := h.opened start id hs
  exact ⟨hd, now, List.mem_append_left _ hmem⟩

/-- Every call keeps the account. -/
theorem Account.step [Platform] {s s' : Stage} {c : Call} {r : c.Answer}
    {new : List (Audit.Calls × Audit.MutationRecord)} {records : List Audit.MutationRecord}
    (h : a.Account s records) (hn : a.Next s c r s') (hnew : a.Logged ⟨c, r⟩ new) :
    a.Account s' (records ++ Audit.MutationJSONLLogger.kept new) := by
  cases hn with
  | named =>
    obtain rfl : new = [] := hnew
    simpa using h
  | @refused s start err hstart =>
    -- the append may have written its line before it failed
    obtain ⟨random, now, calls, hnew⟩ := hnew
    rcases Audit.Logger.kept_appendStart_error hnew with hkept | ⟨id, -, hkept⟩
    · simpa [hkept] using h
    · rw [hkept]
      refine ⟨h.opened_append _, h.unopened, fun r hr => ?_⟩
      rcases List.mem_append.1 hr with hr | hr
      · exact h.sound r hr
      · exact .inl ⟨id, now, start, hstart, List.mem_singleton.1 hr⟩
  | @opens q start id hstart =>
    obtain ⟨random, now, calls, hnew⟩ := hnew
    rw [(Audit.Logger.kept_appendStart hnew).2]
    refine ⟨fun start' id' hs => ?_, fun hs => (by cases hs), fun r hr => .inl ?_⟩
    · obtain ⟨rfl, rfl⟩ := Prod.mk.inj (Option.some.inj hs)
      exact ⟨hstart, now, by simp⟩
    · rcases List.mem_append.1 hr with hr | hr
      · exact h.starts rfl hr
      · exact ⟨id, now, start, hstart, List.mem_singleton.1 hr⟩
  | @works q q' start c r hc hq =>
    obtain rfl := logged_unaudited hc hnew
    rw [Audit.Logger.kept_nil, List.append_nil]
    exact ⟨h.opened, fun hs => (by cases hs), fun r hr => .inl (h.starts rfl hr)⟩
  | @closes q start id outcome r htrue =>
    obtain ⟨now, calls, hnew⟩ := hnew
    refine ⟨h.opened_append _, fun hs => (by cases hs), fun r hr => ?_⟩
    rcases List.mem_append.1 hr with hr | hr
    · exact .inl (h.starts rfl hr)
    · rcases Audit.Logger.kept_appendFinish hnew with ⟨hkept, -⟩ | hkept
      · simp [hkept] at hr
      · rw [hkept, List.mem_singleton] at hr
        exact .inr ⟨id, now, outcome, hr, rfl, htrue⟩

end Asked

/-! ## Mutations with one policy and one log -/

/-- The policy directory with what is left of each mutation, and the appends to the log, by the
mutations that made them and in the order of their writes. -/
structure Trail (ι : Type) where
  world : World ι
  log : List (ι × Audit.Calls × Audit.MutationRecord)

namespace Trail

variable {ι : Type}

def appends (t : Trail ι) : List (Audit.Calls × Audit.MutationRecord) := t.log.map Prod.snd

/-- The records whose lines were written, by the mutations that wrote them. -/
def entries (t : Trail ι) : List (ι × Audit.MutationRecord) :=
  Audit.MutationJSONLLogger.entries t.log

section Interleaving

variable [Platform] [DecidableEq ι] {target : Bytes} {asked : ι → Asked}

/-- One call of one mutation, with what it leaves in the log. -/
inductive Step (target : Bytes) (asked : ι → Asked) (t : Trail ι) : Trail ι → Prop
  | policy {i : ι} {ch : Choice} {op : FileOp} {r : op.Answer} {v' : Volume}
    {k : op.Answer → Program (Bool × Option Bytes)}
    (hp : t.world.left i = .call (.file .policy op) k)
    (hs : t.world.volume.step ch op = some (r, v')) :
    Step target asked t { t with
      world := ⟨v', t.world.history.after target v' i op r,
        Function.update t.world.left i (k r)⟩ }
  | other {i : ι} {c : Call} {k : c.Answer → Program (Bool × Option Bytes)} (r : c.Answer)
    {new : List (Audit.Calls × Audit.MutationRecord)} (hp : t.world.left i = .call c k)
    (hc : ∀ op, c ≠ .file .policy op) (hnew : (asked i).Logged ⟨c, r⟩ new) :
    Step target asked t {
      world := { t.world with left := Function.update t.world.left i (k r) }
      log := t.log ++ new.map fun p => (i, p) }

/-- The states that some interleaving reaches, as long as no two versions of the policy share a
stamp. -/
inductive Reaches (target : Bytes) (asked : ι → Asked) (t : Trail ι) : Trail ι → Prop
  | refl : Reaches target asked t t
  | step {t' t'' : Trail ι} (h : Reaches target asked t t')
    (hd : Distinct t'.world.volume t'.world.history.versions) (hs : Step target asked t' t'') :
    Reaches target asked t t''

/-- All mutations at their start, with an empty log. -/
def start [Codec] (asked : ι → Asked) (v : Volume) (o : ℕ) (f : Inode) : Trail ι :=
  ⟨⟨v, History.start o f, fun i => (asked i).program⟩, []⟩

/-- Each mutation stands in a stage that explains what is left of it and what the log holds of
it. -/
structure Explained (target : Bytes) (asked : ι → Asked) (stage : ι → Stage) (t : Trail ι) :
    Prop where
  policy : Inv target (fun i => (asked i).session.Permits) t.world.volume t.world.history
    fun i => (stage i).phase
  conforms : ∀ i, Conforms (asked i).Next (t.world.left i) (stage i) fun _ _ => True
  account : ∀ i, (asked i).Account (stage i)
    (Audit.MutationJSONLLogger.kept (Audit.ofWriter i t.log))

theorem explained_start [Codec] {v : Volume} {o : ℕ} {f : Inode} (hv : Ready v target o f) :
    (start asked v o f).Explained target asked fun _ => ⟨.idle, none, none⟩ :=
  ⟨hv.inv, fun i => (asked i).conforms, fun _ => Asked.account_init⟩

theorem Step.explained {stage : ι → Stage} {t t' : Trail ι} (hs : Step target asked t t')
    (hname : ∀ i, (asked i).editor.editor.name = target)
    (hd : Distinct t.world.volume t.world.history.versions) (he : t.Explained target asked stage) :
    ∃ stage', t'.Explained target asked stage' := by
  -- the mutation that moves is in the stage after its call, the others stay where they are
  have hphase : ∀ (i : ι) (s : Stage), (fun j => (Function.update stage i s j).phase) =
      Function.update (fun j => (stage j).phase) i s.phase := by
    intro i s
    funext j
    exact Function.apply_update (fun _ => Stage.phase) stage i s j
  have move : ∀ {i : ι} {p : Program (Bool × Option Bytes)} {s : Stage},
      Conforms (asked i).Next p s (fun _ _ => True) → ∀ j, Conforms (asked j).Next
        (Function.update t.world.left i p j) (Function.update stage i s j) fun _ _ => True := by
    intro i p s hp j
    by_cases hj : j = i
    · subst hj
      rwa [Function.update_self, Function.update_self]
    · rw [Function.update_of_ne hj, Function.update_of_ne hj]
      exact he.conforms j
  have record : ∀ {i : ι} {c : Call} {r : c.Answer} {s : Stage}
      {new : List (Audit.Calls × Audit.MutationRecord)}, (asked i).Next (stage i) c r s →
      (asked i).Logged ⟨c, r⟩ new → ∀ j, (asked j).Account (Function.update stage i s j)
        (Audit.MutationJSONLLogger.kept
          (Audit.ofWriter j (t.log ++ new.map fun p => (i, p)))) := by
    intro i c r s new hn hnew j
    by_cases hj : j = i
    · subst hj
      rw [Function.update_self, Audit.ofWriter_append_self, Audit.Logger.kept_append]
      exact (he.account j).step hn hnew
    · rw [Function.update_of_ne hj, Audit.ofWriter_append_of_ne hj]
      exact he.account j
  cases hs with
  | @policy i ch op r v' k hp hstep =>
    have hci := he.conforms i
    rw [hp] at hci
    obtain ⟨s, hn, hk⟩ := hci r
    have hpolicy := hn.policy
    rw [hname i] at hpolicy
    refine ⟨Function.update stage i s, ?_, move hk, by simpa using record hn rfl⟩
    rw [hphase]
    exact he.policy.step (fun _ => hd) hstep hpolicy
  | @other i c k r new hp hother hnew =>
    have hci := he.conforms i
    rw [hp] at hci
    obtain ⟨s, hn, hk⟩ := hci r
    have hsame : s.phase = (stage i).phase := by
      have hpolicy := hn.policy
      cases c with
      | file d op =>
        cases d with
        | policy => exact absurd rfl (hother op)
        | recovery => exact hpolicy
      | _ => exact hpolicy
    refine ⟨Function.update stage i s, ?_, move hk, record hn hnew⟩
    rw [hphase, hsame, Function.update_eq_self]
    exact he.policy

theorem Reaches.explained {stage : ι → Stage} {t t' : Trail ι} (h : Reaches target asked t t')
    (hname : ∀ i, (asked i).editor.editor.name = target) (he : t.Explained target asked stage) :
    ∃ stage', t'.Explained target asked stage' := by
  induction h with
  | refl => exact ⟨stage, he⟩
  | step _ hd hs ih =>
    obtain ⟨stage', he'⟩ := ih
    exact hs.explained hname hd he'

omit [Platform] in
/-- Without its log an interleaving is one of `World`. -/
theorem Reaches.world {t t' : Trail ι} (h : Reaches target asked t t') :
    World.Reaches target t.world t'.world := by
  induction h with
  | refl => exact .refl
  | step _ hd hs ih =>
    cases hs with
    | policy hp hs => exact .step ih hd (.policy hp hs)
    | other r hp hc _ => exact .step ih hd (.other r hp hc)

variable [Codec]

end Interleaving

/-! The editor of the example, with its audit records. -/

section Witness

local instance : Platform := demoPlatform

local instance : Codec := demoCodec

def demoAsked (_ : Unit) : Asked :=
  ⟨⟨demoEditor, 0⟩, str "admin", .mutate (.setApproval (str "app") ModeConfirm)⟩

/-- The next call of the only mutation; the log takes every line. -/
def tick (t : Trail Unit) : Trail Unit :=
  match t.world.left () with
  | .call (.file .policy op) k =>
    match t.world.volume.step demoChoice op with
    | some (r, v') =>
      { t with
        world := ⟨v', t.world.history.after (str "policy.toml") v' () op r,
          Function.update t.world.left () (k r)⟩ }
    | none => t
  | .call (.auditStart start) k =>
    let x := Audit.MutationJSONLLogger.start .zero (str "admin") start (.ok [0x5E]) {}
    { world := { t.world with left := Function.update t.world.left () (k x.1) }
      log := t.log ++ x.2.map fun p => ((), p) }
  | .call (.auditFinish id outcome) k =>
    let x := Audit.MutationJSONLLogger.finish .zero id outcome (str "admin") {}
    { world := { t.world with left := Function.update t.world.left () (k x.1) }
      log := t.log ++ x.2.map fun p => ((), p) }
  | _ => t

/-- The state after `n` calls. -/
def demoTrail : ℕ → Trail Unit
  | 0 => start demoAsked demoVolume 0 demoFile
  | n + 1 => (demoTrail n).tick

def stamps (t : Trail Unit) : List (Option Stamp) :=
  t.world.history.versions.map fun o => (t.world.volume.files[o]?).map fun f => f.info.stamp

theorem distinct_of_nodup {t : Trail Unit} (h : t.stamps.Nodup) :
    Distinct t.world.volume t.world.history.versions := by
  have hstamp : ∀ {k : ℕ} {m : Stamp}, Stamped t.world.volume t.world.history.versions k m →
      t.stamps[k]? = some (some m) := by
    rintro k m ⟨o, f, ho, hf, rfl⟩
    simp [stamps, ho, hf]
  intro i j m hi hj
  have hlt : i < t.stamps.length := (List.getElem?_eq_some_iff.1 (hstamp hi)).1
  exact (List.getElem?_inj hlt h).1 ((hstamp hi).trans (hstamp hj).symm)

theorem Reaches.tick {t t' : Trail Unit} (h : Reaches (str "policy.toml") demoAsked t t')
    (hd : t'.stamps.Nodup) : Reaches (str "policy.toml") demoAsked t t'.tick := by
  unfold Trail.tick
  split
  · next op k hp =>
    split
    · next r v' hs => exact .step h (distinct_of_nodup hd) (.policy hp hs)
    · exact h
  · next start k hp =>
    exact .step h (distinct_of_nodup hd) (.other _ hp (by simp) ⟨.ok [0x5E], .zero, {}, rfl⟩)
  · next id outcome k hp =>
    exact .step h (distinct_of_nodup hd) (.other _ hp (by simp) ⟨.zero, {}, rfl⟩)
  · exact h

theorem reaches_demoTrail {n : ℕ} (h : n ≤ 24) :
    Reaches (str "policy.toml") demoAsked (demoTrail 0) (demoTrail n) := by
  have hnodup : ∀ n < 24, (demoTrail n).stamps.Nodup := by decide +kernel
  induction n with
  | zero => exact .refl
  | succ n ih => exact (ih (by omega)).tick (hnodup n (by omega))

theorem mem_log_tick {t : Trail Unit} (h : ∀ p ∈ t.log, p.2.1 = {}) :
    ∀ p ∈ t.tick.log, p.2.1 = {} := by
  have happend : ∀ {new : List (Audit.Calls × Audit.MutationRecord)}, (∀ p ∈ new, p.1 = {}) →
      ∀ p ∈ t.log ++ new.map fun p => ((), p), p.2.1 = {} := by
    intro new hnew p hp
    rcases List.mem_append.1 hp with hp | hp
    · exact h p hp
    · obtain ⟨q, hq, rfl⟩ := List.mem_map.1 hp
      exact hnew q hq
  unfold tick
  split
  · split <;> exact h
  · refine happend fun p hp => ?_
    exact Audit.Logger.calls_appendStart hp
  · refine happend fun p hp => ?_
    rw [List.mem_singleton.1 hp]
  · exact h

theorem mem_log_demoTrail (n : ℕ) : ∀ p ∈ (demoTrail n).log, p.2.1 = {} := by
  induction n with
  | zero => simp [demoTrail, start]
  | succ n ih => exact mem_log_tick ih

end Witness

end Trail

end SecretsBroker.Admin
