import SecretsBroker.Admin.Concurrent
import SecretsBroker.Admin.Verdicts

/-!
# One administrator on the disk

The runs of one mutation against the two directories, where every call may fail and nobody else
works on the policy. `outcome` says how the flag and the error that come back relate to the policy:
it is untouched, or it was replaced by what the mutation permits, and an error after a replacement
is a failed call on the policy directory. `changed_reported_iff` draws the line for an audited
mutation.
-/

namespace SecretsBroker.Admin

open Files Interaction Replacement

/-- The policy directory and the recovery directory. -/
structure Disk where
  policy : Volume
  recovery : Volume

/-- What the environment decides at a call. -/
structure DiskChoice where
  file : Choice
  now : ℕ
  recoveryID : Except Bytes Bytes
  start : Except Bytes Bytes
  finish : Option Bytes
  deriving Inhabited

/-- A call on one of the directories takes effect there, the others only answer. -/
def Disk.act (d : Disk) (ch : DiskChoice) : (c : Call) → Option (c.Answer × Disk)
  | .file .policy op => (d.policy.step ch.file op).map fun x => (x.1, { d with policy := x.2 })
  | .file .recovery op =>
    (d.recovery.step ch.file op).map fun x => (x.1, { d with recovery := x.2 })
  | .now => some (ch.now, d)
  | .newRecoveryID => some (ch.recoveryID, d)
  | .auditStart _ => some (ch.start, d)
  | .auditFinish _ _ => some (ch.finish, d)

/-- The volume of a directory. -/
def Disk.volume (d : Disk) : Dir → Volume
  | .policy => d.policy
  | .recovery => d.recovery

/-- The disk with another volume in the place of a directory. -/
def Disk.set (d : Disk) (v : Volume) : Dir → Disk
  | .policy => { d with policy := v }
  | .recovery => { d with recovery := v }

@[simp] theorem Disk.set_volume (d : Disk) (dir : Dir) : d.set (d.volume dir) dir = d := by
  cases dir <;> rfl

@[simp] theorem Disk.volume_set (d : Disk) (v : Volume) (dir : Dir) :
    (d.set v dir).volume dir = v := by
  cases dir <;> rfl

@[simp] theorem Disk.set_set (d : Disk) (v v' : Volume) (dir : Dir) :
    (d.set v dir).set v' dir = d.set v' dir := by
  cases dir <;> rfl

theorem Disk.act_file {d d' : Disk} {ch : DiskChoice} {dir : Dir} {op : FileOp} {r : op.Answer} :
    d.act ch (.file dir op) = some (r, d') ↔
      ∃ v', (d.volume dir).step ch.file op = some (r, v') ∧ d' = d.set v' dir := by
  have map_iff : ∀ (x : Option (op.Answer × Volume)) (g : Volume → Disk),
      x.map (fun y => (y.1, g y.2)) = some (r, d') ↔ ∃ v', x = some (r, v') ∧ d' = g v' := by
    intro x g
    simp only [Option.map_eq_some_iff, Prod.exists, Prod.mk.injEq]
    constructor
    · rintro ⟨_, v', hx, rfl, rfl⟩
      exact ⟨v', hx, rfl⟩
    · rintro ⟨v', hx, rfl⟩
      exact ⟨r, v', hx, rfl, rfl⟩
  cases dir with
  | policy => exact map_iff (d.policy.step ch.file op) fun v => { d with policy := v }
  | recovery => exact map_iff (d.recovery.step ch.file op) fun v => { d with recovery := v }

/-- The event is a failed call on the policy directory itself. -/
def PolicyDirFault : Event Call.Answer → Prop
  | ⟨.file .policy op, r⟩ => DirFault op r
  | _ => False

/-! ## How a mutation ends -/

/-- The process has reached a phase: the file was `f` when it started, and the trace tells whether
a call on the directory has failed. -/
def Standing (target : Bytes) (Permits : Bytes → Bytes → Prop) (f : Inode) (d : Disk) (q : Phase)
    (tr : Trace Call.Answer) : Prop :=
  (∃ h : History Unit, Inv target (fun _ => Permits) d.policy h (fun _ => q) ∧ h.origin = f) ∧
    (q.fault = true ↔ ∃ ev ∈ tr, PolicyDirFault ev)

section Runs

variable {target : Bytes} {Permits : Bytes → Bytes → Prop} {o : ℕ} {f : Inode} {d d' : Disk}
  {tr : Trace Call.Answer}

theorem Standing.step {q q' : Phase} {ch : DiskChoice} {c : Call} {r : c.Answer}
    (hs : Standing target Permits f d q tr) (hact : d.act ch c = some (r, d'))
    (hn : PolicyNext target Permits q c r q') :
    Standing target Permits f d' q' (tr ++ [⟨c, r⟩]) := by
  obtain ⟨⟨h, hi, horigin⟩, hfault⟩ := hs
  have append : ∀ {P : Prop}, (PolicyDirFault ⟨c, r⟩ ↔ P) →
      ((∃ ev ∈ tr ++ [⟨c, r⟩], PolicyDirFault ev) ↔ (∃ ev ∈ tr, PolicyDirFault ev) ∨ P) := by
    intro P hP
    simp [← hP, or_and_right, exists_or]
  -- a call that is none on the policy directory
  have other : q' = q → d'.policy = d.policy → ¬ PolicyDirFault ⟨c, r⟩ →
      Standing target Permits f d' q' (tr ++ [⟨c, r⟩]) := by
    rintro rfl hp hno
    refine ⟨⟨h, by rwa [hp], horigin⟩, ?_⟩
    rw [append (iff_false_intro hno), or_false, hfault]
  cases c with
  | file dir op =>
    cases dir with
    | policy =>
      obtain ⟨v', hstep, rfl⟩ := Disk.act_file.1 hact
      refine ⟨⟨h.after target v' () op r, ?_, ?_⟩, ?_⟩
      · have hi' := hi.step (i := ()) hi.distinct_solo hstep hn
        have hq : Function.update (fun _ : Unit => q) () q' = fun _ => q' := by
          funext i
          simp
        rwa [hq] at hi'
      · rw [History.after_origin, horigin]
      · rw [append Iff.rfl, hn.fault_iff, hfault]
        rfl
    | recovery =>
      obtain ⟨v', -, rfl⟩ := Disk.act_file.1 hact
      exact other hn rfl id
  | now => exact other hn (congrArg Disk.policy (Prod.mk.inj (Option.some.inj hact)).2.symm) id
  | newRecoveryID =>
    exact other hn (congrArg Disk.policy (Prod.mk.inj (Option.some.inj hact)).2.symm) id
  | auditStart record =>
    exact other hn (congrArg Disk.policy (Prod.mk.inj (Option.some.inj hact)).2.symm) id
  | auditFinish id outcome =>
    exact other hn (congrArg Disk.policy (Prod.mk.inj (Option.some.inj hact)).2.symm) False.elim

/-- A run, finished or not, of a program that keeps to the protocol stands in a phase of it. -/
theorem standing {α : Type} {p p' : Program α} {Post : α → Phase → Prop}
    (hv : Ready d.policy target o f) (hc : Conforms (PolicyNext target Permits) p .idle Post)
    (h : ExecTo Disk.act d p tr d' p') :
    ∃ q, Conforms (PolicyNext target Permits) p' q Post ∧ Standing target Permits f d' q tr := by
  have start : Standing target Permits f d .idle [] :=
    ⟨⟨History.start o f, hv.inv, rfl⟩, by simp [Phase.fault]⟩
  exact h.induct_conforms (fun _ _ _ _ _ _ _ _ => Standing.step) hc start

/-- What has become of the policy `f` when a mutation returns a flag and an error. -/
inductive Outcome (target : Bytes) (Permits : Bytes → Bytes → Prop) (f : Inode) (d' : Disk)
    (tr : Trace Call.Answer) : Bool → Option Bytes → Prop
  | untouched {err : Option Bytes} (hfile : d'.policy.file? target = some f)
    (hfault : ¬ ∃ ev ∈ tr, PolicyDirFault ev) : Outcome target Permits f d' tr false err
  | replaced {err : Option Bytes} (hp : Permits f.bytes (contents d'.policy target))
    (hfault : err.isSome = true ↔ ∃ ev ∈ tr, PolicyDirFault ev) :
    Outcome target Permits f d' tr err.isNone err

/-- **How a mutation ends.** -/
theorem outcome {α : Type} {p : Program α} {a : α} (changedOf : α → Bool)
    (errOf : α → Option Bytes) (hv : Ready d.policy target o f)
    (hc : Conforms (PolicyNext target Permits) p .idle fun a q =>
      Ends Permits (changedOf a) (errOf a) q)
    (h : Exec Disk.act d p tr d' a) : Outcome target Permits f d' tr (changedOf a) (errOf a) := by
  obtain ⟨q, hq, ⟨hist, hi, horigin⟩, hfault⟩ := standing hv hc h
  rcases hq with ⟨hflag, hq⟩ | ⟨b, c, -, rfl, hflag⟩
  · have hnone : q.result = none ∧ q.fault = false := by
      cases q <;> simp_all [Admin.replaced, Phase.result, Phase.fault]
    rw [hflag]
    refine .untouched ?_ ?_
    · rw [hi.untouched hnone.1, horigin]
    · rw [← hfault, hnone.2]
      simp
  · obtain ⟨hb, hcont, hp⟩ := hi.replaced (b := b) (c := c) rfl
    rw [hflag]
    exact .replaced (by rwa [hcont, ← horigin, hb]) hfault

theorem Outcome.untouched_of_no_error
    (h : Outcome target Permits f d' tr false none) : d'.policy.file? target = some f := by
  generalize hflag : false = flag at h
  generalize herr : (none : Option Bytes) = err at h
  cases h with
  | untouched hfile _ => exact hfile
  | replaced => simp [← herr] at hflag

theorem Outcome.permits_of_changed {err : Option Bytes}
    (h : Outcome target Permits f d' tr true err) :
    Permits f.bytes (contents d'.policy target) := by
  generalize hflag : true = flag at h
  cases h with
  | untouched => simp at hflag
  | replaced hp _ => exact hp

end Runs

/-! ## Audited mutations -/

/-- The mutations of an audited editor. -/
inductive Request
  | mutate (m : Mutation)
  | remove (name confirmation : Bytes)
  | restore (recoveryID confirmation : Bytes)

/-- The outcome in the finish record, if the last call of the run is the one that writes it. -/
def recordedOutcome (tr : Trace Call.Answer) : Option Bytes :=
  match tr.getLast? with
  | some ⟨.auditFinish _ outcome, _⟩ => some outcome
  | _ => none

variable [Platform]

/-- The program of a request, with the flag and the error it returns. -/
def AuditedEditor.program [Codec] (e : AuditedEditor) : Request → Program (Bool × Option Bytes)
  | .mutate m => e.mutate m
  | .remove name confirmation => do
    let (result, err) ← e.removeProject name confirmation
    pure (result.changed, err)
  | .restore recoveryID confirmation => do
    let (result, err) ← e.restoreProject recoveryID confirmation
    pure (result.changed, err)

theorem interpret_ok {e : Editor} {b : Bytes} {cfg : Config} (h : e.interpret b = .ok cfg) :
    Config.parse b = .ok cfg ∧ cfg.validateWorker = .ok () := by
  unfold Editor.interpret at h
  split at h
  · simp at h
  · split at h
    · simp at h
    · next cfg' hparse =>
      split at h
      · simp at h
      · next hworker =>
        obtain rfl := Except.ok.inj h
        exact ⟨hparse, hworker⟩

/-- What an action may replace a policy by is another text. -/
theorem Action.Permits.ne {e : Editor} {action : Action} {b c : Bytes}
    (h : action.Permits e b c) : c ≠ b := by
  cases action with
  | mutate m =>
    obtain ⟨cfg, hcfg, hedit⟩ := h
    exact Mutation.edit_ne (interpret_ok hcfg).1 hedit
  | remove name confirmation recoveryID =>
    obtain ⟨cfg, hcfg, hedit⟩ := h
    exact removeProject_ne (interpret_ok hcfg).1 hedit
  | restore recoveryID confirmation =>
    obtain ⟨cfg, artifact, hcfg, -, hedit⟩ := h
    exact restoreProject_ne (interpret_ok hcfg).1 hedit

section Audited

variable {target : Bytes} {Permits : Bytes → Bytes → Prop} {o : ℕ} {f : Inode} {d d' : Disk}
  {tr : Trace Call.Answer}

/-- An audited mutation has ended, and a set flag is in the finish record. -/
def Reported (target : Bytes) (Permits : Bytes → Bytes → Prop) (f : Inode) (d' : Disk)
    (tr : Trace Call.Answer) (changed : Bool) : Prop :=
  ∃ err, Outcome target Permits f d' tr changed err ∧
    (changed = true → recordedOutcome tr = some MutationChanged)

omit [Platform] in
/-- Calls around a run that are no calls on the policy directory. -/
theorem Outcome.extend {changed : Bool} {err : Option Bytes}
    (h : Outcome target Permits f d' tr changed err) (before after : Trace Call.Answer)
    (hb : ∀ ev ∈ before, ¬ PolicyDirFault ev)
    (ha : ∀ ev ∈ after, ¬ PolicyDirFault ev) :
    Outcome target Permits f d' (before ++ tr ++ after) changed err := by
  have hiff : (∃ ev ∈ before ++ tr ++ after, PolicyDirFault ev) ↔
      ∃ ev ∈ tr, PolicyDirFault ev := by
    constructor
    · rintro ⟨ev, hev, hfault⟩
      rcases List.mem_append.1 hev with hev | hev
      · rcases List.mem_append.1 hev with hev | hev
        · exact absurd hfault (hb ev hev)
        · exact ⟨ev, hev, hfault⟩
      · exact absurd hfault (ha ev hev)
    · rintro ⟨ev, hev, hfault⟩
      exact ⟨ev, by simp [hev], hfault⟩
  cases h with
  | untouched hfile hfault => exact .untouched hfile (by rwa [hiff])
  | replaced hp hfault => exact .replaced hp (by rwa [hiff])

omit [Platform] in
theorem reported_audited {β : Type} {zero : β} {changedOf : β → Bool} {start : MutationStart}
    {update : Program (β × Option Bytes)} {result : β × Option Bytes}
    (hzero : changedOf zero = false) (hv : Ready d.policy target o f)
    (hc : Conforms (PolicyNext target Permits) update .idle fun x q =>
      Ends Permits (changedOf x.1) x.2 q)
    (h : Exec Disk.act d (audited zero changedOf start update) tr d' result) :
    Reported target Permits f d' tr (changedOf result.1) := by
  obtain ⟨ch, r, d₁, tr₁, hact, rfl, h⟩ := exec_ask_bind h
  obtain ⟨rfl, rfl⟩ := Prod.mk.inj (Option.some.inj hact)
  cases hr : ch.start with
  | error err =>
    rw [hr] at h
    obtain ⟨rfl, rfl, rfl⟩ := exec_pure h
    refine ⟨none, ?_, by simp [hzero]⟩
    rw [hzero]
    exact .untouched hv.file? (by simp [PolicyDirFault])
  | ok mutationID =>
    rw [hr] at h
    obtain ⟨trU, trF, d₂, ⟨res, updateErr⟩, rfl, hu, hfin⟩ := exec_bind h
    obtain ⟨ch', r', d₃, tr₃, hact', rfl, hret⟩ := exec_ask_bind hfin
    obtain ⟨rfl, rfl⟩ := Prod.mk.inj (Option.some.inj hact')
    have hres : tr₃ = [] ∧ d' = d₂ ∧ result.1 = res := by
      cases hf : ch'.finish with
      | none =>
        rw [hf] at hret
        obtain ⟨rfl, rfl, rfl⟩ := exec_pure hret
        exact ⟨rfl, rfl, rfl⟩
      | some err =>
        rw [hf] at hret
        obtain ⟨rfl, rfl, rfl⟩ := exec_pure hret
        exact ⟨rfl, rfl, rfl⟩
    obtain ⟨rfl, rfl, rfl⟩ := hres
    have hout := outcome (fun x => changedOf x.1) Prod.snd hv hc hu
    refine ⟨updateErr, ?_, fun hchanged => ?_⟩
    · exact hout.extend [⟨.auditStart start, .ok mutationID⟩] [_] (by simp [PolicyDirFault])
        (by simp [PolicyDirFault])
    · have herr : updateErr = none := by
        generalize hflag : changedOf result.1 = flag at hout hchanged
        cases hout with
        | untouched => simp at hchanged
        | replaced => simpa using hchanged
      have hlast : ∀ ev : Event Call.Answer,
          (⟨.auditStart start, .ok mutationID⟩ :: (trU ++ [ev])).getLast? = some ev := by
        intro ev
        rw [← List.cons_append, List.getLast?_concat]
      simp only [recordedOutcome, hlast]
      simp [outcomeOf, herr, hchanged]

variable [Codec]

/-- Every request ends as reported, for some action of its editor. -/
theorem reported_program {e : AuditedEditor} {req : Request} {changed : Bool} {err : Option Bytes}
    (hv : Ready d.policy e.editor.name o f)
    (h : Exec Disk.act d (e.program req) tr d' (changed, err)) :
    ∃ action : Action, Reported e.editor.name (action.Permits e.editor) f d' tr changed := by
  cases req with
  | mutate m => exact ⟨.mutate m, reported_audited rfl hv (mutate_conforms e.editor m) h⟩
  | remove name confirmation =>
    obtain ⟨tr₁, tr₂, d₁, ⟨result, err'⟩, rfl, h₁, h₂⟩ := exec_bind h
    obtain ⟨rfl, rfl, hret⟩ := exec_pure h₂
    obtain ⟨rfl, rfl⟩ := Prod.mk.inj hret
    obtain ⟨ch, r, d₂, tr₂, hact, rfl, h₃⟩ := exec_ask_bind h₁
    obtain ⟨rfl, rfl⟩ := Prod.mk.inj (Option.some.inj hact)
    cases hr : ch.recoveryID with
    | error err =>
      rw [hr] at h₃
      obtain ⟨rfl, rfl, hret⟩ := exec_pure h₃
      obtain ⟨rfl, rfl⟩ := Prod.mk.inj hret
      refine ⟨.remove name confirmation [], none, ?_, by simp⟩
      exact .untouched hv.file? (by simp [PolicyDirFault])
    | ok recoveryID =>
      rw [hr] at h₃
      obtain ⟨err, hout, hrec⟩ := reported_audited rfl hv
        (remove_conforms e.editor name confirmation recoveryID) h₃
      refine ⟨.remove name confirmation recoveryID, err, ?_, fun hchanged => ?_⟩
      · exact hout.extend [⟨.newRecoveryID, .ok recoveryID⟩] [] (by simp [PolicyDirFault]) (by simp)
      · have hne : tr₂ ≠ [] := by
          rintro rfl
          simp [recordedOutcome] at hrec
          simp_all
        rw [← hrec hchanged, recordedOutcome, recordedOutcome, List.append_nil,
          List.getLast?_cons_of_ne_nil hne]
  | restore recoveryID confirmation =>
    obtain ⟨tr₁, tr₂, d₁, ⟨result, err'⟩, rfl, h₁, h₂⟩ := exec_bind h
    obtain ⟨rfl, rfl, hret⟩ := exec_pure h₂
    obtain ⟨rfl, rfl⟩ := Prod.mk.inj hret
    rw [List.append_nil]
    exact ⟨.restore recoveryID confirmation, reported_audited rfl hv
      (restore_conforms e.editor recoveryID confirmation) h₁⟩

/-- **When a changed policy is reported as changed.** A run of an audited mutation that leaves other
bytes under the policy's name returns with the flag set and the outcome "changed" in its finish
record, if and only if neither the open nor the sync of the policy directory, which follow the
rename, has failed. -/
theorem changed_reported_iff {e : AuditedEditor} {req : Request} {changed : Bool}
    {err : Option Bytes} (hv : Ready d.policy e.editor.name o f)
    (h : Exec Disk.act d (e.program req) tr d' (changed, err)) :
    (contents d'.policy e.editor.name ≠ contents d.policy e.editor.name →
        changed = true ∧ recordedOutcome tr = some MutationChanged) ↔
      ¬ ∃ ev ∈ tr, PolicyDirFault ev := by
  obtain ⟨action, err', hout, hrec⟩ := reported_program hv h
  have hbefore : contents d.policy e.editor.name = f.bytes := by simp [contents, hv.file?]
  cases hout with
  | untouched hfile hfault =>
    have hafter : contents d'.policy e.editor.name = f.bytes := by simp [contents, hfile]
    exact iff_of_true (fun hne => absurd (hafter.trans hbefore.symm) hne) hfault
  | replaced hp hfault =>
    rw [hbefore, ← hfault]
    constructor
    · intro hrep
      have := (hrep hp.ne).1
      simpa using this
    · intro hno hne
      have hchanged : err'.isNone = true := by simpa using hno
      exact ⟨hchanged, hrec hchanged⟩

end Audited

/-! The editor that sets the approval mode of a project, with and without a failing sync. -/

def demoDisk : Disk := ⟨demoVolume, demoVolume⟩

def demoDiskChoice (fault : Bool) : DiskChoice :=
  ⟨{ demoChoice with fault := fault }, 0, .ok (str "id"), .ok (str "id"), none⟩

/-- The choices of a run in which the call with this number fails, counted from 1, or none for 0. -/
def demoChoices (failing : ℕ) : List DiskChoice :=
  (List.range 24).map fun i => demoDiskChoice (i + 1 == failing)

def demoRequest : Program (Bool × Option Bytes) :=
  @AuditedEditor.program demoPlatform demoCodec ⟨demoEditor, 0⟩
    (.mutate (.setApproval (str "app") ModeConfirm))

/-- What a run has left: the flag, the policy and the outcome in the finish record. -/
def demoLeaves (changed : Bool) (policy recorded : Bytes)
    (x : Trace Call.Answer × Disk × Bool × Option Bytes) : Bool :=
  x.2.2.1 = changed && contents x.2.1.policy (str "policy.toml") = policy &&
    recordedOutcome x.1 = some recorded

omit [Platform] in
/-- Nothing fails: the policy is changed, and so says the report. -/
theorem changed_reported_confirm :
    ∃ tr d' err, Exec Disk.act demoDisk demoRequest tr d' (true, err) ∧
      contents d'.policy (str "policy.toml") = demoConfirmed ∧ ¬ ∃ ev ∈ tr, PolicyDirFault ev := by
  have hrun : (execWith Disk.act (demoChoices 0) demoDisk demoRequest).any
      (demoLeaves true demoConfirmed MutationChanged) = true := by decide +kernel
  obtain ⟨tr, d', ⟨changed, err⟩, h, hleft⟩ := exists_exec_of_any hrun
  simp only [demoLeaves, Bool.and_eq_true, decide_eq_true_eq] at hleft
  obtain ⟨⟨rfl, hpolicy⟩, hrec⟩ := hleft
  have hiff := @changed_reported_iff demoPlatform 0 demoFile demoDisk d' tr demoCodec
    ⟨demoEditor, 0⟩ (.mutate (.setApproval (str "app") ModeConfirm)) true err ready_demoVolume h
  exact ⟨tr, d', err, h, hpolicy, hiff.1 fun _ => ⟨rfl, hrec⟩⟩

omit [Platform] in
/-- The sync of the policy directory fails: the policy is changed, the flag is not set, and the
finish record says "failed". -/
theorem changed_reported_failed :
    ∃ tr d' err, Exec Disk.act demoDisk demoRequest tr d' (false, err) ∧
      contents demoDisk.policy (str "policy.toml") = demoPolicy ∧ demoConfirmed ≠ demoPolicy ∧
      contents d'.policy (str "policy.toml") = demoConfirmed ∧
      recordedOutcome tr = some MutationFailed := by
  have hrun : (execWith Disk.act (demoChoices 21) demoDisk demoRequest).any
      (demoLeaves false demoConfirmed MutationFailed) = true := by decide +kernel
  obtain ⟨tr, d', ⟨changed, err⟩, h, hleft⟩ := exists_exec_of_any hrun
  simp only [demoLeaves, Bool.and_eq_true, decide_eq_true_eq] at hleft
  obtain ⟨⟨rfl, hpolicy⟩, hrec⟩ := hleft
  exact ⟨tr, d', err, h, by decide +kernel, by decide +kernel, hpolicy, hrec⟩

end SecretsBroker.Admin
