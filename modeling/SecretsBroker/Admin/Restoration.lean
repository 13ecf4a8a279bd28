import SecretsBroker.Admin.Artifacts

/-!
# A removal can be undone

`RemoveProject` publishes an artifact before it replaces the policy. `removal_recoverable` follows a
removal to any point where it may be stopped: the policy is untouched there, or the artifact is on
the disk, and then

* with the policy bytes that the removal has left, `Read` gives the artifact and `RestoreProject`
  ends without an error and with the bytes that were there before the removal, if no call fails;
* with any other policy bytes, `RestoreProject` refuses and changes no file, whatever fails.

The pure part is `restoreProject_removed`: every check of a restoration is one that the removal has
made before.
-/

namespace SecretsBroker.Admin

open Files Interaction Replacement

variable [Platform]

/-! ## The edits -/

/-- What a removal has made of a policy can be restored from its artifact. -/
theorem restoreProject_removed {name data updated : Bytes} {cfg : Config}
    (hparse : Config.parse data = .ok cfg) (hworker : cfg.validateWorker = .ok ())
    (h : removeProject name data cfg = .ok updated) (recoveryID : Bytes) (now : ℕ) :
    ∃ cfg', Config.parse updated = .ok cfg' ∧ cfg'.validateWorker = .ok () ∧
      restoreProject (RecoveryStore.artifactOf ⟨recoveryID, name, data, updated⟩ now) updated cfg' =
        .ok data := by
  obtain ⟨before, p, after, -, -, hfind, hspan, -, hparse', hworker'⟩ := removeProject_ok h
  refine ⟨_, hparse', hworker', ?_⟩
  simp [restoreProject, RecoveryStore.artifactOf, hparse, hworker, hfind, hspan]

/-- The artifact of a removal restores nothing but what the removal has left. -/
theorem eq_of_restoreProject {name data updated current restored : Bytes} {cfg cfg' : Config}
    (hparse : Config.parse data = .ok cfg) (h : removeProject name data cfg = .ok updated)
    {recoveryID : Bytes} {now : ℕ}
    (hrestore : restoreProject
      (RecoveryStore.artifactOf ⟨recoveryID, name, data, updated⟩ now) current cfg' =
        .ok restored) :
    current = updated := by
  obtain ⟨before, p, after, -, -, hfind, hspan, -⟩ := removeProject_ok h
  obtain ⟨-, -, stored, i, hstored, -, hi, -, hremoved⟩ := restoreProject_ok hrestore
  obtain rfl : cfg = stored := Except.ok.inj (hparse.symm.trans hstored)
  obtain rfl : before.length = i := Except.ok.inj (hfind.symm.trans hi)
  exact Except.ok.inj (hremoved.symm.trans hspan)

/-! ## Files that the editor accepts -/

/-- The policy `f` in this directory passes every check but those on its contents. -/
structure Editor.Accepts (e : Editor) (dir : FileInfo) (f : Inode) : Prop where
  dir : checkTrustedDir e.dir dir e.euid = .ok ()
  metadata : e.checkMetadata f.info = .ok f.info.stamp
  file : checkFile e.path f.info 0o022 true e.euid = .ok ()
  size : f.bytes.length ≤ maxPolicyBytes

theorem judge_eq_ok {e : Editor} {dir : FileInfo} {f : Inode} {data : Bytes} {cfg : Config}
    {stamp : Stamp} : e.judge dir f = .ok (data, cfg, stamp) ↔
      e.Accepts dir f ∧ data = f.bytes ∧ e.interpret f.bytes = .ok cfg ∧ stamp = f.info.stamp := by
  constructor
  · intro h
    unfold Editor.judge at h
    split at h
    · simp at h
    · next hdir =>
      split at h
      · simp at h
      · next stamp' hmeta =>
        obtain rfl := checkMetadata_ok hmeta
        unfold readResult at h
        cases hfile : checkFile e.path f.info 0o022 true e.euid with
        | error err => simp [hfile] at h
        | ok u =>
          by_cases hsize : f.bytes.length > maxPolicyBytes
          · simp [hfile, hsize] at h
          · cases hcfg : e.interpret f.bytes with
            | error err => simp [hfile, hsize, hcfg, Except.map] at h
            | ok cfg' =>
              simp only [hfile, hsize, hcfg, if_false, Except.map, Except.ok.injEq,
                Prod.mk.injEq] at h
              obtain ⟨rfl, rfl, rfl⟩ := h
              exact ⟨⟨hdir, hmeta, hfile, Nat.le_of_not_lt hsize⟩, rfl, rfl, rfl⟩
  · rintro ⟨h, rfl, hcfg, rfl⟩
    have hsize : ¬ f.bytes.length > maxPolicyBytes := Nat.not_lt.2 h.size
    simp [Editor.judge, readResult, h.dir, h.metadata, h.file, hsize, hcfg, Except.map]

omit [Platform] in
theorem checkMetadata_iff {e : Editor} {info : FileInfo} : e.checkMetadata info = .ok info.stamp ↔
    info.kind = .regular ∧ info.perm &&& 0o022 = 0 ∧ info.uid = e.expectedOwner := by
  unfold Editor.checkMetadata
  grind

theorem checkFile_iff {path : Bytes} {info : FileInfo} {forbidden euid : UInt32}
    {allowRoot : Bool} : checkFile path info forbidden allowRoot euid = .ok () ↔
      info.kind = .regular ∧ info.perm &&& forbidden = 0 ∧
        (info.uid = euid ∨ (allowRoot = true ∧ info.uid = 0)) := by
  unfold checkFile validateOwner
  grind

/-- A copy of an accepted file is accepted. -/
theorem Editor.Accepts.copies {e : Editor} {dir : FileInfo} {f g : Inode} {data : Bytes}
    (h : e.Accepts dir f) (hg : Copies f data g) (hsize : data.length ≤ maxPolicyBytes) :
    e.Accepts dir g := by
  obtain ⟨-, hperm, howner⟩ := checkMetadata_iff.1 h.metadata
  obtain ⟨-, hopen, huser⟩ := checkFile_iff.1 h.file
  have hgperm : g.info.perm = f.info.perm := hg.perm
  have hguid : g.info.uid = f.info.uid := hg.uid
  refine ⟨h.dir, checkMetadata_iff.2 ⟨hg.kind, ?_, ?_⟩, checkFile_iff.2 ⟨hg.kind, ?_, ?_⟩, ?_⟩
  · rw [hgperm, hperm]
  · rw [hguid, howner]
  · rw [hgperm, hopen]
  · rw [hguid]
    exact huser
  · rw [hg.bytes]
    exact hsize

theorem interpret_eq_ok {e : Editor} {data : Bytes} {cfg : Config}
    (hparse : Config.parse data = .ok cfg) (hworker : cfg.validateWorker = .ok ())
    (hrev : e.expectedRevision = [] ∨ e.expectedRevision = hexDigest data) :
    e.interpret data = .ok cfg := by
  have hno : ¬ (e.expectedRevision ≠ [] ∧ hexDigest data ≠ e.expectedRevision) := by
    rintro ⟨hne, hdigest⟩
    rcases hrev with hrev | hrev
    · exact hne hrev
    · exact hdigest hrev.symm
  simp only [Editor.interpret, if_neg hno, hparse, hworker]

/-! ## The removal -/

section Removal

variable [Codec] {e : Editor} {s : RecoveryStore} {f : Inode} {name recoveryID : Bytes}

/-- What a removal has left: the policy is a copy of `f` with the new bytes, and the artifact is
there. -/
structure Removed (e : Editor) (s : RecoveryStore) (f : Inode) (name recoveryID updated : Bytes)
    (now : ℕ) (g : Inode) (d : Disk) : Prop where
  removed : ∃ cfg, e.interpret f.bytes = .ok cfg ∧ removeProject name f.bytes cfg = .ok updated
  accepts : e.Accepts d.policy.dirInfo f
  size : updated.length ≤ maxPolicyBytes
  policy : ∃ f', d.policy.file? e.name = some f' ∧ Copies f updated f'
  artifact : s.Published ⟨recoveryID, name, f.bytes, updated⟩ now g d.recovery

/-- Where a removal may be stopped. -/
def Recoverable (e : Editor) (s : RecoveryStore) (f : Inode) (name recoveryID : Bytes) (d : Disk) :
    Prop :=
  d.policy.file? e.name = some f ∨ ∃ updated now g, Removed e s f name recoveryID updated now g d

theorem removeProject_meets {d : Disk} (hs : e.recovery = some s)
    (hf : d.policy.file? e.name = some f) (confirmation : Bytes) :
    Meets Disk.act (Faultless False) (Recoverable e s f name recoveryID)
      (e.removeProject name confirmation recoveryID) d fun _ _ => True := by
  obtain ⟨v, R⟩ := d
  have hid : Recoverable e s f name recoveryID ⟨v, R⟩ := .inl hf
  have hlookup := hf
  simp only [Volume.file?, Option.bind_eq_some_iff] at hlookup
  obtain ⟨o, ho, hfo⟩ := hlookup
  unfold Editor.removeProject
  rw [hs]
  dsimp only
  split
  · exact meets_pure hid trivial
  refine meets_bind (readPolicy_meets ho hfo fun v' hv' => .inl ((hv'.file? e.name).trans hf))
    fun r d' hid' hpost => ?_
  obtain ⟨⟨v', hsame, hd'⟩, hr⟩ := hpost
  subst d'
  have hf' : v'.file? e.name = some f := (hsame.file? e.name).trans hf
  cases r with
  | error err => exact meets_pure hid' trivial
  | ok x =>
    obtain ⟨data, cfg, stamp⟩ := x
    obtain ⟨haccepts, rfl, hcfg, rfl⟩ : e.Accepts v.dirInfo f ∧ data = f.bytes ∧
        e.interpret f.bytes = .ok cfg ∧ stamp = f.info.stamp := by
      rcases hr with hr | ⟨-, err, herr⟩
      · exact judge_eq_ok.1 hr.symm
      · simp at herr
    dsimp only
    split
    · exact meets_pure hid' trivial
    next updated hupdated =>
    refine meets_bind (s.publish_meets (fun R' => .inl hf') _) fun r d' hid'' h => ?_
    obtain ⟨R', rfl, hpub⟩ := h
    cases r with
    | some err => exact meets_pure hid'' trivial
    | none =>
      obtain ⟨now, g, hpub⟩ := hpub rfl
      by_cases hlen : updated.length ≤ maxPolicyBytes
      · refine meets_bind (writeAtomic_meets (fun w _ hw => .inl hw) ?_ haccepts.metadata
          hsame.dirInfo (by rw [hsame.names]; exact ho) (by rw [hsame.files]; exact hfo)
          False.elim hlen) fun r d' hid _ => ?_
        · exact fun w f' hdir hw hcopy => .inr ⟨updated, now, g, ⟨cfg, hcfg, hupdated⟩,
            hdir ▸ haccepts, hlen, ⟨f', hw, hcopy⟩, hpub⟩
        · cases r with
          | some err => exact meets_pure hid trivial
          | none => exact meets_pure hid trivial
      · unfold Editor.writeAtomic
        rw [if_pos (Nat.lt_of_not_le hlen)]
        exact meets_pure hid'' trivial

end Removal

/-! ## The restoration -/

section Restoration

variable [Codec] {e : Editor} {s : RecoveryStore} {f g : Inode} {name recoveryID : Bytes}
  {before updated : Bytes} {now : ℕ} {v R : Volume}

/-- On the bytes that the removal has left, a restoration without a failed call succeeds. -/
theorem restoreProject_meets {cfg : Config} {o : ℕ} (hs : e.recovery = some s)
    (hparse : Config.parse before = .ok cfg) (hworker : cfg.validateWorker = .ok ())
    (hremove : removeProject name before cfg = .ok updated)
    (hsize : before.length ≤ maxPolicyBytes)
    (hpub : s.Published ⟨recoveryID, name, before, updated⟩ now g R)
    (howner : s.euid = s.expectedOwner)
    (hcodec : RecoveryStore.RoundTrips
      (RecoveryStore.artifactOf ⟨recoveryID, name, before, updated⟩ now))
    (ho : v.names.lookup e.name = some o) (hf : v.files[o]? = some f)
    (hfree : ∀ fd, v.desc? fd ≠ some ⟨o, true⟩) (haccepts : e.Accepts v.dirInfo f)
    (hbytes : f.bytes = updated)
    (hrev : e.expectedRevision = [] ∨ e.expectedRevision = hexDigest updated) :
    Meets Disk.act (Faultless True) (fun _ => True) (e.restoreProject recoveryID name) ⟨v, R⟩
      fun r d' => r = (⟨true, recoveryID⟩, none) ∧ contents d'.policy e.name = before := by
  obtain ⟨cfg', hparse', hworker', hrestore⟩ :=
    restoreProject_removed hparse hworker hremove recoveryID now
  have hjudge : e.judge v.dirInfo f = .ok (f.bytes, cfg', f.info.stamp) :=
    judge_eq_ok.2 ⟨haccepts, rfl, hbytes ▸ interpret_eq_ok hparse' hworker' hrev, rfl⟩
  unfold Editor.restoreProject
  rw [hs]
  change Meets _ _ _ (if name = [] then _ else _) _ _
  rw [if_neg hpub.project]
  refine meets_bind (s.readArtifact_meets hpub.file fun _ _ => trivial) fun r d' _ hpost => ?_
  obtain ⟨h, hr⟩ := hpost
  obtain ⟨R', hR', rfl⟩ := h
  obtain rfl : r = .ok (RecoveryStore.artifactOf ⟨recoveryID, name, before, updated⟩ now) := by
    rcases hr with hr | ⟨hns, -⟩
    · exact hr.trans (RecoveryStore.judge_published hpub howner hcodec)
    · exact absurd trivial hns
  change Meets _ _ _ (e.restoreFrom _ recoveryID name) _ _
  unfold Editor.restoreFrom
  have hconfirmed : ¬ name ≠ (RecoveryStore.artifactOf ⟨recoveryID, name, before, updated⟩
    now).project := not_not.2 rfl
  rw [if_neg hconfirmed]
  refine meets_bind (readPolicy_meets ho hf fun _ _ => trivial) fun r d' _ hpost => ?_
  obtain ⟨h, hr⟩ := hpost
  obtain ⟨v', hsame, rfl⟩ := h
  obtain rfl : r = .ok (f.bytes, cfg', f.info.stamp) := by
    rcases hr with hr | ⟨hns, -⟩
    · exact hr.trans hjudge
    · exact absurd trivial hns
  simp only [hbytes, hrestore]
  have hlock : ∀ fd, v'.desc? fd ≠ some ⟨o, true⟩ := fun fd => by
    rw [hsame.desc]
    exact hfree fd
  refine meets_bind (writeAtomic_meets (fun _ _ _ => trivial) (fun _ _ _ _ _ => trivial)
    haccepts.metadata hsame.dirInfo (by rw [hsame.names]; exact ho)
    (by rw [hsame.files]; exact hf) (fun _ => hlock) hsize) fun r d' _ h => ?_
  obtain ⟨hnone, w, rfl, -, hend⟩ := h
  obtain rfl := hnone trivial
  refine meets_pure trivial ⟨rfl, ?_⟩
  rcases hend with ⟨hns, -⟩ | ⟨f', hfile, hcopy⟩
  · exact absurd trivial hns
  · simp [contents, hfile, hcopy.bytes]

/-- On other bytes every restoration refuses, and no file is changed. -/
theorem restoreProject_refuses {cfg : Config} {confirmation : Bytes} (hs : e.recovery = some s)
    (hparse : Config.parse before = .ok cfg) (hremove : removeProject name before cfg = .ok updated)
    (hpub : s.Published ⟨recoveryID, name, before, updated⟩ now g R)
    (howner : s.euid = s.expectedOwner)
    (hcodec : RecoveryStore.RoundTrips
      (RecoveryStore.artifactOf ⟨recoveryID, name, before, updated⟩ now))
    (hf : v.file? e.name = some f) (hbytes : f.bytes ≠ updated) :
    Meets Disk.act (Faultless False) (fun d' => v.Still d'.policy ∧ R.Still d'.recovery)
      (e.restoreProject recoveryID confirmation) ⟨v, R⟩
      fun r _ => r.1.changed = false ∧ r.2.isSome = true := by
  have hv : v.Still v := ⟨rfl, rfl, rfl, rfl⟩
  have hR : R.Still R := ⟨rfl, rfl, rfl, rfl⟩
  unfold Editor.restoreProject
  rw [hs]
  change Meets _ _ _ (if confirmation = [] then _ else _) _ _
  split
  · exact meets_pure ⟨hv, hR⟩ ⟨rfl, rfl⟩
  refine meets_bind (s.readArtifact_meets hpub.file fun _ h => ⟨hv, h⟩) fun r d' hid hpost => ?_
  obtain ⟨h, hr⟩ := hpost
  obtain ⟨R', hR', rfl⟩ := h
  cases r with
  | error err => exact meets_pure hid ⟨rfl, rfl⟩
  | ok artifact =>
    obtain rfl : artifact = RecoveryStore.artifactOf ⟨recoveryID, name, before, updated⟩ now := by
      rcases hr with hr | ⟨-, err, herr⟩
      · exact Except.ok.inj (hr.trans (RecoveryStore.judge_published hpub howner hcodec))
      · simp at herr
    change Meets _ _ _ (e.restoreFrom _ recoveryID confirmation) _ _
    unfold Editor.restoreFrom
    split
    · exact meets_pure hid ⟨rfl, rfl⟩
    simp only [Volume.file?, Option.bind_eq_some_iff] at hf
    obtain ⟨o, ho, hfo⟩ := hf
    refine meets_bind (readPolicy_meets ho hfo fun _ h => ⟨h, hR'⟩) fun r d' hid hpost => ?_
    obtain ⟨h, hr⟩ := hpost
    obtain ⟨v', hsame, rfl⟩ := h
    cases r with
    | error err => exact meets_pure hid ⟨rfl, rfl⟩
    | ok x =>
      obtain ⟨data, cfg', stamp⟩ := x
      obtain ⟨-, rfl, -⟩ : e.Accepts v.dirInfo f ∧ data = f.bytes ∧
          e.interpret f.bytes = .ok cfg' ∧ stamp = f.info.stamp := by
        rcases hr with hr | ⟨-, err, herr⟩
        · exact judge_eq_ok.1 hr.symm
        · simp at herr
      dsimp only
      split
      · exact meets_pure hid ⟨rfl, rfl⟩
      · next restored hrestored =>
        exact absurd (eq_of_restoreProject hparse hremove hrestored) hbytes

end Restoration

/-! ## Together -/

/-- The artifact and its directory are kept. -/
def KeepsArtifact (recoveryID : Bytes) (d₁ d₂ : Disk) : Prop :=
  d₂.recovery.file? recoveryID = d₁.recovery.file? recoveryID ∧
    d₂.recovery.dirLink = d₁.recovery.dirLink

/-- Nobody holds the lock on the file under the name. -/
def Unlocked (v : Volume) (name : Bytes) : Prop :=
  ∀ o, v.names.lookup name = some o → ∀ fd, v.desc? fd ≠ some ⟨o, true⟩

/-- **A removal can be undone.** However far a removal has come, and whatever has failed, the policy
is the file it was, or the artifact is on the disk and the policy is one that the editor accepts. As
long as the artifact is kept, an editor of the same policy (with any revision that fits) then finds:
on the bytes that the removal has left, `Read` and `RestoreProject` succeed if no call fails, and
the policy has its original bytes again; on any other bytes `RestoreProject` returns an error and
changes no file, wherever it is stopped. -/
theorem removal_recoverable [Codec] {e : Editor} {s : RecoveryStore} {f : Inode} {d d₁ : Disk}
    {name confirmation recoveryID : Bytes} {tr : Trace Call.Answer}
    {p : Program (RecoveryResult × Option Bytes)} (hs : e.recovery = some s)
    (howner : s.euid = s.expectedOwner)
    (hcodec : ∀ updated now, RecoveryStore.RoundTrips
      (RecoveryStore.artifactOf ⟨recoveryID, name, f.bytes, updated⟩ now))
    (hf : d.policy.file? e.name = some f)
    (h : ExecTo Disk.act d (e.removeProject name confirmation recoveryID) tr d₁ p) :
    d₁.policy.file? e.name = some f ∨
      ∃ updated f₁ artifact, d₁.policy.file? e.name = some f₁ ∧ f₁.bytes = updated ∧
        e.Accepts d₁.policy.dirInfo f₁ ∧ artifact.project = name ∧ artifact.policy = f.bytes ∧
        ∀ d₂ f₂ revision, KeepsArtifact recoveryID d₁ d₂ → d₂.policy.file? e.name = some f₂ →
          (f₂.bytes = updated → e.Accepts d₂.policy.dirInfo f₂ → Unlocked d₂.policy e.name →
            revision = [] ∨ revision = hexDigest updated →
            Meets Disk.act (Faultless True) (fun _ => True) (s.readArtifact recoveryID) d₂
                (fun r _ => r = .ok artifact) ∧
              Meets Disk.act (Faultless True) (fun _ => True)
                (Editor.restoreProject { e with expectedRevision := revision } recoveryID name) d₂
                fun r d₃ => r = (⟨true, recoveryID⟩, none) ∧
                  contents d₃.policy e.name = f.bytes) ∧
          (f₂.bytes ≠ updated → ∀ confirmation' tr' d₃ p', ExecTo Disk.act d₂
              (Editor.restoreProject { e with expectedRevision := revision } recoveryID
                confirmation') tr' d₃ p' →
            d₂.policy.Still d₃.policy ∧ d₂.recovery.Still d₃.recovery ∧
              ∀ r, p' = .ret r → r.1.changed = false ∧ r.2.isSome = true) := by
  have hmeets := (removeProject_meets hs hf confirmation).execTo (fun _ => False.elim) h
  rcases hmeets.inv with huntouched | ⟨updated, now, g, hremoved⟩
  · exact .inl huntouched
  obtain ⟨cfg, hcfg, hremove⟩ := hremoved.removed
  obtain ⟨hparse, hworker⟩ := interpret_ok hcfg
  obtain ⟨f₁, hf₁, hcopy⟩ := hremoved.policy
  refine .inr ⟨updated, f₁, RecoveryStore.artifactOf ⟨recoveryID, name, f.bytes, updated⟩ now, hf₁,
    hcopy.bytes, hremoved.accepts.copies hcopy hremoved.size, rfl, rfl, ?_⟩
  rintro ⟨v, R⟩ f₂ revision ⟨hfile, hlink⟩ hf₂
  -- the artifact is published on the later disk as well
  have hpub : s.Published ⟨recoveryID, name, f.bytes, updated⟩ now g R := by
    obtain ⟨hid, hproject, hdir, hg, hcheck, htext⟩ := hremoved.artifact
    exact ⟨hid, hproject, by rwa [hlink], hfile.trans hg, hcheck, htext⟩
  refine ⟨fun hbytes haccepts hfree hrev => ⟨?_, ?_⟩, fun hbytes confirmation' tr' d₃ p' hrun => ?_⟩
  · refine meets_mono (s.readArtifact_meets hpub.file fun _ _ => trivial) (fun _ h => h)
      fun r d' hpost => ?_
    obtain ⟨-, hr⟩ := hpost
    rcases hr with hr | ⟨hns, -⟩
    · exact hr.trans (RecoveryStore.judge_published hpub howner (hcodec updated now))
    · exact absurd trivial hns
  · have hlookup := hf₂
    simp only [Volume.file?, Option.bind_eq_some_iff] at hlookup
    obtain ⟨o, ho, hfo⟩ := hlookup
    have haccepts' : Editor.Accepts { e with expectedRevision := revision } v.dirInfo f₂ :=
      ⟨haccepts.dir, haccepts.metadata, haccepts.file, haccepts.size⟩
    exact restoreProject_meets hs hparse hworker hremove hremoved.accepts.size hpub howner
      (hcodec updated now) ho hfo (hfree o ho) haccepts' hbytes hrev
  · have hrefuse := (restoreProject_refuses (e := { e with expectedRevision := revision }) hs hparse
      hremove hpub howner (hcodec updated now) hf₂ hbytes).execTo (fun _ => False.elim) hrun
    refine ⟨hrefuse.inv.1, hrefuse.inv.2, fun r hr => ?_⟩
    subst hr
    exact hrefuse.2

/-! A removal of the second of two projects, with nothing failing. -/

def demoRecoveryID : Bytes := List.replicate 32 0x61

def demoStore : RecoveryStore := ⟨str "/var/lib/recovery", 0, 0, 0⟩

def demoRecoveryEditor : Editor := { demoEditor with recovery := some demoStore }

/-- A codec for the artifacts of this removal: the digest of what is left, and the time. -/
@[reducible] def demoArtifactCodec : Codec where
  marshal a := .ok (a.afterSHA256 ++ List.replicate a.createdAt.toNat 0)
  decode text := .ok (⟨1, demoRecoveryID, (text.length - 64 : ℕ), str "db", hexDigest demoPolicy,
    text.take 64, demoPolicy⟩, [])
  trailer _ := .eof

omit [Platform] in
theorem roundTrips_demoArtifactCodec (updated : Bytes) (now : ℕ) :
    @RecoveryStore.RoundTrips demoArtifactCodec
      (RecoveryStore.artifactOf ⟨demoRecoveryID, str "db", demoPolicy, updated⟩ now) := by
  intro text htext
  obtain rfl : hexDigest updated ++ List.replicate now 0 = text := Except.ok.inj htext
  refine ⟨[], ?_, rfl⟩
  have htake : (hexDigest updated ++ List.replicate now 0).take 64 = hexDigest updated := by
    rw [List.take_append_of_le_length (length_hexDigest updated).ge,
      List.take_of_length_le (length_hexDigest updated).le]
  have hlen : (hexDigest updated ++ List.replicate now (0 : UInt8)).length - 64 = now := by
    simp [length_hexDigest]
  change Except.ok ((⟨1, demoRecoveryID, (_ : ℕ), str "db", hexDigest demoPolicy, List.take 64 _,
    demoPolicy⟩ : RecoveryArtifact), ([] : Bytes)) = _
  rw [htake, hlen]
  rfl

def demoRecoveryDisk : Disk :=
  ⟨demoVolume, { demoVolume with
    dirLink := ⟨demoAttr .directory 0o700 4, 0⟩
    names := ∅
    files := [] }⟩

def demoRemoval : Program (RecoveryResult × Option Bytes) :=
  @Editor.removeProject demoPlatform demoArtifactCodec demoRecoveryEditor (str "db") (str "db")
    demoRecoveryID

omit [Platform] in
/-- The removal that succeeds leaves an artifact with the policy that was there before. -/
theorem removal_recoverable_db :
    ∃ tr d₁ r, Exec Disk.act demoRecoveryDisk demoRemoval tr d₁ r ∧ r.1.changed = true ∧
      ∃ updated f₁ artifact, d₁.policy.file? (str "policy.toml") = some f₁ ∧ f₁.bytes = updated ∧
        updated ≠ demoPolicy ∧ (artifact : RecoveryArtifact).policy = demoPolicy := by
  have hrun : (execWith Disk.act (List.replicate 36 (demoDiskChoice false)) demoRecoveryDisk
      demoRemoval).any (fun x => x.2.2.1.changed &&
        contents x.2.1.policy (str "policy.toml") = demoRemoved) = true := by decide +kernel
  obtain ⟨tr, d₁, r, h, hleft⟩ := exists_exec_of_any hrun
  simp only [Bool.and_eq_true, decide_eq_true_eq] at hleft
  refine ⟨tr, d₁, r, h, hleft.1, ?_⟩
  have hne : demoRemoved ≠ demoPolicy := by decide +kernel
  have hrec := @removal_recoverable demoPlatform demoArtifactCodec demoRecoveryEditor demoStore
    demoFile demoRecoveryDisk d₁ (str "db") (str "db") demoRecoveryID tr (.ret r) rfl rfl
    roundTrips_demoArtifactCodec rfl h
  rcases hrec with hsame | ⟨updated, f₁, artifact, hf₁, hbytes, -, -, hpolicy, -⟩
  · refine absurd (hleft.2.symm.trans ?_) hne
    change contents d₁.policy demoRecoveryEditor.name = demoPolicy
    rw [contents, hsame]
    rfl
  · refine ⟨updated, f₁, artifact, hf₁, hbytes, ?_, hpolicy⟩
    have hcontents : contents d₁.policy (str "policy.toml") = updated := by
      change contents d₁.policy demoRecoveryEditor.name = updated
      rw [contents, hf₁]
      exact hbytes
    rw [← hcontents, hleft.2]
    exact hne

end SecretsBroker.Admin
