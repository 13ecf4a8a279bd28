import SecretsBroker.Admin.Effects

/-!
# Recovery artifacts on the disk

`publish_meets`: a `Publish` that returns no error has put the artifact under its identifier, in a
file with the owner and the permissions that `Read` asks for. `readArtifact_meets`: what `Read`
returns is a function of that file. With a codec that gives back the artifact it was given,
`judge_published` puts the two together.
-/

namespace SecretsBroker.Admin

open Files Interaction Replacement

namespace RecoveryStore

/-- The artifact of an input, made at a time, is the file `g`, and everything about it is as `Read`
asks for. -/
structure Published [Codec] (s : RecoveryStore) (input : RecoveryArtifactInput) (now : ℕ)
    (g : Inode) (v : Volume) : Prop where
  id : validateRecoveryID input.recoveryID = .ok ()
  project : input.project ≠ []
  dir : s.checkDir v.dirLink = .ok ()
  file : v.file? input.recoveryID = some g
  check : s.checkArtifactFile g.info = .ok ()
  text : Codec.marshal (artifactOf input now) = .ok g.bytes

theorem checkArtifactFile_iff (s : RecoveryStore) (info : FileInfo) :
    s.checkArtifactFile info = .ok () ↔ info.kind = .regular ∧ info.perm = 0o600 ∧
      info.special = false ∧ info.uid = s.expectedOwner ∧ info.gid = s.expectedGroup ∧
      info.size ≤ maxRecoveryArtifactBytes := by
  unfold checkArtifactFile validateExpectedIdentity
  grind

/-- The temporary file is open. -/
structure Opened (link : FileInfo) (tempName : Bytes) (temp t : ℕ) (g : Inode) (v : Volume) :
    Prop extends Temp v tempName t g where
  dirLink : v.dirLink = link
  desc : v.desc? temp = some ⟨t, false⟩

section Opened

variable {link : FileInfo} {tempName : Bytes} {temp t : ℕ} {g : Inode} {v : Volume}

theorem Opened.modify (h : Opened link tempName temp t g v) (change : Inode → Inode) :
    Opened link tempName temp t (change g) (v.modify temp change) :=
  ⟨h.toTemp.modify h.desc rfl change, (v.dirLink_modify temp change).trans h.dirLink,
    (v.desc?_modify temp change temp).trans h.desc⟩

theorem Opened.file? (h : Opened link tempName temp t g v) : v.file? tempName = some g := by
  simp [Volume.file?, h.lookup, h.draft]

end Opened

theorem validateRecoveryFile_meets {strict : Prop} {I : Disk → Prop} {d : Disk} {name : Bytes}
    {g : Inode} (s : RecoveryStore) (hf : d.recovery.file? name = some g) (hi : I d) :
    Meets Disk.act (Faultless strict) I (s.validateRecoveryFile name) d fun r d' =>
      d' = d ∧ Yields strict (s.checkArtifactFile g.info) r := by
  unfold validateRecoveryFile
  refine meets_query (.ok g.info) .error (fun ch => ?_) hi (meets_pure hi ⟨rfl, .inl rfl⟩)
    fun hns err => meets_pure hi ⟨rfl, .inr ⟨hns, _, rfl⟩⟩
  change d.recovery.step ch _ = some (_, d.recovery)
  simp [Volume.step, hf]

theorem validateRecoveryDir_meets {strict : Prop} {I : Disk → Prop} {d : Disk} (s : RecoveryStore)
    (hi : I d) :
    Meets Disk.act (Faultless strict) I s.validateRecoveryDir d fun r d' =>
      d' = d ∧ Yields strict (s.checkDir d.recovery.dirLink) r := by
  unfold validateRecoveryDir
  exact meets_query (.ok d.recovery.dirLink) .error (fun ch => rfl) hi
    (meets_pure hi ⟨rfl, .inl rfl⟩) fun hns err => meets_pure hi ⟨rfl, .inr ⟨hns, _, rfl⟩⟩

/-! ## Publishing -/

section Publishing

variable {strict : Prop} {I : Disk → Prop} {P v : Volume} (hi : ∀ v', I ⟨P, v'⟩)

/-- The program has worked on the recovery directory only, and `Done` holds if it has succeeded. -/
def Worked (P : Volume) (Done : Volume → Prop) (r : Option Bytes) (d' : Disk) : Prop :=
  ∃ v', d' = ⟨P, v'⟩ ∧ (r = none → Done v')

include hi

theorem failRemoving_meets {Done : Volume → Prop} (err : Bytes) (names : List Bytes) :
    Meets Disk.act (Faultless strict) I (failRemoving err names) ⟨P, v⟩ (Worked P Done) := by
  induction names generalizing v with
  | nil => exact meets_pure (hi v) ⟨v, rfl, by simp⟩
  | cons name names ih => exact meets_step (by simp) (by simp) (hi v) fun _ _ _ _ => ih

theorem syncDirectory_meets :
    Meets Disk.act (Faultless strict) I syncDirectory ⟨P, v⟩ fun _ d' => d' = ⟨P, v⟩ := by
  unfold syncDirectory
  refine meets_query none some (fun ch => rfl) (hi v) ?_ fun _ err => meets_pure (hi v) rfl
  refine meets_query none some (fun ch => rfl) (hi v) ?_ fun _ err => ?_
  · exact meets_query none some (fun ch => rfl) (hi v) (meets_pure (hi v) rfl)
      fun _ _ => meets_pure (hi v) rfl
  · exact meets_query none some (fun ch => rfl) (hi v) (meets_pure (hi v) rfl)
      fun _ _ => meets_pure (hi v) rfl

theorem writeAll_meets {tempName encoded : Bytes} {temp t : ℕ} {g : Inode} {link : FileInfo}
    (hd : Opened link tempName temp t g v) :
    Meets Disk.act (Faultless strict) I (writeAll temp encoded) ⟨P, v⟩
      (Worked P fun v' => ∃ m, Opened link tempName temp t
        { g with bytes := g.bytes ++ encoded, modified := m } v') := by
  unfold writeAll
  refine meets_write hd.desc (hi v) (fun m => ?_) fun _ n err change =>
    meets_pure (hi _) ⟨_, rfl, by simp⟩
  refine meets_pure (hi _) ⟨_, rfl, fun _ => ⟨m, ?_⟩⟩
  exact hd.modify fun i => { i with bytes := i.bytes ++ encoded, modified := m }

/-- The temporary file is the artifact, under another name. -/
def Written (s : RecoveryStore) (link : FileInfo) (tempName encoded : Bytes) (t : ℕ) (v : Volume) :
    Prop :=
  v.dirLink = link ∧
    ∃ g, Temp v tempName t g ∧ g.bytes = encoded ∧ s.checkArtifactFile g.info = .ok ()

theorem fillArtifact_meets (s : RecoveryStore) {tempName encoded : Bytes} {temp t : ℕ} {g : Inode}
    {link : FileInfo} (hd : Opened link tempName temp t g v) (hbytes : g.bytes = [])
    (hlen : encoded.length ≤ maxRecoveryArtifactBytes) :
    Meets Disk.act (Faultless strict) I (s.fillArtifact temp tempName encoded) ⟨P, v⟩
      (Worked P (s.Written link tempName encoded t)) := by
  have fail : ∀ {v' : Volume} {err : Bytes}, Meets Disk.act (Faultless strict) I
      (pure (some err) : Program (Option Bytes)) ⟨P, v'⟩
      (Worked P (s.Written link tempName encoded t)) := by
    intro v' err
    exact meets_pure (hi v') ⟨v', rfl, by simp⟩
  unfold fillArtifact
  refine meets_change none some (v.modify temp fun i => { i with perm := 0o600 }) (fun ch => ?_)
    (hi v) ?_ fun _ err => fail
  · change v.step ch _ = some (if _ then (_, v) else _)
    simp only [Volume.step, hd.desc, Option.isNone_some, Bool.or_false]
    split <;> rfl
  have hd₁ := hd.modify fun i => { i with perm := 0o600 }
  refine meets_bind (validateRecoveryFile_meets s hd₁.file? (hi _)) fun r d' _ hpost => ?_
  obtain ⟨hd', hr⟩ := hpost
  subst d'
  cases r with
  | error err => exact fail
  | ok u =>
    refine meets_bind (writeAll_meets hi hd₁) fun r d' _ h => ?_
    obtain ⟨v₂, rfl, hw⟩ := h
    cases r with
    | some err => exact fail
    | none =>
      obtain ⟨m, hd₂⟩ := hw rfl
      refine meets_query none some (fun ch => rfl) (hi _) ?_ fun _ err => fail
      refine meets_pure (hi _) ⟨_, rfl, fun _ => ⟨hd₂.dirLink, _, hd₂.toTemp, ?_, ?_⟩⟩
      · simp [hbytes]
      · rcases hr with hr | ⟨-, err, herr⟩
        · -- the check was made on the empty file; only the size is different now
          obtain ⟨hkind, hperm, hspecial, huid, hgid, -⟩ := (s.checkArtifactFile_iff _).1 hr.symm
          refine (s.checkArtifactFile_iff _).2 ⟨hkind, hperm, hspecial, huid, hgid, ?_⟩
          simpa [Inode.info, hbytes] using hlen
        · simp at herr

variable [Platform]

/-- The file that is written is in place under the identifier. -/
def InPlace (link : FileInfo) (recoveryID : Bytes) (g : Inode) (v : Volume) : Prop :=
  v.dirLink = link ∧ v.file? recoveryID = some g

theorem linkArtifact_meets {tempName recoveryID : Bytes} {t : ℕ} {g : Inode}
    (hd : Temp v tempName t g) :
    Meets Disk.act (Faultless strict) I (linkArtifact tempName recoveryID) ⟨P, v⟩
      (Worked P (InPlace v.dirLink recoveryID g)) := by
  unfold linkArtifact
  refine meets_step (by simp) (by simp) (hi v) fun ch r v₁ hs => ?_
  rcases r with - | (- | err)
  case some.exists => exact failRemoving_meets hi _ _
  case some.other => exact failRemoving_meets hi _ _
  obtain ⟨o, ho, hfree, rfl⟩ := Volume.step_link hs
  change v.names.lookup tempName = some o at ho
  obtain rfl : t = o := Option.some.inj (hd.lookup.symm.trans ho)
  have hne : recoveryID ≠ tempName := by
    rintro rfl
    simp [hd.lookup, Disk.volume] at hfree
  refine meets_step (by simp) (by simp) (hi _) fun ch r v₂ hs => ?_
  cases r with
  | some err => exact failRemoving_meets hi _ _
  | none =>
    obtain rfl := Volume.step_remove hs
    refine meets_bind (syncDirectory_meets hi) fun r d' _ hd' => ?_
    subst d'
    cases r with
    | none =>
      refine meets_pure (hi _) ⟨_, rfl, fun _ => ⟨rfl, ?_⟩⟩
      simp [Volume.file?, Disk.volume, Disk.set, AList.lookup_erase_ne hne, hd.draft]
    | some err =>
      refine meets_step (by simp) (by simp) (hi _) fun _ _ _ _ => ?_
      exact meets_bind (syncDirectory_meets hi) fun _ _ _ hd' => hd' ▸ failRemoving_meets hi _ _

theorem publishEncoded_meets (s : RecoveryStore) {recoveryID encoded : Bytes} :
    Meets Disk.act (Faultless strict) I (s.publishEncoded recoveryID encoded) ⟨P, v⟩
      (Worked P fun v' => ∃ g, InPlace v.dirLink recoveryID g v' ∧ g.bytes = encoded ∧
        s.checkArtifactFile g.info = .ok ()) := by
  unfold publishEncoded
  split
  · exact meets_pure (hi v) ⟨v, rfl, by simp⟩
  · next hlen =>
    refine meets_call (hi v) (enabled_createTemp strict _ _) (fun ch r w hfault hs => ?_)
      fun hns ch r w hfault hs => ?_
    · cases r with
      | error err => simp [Volume.step, hfault] at hs
      | ok x =>
        obtain ⟨temp, tempName⟩ := x
        change v.step ch _ = _ at hs
        obtain ⟨-, -, rfl, rfl⟩ := Volume.step_createTemp hs
        have hd : Opened v.dirLink tempName v.fds.length v.files.length
            ⟨{ ch.fresh with kind := .regular, special := false }, []⟩ _ :=
          ⟨temp_create v tempName _, rfl, by simp [Volume.desc?]⟩
        refine meets_bind (fillArtifact_meets hi s hd rfl (Nat.le_of_not_lt hlen))
          fun r d' _ h => ?_
        obtain ⟨v₁, rfl, hw⟩ := h
        cases r with
        | some err => exact meets_close (hi _) fun _ _ => failRemoving_meets hi _ _
        | none =>
          obtain ⟨hlink, g, hg, hbytes, hcheck⟩ := hw rfl
          refine meets_close (hi _) fun r _ => ?_
          cases r with
          | some err => exact failRemoving_meets hi _ _
          | none =>
            refine meets_mono (linkArtifact_meets hi (hg.withFds _)) (fun _ h => h)
              fun r d' hpost => ?_
            obtain ⟨v', hd', hin⟩ := hpost
            exact ⟨v', hd', fun hr => ⟨g, hlink ▸ hin hr, hbytes, hcheck⟩⟩
    · cases r with
      | error err => exact meets_pure (hi _) ⟨_, rfl, by simp⟩
      | ok x => simp [Volume.step, hfault] at hs

theorem publish_meets [Codec] (s : RecoveryStore) (input : RecoveryArtifactInput) :
    Meets Disk.act (Faultless strict) I (s.publish input) ⟨P, v⟩
      (Worked P fun v' => ∃ now g, s.Published input now g v') := by
  unfold publish
  cases hid : validateRecoveryID input.recoveryID with
  | error err => exact meets_pure (hi v) ⟨v, rfl, by simp⟩
  | ok u =>
    change Meets _ _ _ (if input.project = [] then _ else _) _ _
    split
    · exact meets_pure (hi v) ⟨v, rfl, by simp⟩
    · next hproject =>
      refine meets_bind (validateRecoveryDir_meets s (hi v)) fun r d' _ hpost => ?_
      obtain ⟨hd', hr⟩ := hpost
      subst d'
      cases r with
      | error err => exact meets_pure (hi v) ⟨v, rfl, by simp⟩
      | ok u =>
        have hdir : s.checkDir v.dirLink = .ok () := by
          rcases hr with hr | ⟨-, err, herr⟩
          · exact hr.symm
          · simp at herr
        refine meets_ask_bind (hi v) ⟨default, fun _ => rfl, rfl⟩ fun ch now d' _ hact => ?_
        obtain ⟨rfl, rfl⟩ := Prod.mk.inj (Option.some.inj hact)
        split
        · exact meets_pure (hi v) ⟨v, rfl, by simp⟩
        · next encoded htext =>
          refine meets_mono (publishEncoded_meets hi s) (fun _ h => h)
            fun r d' hpost => ?_
          obtain ⟨v', hd', hw⟩ := hpost
          refine ⟨v', hd', fun hr => ?_⟩
          obtain ⟨g, ⟨hlink, hfile⟩, hbytes, hcheck⟩ := hw hr
          exact ⟨ch.now, g, hid, hproject, by rwa [hlink], hfile, hcheck, by rwa [hbytes]⟩

end Publishing

/-! ## Reading back -/

variable [Platform] [Codec]

/-- What `Read` finds in a recovery directory with this file under the identifier. -/
def judge (s : RecoveryStore) (link : FileInfo) (g : Inode) (recoveryID : Bytes) :
    Except Bytes RecoveryArtifact :=
  match validateRecoveryID recoveryID with
  | .error err => .error err
  | .ok () =>
    match s.checkDir link with
    | .error err => .error err
    | .ok () =>
      match s.checkArtifactFile g.info with
      | .error err => .error err
      | .ok () =>
        match readResult (s.dir ++ Path.separator :: recoveryID) g maxRecoveryArtifactBytes 0o077
          false s.euid with
        | .error err => .error (str "reading recovery artifact: " ++ err)
        | .ok data => decodeArtifact data recoveryID

theorem readArtifact_meets {strict : Prop} {I : Disk → Prop} {P v : Volume} (s : RecoveryStore)
    {recoveryID : Bytes} {g : Inode} (hf : v.file? recoveryID = some g)
    (hi : ∀ v', v.Still v' → I ⟨P, v'⟩) :
    Meets Disk.act (Faultless strict) I (s.readArtifact recoveryID) ⟨P, v⟩ fun r d' =>
      (∃ v', v.Still v' ∧ d' = ⟨P, v'⟩) ∧ Yields strict (s.judge v.dirLink g recoveryID) r := by
  have hstill : v.Still v := ⟨rfl, rfl, rfl, rfl⟩
  have hid := hi v hstill
  unfold readArtifact
  cases hrid : validateRecoveryID recoveryID with
  | error err => exact meets_pure hid ⟨⟨v, hstill, rfl⟩, .inl (by simp [judge, hrid])⟩
  | ok u =>
    refine meets_bind (validateRecoveryDir_meets s hid) fun r d' _ hpost => ?_
    obtain ⟨hd', hr⟩ := hpost
    subst d'
    rcases hr with rfl | ⟨hns, err, rfl⟩
    case inr => exact meets_pure hid ⟨⟨v, hstill, rfl⟩, .inr ⟨hns, _, rfl⟩⟩
    cases hdir : s.checkDir v.dirLink with
    | error err => exact meets_pure hid ⟨⟨v, hstill, rfl⟩, .inl (by simp [judge, hrid, hdir])⟩
    | ok u =>
      refine meets_bind (validateRecoveryFile_meets s hf hid) fun r d' _ hpost => ?_
      obtain ⟨hd', hr⟩ := hpost
      subst d'
      rcases hr with rfl | ⟨hns, err, rfl⟩
      case inr => exact meets_pure hid ⟨⟨v, hstill, rfl⟩, .inr ⟨hns, _, rfl⟩⟩
      cases hcheck : s.checkArtifactFile g.info with
      | error err =>
        exact meets_pure hid ⟨⟨v, hstill, rfl⟩, .inl (by simp [judge, hrid, hdir, hcheck])⟩
      | ok u =>
        have hkind : g.kind ≠ .symlink := by
          have hreg : g.kind = .regular := ((s.checkArtifactFile_iff _).1 hcheck).1
          simp [hreg]
        simp only [Volume.file?, Option.bind_eq_some_iff] at hf
        obtain ⟨o, ho, hg⟩ := hf
        have hread := @secureRead_meets _ strict I ⟨P, v⟩ .recovery g o
          (s.dir ++ Path.separator :: recoveryID) recoveryID maxRecoveryArtifactBytes 0o077 false
          s.euid ho hg hkind hi
        refine meets_bind hread fun r d' hid' hpost => ?_
        obtain ⟨⟨v', hsame, hd'⟩, hr⟩ := hpost
        have hnow : ∃ v', v.Still v' ∧ d' = ⟨P, v'⟩ := ⟨v', hsame.toStill, hd'⟩
        rcases hr with rfl | ⟨hns, err, rfl⟩
        case inr => exact meets_pure hid' ⟨hnow, .inr ⟨hns, _, rfl⟩⟩
        cases hres : readResult (s.dir ++ Path.separator :: recoveryID) g maxRecoveryArtifactBytes
          0o077 false s.euid with
        | error err =>
          exact meets_pure hid' ⟨hnow, .inl (by simp [judge, hrid, hdir, hcheck, hres])⟩
        | ok data => exact meets_pure hid' ⟨hnow, .inl (by simp [judge, hrid, hdir, hcheck, hres])⟩

/-- The codec gives back this artifact from its text. -/
def RoundTrips (artifact : RecoveryArtifact) : Prop :=
  ∀ text, Codec.marshal artifact = .ok text →
    ∃ rest, Codec.decode text = .ok (artifact, rest) ∧ Codec.trailer rest = .eof

omit [Platform] [Codec] in
theorem validateDigest_hexDigest (data label : Bytes) :
    validateDigest (hexDigest data) label = .ok () := by
  have hall : (hexDigest data).all isLowerHex = true := by
    rw [List.all_eq_true]
    exact fun c hc => mem_hexDigest hc
  simp [validateDigest, length_hexDigest, hall]

omit [Platform] [Codec] in
theorem validateRecoveryArtifact_artifactOf {input : RecoveryArtifactInput} {now : ℕ}
    (hproject : input.project ≠ []) :
    validateRecoveryArtifact (artifactOf input now) input.recoveryID = .ok () := by
  have hnow : (now : ℤ) ≠ zeroTime := by
    unfold zeroTime
    omega
  simp only [validateRecoveryArtifact, artifactOf, hproject, hnow, validateDigest_hexDigest, ne_eq,
    not_true_eq_false, if_false]
  rfl

/-- `Read` accepts the file of a published artifact if what the codec finds in it passes its
checks. -/
theorem judge_of_decode {s : RecoveryStore} {input : RecoveryArtifactInput} {now : ℕ} {g : Inode}
    {v : Volume} {artifact : RecoveryArtifact} {rest : Bytes} (h : s.Published input now g v)
    (howner : s.euid = s.expectedOwner) (hdecode : Codec.decode g.bytes = .ok (artifact, rest))
    (htrailer : Codec.trailer rest = .eof)
    (hvalid : validateRecoveryArtifact artifact input.recoveryID = .ok ()) :
    s.judge v.dirLink g input.recoveryID = .ok artifact := by
  obtain ⟨hkind, hperm, -, huid, -, hsize⟩ := (s.checkArtifactFile_iff _).1 h.check
  have hfile : ∀ path, checkFile path g.info 0o077 false s.euid = .ok () := by
    intro path
    have hmask : (0o600 : UInt32) &&& 0o077 = 0 := by decide
    simp [checkFile, validateOwner, hkind, hperm, huid, howner, hmask]
  have hres : ∀ path, readResult path g maxRecoveryArtifactBytes 0o077 false s.euid =
      .ok g.bytes := by
    intro path
    have hle : ¬ g.bytes.length > maxRecoveryArtifactBytes := Nat.not_lt.2 hsize
    simp [readResult, hfile, hle]
  simp only [judge, h.id, h.dir, h.check, hres]
  simp [decodeArtifact, hdecode, htrailer, hvalid, Except.map]

/-- **What is published is read back.** -/
theorem judge_published {s : RecoveryStore} {input : RecoveryArtifactInput} {now : ℕ} {g : Inode}
    {v : Volume} (h : s.Published input now g v) (howner : s.euid = s.expectedOwner)
    (hcodec : RoundTrips (artifactOf input now)) :
    s.judge v.dirLink g input.recoveryID = .ok (artifactOf input now) := by
  obtain ⟨rest, hdecode, htrailer⟩ := hcodec g.bytes h.text
  exact judge_of_decode h howner hdecode htrailer (validateRecoveryArtifact_artifactOf h.project)

end RecoveryStore

end SecretsBroker.Admin
