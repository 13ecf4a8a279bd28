import SecretsBroker.Admin.Disk

/-!
# What the editor does to the disk

The programs of the editor and of the recovery store on a disk that nobody else works on, with what
they guarantee in the sense of `Meets`: where they may be stopped, and how they end. A specification
is stated once for both ways a run may go: with `strict` no call fails, without it any call may. The
result of a reading program is then a function of what is on the disk (`Editor.judge`,
`RecoveryStore.judge`), or an error of a run that is not strict.
-/

namespace SecretsBroker.Admin

open Files Interaction Replacement

/-! ## Rules for calls -/

/-- No call fails, if the run is strict. -/
def Faultless (strict : Prop) (ch : DiskChoice) : Prop := strict → ch.file.fault = false

/-- Some choice of a run lets the call return. -/
def Enabled (strict : Prop) (v : Volume) (op : FileOp) : Prop :=
  ∃ ch : Choice, (strict → ch.fault = false) ∧ (v.step ch op).isSome = true

theorem enabled_flock {strict : Prop} {v : Volume} {fd : ℕ} {nonblocking : Bool} {x : Desc}
    (hx : v.desc? fd = some x) (h : v.held x.file fd = false) :
    Enabled strict v (.flock fd nonblocking) :=
  ⟨{ (default : Choice) with fault := false }, fun _ => rfl, Volume.isSome_step_flock hx h⟩

theorem enabled_createTemp (strict : Prop) (v : Volume) (stem : Bytes) :
    Enabled strict v (.createTemp stem) := by
  obtain ⟨random, h⟩ :=
    v.exists_step_createTemp { (default : Choice) with fault := false } stem
  exact ⟨_, fun _ => rfl, h⟩

section Rules

variable {strict : Prop} {I : Disk → Prop} {d : Disk} {dir : Dir} {op : FileOp} {β : Type}
  {k : op.Answer → Program β} {Q : β → Disk → Prop}

/-- A call, by its effect. -/
theorem meets_onFile (hi : I d) (hgo : Enabled strict (d.volume dir) op)
    (h : ∀ ch r v', (strict → ch.fault = false) → (d.volume dir).step ch op = some (r, v') →
      Meets Disk.act (Faultless strict) I (k r) (d.set v' dir) Q) :
    Meets Disk.act (Faultless strict) I (onFile dir op >>= k) d Q := by
  refine meets_ask_bind hi ?_ fun ch r d' hg hact => ?_
  · obtain ⟨ch, hg, hsome⟩ := hgo
    obtain ⟨⟨r, v'⟩, hs⟩ := Option.isSome_iff_exists.1 hsome
    refine ⟨{ (default : DiskChoice) with file := ch }, hg, ?_⟩
    rw [Disk.act_file.2 ⟨v', hs, rfl⟩]
    rfl
  · obtain ⟨v', hs, rfl⟩ := Disk.act_file.1 hact
    exact h ch.file r v' hg hs

/-- A call, by whether it fails. -/
theorem meets_call (hi : I d) (hgo : Enabled strict (d.volume dir) op)
    (hok : ∀ ch r v', ch.fault = false → (d.volume dir).step ch op = some (r, v') →
      Meets Disk.act (Faultless strict) I (k r) (d.set v' dir) Q)
    (hbad : ¬ strict → ∀ ch r v', ch.fault = true → (d.volume dir).step ch op = some (r, v') →
      Meets Disk.act (Faultless strict) I (k r) (d.set v' dir) Q) :
    Meets Disk.act (Faultless strict) I (onFile dir op >>= k) d Q := by
  refine meets_onFile hi hgo fun ch r v' hg hs => ?_
  by_cases hfault : ch.fault = true
  · exact hbad (fun h => by simp [hg h] at hfault) ch r v' hfault hs
  · exact hok ch r v' (by simpa using hfault) hs

/-- A call that returns in any case, by its effect. -/
theorem meets_step (hlock : ∀ fd nonblocking, op ≠ .flock fd nonblocking)
    (htemp : ∀ stem, op ≠ .createTemp stem) (hi : I d)
    (h : ∀ ch r v', (d.volume dir).step ch op = some (r, v') →
      Meets Disk.act (Faultless strict) I (k r) (d.set v' dir) Q) :
    Meets Disk.act (Faultless strict) I (onFile dir op >>= k) d Q :=
  meets_onFile hi ⟨{ (default : Choice) with fault := false }, fun _ => rfl,
    Volume.isSome_step hlock htemp⟩ fun ch r v' _ hs => h ch r v' hs

/-- A call that changes the volume unless it fails. -/
theorem meets_change (good : op.Answer) (bad : Bytes → op.Answer) (v' : Volume)
    (hstep : ∀ ch, (d.volume dir).step ch op =
      some (if ch.fault then (bad ch.text, d.volume dir) else (good, v')))
    (hi : I d) (hok : Meets Disk.act (Faultless strict) I (k good) (d.set v' dir) Q)
    (hbad : ¬ strict → ∀ err, Meets Disk.act (Faultless strict) I (k (bad err)) d Q) :
    Meets Disk.act (Faultless strict) I (onFile dir op >>= k) d Q := by
  refine meets_call hi ⟨{ (default : Choice) with fault := false }, fun _ => rfl, ?_⟩
    (fun ch r w hfault hs => ?_) fun hns ch r w hfault hs => ?_
  · rw [hstep]
    rfl
  · rw [hstep, hfault] at hs
    obtain ⟨rfl, rfl⟩ := Prod.mk.inj (Option.some.inj hs)
    exact hok
  · rw [hstep, hfault] at hs
    obtain ⟨rfl, rfl⟩ := Prod.mk.inj (Option.some.inj hs)
    rw [Disk.set_volume]
    exact hbad hns ch.text

/-- A call that leaves the volume as it is. -/
theorem meets_query (good : op.Answer) (bad : Bytes → op.Answer)
    (hstep : ∀ ch, (d.volume dir).step ch op =
      some (if ch.fault then bad ch.text else good, d.volume dir))
    (hi : I d) (hok : Meets Disk.act (Faultless strict) I (k good) d Q)
    (hbad : ¬ strict → ∀ err, Meets Disk.act (Faultless strict) I (k (bad err)) d Q) :
    Meets Disk.act (Faultless strict) I (onFile dir op >>= k) d Q := by
  have hchange : ∀ ch, (d.volume dir).step ch op =
      some (if ch.fault then (bad ch.text, d.volume dir) else (good, d.volume dir)) := by
    intro ch
    rw [hstep]
    split <;> rfl
  exact meets_change good bad _ hchange hi (by rwa [Disk.set_volume]) hbad

/-- A file is closed whatever the call says. -/
theorem meets_close {fd : ℕ} {k : Option Bytes → Program β}
    (hi : I d) (h : ∀ r, (strict → r = none) → Meets Disk.act (Faultless strict) I (k r)
      (d.set { d.volume dir with fds := (d.volume dir).fds.set fd none } dir) Q) :
    Meets Disk.act (Faultless strict) I (onFile dir (.close fd) >>= k) d Q := by
  refine meets_call hi ⟨{ (default : Choice) with fault := false }, fun _ => rfl, rfl⟩
    (fun ch r w hfault hs => ?_) fun hns ch r w hfault hs => ?_
  · obtain rfl := Volume.step_close hs
    refine h r fun _ => ?_
    simp only [Volume.step, hfault] at hs
    exact (Prod.mk.inj (Option.some.inj hs)).1.symm
  · obtain rfl := Volume.step_close hs
    exact h r fun hstrict => absurd hstrict hns

/-- A write appends the data, or some change is left behind. -/
theorem meets_write {fd : ℕ} {data : Bytes} {k : ℕ × Option Bytes → Program β} {x : Desc}
    (hx : (d.volume dir).desc? fd = some x) (hi : I d)
    (hok : ∀ m, Meets Disk.act (Faultless strict) I (k (data.length, none))
      (d.set ((d.volume dir).modify fd fun i =>
        { i with bytes := i.bytes ++ data, modified := m }) dir) Q)
    (hbad : ¬ strict → ∀ n err change, Meets Disk.act (Faultless strict) I (k (n, some err))
      (d.set ((d.volume dir).modify fd change) dir) Q) :
    Meets Disk.act (Faultless strict) I (onFile dir (.write fd data) >>= k) d Q := by
  refine meets_call hi ⟨{ (default : Choice) with fault := false }, fun _ => rfl,
    Volume.isSome_step (by simp) (by simp)⟩
    (fun ch r w hfault hs => ?_) fun hns ch r w hfault hs => ?_
  · simp only [Volume.step, hx, hfault, Option.isNone_some, Bool.false_eq_true, if_false] at hs
    obtain ⟨rfl, rfl⟩ := Prod.mk.inj (Option.some.inj hs)
    exact hok ch.modified
  · simp only [Volume.step, hx, hfault, Option.isNone_some, Bool.false_eq_true, if_false,
      if_true] at hs
    obtain ⟨rfl, rfl⟩ := Prod.mk.inj (Option.some.inj hs)
    exact hbad hns _ _ _

end Rules

/-! ## Replacing the policy -/

/-- A regular file with these bytes and the owner and permissions of `f`. -/
structure Copies (f : Inode) (data : Bytes) (g : Inode) : Prop where
  kind : g.kind = .regular
  perm : g.perm = f.perm
  uid : g.uid = f.uid
  gid : g.gid = f.gid
  bytes : g.bytes = data

/-- A file that is written under a temporary name. -/
structure Temp (v : Volume) (tempName : Bytes) (t : ℕ) (g : Inode) : Prop where
  lookup : v.names.lookup tempName = some t
  draft : v.files[t]? = some g

/-- The same, while the policy is `f`. -/
structure Draft (v : Volume) (dir : FileInfo) (name : Bytes) (f : Inode) (tempName : Bytes) (t : ℕ)
    (g : Inode) : Prop extends Temp v tempName t g where
  dirInfo : v.dirInfo = dir
  file : v.file? name = some f
  apart : v.names.lookup name ≠ some t
  ne : tempName ≠ name

section Draft

variable {v : Volume} {dir : FileInfo} {name : Bytes} {f g : Inode} {tempName : Bytes} {t : ℕ}

theorem Temp.withFds (h : Temp v tempName t g) (fds : List (Option Desc)) :
    Temp { v with fds := fds } tempName t g := ⟨h.lookup, h.draft⟩

theorem Draft.withFds (h : Draft v dir name f tempName t g) (fds : List (Option Desc)) :
    Draft { v with fds := fds } dir name f tempName t g :=
  ⟨h.toTemp.withFds fds, h.dirInfo, h.file, h.apart, h.ne⟩

theorem Temp.modify (h : Temp v tempName t g) {temp : ℕ} {x : Desc} (hx : v.desc? temp = some x)
    (ht : x.file = t) (change : Inode → Inode) :
    Temp (v.modify temp change) tempName t (change g) := by
  rw [Volume.modify_of_desc? hx, ht]
  exact ⟨h.lookup, by simp [h.draft]⟩

/-- The draft changes, the policy does not. -/
theorem Draft.modify (h : Draft v dir name f tempName t g) {temp : ℕ} {x : Desc}
    (hx : v.desc? temp = some x) (ht : x.file = t) (change : Inode → Inode) :
    Draft (v.modify temp change) dir name f tempName t (change g) := by
  have htemp := h.toTemp.modify hx ht change
  rw [Volume.modify_of_desc? hx, ht] at htemp ⊢
  refine ⟨htemp, h.dirInfo, ?_, h.apart, h.ne⟩
  have hfile := h.file
  simp only [Volume.file?, Option.bind_eq_some_iff] at hfile ⊢
  obtain ⟨o, ho, hf⟩ := hfile
  have hne : t ≠ o := fun heq => h.apart (heq ▸ ho)
  exact ⟨o, ho, by simp [hne, hf]⟩

/-- The draft in the place of the policy. -/
theorem Draft.rename (h : Draft v dir name f tempName t g) :
    ({ v with names := (v.names.erase tempName).insert name t } : Volume).file? name = some g := by
  simp [Volume.file?, h.draft]

/-- The draft given up. -/
theorem Draft.remove (h : Draft v dir name f tempName t g) :
    ({ v with names := v.names.erase tempName } : Volume).file? name = some f := by
  have hfile := h.file
  simpa [Volume.file?, AList.lookup_erase_ne (Ne.symm h.ne)] using hfile

theorem temp_create (v : Volume) (tempName : Bytes) (a : Attr) :
    Temp { v with
        names := v.names.insert tempName v.files.length
        files := v.files ++ [⟨a, []⟩]
        fds := v.fds ++ [some ⟨v.files.length, false⟩] } tempName v.files.length ⟨a, []⟩ :=
  ⟨AList.lookup_insert _, by simp⟩

/-- A draft is created. -/
theorem draft_create (hd : v.dirInfo = dir) (hf : v.file? name = some f)
    (hnew : v.names.lookup tempName = none) (a : Attr) :
    Draft { v with
        names := v.names.insert tempName v.files.length
        files := v.files ++ [⟨a, []⟩]
        fds := v.fds ++ [some ⟨v.files.length, false⟩] }
      dir name f tempName v.files.length ⟨a, []⟩ := by
  simp only [Volume.file?, Option.bind_eq_some_iff] at hf
  obtain ⟨o, ho, hf⟩ := hf
  have hne : name ≠ tempName := by
    rintro rfl
    simp [hnew] at ho
  have hlt : o < v.files.length := (List.getElem?_eq_some_iff.1 hf).1
  have ho' : (v.names.insert tempName v.files.length).lookup name = some o := by
    rw [AList.lookup_insert_ne hne, ho]
  refine ⟨temp_create v tempName a, hd, ?_, ?_, Ne.symm hne⟩
  · simp only [Volume.file?, ho', Option.bind_some]
    rw [List.getElem?_append_left hlt, hf]
  · rw [ho']
    intro heq
    exact absurd (Option.some.inj heq) (Nat.ne_of_lt hlt)

end Draft

/-- The result of a reading program, unless a call has failed. -/
def Yields {α : Type} (strict : Prop) (result r : Except Bytes α) : Prop :=
  r = result ∨ ¬ strict ∧ ∃ err, r = .error err

section Writing

variable {strict : Prop} {I : Disk → Prop} {e : Editor} {v R : Volume} {dir : FileInfo} {f : Inode}
  {data : Bytes} {tempName : Bytes} {temp t : ℕ} {g : Inode}

theorem metadata_meets {d : Disk} (hf : d.policy.file? e.name = some f) (hi : I d) :
    Meets Disk.act (Faultless strict) I e.metadata d fun r d' =>
      d' = d ∧ Yields strict (e.checkMetadata f.info) r := by
  unfold Editor.metadata
  refine meets_query (.ok f.info) .error (fun ch => ?_) hi (meets_pure hi ⟨rfl, .inl rfl⟩)
    fun hns err => meets_pure hi ⟨rfl, .inr ⟨hns, _, rfl⟩⟩
  change d.policy.step ch _ = some (_, d.policy)
  simp [Volume.step, hf]

theorem lockPolicy_meets {o : ℕ} (ho : v.names.lookup e.name = some o) (hf : v.files[o]? = some f)
    (hkind : f.kind ≠ .symlink) (hfree : strict → ∀ fd, v.desc? fd ≠ some ⟨o, true⟩)
    (hi : ∀ v', v.Still v' → I ⟨v', R⟩) :
    Meets Disk.act (Faultless strict) I e.lockPolicy ⟨v, R⟩ fun r d' =>
      (∃ v', v.Still v' ∧ d' = ⟨v', R⟩) ∧ (strict → ∃ fd, r = .ok fd) := by
  have still : ∀ fds, v.Still { v with fds := fds } := fun _ => ⟨rfl, rfl, rfl, rfl⟩
  have hid : I ⟨v, R⟩ := hi v ⟨rfl, rfl, rfl, rfl⟩
  unfold Editor.lockPolicy
  refine meets_change (.ok v.fds.length) .error { v with fds := v.fds ++ [some ⟨o, false⟩] }
    (fun ch => ?_) hid ?_
    fun hns err => meets_pure hid ⟨⟨v, ⟨rfl, rfl, rfl, rfl⟩, rfl⟩, fun hs => absurd hs hns⟩
  · have hfile : v.file? e.name = some f := by simp [Volume.file?, ho, hf]
    change v.step ch _ = some (if _ then (_, v) else _)
    simp only [Volume.step, ho, hfile, beq_eq_false_iff_ne.2 hkind, Bool.or_false]
    split <;> rfl
  · let v₁ : Volume := { v with fds := v.fds ++ [some ⟨o, false⟩] }
    have hopen : I ⟨v₁, R⟩ := hi v₁ (still _)
    have hdesc : ∀ k, v₁.desc? k = if k = v.fds.length then some ⟨o, false⟩ else v.desc? k :=
      Volume.desc?_open v ⟨o, false⟩
    have hfd : v₁.desc? v.fds.length = some ⟨o, false⟩ := by rw [hdesc, if_pos rfl]
    -- the descriptor just opened is the only one that may hold the lock
    have hheld : strict → v₁.held o v.fds.length = false := by
      intro hs
      refine List.any_eq_false.2 fun k _ => ?_
      by_cases hk : k = v.fds.length
      · simp [hk]
      · simp [hdesc, hk, hfree hs k]
    refine meets_onFile hopen ?_ fun ch r w hg hs => ?_
    · by_cases hs : strict
      · exact enabled_flock hfd (hheld hs)
      · exact ⟨{ (default : Choice) with fault := true }, fun h => absurd h hs,
          Volume.isSome_step_fault rfl _⟩
    · change v₁.step ch _ = _ at hs
      cases r with
      | none =>
        obtain ⟨x, -, -, rfl⟩ := Volume.step_flock hs
        exact meets_pure (hi _ (still _)) ⟨⟨_, still _, rfl⟩, fun _ => ⟨_, rfl⟩⟩
      | some err =>
        have hns : ¬ strict := by
          intro h
          simp [Volume.step, hfd, hheld h, hg h] at hs
        obtain rfl := Volume.step_inert hs (by simp [Volume.Inert])
        refine meets_close hopen fun r _ => ?_
        have hend := hi _ (still (v₁.fds.set v.fds.length none))
        cases err with
        | wouldBlock =>
          change Meets _ _ _ (if _ then _ else _) _ _
          split <;> exact meets_pure hend ⟨⟨_, still _, rfl⟩, fun hs => absurd hs hns⟩
        | other text => exact meets_pure hend ⟨⟨_, still _, rfl⟩, fun hs => absurd hs hns⟩

theorem discardTemp_meets {err : Bytes} (hd : Draft v dir e.name f tempName t g)
    (hu : ∀ v', v'.dirInfo = dir → v'.file? e.name = some f → I ⟨v', R⟩) :
    Meets Disk.act (Faultless strict) I (Editor.discardTemp tempName err) ⟨v, R⟩ fun _ d' =>
      ∃ v', d' = ⟨v', R⟩ ∧ v'.dirInfo = dir ∧ v'.file? e.name = some f := by
  have hid := hu v hd.dirInfo hd.file
  unfold Editor.discardTemp
  refine meets_change none some { v with names := v.names.erase tempName } (fun ch => ?_) hid ?_
    fun _ err => meets_pure hid ⟨v, rfl, hd.dirInfo, hd.file⟩
  · change v.step ch _ = some (if _ then (_, v) else _)
    simp only [Volume.step, hd.lookup, Option.isNone_some, Bool.or_false]
    split <;> rfl
  · exact meets_pure (hu _ hd.dirInfo hd.remove) ⟨_, rfl, hd.dirInfo, hd.remove⟩

/-- The draft is open. -/
def Filling (v : Volume) (dir : FileInfo) (name : Bytes) (f : Inode) (tempName : Bytes) (temp t : ℕ)
    (g : Inode) : Prop :=
  Draft v dir name f tempName t g ∧ v.desc? temp = some ⟨t, false⟩

theorem Filling.modify {name : Bytes} (h : Filling v dir name f tempName temp t g)
    (change : Inode → Inode) :
    Filling (v.modify temp change) dir name f tempName temp t (change g) :=
  ⟨h.1.modify h.2 rfl change, (Volume.desc?_modify v temp change temp).trans h.2⟩

/-- How far `fillTemp` has come: with an error, or with a draft as it should be. -/
def Filled (strict : Prop) (dir : FileInfo) (name : Bytes) (f : Inode) (tempName : Bytes)
    (temp t : ℕ) (R : Volume) (Good : Inode → Prop) (r : Option Bytes) (d' : Disk) : Prop :=
  (strict → r = none) ∧
    ∃ v' g', d' = ⟨v', R⟩ ∧ Filling v' dir name f tempName temp t g' ∧ (r = none → Good g')

section Filling

variable (hu : ∀ v', v'.dirInfo = dir → v'.file? e.name = some f → I ⟨v', R⟩)
include hu

theorem filled_error {Good : Inode → Prop} {err : Bytes} (hns : ¬ strict)
    (hd : Filling v dir e.name f tempName temp t g) :
    Meets Disk.act (Faultless strict) I (pure (some err) : Program (Option Bytes)) ⟨v, R⟩
      (Filled strict dir e.name f tempName temp t R Good) :=
  meets_pure (hu v hd.1.dirInfo hd.1.file)
    ⟨fun hs => absurd hs hns, v, g, rfl, hd, by simp⟩

theorem preserveOwner_meets (hd : Filling v dir e.name f tempName temp t g)
    (hkind : g.kind = .regular) (hbytes : g.bytes = []) :
    Meets Disk.act (Faultless strict) I (Editor.preserveOwner temp g.info f.info.stamp) ⟨v, R⟩
      (Filled strict dir e.name f tempName temp t R fun g' =>
        g'.kind = .regular ∧ g'.uid = f.uid ∧ g'.gid = f.gid ∧ g'.bytes = []) := by
  have hid := hu v hd.1.dirInfo hd.1.file
  unfold Editor.preserveOwner
  split
  · have hd' := hd.modify fun i => { i with uid := f.uid, gid := f.gid }
    rw [← bind_pure (onFile _ _)]
    refine meets_change none some (v.modify temp fun i => { i with uid := f.uid, gid := f.gid })
      (fun ch => ?_) hid ?_ fun hns err => filled_error hu hns hd
    · change v.step ch _ = some (if _ then (_, v) else _)
      simp only [Volume.step, hd.2, Option.isNone_some, Bool.or_false]
      split <;> rfl
    · exact meets_pure (hu _ hd'.1.dirInfo hd'.1.file) ⟨fun _ => rfl, _, _, rfl, hd',
        fun _ => ⟨hkind, rfl, rfl, hbytes⟩⟩
  · next h =>
    obtain ⟨huid, hgid⟩ : g.uid = f.uid ∧ g.gid = f.gid := by
      simpa [Inode.info, FileInfo.stamp] using h
    exact meets_pure hid ⟨fun _ => rfl, v, g, rfl, hd, fun _ => ⟨hkind, huid, hgid, hbytes⟩⟩

theorem fillTemp_meets (hd : Filling v dir e.name f tempName temp t g) (hkind : g.kind = .regular)
    (hbytes : g.bytes = []) :
    Meets Disk.act (Faultless strict) I (Editor.fillTemp temp data f.info.stamp) ⟨v, R⟩
      (Filled strict dir e.name f tempName temp t R (Copies f data)) := by
  unfold Editor.fillTemp
  refine meets_query (.ok g.info) .error (fun ch => ?_) (hu v hd.1.dirInfo hd.1.file) ?_
    fun hns err => filled_error hu hns hd
  · have hg : v.behind? temp = some g := by simp [Volume.behind?, hd.2, hd.1.draft]
    change v.step ch _ = some (_, v)
    simp [Volume.step, hg]
  refine meets_bind (preserveOwner_meets hu hd hkind hbytes) fun r d' hid h => ?_
  obtain ⟨hstrict, v₁, g₁, rfl, hd₁, hg₁⟩ := h
  cases r with
  | some err => exact filled_error hu (fun hs => by simpa using hstrict hs) hd₁
  | none =>
    obtain ⟨hkind₁, huid, hgid, hbytes₁⟩ := hg₁ rfl
    have hd₂ := hd₁.modify fun i => { i with perm := f.perm }
    refine meets_change none some (v₁.modify temp fun i => { i with perm := f.perm })
      (fun ch => ?_) hid ?_ fun hns err => filled_error hu hns hd₁
    · change v₁.step ch _ = some (if _ then (_, v₁) else _)
      simp only [Volume.step, hd₁.2, Option.isNone_some, Bool.or_false]
      split <;> rfl
    refine meets_write hd₂.2 (hu _ hd₂.1.dirInfo hd₂.1.file) (fun m => ?_)
      fun hns n err change => filled_error hu hns (hd₂.modify change)
    have hd₃ := hd₂.modify fun i => { i with bytes := i.bytes ++ data, modified := m }
    refine meets_query none some (fun ch => rfl) (hu _ hd₃.1.dirInfo hd₃.1.file) ?_
      fun hns err => filled_error hu hns hd₃
    refine meets_pure (hu _ hd₃.1.dirInfo hd₃.1.file) ⟨fun _ => rfl, _, _, rfl, hd₃, fun _ => ?_⟩
    exact ⟨hkind₁, rfl, huid, hgid, by simp [hbytes₁]⟩

end Filling

theorem syncParent_meets (hid : I ⟨v, R⟩) :
    Meets Disk.act (Faultless strict) I Editor.syncParent ⟨v, R⟩ fun r d' =>
      d' = ⟨v, R⟩ ∧ (strict → r = none) := by
  unfold Editor.syncParent
  refine meets_query none some (fun ch => rfl) hid ?_
    fun hns err => meets_pure hid ⟨rfl, fun hs => absurd hs hns⟩
  refine meets_query none some (fun ch => rfl) hid ?_ fun hns err => ?_
  · exact meets_query none some (fun ch => rfl) hid (meets_pure hid ⟨rfl, fun _ => rfl⟩)
      fun hns err => meets_pure hid ⟨rfl, fun _ => rfl⟩
  · exact meets_query none some (fun ch => rfl) hid
      (meets_pure hid ⟨rfl, fun hs => absurd hs hns⟩)
      fun _ _ => meets_pure hid ⟨rfl, fun hs => absurd hs hns⟩

theorem requireSame_meets {message : Bytes} (hf : v.file? e.name = some f)
    (hmeta : e.checkMetadata f.info = .ok f.info.stamp) (hid : I ⟨v, R⟩) :
    Meets Disk.act (Faultless strict) I (e.requireSame f.info.stamp message) ⟨v, R⟩ fun r d' =>
      d' = ⟨v, R⟩ ∧ (strict → r = none) := by
  unfold Editor.requireSame
  refine meets_bind (metadata_meets (d := ⟨v, R⟩) hf hid) fun r d' _ hpost => ?_
  obtain ⟨hd', hr⟩ := hpost
  subst d'
  rcases hr with rfl | ⟨hns, err, rfl⟩
  · simp only [hmeta, (sameFile_iff _ _).2 rfl, if_true]
    exact meets_pure hid ⟨rfl, fun _ => rfl⟩
  · exact meets_pure hid ⟨rfl, fun hs => absurd hs hns⟩

/-- The policy is still `f`, which takes a failed call, or it has been replaced. -/
def Replaced (strict : Prop) (name : Bytes) (dir : FileInfo) (f : Inode) (data : Bytes) (R : Volume)
    (r : Option Bytes) (d' : Disk) : Prop :=
  (strict → r = none) ∧ ∃ v', d' = ⟨v', R⟩ ∧ v'.dirInfo = dir ∧
    (¬ strict ∧ v'.file? name = some f ∨ ∃ g, v'.file? name = some g ∧ Copies f data g)

section Replacing

variable (hu : ∀ v', v'.dirInfo = dir → v'.file? e.name = some f → I ⟨v', R⟩)
  (hr : ∀ v' g, v'.dirInfo = dir → v'.file? e.name = some g → Copies f data g → I ⟨v', R⟩)
  (hmeta : e.checkMetadata f.info = .ok f.info.stamp)
include hu

theorem discarded {err : Bytes} (hd : Draft v dir e.name f tempName t g) (hns : ¬ strict) :
    Meets Disk.act (Faultless strict) I (Editor.discardTemp tempName err) ⟨v, R⟩
      (Replaced strict e.name dir f data R) := by
  refine meets_mono (discardTemp_meets hd hu) (fun _ h => h) fun _ _ hpost => ?_
  obtain ⟨v', hd', hdir, hf⟩ := hpost
  exact ⟨fun hs => absurd hs hns, v', hd', hdir, .inl ⟨hns, hf⟩⟩

include hr hmeta

theorem install_meets (hd : Draft v dir e.name f tempName t g) (hg : Copies f data g) :
    Meets Disk.act (Faultless strict) I (e.install tempName f.info.stamp) ⟨v, R⟩
      (Replaced strict e.name dir f data R) := by
  have hid := hu v hd.dirInfo hd.file
  unfold Editor.install
  refine meets_bind (requireSame_meets hd.file hmeta hid) fun r d' _ hpost => ?_
  obtain ⟨hd', hstrict⟩ := hpost
  subst d'
  cases r with
  | some err => exact discarded hu hd fun hs => by simpa using hstrict hs
  | none =>
    have hnew := hr { v with names := (v.names.erase tempName).insert e.name t } g hd.dirInfo
      hd.rename hg
    refine meets_change none some { v with names := (v.names.erase tempName).insert e.name t }
      (fun ch => ?_) hid ?_ fun hns err => discarded hu hd hns
    · change v.step ch _ = some (if _ then (_, v) else _)
      simp only [Volume.step, hd.lookup]
      split <;> rfl
    · refine meets_mono (syncParent_meets hnew) (fun _ h => h) fun r d' hpost => ?_
      obtain ⟨hd', hstrict⟩ := hpost
      exact ⟨hstrict, _, hd', hd.dirInfo, .inr ⟨g, hd.rename, hg⟩⟩

theorem replaceLocked_meets (hdir : v.dirInfo = dir) (hf : v.file? e.name = some f) :
    Meets Disk.act (Faultless strict) I (e.replaceLocked data f.info.stamp) ⟨v, R⟩
      (Replaced strict e.name dir f data R) := by
  have hid := hu v hdir hf
  unfold Editor.replaceLocked
  refine meets_bind (requireSame_meets hf hmeta hid) fun r d' _ hpost => ?_
  obtain ⟨hd', hstrict⟩ := hpost
  subst d'
  cases r with
  | some err =>
    have hns : ¬ strict := fun hs => by simpa using hstrict hs
    exact meets_pure hid ⟨fun hs => absurd hs hns, v, rfl, hdir, .inl ⟨hns, hf⟩⟩
  | none =>
    refine meets_call hid (enabled_createTemp strict _ _) (fun ch r w hfault hs => ?_)
      fun hns ch r w hfault hs => ?_
    · cases r with
      | error err => simp [Volume.step, hfault] at hs
      | ok x =>
        obtain ⟨temp, tempName⟩ := x
        change v.step ch _ = _ at hs
        obtain ⟨hnew, -, rfl, rfl⟩ := Volume.step_createTemp hs
        have hd := draft_create hdir hf hnew { ch.fresh with kind := .regular, special := false }
        refine meets_bind (fillTemp_meets hu ⟨hd, by simp [Volume.desc?]⟩ rfl rfl)
          fun r d' hid' h => ?_
        obtain ⟨hstrict, v', g, rfl, hd', hg⟩ := h
        have hclosed := hd'.1.withFds (v'.fds.set v.fds.length none)
        cases r with
        | some err =>
          exact meets_close hid' fun _ _ => discarded hu hclosed fun hs => by simpa using hstrict hs
        | none =>
          refine meets_close hid' fun r hr' => ?_
          cases r with
          | some err => exact discarded hu hclosed fun hs => by simpa using hr' hs
          | none => exact install_meets hu hr hmeta hclosed (hg rfl)
    · cases r with
      | error err =>
        obtain rfl := Volume.step_inert hs ⟨err, rfl⟩
        exact meets_pure hid ⟨fun hs => absurd hs hns, w, rfl, hdir, .inl ⟨hns, hf⟩⟩
      | ok x => simp [Volume.step, hfault] at hs

/-- **What `writeAtomic` guarantees.** Wherever it is stopped, the policy is the old file or a copy
of it with the new bytes; without a failed call it ends without an error and with the copy. -/
theorem writeAtomic_meets {o : ℕ} (hdir : v.dirInfo = dir) (ho : v.names.lookup e.name = some o)
    (hf : v.files[o]? = some f) (hfree : strict → ∀ fd, v.desc? fd ≠ some ⟨o, true⟩)
    (hlen : data.length ≤ maxPolicyBytes) :
    Meets Disk.act (Faultless strict) I (e.writeAtomic data f.info.stamp) ⟨v, R⟩
      (Replaced strict e.name dir f data R) := by
  have hfile : v.file? e.name = some f := by simp [Volume.file?, ho, hf]
  have hkind : f.kind ≠ .symlink := by
    intro hk
    have : f.info.kind = .symlink := hk
    simp [Editor.checkMetadata, this] at hmeta
  have hstill : ∀ v', v.Still v' → v'.dirInfo = dir ∧ v'.file? e.name = some f := fun v' h =>
    ⟨h.dirInfo.trans hdir, (h.file? e.name).trans hfile⟩
  unfold Editor.writeAtomic
  rw [if_neg (by omega)]
  refine meets_bind (lockPolicy_meets ho hf hkind hfree fun v' h => hu v' (hstill v' h).1
    (hstill v' h).2) fun r d' hid hpost => ?_
  obtain ⟨⟨v', hv', hd'⟩, hstrict⟩ := hpost
  subst d'
  obtain ⟨hdir', hfile'⟩ := hstill v' hv'
  cases r with
  | error err =>
    have hns : ¬ strict := fun hs => by simpa using hstrict hs
    exact meets_pure hid ⟨fun hs => absurd hs hns, v', rfl, hdir', .inl ⟨hns, hfile'⟩⟩
  | ok lock =>
    refine meets_bind (replaceLocked_meets hu hr hmeta hdir' hfile') fun r d' hid h => ?_
    obtain ⟨hstrict, w, rfl, hdir, hend⟩ := h
    refine meets_close hid fun _ _ => ?_
    refine meets_pure ?_ ⟨hstrict, _, rfl, hdir, hend⟩
    rcases hend with ⟨-, hold⟩ | ⟨g, hnew, hg⟩
    · exact hu _ hdir hold
    · exact hr _ g hdir hnew hg

end Replacing

end Writing

/-! ## Reading -/

variable [Platform]

/-- What `securefile.Read` finds in a file. -/
def readResult (path : Bytes) (f : Inode) (maxBytes : ℕ) (forbidden : UInt32) (allowRoot : Bool)
    (euid : UInt32) : Except Bytes Bytes :=
  match checkFile path f.info forbidden allowRoot euid with
  | .error e => .error e
  | .ok () =>
    if f.bytes.length > maxBytes then
      .error (quote path ++ str " exceeds " ++ itoa maxBytes ++ str " bytes")
    else .ok f.bytes

/-- What `readPolicy` finds in a directory with this policy. -/
def Editor.judge (e : Editor) (dir : FileInfo) (f : Inode) :
    Except Bytes (Bytes × Config × Stamp) :=
  match checkTrustedDir e.dir dir e.euid with
  | .error err => .error (str "validating policy directory: " ++ err)
  | .ok () =>
    match e.checkMetadata f.info with
    | .error err => .error err
    | .ok stamp =>
      match readResult e.path f maxPolicyBytes 0o022 true e.euid with
      | .error err => .error (str "reading policy: " ++ err)
      | .ok data => (e.interpret data).map fun cfg => (data, cfg, stamp)

section Reading

variable {strict : Prop} {I : Disk → Prop} {d : Disk} {dir : Dir} {f : Inode} {o : ℕ}
  {path name : Bytes} {maxBytes : ℕ} {forbidden : UInt32} {allowRoot : Bool} {euid : UInt32}

theorem readOpen_meets {fd : ℕ} (hf : (d.volume dir).behind? fd = some f) (hi : I d) :
    Meets Disk.act (Faultless strict) I
      (readOpen dir path fd maxBytes forbidden allowRoot euid) d fun r d' =>
        d' = d ∧ Yields strict (readResult path f maxBytes forbidden allowRoot euid) r := by
  unfold readOpen
  refine meets_query (.ok f.info) .error (fun ch => by simp [Volume.step, hf]) hi
    ?_ fun hns err => meets_pure hi ⟨rfl, .inr ⟨hns, _, rfl⟩⟩
  dsimp only
  cases hcheck : checkFile path f.info forbidden allowRoot euid with
  | error e => exact meets_pure hi ⟨rfl, .inl (by simp [readResult, hcheck])⟩
  | ok u =>
    refine meets_query (.ok (f.bytes.take (maxBytes + 1))) .error
      (fun ch => by simp [Volume.step, hf]) hi ?_
      fun hns err => meets_pure hi ⟨rfl, .inr ⟨hns, _, rfl⟩⟩
    -- one byte more than allowed is read, so a file that fits is read whole
    have hlen : (f.bytes.take (maxBytes + 1)).length > maxBytes ↔ f.bytes.length > maxBytes := by
      rw [List.length_take]
      omega
    change Meets _ _ _ (if (f.bytes.take (maxBytes + 1)).length > maxBytes then _ else _) _ _
    split
    · next h =>
      exact meets_pure hi ⟨rfl, .inl (by simp only [readResult, hcheck, if_pos (hlen.1 h)])⟩
    · next h =>
      have hle : ¬ f.bytes.length > maxBytes := fun h' => h (hlen.2 h')
      refine meets_pure hi ⟨rfl, .inl ?_⟩
      simp only [readResult, hcheck, if_neg hle]
      rw [List.take_of_length_le (by omega)]

theorem secureRead_meets (ho : (d.volume dir).names.lookup name = some o)
    (hf : (d.volume dir).files[o]? = some f) (hkind : f.kind ≠ .symlink)
    (hi : ∀ v', (d.volume dir).Still v' → I (d.set v' dir)) :
    Meets Disk.act (Faultless strict) I
      (secureRead dir path name maxBytes forbidden allowRoot euid) d fun r d' =>
        (∃ v', (d.volume dir).Same v' ∧ d' = d.set v' dir) ∧
          Yields strict (readResult path f maxBytes forbidden allowRoot euid) r := by
  have hid : I d := by simpa using hi _ (Volume.Same.refl _).toStill
  unfold secureRead
  refine meets_change (.ok (d.volume dir).fds.length) .error
    { d.volume dir with fds := (d.volume dir).fds ++ [some ⟨o, false⟩] } (fun ch => ?_) hid ?_
    fun hns err => meets_pure hid ⟨⟨_, Volume.Same.refl _, by simp⟩, .inr ⟨hns, _, rfl⟩⟩
  · have hfile : (d.volume dir).file? name = some f := by simp [Volume.file?, ho, hf]
    simp only [Volume.step, ho, hfile, beq_eq_false_iff_ne.2 hkind, Bool.or_false]
    split <;> rfl
  · refine meets_bind (readOpen_meets (f := f) ?_ (hi _ ⟨rfl, rfl, rfl, rfl⟩))
      fun r d' hid' hpost => ?_
    · simp [Volume.behind?, Volume.desc?_open, hf]
    · obtain ⟨rfl, hr⟩ := hpost
      refine meets_close hid' fun _ _ => ?_
      have hsame := Volume.same_open_close (d.volume dir) ⟨o, false⟩
      simp only [Disk.volume_set, Disk.set_set]
      exact meets_pure (hi _ hsame.toStill) ⟨⟨_, hsame, rfl⟩, hr⟩

theorem validateTrustedDir_meets (hi : I d) :
    Meets Disk.act (Faultless strict) I (validateTrustedDir .policy path euid) d fun r d' =>
      d' = d ∧ Yields strict (checkTrustedDir path d.policy.dirInfo euid) r := by
  unfold validateTrustedDir
  exact meets_query (.ok d.policy.dirInfo) .error (fun ch => rfl) hi (meets_pure hi ⟨rfl, .inl rfl⟩)
    fun hns err => meets_pure hi ⟨rfl, .inr ⟨hns, _, rfl⟩⟩

theorem readPolicy_meets {e : Editor} (ho : d.policy.names.lookup e.name = some o)
    (hf : d.policy.files[o]? = some f)
    (hi : ∀ v', d.policy.Still v' → I { d with policy := v' }) :
    Meets Disk.act (Faultless strict) I e.readPolicy d fun r d' =>
      (∃ v', d.policy.Same v' ∧ d' = { d with policy := v' }) ∧
        Yields strict (e.judge d.policy.dirInfo f) r := by
  have hid : I d := hi d.policy (Volume.Same.refl _).toStill
  have hfile : d.policy.file? e.name = some f := by simp [Volume.file?, ho, hf]
  have hnow : ∃ v', d.policy.Same v' ∧ d = { d with policy := v' } :=
    ⟨d.policy, Volume.Same.refl _, rfl⟩
  unfold Editor.readPolicy
  refine meets_bind (validateTrustedDir_meets hid) fun r d' _ hpost => ?_
  obtain ⟨hd', hr⟩ := hpost
  subst d'
  rcases hr with rfl | ⟨hns, err, rfl⟩
  case inr => exact meets_pure hid ⟨hnow, .inr ⟨hns, _, rfl⟩⟩
  cases hdir : checkTrustedDir e.dir d.policy.dirInfo e.euid with
  | error err => exact meets_pure hid ⟨hnow, .inl (by simp [Editor.judge, hdir])⟩
  | ok u =>
    refine meets_bind (metadata_meets hfile hid) fun r d' _ hpost => ?_
    obtain ⟨hd', hr⟩ := hpost
    subst d'
    rcases hr with rfl | ⟨hns, err, rfl⟩
    case inr => exact meets_pure hid ⟨hnow, .inr ⟨hns, _, rfl⟩⟩
    cases hmeta : e.checkMetadata f.info with
    | error err => exact meets_pure hid ⟨hnow, .inl (by simp [Editor.judge, hdir, hmeta])⟩
    | ok stamp =>
      have hkind : f.kind ≠ .symlink := by
        intro hk
        have : f.info.kind = .symlink := hk
        simp [Editor.checkMetadata, this] at hmeta
      have hread := @secureRead_meets _ strict I d .policy f o e.path e.name maxPolicyBytes 0o022
        true e.euid ho hf hkind hi
      refine meets_bind hread fun r d' hid' hpost => ?_
      obtain ⟨⟨v', hsame, hd'⟩, hr⟩ := hpost
      have hnow' : ∃ v', d.policy.Same v' ∧ d' = { d with policy := v' } := ⟨v', hsame, hd'⟩
      rcases hr with rfl | ⟨hns, err, rfl⟩
      case inr => exact meets_pure hid' ⟨hnow', .inr ⟨hns, _, rfl⟩⟩
      cases hres : readResult e.path f maxPolicyBytes 0o022 true e.euid with
      | error err => exact meets_pure hid' ⟨hnow', .inl (by simp [Editor.judge, hdir, hmeta, hres])⟩
      | ok data =>
        have hfile' : d'.policy.file? e.name = some f := by
          rw [hd']
          exact (hsame.file? e.name).trans hfile
        refine meets_bind (metadata_meets hfile' hid') fun r d'' _ hpost => ?_
        obtain ⟨hd'', hr⟩ := hpost
        subst d''
        rcases hr with rfl | ⟨hns, err, rfl⟩
        case inr => exact meets_pure hid' ⟨hnow', .inr ⟨hns, _, rfl⟩⟩
        have hmatch : sameFile stamp stamp = true := (sameFile_iff stamp stamp).2 rfl
        simp only [hmeta, hmatch, Bool.not_true, Bool.false_eq_true, if_false]
        cases hcfg : e.interpret data with
        | error err =>
          exact meets_pure hid' ⟨hnow', .inl (by simp [Editor.judge, hdir, hmeta, hres, hcfg,
            Except.map])⟩
        | ok cfg =>
          exact meets_pure hid' ⟨hnow', .inl (by simp [Editor.judge, hdir, hmeta, hres, hcfg,
            Except.map])⟩

end Reading

end SecretsBroker.Admin
