import SecretsBroker.Admin.Publication
import SecretsBroker.Foundations.Interference

/-!
# Publishing at the same time

Any number of `Publish` calls on one recovery directory, interleaved in any order and cut off
anywhere. A `Scene` is the disk together with what identifies the artifacts: the file that each
`Publish` has created and the time it has read. Each `Publish` relies on the others to leave its
file, its temporary name and its descriptor alone (`Spares`), and it leaves theirs alone
(`publish_guards`).

`sound_of_reaches` is the result: a name of the directory is a temporary one, or it is the
identifier of a `Publish` and leads to the complete artifact that this `Publish` has made.
-/

namespace SecretsBroker.Admin

open Files Interaction

/-- The disk, with the time that each `Publish` has read and the file that it has created. -/
structure Scene (ι : Type) where
  disk : Disk
  time : ι → ℕ
  file : ι → Option ℕ

/-- What the names of temporary artifacts begin with. -/
def tempStem : Bytes := str ".recovery.tmp-"

/-- The name is one that `CreateTemp` gives. -/
def IsTemp (name : Bytes) : Prop := tempStem <+: name

theorem not_isTemp_of_valid {recoveryID : Bytes} (h : validateRecoveryID recoveryID = .ok ()) :
    ¬ IsTemp recoveryID := by
  rintro ⟨rest, rfl⟩
  have hdot : (0x2E : UInt8) ∈ tempStem := by decide +kernel
  have := RecoveryStore.lowerHex_of_validateRecoveryID h 0x2E (List.mem_append_left rest hdot)
  simp [isLowerHex] at this

section Acting

variable {ι : Type} [DecidableEq ι]

/-- The scene after an answered call. -/
def Scene.after (w : Scene ι) (i : ι) (d : Disk) : (c : Call) → c.Answer → Scene ι
  | .now, now => { w with disk := d, time := Function.update w.time i now }
  | .file .recovery (.createTemp _), .ok _ =>
    { w with disk := d, file := Function.update w.file i (some w.disk.recovery.files.length) }
  | _, _ => { w with disk := d }

/-- A call of one `Publish`; a file that is created belongs to the effective user. -/
def Scene.act (euid : UInt32) (i : ι) (w : Scene ι) (ch : DiskChoice) (c : Call) :
    Option (c.Answer × Scene ι) :=
  if orderly euid true ch.file c then (w.disk.act ch c).map fun x => (x.1, w.after i x.2 c x.1)
  else none

theorem Scene.act_eq_some {euid : UInt32} {i : ι} {w w' : Scene ι} {ch : DiskChoice} {c : Call}
    {r : c.Answer} : w.act euid i ch c = some (r, w') ↔ orderly euid true ch.file c = true ∧
      ∃ d, w.disk.act ch c = some (r, d) ∧ w' = w.after i d c r := by
  unfold Scene.act
  split_ifs with h
  · simp only [h, Option.map_eq_some_iff, true_and, Prod.mk.injEq]
    constructor
    · rintro ⟨⟨r', d⟩, hact, rfl, rfl⟩
      exact ⟨d, hact, rfl⟩
    · rintro ⟨d, hact, rfl⟩
      exact ⟨(r, d), hact, rfl, rfl⟩
  · simp [h]

/-- The scene with another recovery directory. -/
def Scene.withVolume (w : Scene ι) (v : Volume) : Scene ι :=
  { w with disk := { w.disk with recovery := v } }

omit [DecidableEq ι] in
@[simp] theorem Scene.recovery_withVolume (w : Scene ι) (v : Volume) :
    (w.withVolume v).disk.recovery = v := rfl

omit [DecidableEq ι] in
@[simp] theorem Scene.time_withVolume (w : Scene ι) (v : Volume) : (w.withVolume v).time = w.time :=
  rfl

omit [DecidableEq ι] in
@[simp] theorem Scene.file_withVolume (w : Scene ι) (v : Volume) : (w.withVolume v).file = w.file :=
  rfl

end Acting

/-! ## What the others leave alone -/

/-- The file `o`, the temporary names that lead to it and its descriptors are as they were, and
there is no new name for it. -/
structure FileSpared (o : ℕ) (v v' : Volume) : Prop where
  contents : v'.files[o]? = v.files[o]?
  kept : ∀ name, IsTemp name → v.names.lookup name = some o → v'.names.lookup name = some o
  only : ∀ name, v'.names.lookup name = some o → v.names.lookup name = some o
  desc : ∀ fd l, v.desc? fd = some ⟨o, l⟩ → v'.desc? fd = some ⟨o, l⟩

theorem FileSpared.refl (o : ℕ) (v : Volume) : FileSpared o v v :=
  ⟨rfl, fun _ _ h => h, fun _ h => h, fun _ _ h => h⟩

theorem FileSpared.trans {o : ℕ} {v v' v'' : Volume} (h : FileSpared o v v')
    (h' : FileSpared o v' v'') : FileSpared o v v'' :=
  ⟨h'.contents.trans h.contents, fun n hn ho => h'.kept n hn (h.kept n hn ho),
    fun n ho => h.only n (h'.only n ho), fun fd l hd => h'.desc fd l (h.desc fd l hd)⟩

/-- What a `Publish` relies on. -/
structure Spares {ι : Type} (i : ι) (w w' : Scene ι) : Prop where
  time : w'.time i = w.time i
  file : w'.file i = w.file i
  spared : ∀ t, w.file i = some t → FileSpared t w.disk.recovery w'.disk.recovery

theorem Spares.refl {ι : Type} (i : ι) (w : Scene ι) : Spares i w w :=
  ⟨rfl, rfl, fun t _ => .refl t _⟩

theorem Spares.trans {ι : Type} {i : ι} {w w' w'' : Scene ι} (h : Spares i w w')
    (h' : Spares i w' w'') : Spares i w w'' :=
  ⟨h'.time.trans h.time, h'.file.trans h.file, fun t ht =>
    (h.spared t ht).trans (h'.spared t (h.file.trans ht))⟩

/-- A step changes one file at most, and its names and descriptors. -/
structure Touches (own : Option ℕ) (v v' : Volume) : Prop where
  dirLink : v'.dirLink = v.dirLink
  length : v'.files.length = v.files.length
  spared : ∀ o, own ≠ some o → FileSpared o v v'

/-! ## What a `Publish` knows of its file -/

section Assertions

variable {ι : Type} {i : ι} {t temp now : ℕ} {tempName : Bytes} {g : Inode} {w w' : Scene ι}

/-- Its file is under its temporary name. -/
structure Owns (i : ι) (t : ℕ) (tempName : Bytes) (w : Scene ι) : Prop where
  file : w.file i = some t
  isTemp : IsTemp tempName
  lookup : w.disk.recovery.names.lookup tempName = some t

/-- Its file is `g` and has no other name. -/
structure Drafting (i : ι) (now t : ℕ) (tempName : Bytes) (g : Inode) (w : Scene ι) : Prop
    extends Owns i t tempName w where
  time : w.time i = now
  only : ∀ name, w.disk.recovery.names.lookup name = some t → name = tempName
  contents : w.disk.recovery.files[t]? = some g

/-- Its file is open as well. -/
structure Writing (i : ι) (now t temp : ℕ) (tempName : Bytes) (g : Inode) (w : Scene ι) : Prop
    extends Drafting i now t tempName g w where
  desc : w.disk.recovery.desc? temp = some ⟨t, false⟩

theorem Owns.stable (h : Owns i t tempName w) (hs : Spares i w w') : Owns i t tempName w' :=
  ⟨hs.file.trans h.file, h.isTemp, (hs.spared t h.file).kept tempName h.isTemp h.lookup⟩

theorem Drafting.stable (h : Drafting i now t tempName g w) (hs : Spares i w w') :
    Drafting i now t tempName g w' where
  toOwns := h.toOwns.stable hs
  time := hs.time.trans h.time
  only name hname := h.only name ((hs.spared t h.file).only name hname)
  contents := (hs.spared t h.file).contents.trans h.contents

theorem Writing.stable (h : Writing i now t temp tempName g w) (hs : Spares i w w') :
    Writing i now t temp tempName g w' :=
  ⟨h.toDrafting.stable hs, (hs.spared t h.file).desc temp false h.desc⟩

/-- The file after a change through its descriptor. -/
theorem Writing.modify (h : Writing i now t temp tempName g w) (f : Inode → Inode) :
    Writing i now t temp tempName (f g) (w.withVolume (w.disk.recovery.modify temp f)) := by
  rw [Volume.modify_of_desc? h.desc]
  exact ⟨⟨⟨h.file, h.isTemp, h.lookup⟩, h.time, h.only, by simp [h.contents]⟩, h.desc⟩

/-- The file after a call that leaves the files and their names alone. -/
theorem Drafting.withFds (h : Drafting i now t tempName g w) (fds : List (Option Desc)) :
    Drafting i now t tempName g (w.withVolume { w.disk.recovery with fds := fds }) :=
  ⟨⟨h.file, h.isTemp, h.lookup⟩, h.time, h.only, h.contents⟩

end Assertions

/-! ## What a call touches -/

section Touching

variable {v : Volume} {t fd : ℕ} {l : Bool} {name : Bytes} {own : Option ℕ}

theorem touches_modify (h : v.desc? fd = some ⟨t, l⟩) (f : Inode → Inode) :
    Touches (some t) v (v.modify fd f) := by
  rw [Volume.modify_of_desc? h]
  refine ⟨rfl, by simp, fun o ho => ⟨?_, fun _ _ h => h, fun _ h => h, fun _ _ h => h⟩⟩
  have hne : t ≠ o := fun h => ho (congrArg some h)
  simp [hne]

theorem touches_close (h : v.desc? fd = some ⟨t, l⟩) :
    Touches (some t) v { v with fds := v.fds.set fd none } := by
  refine ⟨rfl, rfl, fun o ho => ⟨rfl, fun _ _ h => h, fun _ h => h, fun k l' hk => ?_⟩⟩
  rw [Volume.desc?_close, if_neg, hk]
  rintro rfl
  rw [h] at hk
  exact ho (congrArg (some ∘ Desc.file) (Option.some.inj hk))

theorem lookup_of_insert {names : AList fun _ : Bytes => ℕ} {n : Bytes} {o : ℕ}
    (h : (names.insert name t).lookup n = some o) :
    n = name ∧ o = t ∨ n ≠ name ∧ names.lookup n = some o := by
  by_cases hne : n = name
  · subst hne
    exact .inl ⟨rfl, (Option.some.inj ((AList.lookup_insert names).symm.trans h)).symm⟩
  · exact .inr ⟨hne, (AList.lookup_insert_ne hne).symm.trans h⟩

theorem lookup_of_erase {names : AList fun _ : Bytes => ℕ} {n : Bytes} {o : ℕ}
    (h : (names.erase name).lookup n = some o) : n ≠ name ∧ names.lookup n = some o := by
  by_cases hne : n = name
  · subst hne
    simp at h
  · exact ⟨hne, (AList.lookup_erase_ne hne).symm.trans h⟩

theorem touches_link (hname : ¬ IsTemp name) :
    Touches (some t) v { v with names := v.names.insert name t } := by
  refine ⟨rfl, rfl, fun o ho => ⟨rfl, fun n hn h => ?_, fun n h => ?_, fun _ _ h => h⟩⟩
  · have hne : n ≠ name := fun he => hname (he ▸ hn)
    exact (AList.lookup_insert_ne hne).trans h
  · rcases lookup_of_insert h with ⟨-, rfl⟩ | ⟨-, h⟩
    · exact absurd rfl ho
    · exact h

/-- A name is removed that is none of a temporary file, or one of its own file. -/
theorem touches_erase (hname : ¬ IsTemp name ∨ ∃ t, own = some t ∧ v.names.lookup name = some t) :
    Touches own v { v with names := v.names.erase name } := by
  refine ⟨rfl, rfl, fun o ho => ⟨rfl, fun n hn h => ?_, fun n h => (lookup_of_erase h).2,
    fun _ _ h => h⟩⟩
  refine (AList.lookup_erase_ne ?_).trans h
  rintro rfl
  rcases hname with hname | ⟨t, rfl, ht⟩
  · exact hname hn
  · exact ho (ht.symm.trans h)

/-- The directory with a new file under a new name, open. -/
def created (v : Volume) (name : Bytes) (g : Inode) : Volume :=
  { v with
    names := v.names.insert name v.files.length
    files := v.files ++ [g]
    fds := v.fds ++ [some ⟨v.files.length, false⟩] }

theorem spared_created {o : ℕ} (hfree : v.names.lookup name = none) (g : Inode)
    (ho : o < v.files.length) : FileSpared o v (created v name g) := by
  refine ⟨List.getElem?_append_left ho, fun n _ h => ?_, fun n h => ?_, fun k l' h => ?_⟩
  · refine (AList.lookup_insert_ne ?_).trans h
    rintro rfl
    simp [hfree] at h
  · rcases lookup_of_insert h with ⟨-, rfl⟩ | ⟨-, h⟩
    · exact absurd ho (lt_irrefl _)
    · exact h
  · have hk := Volume.lt_of_desc? h
    have := v.desc?_open ⟨v.files.length, false⟩ k
    rw [if_neg (by omega), h] at this
    exact this

end Touching

namespace RecoveryStore

variable [Codec] {ι : Type} {s : RecoveryStore} {inputs : ι → RecoveryArtifactInput}
  {link : FileInfo} {w : Scene ι} {i : ι}

/-- The name is the identifier of a `Publish` whose artifact is in place. -/
def Entry (s : RecoveryStore) (input : RecoveryArtifactInput) (now : ℕ) (v : Volume)
    (name : Bytes) : Prop :=
  name = input.recoveryID ∧ ∃ g, s.Published input now g v ∧ g.uid = s.euid

/-- **What holds at every time**: the files of the `Publish` calls are different ones, and a name of
the directory is a temporary one or leads to a complete artifact. -/
structure Sound (s : RecoveryStore) (inputs : ι → RecoveryArtifactInput) (link : FileInfo)
    (w : Scene ι) : Prop where
  dirLink : w.disk.recovery.dirLink = link
  lt : ∀ i t, w.file i = some t → t < w.disk.recovery.files.length
  inj : ∀ i j t, w.file i = some t → w.file j = some t → i = j
  names_lt : ∀ name o, w.disk.recovery.names.lookup name = some o → o < w.disk.recovery.files.length
  names : ∀ name o, w.disk.recovery.names.lookup name = some o →
    IsTemp name ∨ ∃ i, w.file i = some o ∧ s.Entry (inputs i) (w.time i) w.disk.recovery name

theorem Entry.congr {input : RecoveryArtifactInput} {now : ℕ} {v v' : Volume} {name : Bytes}
    (h : s.Entry input now v name) (hlink : v'.dirLink = v.dirLink)
    (hfile : v'.file? name = v.file? name) : s.Entry input now v' name := by
  obtain ⟨rfl, g, hg, huid⟩ := h
  exact ⟨rfl, g, ⟨hg.id, hg.project, hlink ▸ hg.dir, hfile.trans hg.file, hg.check, hg.text⟩, huid⟩

/-- What the names of its own file are for a `Publish` after its step. -/
def OwnNames (s : RecoveryStore) (inputs : ι → RecoveryArtifactInput) (i : ι) (w : Scene ι)
    (v' : Volume) : Prop :=
  ∀ t name, w.file i = some t → v'.names.lookup name = some t →
    IsTemp name ∨ s.Entry (inputs i) (w.time i) v' name

/-- A step that adds no name to the file and does not change it. -/
theorem Sound.ownNames (h : Sound s inputs link w) {v' : Volume}
    (hlink : v'.dirLink = w.disk.recovery.dirLink) (hfiles : v'.files = w.disk.recovery.files)
    (hsub : ∀ name o, v'.names.lookup name = some o → w.disk.recovery.names.lookup name = some o) :
    s.OwnNames inputs i w v' := by
  intro t name hi ht
  refine (h.names name t (hsub name t ht)).imp id ?_
  rintro ⟨j, hj, hentry⟩
  obtain rfl := h.inj i j t hi hj
  refine hentry.congr hlink ?_
  simp [Volume.file?, ht, hsub name t ht, hfiles]

theorem Sound.step (h : Sound s inputs link w) {v' : Volume}
    (ht : Touches (w.file i) w.disk.recovery v') (hown : s.OwnNames inputs i w v') :
    Sound s inputs link (w.withVolume v') ∧ ∀ j ≠ i, Spares j w (w.withVolume v') := by
  refine ⟨⟨ht.dirLink.trans h.dirLink, fun j t hj => ht.length ▸ h.lt j t hj, h.inj, ?_, ?_⟩, ?_⟩
  · intro name o ho
    refine ht.length ▸ ?_
    by_cases hi : w.file i = some o
    · exact h.lt i o hi
    · exact h.names_lt name o ((ht.spared o hi).only name ho)
  · intro name o ho
    rw [Scene.recovery_withVolume] at ho ⊢
    by_cases hi : w.file i = some o
    · exact (hown o name hi ho).imp id fun hentry => ⟨i, hi, hentry⟩
    · have hspared := ht.spared o hi
      have ho' := hspared.only name ho
      refine (h.names name o ho').imp id ?_
      rintro ⟨j, hj, hentry⟩
      refine ⟨j, hj, hentry.congr ht.dirLink ?_⟩
      simp [Volume.file?, ho, ho', hspared.contents]
  · intro j hj
    refine ⟨rfl, rfl, fun t hfile => ht.spared t fun hi => hj ?_⟩
    exact h.inj j i t hfile hi

variable [DecidableEq ι]

/-- The scene in which `i` has created its file. -/
def create (w : Scene ι) (i : ι) (name : Bytes) (g : Inode) : Scene ι :=
  { w with
    disk := { w.disk with recovery := created w.disk.recovery name g }
    file := Function.update w.file i (some w.disk.recovery.files.length) }

theorem Sound.create (h : Sound s inputs link w) (hi : w.file i = none) {name : Bytes}
    (hname : IsTemp name) (hfree : w.disk.recovery.names.lookup name = none) (g : Inode) :
    Sound s inputs link (create w i name g) ∧ ∀ j ≠ i, Spares j w (create w i name g) := by
  have hother : ∀ j o, w.file j = some o → j ≠ i := by
    rintro j o hj rfl
    simp [hi] at hj
  have hfile : ∀ j o, w.file j = some o → (RecoveryStore.create w i name g).file j = some o := by
    intro j o hj
    exact (Function.update_of_ne (hother j o hj) _ _).trans hj
  -- the new file, and those before it
  have hcases : ∀ j t, (RecoveryStore.create w i name g).file j = some t →
      j = i ∧ t = w.disk.recovery.files.length ∨
        j ≠ i ∧ w.file j = some t ∧ t < w.disk.recovery.files.length := by
    intro j t hj
    by_cases hji : j = i
    · subst hji
      exact .inl ⟨rfl, (Option.some.inj ((Function.update_self j _ w.file).symm.trans hj)).symm⟩
    · have hj' := (Function.update_of_ne hji _ w.file).symm.trans hj
      exact .inr ⟨hji, hj', h.lt j t hj'⟩
  have hlength : (RecoveryStore.create w i name g).disk.recovery.files.length =
      w.disk.recovery.files.length + 1 := List.length_append
  refine ⟨⟨h.dirLink, fun j t hj => ?_, fun j k t hj hk => ?_, fun n o ho => ?_, fun n o ho => ?_⟩,
    fun j hj => ⟨rfl, Function.update_of_ne hj _ _, fun t ht =>
      spared_created hfree g (h.lt j t ht)⟩⟩
  · rw [hlength]
    rcases hcases j t hj with ⟨-, rfl⟩ | ⟨-, -, hlt⟩ <;> omega
  · rcases hcases j t hj with ⟨rfl, rfl⟩ | ⟨-, hj', hlt⟩ <;>
      rcases hcases k _ hk with ⟨rfl, hk'⟩ | ⟨-, hk', hlt'⟩
    · rfl
    · omega
    · omega
    · exact h.inj j k t hj' hk'
  · rw [hlength]
    rcases lookup_of_insert ho with ⟨-, rfl⟩ | ⟨-, ho'⟩
    · omega
    · exact Nat.lt_succ_of_lt (h.names_lt n o ho')
  · rcases lookup_of_insert ho with ⟨rfl, -⟩ | ⟨-, ho'⟩
    · exact .inl hname
    · refine (h.names n o ho').imp id ?_
      rintro ⟨j, hj, hentry⟩
      refine ⟨j, hfile j o hj, hentry.congr rfl ?_⟩
      have hspared := spared_created hfree g (h.lt j o hj)
      exact (congrArg (Option.bind · _) ho).trans (hspared.contents.trans
        (congrArg (Option.bind · _) ho').symm)

theorem Sound.writing_created (h : Sound s inputs link w) {now : ℕ} (htime : w.time i = now)
    {name : Bytes} (hname : IsTemp name) (g : Inode) :
    Writing i now w.disk.recovery.files.length w.disk.recovery.fds.length name g
      (RecoveryStore.create w i name g) where
  file := Function.update_self i _ w.file
  isTemp := hname
  lookup := AList.lookup_insert _
  time := htime
  only n hn := by
    rcases lookup_of_insert hn with ⟨rfl, -⟩ | ⟨-, hn⟩
    · rfl
    · exact absurd (h.names_lt n _ hn) (lt_irrefl _)
  contents := List.getElem?_concat_length
  desc := by simp [RecoveryStore.create, created, Volume.desc?]

/-- A `Publish` without a file reads the clock. -/
theorem Sound.tell (h : Sound s inputs link w) (hi : w.file i = none) (now : ℕ) :
    Sound s inputs link { w with time := Function.update w.time i now } ∧
      ∀ j ≠ i, Spares j w { w with time := Function.update w.time i now } := by
  refine ⟨⟨h.dirLink, h.lt, h.inj, h.names_lt, fun name o ho => ?_⟩, fun j hj =>
    ⟨Function.update_of_ne hj _ _, rfl, fun t _ => .refl t _⟩⟩
  refine (h.names name o ho).imp id ?_
  rintro ⟨j, hj, hentry⟩
  have hne : j ≠ i := by
    rintro rfl
    simp [hi] at hj
  refine ⟨j, hj, ?_⟩
  change s.Entry (inputs j) (Function.update w.time i now j) _ _
  rwa [Function.update_of_ne hne]

/-- The terms of the `Publish` calls. -/
def terms (s : RecoveryStore) (inputs : ι → RecoveryArtifactInput) (link : FileInfo) :
    Contract Call Call.Answer ι (Scene ι) DiskChoice where
  act := Scene.act s.euid
  Inv := Sound s inputs link
  Rely := Spares
  refl := Spares.refl
  trans := Spares.trans

/-! ## Rules for the calls -/

section Rules

variable {β : Type} {op : FileOp} {k : op.Answer → Program β} {Q : β → Scene ι → Prop}
  {A : Scene ι → Prop}

/-- A call on the directory that creates no file. -/
theorem guards_file (hA : A w) (hstable : ∀ w w', A w → Spares i w w' → A w')
    (hop : ∀ stem, op ≠ .createTemp stem)
    (h : ∀ w ch r v', A w → Sound s inputs link w → w.disk.recovery.step ch op = some (r, v') →
      Touches (w.file i) w.disk.recovery v' ∧ s.OwnNames inputs i w v' ∧
        Guards (s.terms inputs link) i (k r) (w.withVolume v') Q) :
    Guards (s.terms inputs link) i (onFile .recovery op >>= k) w Q := by
  refine guards_ask_bind hA hstable fun w ch r w' hA hinv hact => ?_
  obtain ⟨-, d, hdisk, rfl⟩ := Scene.act_eq_some.1 hact
  obtain ⟨v', hs, rfl⟩ := Disk.act_file.1 hdisk
  obtain ⟨ht, hown, hk⟩ := h w ch.file r v' hA hinv hs
  have hafter : w.after i (w.disk.set v' .recovery) (.file .recovery op) r = w.withVolume v' := by
    cases op <;> first | rfl | exact absurd rfl (hop _)
  rw [hafter]
  obtain ⟨hsound, hspares⟩ := hinv.step ht hown
  exact ⟨hsound, hspares, hk⟩

/-- A call that leaves the directory as it is. -/
theorem guards_query (hA : A w) (hstable : ∀ w w', A w → Spares i w w' → A w')
    (hop : ∀ stem, op ≠ .createTemp stem)
    (hsame : ∀ (v : Volume) ch r v', v.step ch op = some (r, v') → v' = v)
    (h : ∀ w ch r, A w → Sound s inputs link w →
      w.disk.recovery.step ch op = some (r, w.disk.recovery) →
      Guards (s.terms inputs link) i (k r) w Q) :
    Guards (s.terms inputs link) i (onFile .recovery op >>= k) w Q := by
  refine guards_file hA hstable hop fun w ch r v' hA hinv hs => ?_
  obtain rfl := hsame _ ch r v' hs
  exact ⟨⟨rfl, rfl, fun o _ => .refl o _⟩, hinv.ownNames rfl rfl fun _ _ h => h,
    h w ch r hA hinv hs⟩

/-- A name is removed that is none of a temporary file, or one of the own file. -/
theorem guards_remove {name : Bytes} {k : Option Bytes → Program β} (hA : A w)
    (hstable : ∀ w w', A w → Spares i w w' → A w')
    (hname : ∀ w, A w → ¬ IsTemp name ∨
      ∃ t, w.file i = some t ∧ w.disk.recovery.names.lookup name = some t)
    (hgone : ∀ w, A w → Guards (s.terms inputs link) i (k none)
      (w.withVolume { w.disk.recovery with names := w.disk.recovery.names.erase name }) Q)
    (hleft : ∀ w err, A w → Guards (s.terms inputs link) i (k (some err)) w Q) :
    Guards (s.terms inputs link) i (onFile .recovery (.remove name) >>= k) w Q := by
  refine guards_file hA hstable (by simp) fun w ch r v' hA hinv hs => ?_
  cases r with
  | some err =>
    obtain rfl := Volume.step_inert hs (by simp [Volume.Inert])
    exact ⟨⟨rfl, rfl, fun o _ => .refl o _⟩, hinv.ownNames rfl rfl fun _ _ h => h, hleft w err hA⟩
  | none =>
    obtain rfl := Volume.step_remove hs
    exact ⟨touches_erase (hname w hA), hinv.ownNames rfl rfl fun _ _ h => (lookup_of_erase h).2,
      hgone w hA⟩

/-- The file is created. -/
theorem guards_createTemp {now : ℕ} {k : Except Bytes (ℕ × Bytes) → Program β}
    (hfile : w.file i = none) (htime : w.time i = now)
    (hfail : ∀ w err, Guards (s.terms inputs link) i (k (.error err)) w Q)
    (h : ∀ w t temp tempName g, Writing i now t temp tempName g w → g.bytes = [] → g.uid = s.euid →
      Guards (s.terms inputs link) i (k (.ok (temp, tempName))) w Q) :
    Guards (s.terms inputs link) i (onFile .recovery (.createTemp tempStem) >>= k) w Q := by
  refine guards_ask_bind (A := fun w => w.file i = none ∧ w.time i = now) ⟨hfile, htime⟩
    (fun w w' hA hs => ⟨hs.file.trans hA.1, hs.time.trans hA.2⟩) fun w ch r w' hA hinv hact => ?_
  obtain ⟨horder, d, hdisk, rfl⟩ := Scene.act_eq_some.1 hact
  obtain ⟨v', hs, rfl⟩ := Disk.act_file.1 hdisk
  cases r with
  | error err =>
    obtain rfl := Volume.step_inert hs (by simp [Volume.Inert])
    have hafter : w.after i (w.disk.set (w.disk.volume .recovery) .recovery)
        (.file .recovery (.createTemp tempStem)) (.error err) = w := by
      rw [Disk.set_volume]
      rfl
    rw [hafter]
    exact ⟨hinv, fun j _ => .refl j w, hfail w err⟩
  | ok x =>
    obtain ⟨temp, tempName⟩ := x
    obtain ⟨hfree, hname, rfl, rfl⟩ := Volume.step_createTemp hs
    have htemp : IsTemp tempName := ⟨_, hname.symm⟩
    have huid : ch.file.fresh.uid = s.euid := by simpa [orderly] using horder
    obtain ⟨hsound, hspares⟩ := hinv.create hA.1 htemp hfree
      ⟨{ ch.file.fresh with kind := .regular, special := false }, []⟩
    exact ⟨hsound, hspares, h _ _ _ _ _ (hinv.writing_created hA.2 htemp _) rfl huid⟩

end Rules

/-! ## The calls of `Publish` -/

section Along

variable {t temp now : ℕ} {tempName encoded : Bytes} {g : Inode}

theorem failRemoving_temp {err : Bytes} (h : Owns i t tempName w) :
    Guards (s.terms inputs link) i (failRemoving err [tempName]) w fun _ _ => True :=
  guards_remove h (fun _ _ => Owns.stable) (fun _ h => .inr ⟨t, h.file, h.lookup⟩)
    (fun _ _ => guards_pure trivial) fun _ _ _ => guards_pure trivial

theorem failRemoving_id {err recoveryID : Bytes} (hid : ¬ IsTemp recoveryID) :
    Guards (s.terms inputs link) i (failRemoving err [recoveryID]) w fun _ _ => True :=
  guards_remove (A := fun _ => True) trivial (fun _ _ _ _ => trivial) (fun _ _ => .inl hid)
    (fun _ _ => guards_pure trivial) fun _ _ _ => guards_pure trivial

/-- `syncDirectory` changes nothing. -/
theorem syncDirectory_guards {Q : Option Bytes → Scene ι → Prop} (h : ∀ r w, Q r w) :
    Guards (s.terms inputs link) i syncDirectory w Q := by
  have hquery : ∀ {op : FileOp} {β : Type} {k : op.Answer → Program β} {Q : β → Scene ι → Prop}
      {w : Scene ι}, op ∈ [FileOp.openDir, .syncDir, .closeDir] →
      (∀ w r, Guards (s.terms inputs link) i (k r) w Q) →
      Guards (s.terms inputs link) i (onFile .recovery op >>= k) w Q := by
    intro op β k Q w hop hk
    refine guards_query (A := fun _ => True) trivial (fun _ _ _ _ => trivial) ?_ ?_
      fun w ch r _ _ _ => hk w r
    · rintro stem rfl
      simp at hop
    · intro v ch r v' hs
      simp only [List.mem_cons, List.not_mem_nil, or_false] at hop
      rcases hop with rfl | rfl | rfl <;> exact (Prod.mk.inj (Option.some.inj hs)).2.symm
  unfold syncDirectory
  refine hquery (by simp) fun w r => ?_
  cases r with
  | some err => exact guards_pure (h _ _)
  | none => exact hquery (by simp) fun w synced => hquery (by simp) fun w _ => guards_pure (h _ _)

omit [DecidableEq ι] in
/-- Its only name is the temporary one. -/
theorem ownNames_of_drafting (h : Drafting i now t tempName g w) {v' : Volume}
    (hnames : v'.names = w.disk.recovery.names) : s.OwnNames inputs i w v' := by
  intro t' name ht hname
  obtain rfl : t = t' := Option.some.inj (h.file.symm.trans ht)
  rw [hnames] at hname
  exact .inl (h.only name hname ▸ h.isTemp)

theorem validateRecoveryFile_guards (h : Writing i now t temp tempName g w) :
    Guards (s.terms inputs link) i (s.validateRecoveryFile tempName) w fun r w' =>
      Writing i now t temp tempName g w' ∧ (r = .ok () → s.checkArtifactFile g.info = .ok ()) := by
  refine guards_query h (fun _ _ => Writing.stable) (by simp)
    (fun v ch r v' hs => Volume.step_inert hs trivial) fun w ch r h hinv hs => ?_
  cases r with
  | error err => exact guards_pure ⟨h, by simp⟩
  | ok info =>
    obtain ⟨-, o, f, ho, hf, rfl⟩ := Volume.step_lstat hs
    obtain rfl : t = o := Option.some.inj (h.lookup.symm.trans ho)
    obtain rfl := Option.some.inj (h.contents.symm.trans hf)
    exact guards_pure ⟨h, id⟩

theorem fillArtifact_guards (h : Writing i now t temp tempName g w) (hbytes : g.bytes = [])
    (huid : g.uid = s.euid) (hlen : encoded.length ≤ maxRecoveryArtifactBytes) :
    Guards (s.terms inputs link) i (s.fillArtifact temp tempName encoded) w fun r w' =>
      ∃ g', Writing i now t temp tempName g' w' ∧ g'.uid = s.euid ∧
        (r = none → g'.bytes = encoded ∧ s.checkArtifactFile g'.info = .ok ()) := by
  have fail : ∀ {w' : Scene ι} {g' : Inode} (err : Bytes), Writing i now t temp tempName g' w' →
      g'.uid = s.euid → Guards (s.terms inputs link) i (pure (some err) : Program (Option Bytes)) w'
        fun r w' => ∃ g', Writing i now t temp tempName g' w' ∧ g'.uid = s.euid ∧
          (r = none → g'.bytes = encoded ∧ s.checkArtifactFile g'.info = .ok ()) :=
    fun err h huid => guards_pure ⟨_, h, huid, by simp⟩
  -- a change through the descriptor
  have change : ∀ {w : Scene ι} {g : Inode} (f : Inode → Inode), Writing i now t temp tempName g w →
      Touches (w.file i) w.disk.recovery (w.disk.recovery.modify temp f) ∧
        s.OwnNames inputs i w (w.disk.recovery.modify temp f) := by
    intro w g f h
    refine ⟨h.file ▸ touches_modify h.desc f, ownNames_of_drafting h.toDrafting ?_⟩
    rw [Volume.modify_of_desc? h.desc]
  unfold fillArtifact
  refine guards_file h (fun _ _ => Writing.stable) (by simp) fun w ch r v' h hinv hs => ?_
  cases r with
  | some err =>
    obtain rfl := Volume.step_inert hs (by simp [Volume.Inert])
    exact ⟨⟨rfl, rfl, fun o _ => .refl o _⟩, hinv.ownNames rfl rfl fun _ _ h => h, fail _ h huid⟩
  | none =>
    obtain rfl := Volume.step_chmod hs
    refine ⟨(change _ h).1, (change _ h).2, ?_⟩
    have h₁ := h.modify fun i => { i with perm := 0o600 }
    -- the file is checked while it is empty
    refine guards_bind (validateRecoveryFile_guards h₁) fun r w hpost => ?_
    obtain ⟨h, hcheck⟩ := hpost
    cases r with
    | error err => exact fail _ h huid
    | ok u =>
      obtain ⟨hkind, hperm, hspecial, howner, hgid, -⟩ :=
        (s.checkArtifactFile_iff _).1 (hcheck rfl)
      have hwrite : Guards (s.terms inputs link) i (writeAll temp encoded) w fun r w' =>
          ∃ g', Writing i now t temp tempName g' w' ∧ g'.uid = s.euid ∧
            (r = none → g'.bytes = encoded ∧ s.checkArtifactFile g'.info = .ok ()) := by
        refine guards_file h (fun _ _ => Writing.stable) (by simp) fun w ch r v' h hinv hs => ?_
        simp only [Volume.step, h.desc, Option.isNone_some, Bool.false_eq_true, if_false] at hs
        split_ifs at hs with hfault
        · obtain ⟨rfl, rfl⟩ := Prod.mk.inj (Option.some.inj hs)
          exact ⟨(change _ h).1, (change _ h).2, fail _ (h.modify _) huid⟩
        · obtain ⟨rfl, rfl⟩ := Prod.mk.inj (Option.some.inj hs)
          refine ⟨(change _ h).1, (change _ h).2, guards_pure ⟨_, h.modify _, huid, fun _ => ?_⟩⟩
          refine ⟨by simp [hbytes], (s.checkArtifactFile_iff _).2 ⟨hkind, hperm, hspecial, howner,
            hgid, ?_⟩⟩
          simpa [Inode.info, hbytes] using hlen
      refine guards_bind hwrite fun r w hpost => ?_
      obtain ⟨g', h, huid, hdone⟩ := hpost
      cases r with
      | some err => exact fail _ h huid
      | none =>
        refine guards_query h (fun _ _ => Writing.stable) (by simp)
          (fun v ch r v' hs => Volume.step_inert hs trivial) fun w ch r h hinv hs => ?_
        cases r with
        | some err => exact fail _ h huid
        | none => exact guards_pure ⟨g', h, huid, fun _ => hdone rfl⟩

variable [Platform]

theorem linkArtifact_guards (h : Drafting i now t tempName g w) (huid : g.uid = s.euid)
    (hid : validateRecoveryID (inputs i).recoveryID = .ok ()) (hproject : (inputs i).project ≠ [])
    (hdir : s.checkDir link = .ok ()) (hcheck : s.checkArtifactFile g.info = .ok ())
    (htext : Codec.marshal (artifactOf (inputs i) now) = .ok g.bytes) :
    Guards (s.terms inputs link) i (linkArtifact tempName (inputs i).recoveryID) w
      fun _ _ => True := by
  have hnot := not_isTemp_of_valid hid
  unfold linkArtifact
  refine guards_file h (fun _ _ => Drafting.stable) (by simp) fun w ch r v' h hinv hs => ?_
  have same : ∀ {p : Program (Option Bytes)}, v' = w.disk.recovery →
      Guards (s.terms inputs link) i p w (fun _ _ => True) →
      Touches (w.file i) w.disk.recovery v' ∧ s.OwnNames inputs i w v' ∧
        Guards (s.terms inputs link) i p (w.withVolume v') fun _ _ => True := by
    rintro p rfl hp
    exact ⟨⟨rfl, rfl, fun o _ => .refl o _⟩, hinv.ownNames rfl rfl fun _ _ h => h, hp⟩
  rcases r with - | (- | err)
  case some.exists =>
    exact same (Volume.step_inert hs (by simp [Volume.Inert])) (failRemoving_temp h.toOwns)
  case some.other =>
    exact same (Volume.step_inert hs (by simp [Volume.Inert])) (failRemoving_temp h.toOwns)
  obtain ⟨o, ho, hfree, rfl⟩ := Volume.step_link hs
  obtain rfl : t = o := Option.some.inj (h.lookup.symm.trans ho)
  have hne : tempName ≠ (inputs i).recoveryID := fun he => hnot (he ▸ h.isTemp)
  refine ⟨h.file ▸ touches_link hnot, fun t' name ht hname => ?_, ?_⟩
  · -- the artifact is in place
    obtain rfl : t = t' := Option.some.inj (h.file.symm.trans ht)
    rcases lookup_of_insert hname with ⟨rfl, -⟩ | ⟨-, hname⟩
    · refine .inr ⟨rfl, g, ⟨hid, hproject, ?_, ?_, hcheck, ?_⟩, huid⟩
      · exact (congrArg s.checkDir hinv.dirLink).trans hdir
      · exact (congrArg (Option.bind · _) hname).trans h.contents
      · rw [h.time]
        exact htext
    · exact .inl (h.only name hname ▸ h.isTemp)
  · refine guards_remove (A := Owns i t tempName)
      ⟨h.file, h.isTemp, (AList.lookup_insert_ne hne).trans h.lookup⟩ (fun _ _ => Owns.stable)
      (fun _ h => .inr ⟨t, h.file, h.lookup⟩) (fun w _ => ?_) fun w err h => ?_
    · refine guards_bind (syncDirectory_guards fun _ _ => trivial) fun r w _ => ?_
      cases r with
      | none => exact guards_pure trivial
      | some err =>
        refine guards_remove (A := fun _ => True) trivial (fun _ _ _ _ => trivial)
          (fun _ _ => .inl hnot) (fun w _ => ?_) fun w _ _ => ?_
        · exact guards_bind (syncDirectory_guards fun _ _ => trivial) fun _ _ _ =>
            failRemoving_id hnot
        · exact guards_bind (syncDirectory_guards fun _ _ => trivial) fun _ _ _ =>
            failRemoving_id hnot
    · -- the identifier is removed, then the temporary name
      refine guards_remove h (fun _ _ => Owns.stable) (fun _ _ => .inl hnot) (fun w h => ?_)
        fun w _ h => failRemoving_temp h
      exact failRemoving_temp ⟨h.file, h.isTemp, (AList.lookup_erase_ne hne).trans h.lookup⟩

theorem publishEncoded_guards (hfile : w.file i = none) (htime : w.time i = now)
    (hid : validateRecoveryID (inputs i).recoveryID = .ok ()) (hproject : (inputs i).project ≠ [])
    (hdir : s.checkDir link = .ok ())
    (htext : Codec.marshal (artifactOf (inputs i) now) = .ok encoded) :
    Guards (s.terms inputs link) i (s.publishEncoded (inputs i).recoveryID encoded) w
      fun _ _ => True := by
  unfold publishEncoded
  split
  · exact guards_pure trivial
  next hlen =>
  refine guards_createTemp hfile htime (fun w err => guards_pure trivial)
    fun w t temp tempName g h hbytes huid => ?_
  refine guards_bind (fillArtifact_guards h hbytes huid (Nat.le_of_not_lt hlen))
    fun r w hpost => ?_
  obtain ⟨g', h, huid, hdone⟩ := hpost
  have close : ∀ {k : Option Bytes → Program (Option Bytes)},
      (∀ w r, Drafting i now t tempName g' w →
        Guards (s.terms inputs link) i (k r) w fun _ _ => True) →
      Guards (s.terms inputs link) i (onFile .recovery (.close temp) >>= k) w fun _ _ => True := by
    intro k hk
    refine guards_file h (fun _ _ => Writing.stable) (by simp) fun w ch r v' h hinv hs => ?_
    obtain rfl := Volume.step_close hs
    exact ⟨h.file ▸ touches_close h.desc, hinv.ownNames rfl rfl fun _ _ h => h,
      hk _ _ (h.toDrafting.withFds _)⟩
  cases r with
  | some err => exact close fun w _ h => failRemoving_temp h.toOwns
  | none =>
    obtain ⟨rfl, hcheck⟩ := hdone rfl
    refine close fun w r h => ?_
    cases r with
    | some err => exact failRemoving_temp h.toOwns
    | none => exact linkArtifact_guards h huid hid hproject hdir hcheck htext

/-- **A `Publish` leaves the others alone**, and links nothing but its complete artifact. -/
theorem publish_guards (hfile : w.file i = none) :
    Guards (s.terms inputs link) i (s.publish (inputs i)) w fun _ _ => True := by
  unfold publish
  cases hid : validateRecoveryID (inputs i).recoveryID with
  | error err => exact guards_pure trivial
  | ok u =>
    change Guards _ i (if (inputs i).project = [] then _ else _) w _
    split
    · exact guards_pure trivial
    next hproject =>
    have hlook : Guards (s.terms inputs link) i s.validateRecoveryDir w fun r w' =>
        w'.file i = none ∧ (r = .ok () → s.checkDir link = .ok ()) := by
      refine guards_query (A := fun w => w.file i = none) hfile
        (fun _ _ hfile hs => hs.file.trans hfile) (by simp)
        (fun v ch r v' hs => Volume.step_inert hs trivial) fun w ch r hfile hinv hs => ?_
      cases r with
      | error err => exact guards_pure ⟨hfile, by simp⟩
      | ok info =>
        have hinfo : info = link := by
          simp only [Volume.step] at hs
          split_ifs at hs
          · simp at hs
          · exact (Except.ok.inj (Prod.mk.inj (Option.some.inj hs)).1).symm.trans hinv.dirLink
        exact guards_pure ⟨hfile, fun h => hinfo ▸ h⟩
    refine guards_bind hlook fun r w hpost => ?_
    obtain ⟨hfile, hdir⟩ := hpost
    cases r with
    | error err => exact guards_pure trivial
    | ok u =>
      refine guards_ask_bind (A := fun w => w.file i = none) hfile
        (fun _ _ hfile hs => hs.file.trans hfile) fun w ch now w' hfile hinv hact => ?_
      change w.act s.euid i ch .now = some (now, w') at hact
      obtain ⟨-, d, hdisk, rfl⟩ := Scene.act_eq_some.1 hact
      obtain ⟨-, rfl⟩ := Prod.mk.inj (Option.some.inj hdisk)
      obtain ⟨hsound, hspares⟩ := hinv.tell hfile now
      refine ⟨hsound, hspares, ?_⟩
      split
      · exact guards_pure trivial
      · next encoded htext =>
        have htime : (w.after i w.disk .now now).time i = now := Function.update_self i _ w.time
        exact publishEncoded_guards hfile htime hid hproject (hdir rfl) htext

end Along

/-- The `Publish` calls at their start. -/
def pool [Platform] (s : RecoveryStore) (inputs : ι → RecoveryArtifactInput) (d : Disk)
    (time : ι → ℕ) : Pool Call Call.Answer (Option Bytes) ι (Scene ι) :=
  ⟨⟨d, time, fun _ => none⟩, fun i => s.publish (inputs i)⟩

/-- **The names of the directory at every time**, in any interleaving of `Publish` calls that starts
with an empty directory. -/
theorem sound_of_reaches [Platform] {d : Disk} {time : ι → ℕ}
    {p : Pool Call Call.Answer (Option Bytes) ι (Scene ι)} (hempty : d.recovery.names = ∅)
    (h : Pool.Reaches (Scene.act s.euid) (s.pool inputs d time) p) :
    Sound s inputs d.recovery.dirLink p.state := by
  have hstart : Sound s inputs d.recovery.dirLink (s.pool inputs d time).state :=
    ⟨rfl, by simp [pool], by simp [pool], by simp [pool, hempty], by simp [pool, hempty]⟩
  exact (@Pool.guarded _ _ _ _ _ _ (s.terms inputs d.recovery.dirLink) _ _ _ h hstart
    fun i => publish_guards rfl).1

end RecoveryStore

end SecretsBroker.Admin
