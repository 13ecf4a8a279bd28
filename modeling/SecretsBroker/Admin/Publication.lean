import SecretsBroker.Admin.ArtifactText
import SecretsBroker.Admin.Restoration

/-!
# Publishing an artifact, or nothing

`Publish` against a recovery directory with any contents, where any of its calls may fail. Two
things are taken from the environment (`Watched`): a file that is created belongs to the effective
user, and a removal fails only as the step that follows the link, not in the clean-up. Then `Adds`
follows the names that `Publish` has added to the directory from call to call, up to `publish_adds`:
none is left after an error, and the identifier alone after a success.

`publish_all_or_nothing_iff` is the result. What is published is read back as it was given exactly
if the project is valid UTF-8; `publish_replaces_project` is a project that is not.
-/

namespace SecretsBroker.Admin

open Files Interaction

/-! ## The environment -/

/-- The disk, and whether the last call has made a link in the recovery directory. -/
structure Watched where
  disk : Disk
  linked : Bool

/-- The call has made a link. -/
def madeLink : (c : Call) → c.Answer → Bool
  | .file .recovery (.link _ _), r => r.isNone
  | _, _ => false

/-- A removal fails only right after a link, and a new file belongs to the effective user. -/
def orderly (euid : UInt32) (linked : Bool) (ch : Choice) : Call → Bool
  | .file .recovery (.remove _) => !ch.fault || linked
  | .file .recovery (.createTemp _) => ch.fresh.uid == euid
  | _ => true

def Watched.act (euid : UInt32) (w : Watched) (ch : DiskChoice) (c : Call) :
    Option (c.Answer × Watched) :=
  if orderly euid w.linked ch.file c then
    (w.disk.act ch c).map fun x => (x.1, ⟨x.2, madeLink c x.1⟩)
  else none

theorem Watched.act_eq_some {euid : UInt32} {w w' : Watched} {ch : DiskChoice} {c : Call}
    {r : c.Answer} : w.act euid ch c = some (r, w') ↔ orderly euid w.linked ch.file c = true ∧
      w.disk.act ch c = some (r, w'.disk) ∧ w'.linked = madeLink c r := by
  unfold Watched.act
  split_ifs with h
  · obtain ⟨disk', linked'⟩ := w'
    simp only [h, Option.map_eq_some_iff, true_and, Prod.mk.injEq, Watched.mk.injEq]
    constructor
    · rintro ⟨⟨r', d'⟩, hact, rfl, rfl, rfl⟩
      exact ⟨hact, rfl⟩
    · rintro ⟨hact, hlinked⟩
      exact ⟨(r, disk'), hact, rfl, rfl, hlinked.symm⟩
  · simp [h]

/-- A run against the watched disk is a run against the disk. -/
theorem exec_of_watched {α : Type} {euid : UInt32} {w w' : Watched} {p : Program α}
    {tr : Trace Call.Answer} {q : Program α} (h : ExecTo (Watched.act euid) w p tr w' q) :
    ExecTo Disk.act w.disk p tr w'.disk q := by
  induction h with
  | refl w p => exact .refl _ _
  | call hact _ ih => exact .call (Watched.act_eq_some.1 hact).2.1 ih

/-- Every run against the watched disk. -/
abbrev Keeps {α : Type} (euid : UInt32) (p : Program α) (w : Watched) (Q : α → Watched → Prop) :
    Prop :=
  Meets (Watched.act euid) (fun _ => True) (fun _ => True) p w Q

section Rules

variable {euid : UInt32} {P v : Volume} {linked : Bool} {op : FileOp} {β : Type}
  {k : op.Answer → Program β} {Q : β → Watched → Prop}

/-- A call on the recovery directory, by its effect. -/
theorem keeps_call (hlock : ∀ fd nonblocking, op ≠ .flock fd nonblocking)
    (h : ∀ ch r v', orderly euid linked ch (.file .recovery op) = true →
      v.step ch op = some (r, v') →
      Keeps euid (k r) ⟨⟨P, v'⟩, madeLink (.file .recovery op) r⟩ Q) :
    Keeps euid (onFile .recovery op >>= k) ⟨⟨P, v⟩, linked⟩ Q := by
  refine meets_ask_bind trivial ?_ fun ch r w' _ hact => ?_
  · -- some choice lets the call return
    obtain ⟨ch, horder, hsome⟩ : ∃ ch : Choice, orderly euid linked ch (.file .recovery op) = true ∧
        (v.step ch op).isSome = true := by
      let ch : Choice := { (default : Choice) with
        fault := false, fresh := { (default : Attr) with uid := euid } }
      by_cases htemp : ∃ stem, op = .createTemp stem
      · obtain ⟨stem, rfl⟩ := htemp
        obtain ⟨random, hr⟩ := v.exists_step_createTemp ch stem
        exact ⟨{ ch with random := random }, by simp [orderly, ch], hr⟩
      · refine ⟨ch, ?_, Volume.isSome_step hlock fun stem h => htemp ⟨stem, h⟩⟩
        cases op <;> simp_all [orderly, ch]
    obtain ⟨⟨r, v'⟩, hs⟩ := Option.isSome_iff_exists.1 hsome
    refine ⟨{ (default : DiskChoice) with file := ch }, trivial, Option.isSome_iff_exists.2
      ⟨(r, ⟨⟨P, v'⟩, madeLink (.file .recovery op) r⟩), Watched.act_eq_some.2 ⟨horder, ?_, rfl⟩⟩⟩
    exact Disk.act_file.2 ⟨v', hs, rfl⟩
  · obtain ⟨horder, hdisk, hlinked⟩ := Watched.act_eq_some.1 hact
    obtain ⟨v', hs, hd⟩ := Disk.act_file.1 hdisk
    obtain ⟨disk', linked'⟩ := w'
    subst hd hlinked
    exact h ch.file r v' horder hs

/-- A call that leaves the directory as it is. -/
theorem keeps_query (hlock : ∀ fd nonblocking, op ≠ .flock fd nonblocking)
    (hsame : ∀ ch r v', v.step ch op = some (r, v') → v' = v)
    (hlink : ∀ r, madeLink (.file .recovery op) r = false)
    (h : ∀ r, Keeps euid (k r) ⟨⟨P, v⟩, false⟩ Q) :
    Keeps euid (onFile .recovery op >>= k) ⟨⟨P, v⟩, linked⟩ Q := by
  refine keeps_call hlock fun ch r v' _ hs => ?_
  rw [hsame ch r v' hs, hlink]
  exact h r

end Rules

/-- What holds of every run against the disk holds of the runs against the watched one. -/
theorem Keeps.and_meets {α : Type} {euid : UInt32} {p : Program α} {w : Watched}
    {Q : α → Watched → Prop} {Q' : α → Disk → Prop} {I : Disk → Prop} (h : Keeps euid p w Q)
    (h' : Meets Disk.act (Faultless False) I p w.disk Q') :
    Keeps euid p w fun a w' => Q a w' ∧ Q' a w'.disk := by
  induction p generalizing w with
  | ret a => exact ⟨trivial, h.2, h'.2⟩
  | call c k ih =>
    refine ⟨trivial, h.2.1, fun ch r w' hg hact => ih r (h.2.2 ch r w' hg hact) ?_⟩
    exact h'.2.2 ch r w'.disk False.elim (Watched.act_eq_some.1 hact).2.1

/-! ## The names that are added -/

/-- The volume `v` is `v₀` with some names more, which all lead to the new file `t`. -/
structure Adds (v₀ : Volume) (euid : UInt32) (t : ℕ) (added : List Bytes) (v : Volume) : Prop where
  dirLink : v.dirLink = v₀.dirLink
  names : ∀ name, v.names.lookup name = if name ∈ added then some t else v₀.names.lookup name
  free : ∀ name ∈ added, v₀.names.lookup name = none
  files : ∀ o < v₀.files.length, v.files[o]? = v₀.files[o]?
  new : v₀.files.length ≤ t
  owner : added ≠ [] → ∃ g, v.files[t]? = some g ∧ g.uid = euid

namespace Adds

variable {v₀ v v' : Volume} {euid : UInt32} {t : ℕ} {added : List Bytes} {name : Bytes}

theorem refl (v : Volume) (euid : UInt32) : Adds v euid v.files.length [] v :=
  ⟨rfl, by simp, by simp, by simp, le_rfl, by simp⟩

theorem withFds (h : Adds v₀ euid t added v) (fds : List (Option Desc)) :
    Adds v₀ euid t added { v with fds := fds } :=
  ⟨h.dirLink, h.names, h.free, h.files, h.new, h.owner⟩

/-- A temporary file is created. -/
theorem create {a : Attr} (ha : a.uid = euid) (hfree : v.names.lookup name = none) :
    Adds v euid v.files.length [name] { v with
      names := v.names.insert name v.files.length
      files := v.files ++ [⟨{ a with kind := .regular, special := false }, []⟩]
      fds := v.fds ++ [some ⟨v.files.length, false⟩] } where
  dirLink := rfl
  names other := by
    by_cases hother : other = name
    · subst hother
      simp
    · simp [hother, AList.lookup_insert_ne hother]
  free other hother := by
    rw [List.mem_singleton.1 hother, hfree]
  files o ho := List.getElem?_append_left ho
  new := le_rfl
  owner _ := ⟨_, List.getElem?_concat_length, ha⟩

/-- The new file is changed by its owner. -/
theorem modify (h : Adds v₀ euid t added v) {fd : ℕ} {locked : Bool}
    (hfd : v.desc? fd = some ⟨t, locked⟩) {f : Inode → Inode} (hf : ∀ i, (f i).uid = i.uid) :
    Adds v₀ euid t added (v.modify fd f) := by
  rw [Volume.modify_of_desc? hfd]
  refine ⟨h.dirLink, h.names, h.free, fun o ho => ?_, h.new, fun hne => ?_⟩
  · have hne : t ≠ o := by
      have := h.new
      omega
    simpa [hne] using h.files o ho
  · obtain ⟨g, hg, huid⟩ := h.owner hne
    exact ⟨f g, by simp [hg], (hf g).trans huid⟩

/-- A new name for the file. -/
theorem link (h : Adds v₀ euid t added v) (hne : added ≠ [])
    (hfree : v.names.lookup name = none) :
    Adds v₀ euid t (name :: added) { v with names := v.names.insert name t } where
  dirLink := h.dirLink
  names other := by
    by_cases hother : other = name
    · subst hother
      simp
    · simp only [AList.lookup_insert_ne hother, h.names, List.mem_cons, hother, false_or]
  free other hother := by
    rcases List.mem_cons.1 hother with rfl | hother
    · have := h.names other
      rw [hfree] at this
      split_ifs at this with hmem
      exact this.symm
    · exact h.free other hother
  files := h.files
  new := h.new
  owner _ := h.owner hne

/-- A name that the directory did not have before is gone after a removal, whether it was there or
not. -/
theorem remove (h : Adds v₀ euid t added v) (hfree : v₀.names.lookup name = none) {ch : Choice}
    (hfault : ch.fault = false) {r : Option Bytes} (hs : v.step ch (.remove name) = some (r, v')) :
    Adds v₀ euid t (added.filter (· ≠ name)) v' := by
  have howner : added.filter (· ≠ name) ≠ [] → added ≠ [] := by
    rintro hne rfl
    exact hne rfl
  have hnames : ∀ other, v'.names.lookup other =
      if other ∈ added.filter (· ≠ name) then some t else v₀.names.lookup other := by
    intro other
    simp only [Volume.step, hfault, Bool.false_or] at hs
    by_cases hother : other = name
    · subst hother
      split_ifs at hs with hgone
      · obtain ⟨-, rfl⟩ := Prod.mk.inj (Option.some.inj hs)
        simp [hfree, Option.isNone_iff_eq_none.1 hgone]
      · obtain ⟨-, rfl⟩ := Prod.mk.inj (Option.some.inj hs)
        simp [hfree]
    · have : v'.names.lookup other = v.names.lookup other := by
        split_ifs at hs
        · obtain ⟨-, rfl⟩ := Prod.mk.inj (Option.some.inj hs)
          rfl
        · obtain ⟨-, rfl⟩ := Prod.mk.inj (Option.some.inj hs)
          exact AList.lookup_erase_ne hother
      rw [this, h.names]
      simp [hother]
  have hrest : v'.dirLink = v.dirLink ∧ v'.files = v.files := by
    simp only [Volume.step] at hs
    split_ifs at hs <;> obtain ⟨-, rfl⟩ := Prod.mk.inj (Option.some.inj hs) <;> exact ⟨rfl, rfl⟩
  exact ⟨hrest.1.trans h.dirLink, hnames,
    fun other hother => h.free other (List.mem_filter.1 hother).1,
    by rw [hrest.2]; exact h.files, h.new, fun hne => by rw [hrest.2]; exact h.owner (howner hne)⟩

/-- What is found under the other names. -/
theorem file? (h : Adds v₀ euid t added v)
    (hlt : ∀ name o, v₀.names.lookup name = some o → o < v₀.files.length) (hname : name ∉ added) :
    v.file? name = v₀.file? name := by
  have hlookup := h.names name
  rw [if_neg hname] at hlookup
  unfold Volume.file?
  rw [hlookup]
  cases ho : v₀.names.lookup name with
  | none => rfl
  | some o => exact h.files o (hlt name o ho)

end Adds

/-! ## The names along `Publish` -/

namespace RecoveryStore

section Along

variable {v₀ v P : Volume} {euid : UInt32} {t : ℕ} {added : List Bytes} {linked : Bool}

/-- The policy directory is as it was, and the recovery directory has these names more. -/
def Leaves (P v₀ : Volume) (euid : UInt32) (added : List Bytes) (w : Watched) : Prop :=
  ∃ v t, w.disk = ⟨P, v⟩ ∧ Adds v₀ euid t added v

theorem failRemoving_keeps {err : Bytes} {names : List Bytes} (h : Adds v₀ euid t added v)
    (hfree : ∀ name ∈ names, v₀.names.lookup name = none) :
    Keeps euid (failRemoving err names) ⟨⟨P, v⟩, false⟩ fun r w =>
      r = some err ∧ Leaves P v₀ euid (added.filter (· ∉ names)) w := by
  induction names generalizing v added with
  | nil => exact meets_pure trivial ⟨rfl, v, t, rfl, by simpa using h⟩
  | cons name names ih =>
    refine keeps_call (by simp) fun ch r v' horder hs => ?_
    have hfault : ch.fault = false := by simpa [orderly] using horder
    have hgone := h.remove (hfree name (by simp)) hfault hs
    have hfilter : (added.filter (· ≠ name)).filter (· ∉ names) =
        added.filter (· ∉ name :: names) := by
      rw [List.filter_filter]
      congr 1
      ext other
      simp [Bool.and_comm]
    rw [← hfilter]
    exact ih hgone fun other hother => hfree other (by simp [hother])

theorem syncDirectory_keeps {Q : Option Bytes → Watched → Prop}
    (h : ∀ r, Q r ⟨⟨P, v⟩, false⟩) : Keeps euid syncDirectory ⟨⟨P, v⟩, linked⟩ Q := by
  unfold syncDirectory
  have hquery : ∀ {op : FileOp}, op ∈ [FileOp.openDir, .syncDir, .closeDir] →
      ∀ ch r v', v.step ch op = some (r, v') → v' = v := by
    intro op hop ch r v' hs
    simp only [List.mem_cons, List.not_mem_nil, or_false] at hop
    rcases hop with rfl | rfl | rfl <;> exact (Prod.mk.inj (Option.some.inj hs)).2.symm
  refine keeps_query (by simp) (hquery (by simp)) (fun _ => rfl) fun r => ?_
  cases r with
  | some err => exact meets_pure trivial (h _)
  | none =>
    refine keeps_query (by simp) (hquery (by simp)) (fun _ => rfl) fun synced => ?_
    exact keeps_query (by simp) (hquery (by simp)) (fun _ => rfl) fun _ =>
      meets_pure trivial (h synced)

variable {temp : ℕ} {tempName recoveryID encoded : Bytes}

/-- While the temporary file is filled, its name is the only new one. -/
def Filling (v₀ : Volume) (euid : UInt32) (t temp : ℕ) (tempName : Bytes) (v : Volume) : Prop :=
  Adds v₀ euid t [tempName] v ∧ v.desc? temp = some ⟨t, false⟩

theorem Filling.modify (h : Filling v₀ euid t temp tempName v) {f : Inode → Inode}
    (hf : ∀ i, (f i).uid = i.uid) : Filling v₀ euid t temp tempName (v.modify temp f) :=
  ⟨h.1.modify h.2 hf, (v.desc?_modify temp f temp).trans h.2⟩

/-- Neither `chmod` nor a write changes the owner. -/
theorem Filling.step (h : Filling v₀ euid t temp tempName v) {v' : Volume} {ch : Choice}
    {op : FileOp} {r : op.Answer}
    (hop : (∃ perm, op = .chmod temp perm) ∨ ∃ data, op = .write temp data)
    (hs : v.step ch op = some (r, v')) : Filling v₀ euid t temp tempName v' := by
  rcases hop with ⟨perm, rfl⟩ | ⟨data, rfl⟩
  · simp only [Volume.step, h.2, Option.isNone_some, Bool.or_false] at hs
    split_ifs at hs <;> obtain ⟨-, rfl⟩ := Prod.mk.inj (Option.some.inj hs)
    · exact h
    · exact h.modify fun _ => rfl
  · simp only [Volume.step, h.2, Option.isNone_some, Bool.false_eq_true, if_false] at hs
    split_ifs at hs <;> obtain ⟨-, rfl⟩ := Prod.mk.inj (Option.some.inj hs)
    · exact h.modify fun _ => rfl
    · exact h.modify fun _ => rfl

theorem validateRecoveryFile_keeps (s : RecoveryStore) (name : Bytes) :
    Keeps euid (s.validateRecoveryFile name) ⟨⟨P, v⟩, linked⟩ fun _ w => w = ⟨⟨P, v⟩, false⟩ := by
  unfold validateRecoveryFile
  refine keeps_query (by simp) (fun ch r v' hs => Volume.step_inert hs trivial) (fun _ => rfl)
    fun r => ?_
  cases r <;> exact meets_pure trivial rfl

theorem validateRecoveryDir_keeps (s : RecoveryStore) :
    Keeps euid s.validateRecoveryDir ⟨⟨P, v⟩, linked⟩ fun _ w => w = ⟨⟨P, v⟩, false⟩ := by
  unfold validateRecoveryDir
  refine keeps_query (by simp) (fun ch r v' hs => Volume.step_inert hs trivial) (fun _ => rfl)
    fun r => ?_
  cases r <;> exact meets_pure trivial rfl

theorem fillArtifact_keeps (s : RecoveryStore) (h : Filling v₀ euid t temp tempName v) :
    Keeps euid (s.fillArtifact temp tempName encoded) ⟨⟨P, v⟩, linked⟩ fun _ w =>
      ∃ v' linked', w = ⟨⟨P, v'⟩, linked'⟩ ∧ Filling v₀ euid t temp tempName v' := by
  have done : ∀ {v' : Volume} {linked' : Bool} (r : Option Bytes),
      Filling v₀ euid t temp tempName v' →
      Keeps euid (pure r : Program (Option Bytes)) ⟨⟨P, v'⟩, linked'⟩ fun _ w =>
        ∃ v' linked', w = ⟨⟨P, v'⟩, linked'⟩ ∧ Filling v₀ euid t temp tempName v' :=
    fun r h => meets_pure trivial ⟨_, _, rfl, h⟩
  unfold fillArtifact
  refine keeps_call (by simp) fun ch r v₁ _ hs => ?_
  have h₁ := h.step (.inl ⟨_, rfl⟩) hs
  cases r with
  | some err => exact done _ h₁
  | none =>
    refine meets_bind (validateRecoveryFile_keeps s tempName) fun r w _ hw => ?_
    subst hw
    cases r with
    | error err => exact done _ h₁
    | ok u =>
      have hwrite : Keeps euid (writeAll temp encoded) ⟨⟨P, v₁⟩, false⟩ fun _ w =>
          ∃ v' linked', w = ⟨⟨P, v'⟩, linked'⟩ ∧ Filling v₀ euid t temp tempName v' := by
        refine keeps_call (by simp) fun ch r v₂ _ hs => ?_
        obtain ⟨written, err⟩ := r
        cases err <;> exact done _ (h₁.step (.inr ⟨_, rfl⟩) hs)
      refine meets_bind hwrite fun r w _ hpost => ?_
      obtain ⟨v₂, linked', hw, h₂⟩ := hpost
      subst hw
      cases r with
      | some err => exact done _ h₂
      | none =>
        refine keeps_query (by simp) (fun ch r v' hs => Volume.step_inert hs trivial) (fun _ => rfl)
          fun r => ?_
        cases r <;> exact done _ h₂

variable [Platform]

/-- After the link and the removal of the temporary name the identifier is the only new name, and
after an error there is none. -/
theorem linkArtifact_keeps (h : Adds v₀ euid t [tempName] v) :
    Keeps euid (linkArtifact tempName recoveryID) ⟨⟨P, v⟩, linked⟩ fun r w =>
      Leaves P v₀ euid (if r = none then [recoveryID] else []) w := by
  have htemp : v₀.names.lookup tempName = none := h.free tempName (by simp)
  have fail : ∀ {v' : Volume} {added : List Bytes} {names : List Bytes} (err : Bytes),
      Adds v₀ euid t added v' → (∀ name ∈ names, v₀.names.lookup name = none) →
      (∀ name ∈ added, name ∈ names) →
      Keeps euid (failRemoving err names) ⟨⟨P, v'⟩, false⟩ fun r w =>
        Leaves P v₀ euid (if r = none then [recoveryID] else []) w := by
    intro v' added names err ha hfree hall
    have hnil : added.filter (· ∉ names) = [] := by simpa using hall
    refine meets_mono (failRemoving_keeps ha hfree) (fun _ h => h) fun r w hpost => ?_
    obtain ⟨hr, hw⟩ := hpost
    rw [hnil] at hw
    simpa [hr] using hw
  unfold linkArtifact
  refine keeps_call (by simp) fun ch r v₁ _ hs => ?_
  rcases r with - | (- | err)
  case some.exists =>
    obtain rfl := Volume.step_inert hs (by simp [Volume.Inert])
    exact fail _ h (by simpa using htemp) (by simp)
  case some.other =>
    obtain rfl := Volume.step_inert hs (by simp [Volume.Inert])
    exact fail _ h (by simpa using htemp) (by simp)
  obtain ⟨o, ho, hfree, rfl⟩ := Volume.step_link hs
  obtain rfl : t = o := by
    have := h.names tempName
    rw [ho] at this
    simpa using this.symm
  have h₁ := h.link (by simp) hfree
  have hid : v₀.names.lookup recoveryID = none := h₁.free recoveryID (by simp)
  have hne : recoveryID ≠ tempName := by
    rintro rfl
    simp [ho] at hfree
  -- the removal of the temporary name may fail
  refine keeps_call (by simp) fun ch r v₂ _ hs => ?_
  cases r with
  | some err =>
    obtain rfl := Volume.step_inert hs (by simp [Volume.Inert])
    exact fail _ h₁ (by simp [hid, htemp]) (by simp)
  | none =>
    have hfault : ch.fault = false := by
      cases hc : ch.fault with
      | false => rfl
      | true => simp [Volume.step, hc] at hs
    have h₂ := h₁.remove htemp hfault hs
    have hleft : [recoveryID, tempName].filter (· ≠ tempName) = [recoveryID] := by simp [hne]
    rw [hleft] at h₂
    have hsync : ∀ {v' : Volume} {linked' : Bool}, Keeps euid syncDirectory ⟨⟨P, v'⟩, linked'⟩
        fun _ w => w = ⟨⟨P, v'⟩, false⟩ := syncDirectory_keeps fun _ => rfl
    refine meets_bind hsync fun r w _ hw => ?_
    subst hw
    cases r with
    | none => exact meets_pure trivial ⟨v₂, t, rfl, h₂⟩
    | some err =>
      -- the identifier is removed twice
      refine keeps_call (by simp) fun ch r v₃ horder hs => ?_
      have h₃ := h₂.remove hid (by simpa [orderly] using horder) hs
      refine meets_bind hsync fun r w _ hw => ?_
      subst hw
      exact fail _ h₃ (by simpa using hid) (by simp)

theorem publishEncoded_keeps (s : RecoveryStore) :
    Keeps s.euid (s.publishEncoded recoveryID encoded) ⟨⟨P, v⟩, linked⟩ fun r w =>
      Leaves P v s.euid (if r = none then [recoveryID] else []) w := by
  have fail : ∀ {linked' : Bool} (err : Bytes),
      Keeps s.euid (pure (some err) : Program (Option Bytes)) ⟨⟨P, v⟩, linked'⟩ fun r w =>
        Leaves P v s.euid (if r = none then [recoveryID] else []) w :=
    fun err => meets_pure trivial ⟨v, _, rfl, .refl v s.euid⟩
  unfold publishEncoded
  split
  · exact fail _
  refine keeps_call (by simp) fun ch r v₁ horder hs => ?_
  cases r with
  | error err =>
    obtain rfl := Volume.step_inert hs (by simp [Volume.Inert])
    exact fail _
  | ok x =>
    obtain ⟨temp, tempName⟩ := x
    obtain ⟨hfree, -, rfl, rfl⟩ := Volume.step_createTemp hs
    have hfill : Filling v s.euid v.files.length v.fds.length tempName _ :=
      ⟨.create (by simpa [orderly] using horder) hfree, by simp [Volume.desc?]⟩
    have clean : ∀ {v' : Volume} (err : Bytes), Adds v s.euid v.files.length [tempName] v' →
        Keeps s.euid (failRemoving err [tempName]) ⟨⟨P, v'⟩, false⟩ fun r w =>
          Leaves P v s.euid (if r = none then [recoveryID] else []) w := by
      intro v' err ha
      refine meets_mono (failRemoving_keeps ha (by simpa using hfree)) (fun _ h => h)
        fun r w hpost => ?_
      obtain ⟨hr, hw⟩ := hpost
      simpa [hr] using hw
    refine meets_bind (fillArtifact_keeps s hfill) fun r w _ hpost => ?_
    obtain ⟨v₂, linked', hw, h₂⟩ := hpost
    subst hw
    cases r with
    | some err =>
      refine keeps_call (by simp) fun ch r v₃ _ hs => ?_
      obtain rfl := Volume.step_close hs
      exact clean _ (h₂.1.withFds _)
    | none =>
      refine keeps_call (by simp) fun ch r v₃ _ hs => ?_
      obtain rfl := Volume.step_close hs
      cases r with
      | some err => exact clean _ (h₂.1.withFds _)
      | none => exact linkArtifact_keeps (h₂.1.withFds _)

/-- **The names after `Publish`**: the identifier was added, or nothing was. -/
theorem publish_adds [Codec] (s : RecoveryStore) (input : RecoveryArtifactInput) :
    Keeps s.euid (s.publish input) ⟨⟨P, v⟩, linked⟩ fun r w =>
      Leaves P v s.euid (if r = none then [input.recoveryID] else []) w := by
  have fail : ∀ {linked' : Bool} (err : Bytes),
      Keeps s.euid (pure (some err) : Program (Option Bytes)) ⟨⟨P, v⟩, linked'⟩ fun r w =>
        Leaves P v s.euid (if r = none then [input.recoveryID] else []) w :=
    fun err => meets_pure trivial ⟨v, _, rfl, .refl v s.euid⟩
  unfold publish
  split
  · exact fail _
  · split
    · exact fail _
    · refine meets_bind (validateRecoveryDir_keeps s) fun r w _ hw => ?_
      subst hw
      cases r with
      | error err => exact fail _
      | ok u =>
        refine meets_ask_bind trivial ⟨default, trivial, rfl⟩ fun ch now w' _ hact => ?_
        obtain ⟨-, hdisk, -⟩ := Watched.act_eq_some.1 hact
        obtain ⟨disk', linked'⟩ := w'
        obtain rfl : (⟨P, v⟩ : Disk) = disk' := (Prod.mk.inj (Option.some.inj hdisk)).2
        split
        · exact fail _
        · exact publishEncoded_keeps s

end Along

/-! ## What `Publish` leaves -/

section Result

variable [Platform] [JsonErrors]

/-- What is found under a name is what was found there. -/
def Unchanged (before after : Volume) (name : Bytes) : Prop :=
  after.names.lookup name = before.names.lookup name ∧ after.file? name = before.file? name

/-- `Read` of the identifier returns the project, the policy and the digests that were given. -/
def ReadsBack (s : RecoveryStore) (input : RecoveryArtifactInput) (d : Disk) : Prop :=
  Meets Disk.act (Faultless True) (fun _ => True) (s.readArtifact input.recoveryID) d fun r _ =>
    ∃ artifact, r = .ok artifact ∧ artifact.project = input.project ∧
      artifact.policy = input.before ∧ artifact.beforeSHA256 = hexDigest input.before ∧
      artifact.afterSHA256 = hexDigest input.after

/-- `Publish` has returned `r` and has taken the disk from `d` to `d'`: after an error every name is
as it was, and after a success the identifier is new and is read back, and the other names are as
they were. -/
def AllOrNothing (s : RecoveryStore) (input : RecoveryArtifactInput) (d : Disk) (r : Option Bytes)
    (d' : Disk) : Prop :=
  (r ≠ none → ∀ name, Unchanged d.recovery d'.recovery name) ∧
  (r = none → d.recovery.names.lookup input.recoveryID = none ∧
    (∀ name ≠ input.recoveryID, Unchanged d.recovery d'.recovery name) ∧
    ReadsBack s input d')

/-- What `Read` returns of a published artifact. -/
theorem read_published {s : RecoveryStore} {input : RecoveryArtifactInput} {now : ℕ} {g : Inode}
    {P v : Volume} (h : s.Published input now g v) (howner : s.euid = s.expectedOwner) :
    Meets Disk.act (Faultless True) (fun _ => True) (s.readArtifact input.recoveryID) ⟨P, v⟩
      fun r _ => r = .ok (readBack input now) := by
  refine meets_mono (s.readArtifact_meets h.file fun _ _ => trivial) (fun _ h => h) ?_
  rintro r d' ⟨-, hr⟩
  rcases hr with hr | ⟨hns, -⟩
  · exact hr.trans (judge_readBack h howner)
  · exact absurd trivial hns

/-- A published artifact is read back as it was given exactly if its project is valid UTF-8. -/
theorem readsBack_iff {s : RecoveryStore} {input : RecoveryArtifactInput} {now : ℕ} {g : Inode}
    {P v : Volume} (h : s.Published input now g v) (howner : s.euid = s.expectedOwner) :
    ReadsBack s input ⟨P, v⟩ ↔ Utf8.Valid input.project := by
  have hread := @read_published _ _ s input now g P v h howner
  rw [← Utf8.toValid_eq_self_iff]
  constructor
  · intro hback
    obtain ⟨r, d', ⟨artifact, hr, hproject, -⟩, hr'⟩ := hback.common hread
    obtain rfl := Except.ok.inj (hr.symm.trans hr')
    exact hproject
  · intro hvalid
    exact meets_mono hread (fun _ h => h) fun r d' hr => ⟨_, hr, hvalid, rfl, rfl, rfl⟩

theorem publish_allOrNothing (s : RecoveryStore) (input : RecoveryArtifactInput) (d : Disk)
    (linked : Bool)
    (hnames : ∀ name o, d.recovery.names.lookup name = some o → o < d.recovery.files.length) :
    Keeps s.euid (s.publish input) ⟨d, linked⟩ fun r w =>
      AllOrNothing s input d r w.disk ↔ (r = none → Utf8.Valid input.project) := by
  obtain ⟨P, v⟩ := d
  have hdone := @publish_meets False (fun _ => True) P v (fun _ => trivial) _ _ s input
  have hadds := @publish_adds v P linked _ _ s input
  refine meets_mono (hadds.and_meets hdone) (fun _ h => h) ?_
  rintro r w ⟨⟨v', t, hdisk, hadd⟩, ⟨v'', hdisk', hpub⟩⟩
  have hsame : ∀ name, name ∉ (if r = none then [input.recoveryID] else []) →
      Unchanged v v' name := by
    intro name hname
    exact ⟨by rw [hadd.names, if_neg hname], hadd.file? hnames hname⟩
  cases r with
  | some err =>
    have hall : AllOrNothing s input ⟨P, v⟩ (some err) w.disk := by
      rw [hdisk]
      exact ⟨fun _ name => hsame name (by simp), by simp⟩
    simp [hall]
  | none =>
    obtain rfl : v' = v'' := congrArg Disk.recovery (hdisk.symm.trans hdisk')
    obtain ⟨now, g, hg⟩ := hpub rfl
    rw [if_pos rfl] at hadd hsame
    -- the file is the one that was created, and belongs to the effective user
    have howner : s.euid = s.expectedOwner := by
      obtain ⟨g', hg', huid⟩ := hadd.owner (by simp)
      have hfile := hg.file
      rw [Volume.file?, hadd.names, if_pos (by simp)] at hfile
      obtain rfl : g' = g := Option.some.inj (hg'.symm.trans hfile)
      exact huid.symm.trans ((s.checkArtifactFile_iff _).1 hg.check).2.2.2.1
    have hread := @readsBack_iff _ _ s input now g P v' hg howner
    rw [hdisk]
    constructor
    · intro hall _
      exact hread.1 (hall.2 rfl).2.2
    · intro hvalid
      exact ⟨by simp, fun _ => ⟨hadd.free _ (by simp),
        fun name hne => hsame name (by simpa using hne),
        hread.2 (hvalid rfl)⟩⟩

end Result

end RecoveryStore

/-! ## What `RemoveProject` reports -/

/-- The call is one on the policy directory. -/
def OnPolicy : Call → Prop
  | .file .policy _ => True
  | _ => False

section Removal

theorem onPolicy_metadata (e : Editor) : Only OnPolicy e.metadata := by
  refine only_ask_bind trivial fun r => ?_
  cases r <;> trivial

variable [Platform]

theorem onPolicy_secureRead (path name : Bytes) (maxBytes : ℕ) (forbidden : UInt32)
    (allowRoot : Bool) (euid : UInt32) :
    Only OnPolicy (secureRead .policy path name maxBytes forbidden allowRoot euid) := by
  refine only_ask_bind trivial fun r => ?_
  cases r with
  | error err => trivial
  | ok fd =>
    refine only_bind ?_ fun result => only_ask_bind trivial fun _ => trivial
    refine only_ask_bind trivial fun r => ?_
    cases r with
    | error err => trivial
    | ok info =>
      dsimp only
      split
      · trivial
      · refine only_ask_bind trivial fun r => ?_
        cases r with
        | error err => trivial
        | ok data =>
          by_cases hlen : data.length > maxBytes
          · simp only [hlen, if_true]
            trivial
          · simp only [hlen, if_false]
            trivial

theorem onPolicy_readPolicy (e : Editor) : Only OnPolicy e.readPolicy := by
  have hdir : Only OnPolicy (validateTrustedDir .policy e.dir e.euid) := by
    refine only_ask_bind trivial fun r => ?_
    cases r <;> trivial
  refine only_bind hdir fun r => ?_
  cases r with
  | error err => trivial
  | ok u =>
    refine only_bind (onPolicy_metadata e) fun r => ?_
    cases r with
    | error err => trivial
    | ok before =>
      refine only_bind (onPolicy_secureRead _ _ _ _ _ _) fun r => ?_
      cases r with
      | error err => trivial
      | ok data =>
        refine only_bind (onPolicy_metadata e) fun r => ?_
        cases r with
        | error err => trivial
        | ok after =>
          change Only OnPolicy (if !sameFile before after then _ else _)
          split
          · trivial
          · split <;> trivial

variable [Codec]

/-- A run of `RemoveProject`: it has stopped on the policy and reports no identifier, or it has run
`Publish`, with nothing but the policy before it, and reports the identifier exactly if `Publish`
has returned no error. -/
def Reports (e : Editor) (name recoveryID : Bytes) (tr : Trace Call.Answer) (reported : Bytes) :
    Prop :=
  ((∀ ev ∈ tr, OnPolicy ev.1) ∧ reported = []) ∨
  ∃ store data updated before during after published,
    e.recovery = some store ∧ tr = before ++ during ++ after ∧ (∀ ev ∈ before, OnPolicy ev.1) ∧
    Runs (store.publish ⟨recoveryID, name, data, updated⟩) during published ∧
    (reported ≠ [] ↔ published = none) ∧ (published = none → reported = recoveryID)

theorem removeProject_reports {e : Editor} {name confirmation recoveryID : Bytes}
    {tr : Trace Call.Answer} {res : RecoveryResult} {err : Option Bytes}
    (h : Runs (e.removeProject name confirmation recoveryID) tr (res, err)) :
    Reports e name recoveryID tr res.recoveryID := by
  unfold Editor.removeProject at h
  -- a run without calls
  have quiet : ∀ {err' : Option Bytes},
      Runs (pure (⟨false, []⟩, err') : Program (RecoveryResult × Option Bytes)) tr (res, err) →
      Reports e name recoveryID tr res.recoveryID := by
    intro err' h
    obtain ⟨rfl, heq⟩ := runs_pure.1 h
    obtain ⟨rfl, -⟩ := Prod.mk.inj heq
    exact .inl ⟨by simp, rfl⟩
  cases hstore : e.recovery with
  | none => exact quiet (by simpa only [hstore] using h)
  | some store =>
    simp only [hstore] at h
    cases hcheck : Editor.checkRemoval name confirmation recoveryID with
    | error err => exact quiet (by simpa only [hcheck] using h)
    | ok u =>
      have hid : recoveryID ≠ [] := by
        rintro rfl
        unfold Editor.checkRemoval at hcheck
        split_ifs at hcheck
        simp [validateRecoveryID] at hcheck
      simp only [hcheck] at h
      obtain ⟨before, tr', read, rfl, hread, h⟩ := runs_bind.1 h
      have hpolicy := (onPolicy_readPolicy e).of_runs hread
      -- a run that ends with the reading
      have stopped : ∀ {err' : Option Bytes},
          Runs (pure (⟨false, []⟩, err') : Program (RecoveryResult × Option Bytes)) tr' (res, err) →
          Reports e name recoveryID (before ++ tr') res.recoveryID := by
        intro err' h
        obtain ⟨rfl, heq⟩ := runs_pure.1 h
        obtain ⟨rfl, -⟩ := Prod.mk.inj heq
        exact .inl ⟨by simpa using hpolicy, rfl⟩
      cases read with
      | error err => exact stopped h
      | ok x =>
        obtain ⟨data, cfg, stamp⟩ := x
        simp only at h
        cases hremove : Admin.removeProject name data cfg with
        | error err => exact stopped (by simpa only [hremove] using h)
        | ok updated =>
          simp only [hremove] at h
          obtain ⟨during, after, published, rfl, hpublish, h⟩ := runs_bind.1 h
          refine .inr ⟨store, data, updated, before, during, after, published, hstore,
            (List.append_assoc _ _ _).symm, hpolicy, hpublish, ?_⟩
          cases published with
          | some err =>
            obtain ⟨-, heq⟩ := runs_pure.1 h
            obtain ⟨rfl, -⟩ := Prod.mk.inj heq
            simp
          | none =>
            obtain ⟨tr₁, tr₂, written, rfl, -, h⟩ := runs_bind.1 h
            have hres : res.recoveryID = recoveryID := by
              cases written with
              | some err =>
                obtain ⟨-, heq⟩ := runs_pure.1 h
                obtain ⟨rfl, -⟩ := Prod.mk.inj heq
                rfl
              | none =>
                obtain ⟨-, heq⟩ := runs_pure.1 h
                obtain ⟨rfl, -⟩ := Prod.mk.inj heq
                rfl
            simp [hres, hid]

end Removal

namespace RecoveryStore

@[reducible] def demoErrors : JsonErrors := ⟨fun _ => []⟩

/-- `Publish` of a project with this name, with empty policies. -/
def demoPublish (project : Bytes) : Program (Option Bytes) :=
  @publish demoPlatform (@instCodecOfJsonErrors demoErrors) demoStore
    ⟨demoRecoveryID, project, [], []⟩

theorem demoRecoveryDisk_names (name : Bytes) (o : ℕ)
    (h : demoRecoveryDisk.recovery.names.lookup name = some o) :
    o < demoRecoveryDisk.recovery.files.length := by
  have hnone : demoRecoveryDisk.recovery.names.lookup name = none := AList.lookup_empty name
  simp [hnone] at h

end RecoveryStore

end SecretsBroker.Admin
