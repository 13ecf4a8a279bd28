import SecretsBroker.Admin.Publishers
import SecretsBroker.Foundations.SortSlice

/-!
# Listing the recovery directory

`RecoveryStore.List` goes through all names of the recovery directory and gives up at the first one
that is not an identifier. `list_meets` says what it returns as a function of the directory
(`listing`). Together with what is known of a directory on which any number of `Publish` calls work,
`list_exact_iff` says when the listing is that of the published artifacts: exactly if no temporary
name is in the directory, and the projects are valid UTF-8. `list_fails_during_publish` is a
`Publish` that was cut off after it had created its temporary file.
-/

namespace SecretsBroker.Admin

open Fallible Files Interaction

/-! ## The program -/

/-- The calls of `List`: those of the other programs, and `os.ReadDir`. -/
inductive ListCall
  | call (c : Call)
  | readDir

abbrev ListCall.Answer : ListCall → Type
  | .call c => c.Answer
  | .readDir => Except Bytes (List Bytes)

/-- A program that makes no other calls. -/
def embed {α : Type} (p : Program α) : Prog ListCall ListCall.Answer α :=
  p.interp fun c => Prog.ask (.call c)

structure RecoverySummary where
  recoveryID : Bytes
  project : Bytes
  createdAt : ℤ
  deriving DecidableEq

/-- The summary of an artifact. -/
def RecoveryArtifact.summary (artifact : RecoveryArtifact) : RecoverySummary :=
  ⟨artifact.recoveryID, artifact.project, artifact.createdAt⟩

/-- The comparison of `List`. -/
def RecoverySummary.less : RecoverySummary → RecoverySummary → Bool :=
  lessBy RecoverySummary.createdAt RecoverySummary.recoveryID

namespace RecoveryStore

section Program

variable [Platform] [Codec]

def unsafeArtifact (name err : Bytes) : Bytes :=
  str "unsafe recovery artifact " ++ quote name ++ str ": " ++ err

def unreadArtifact (name err : Bytes) : Bytes :=
  str "reading recovery artifact " ++ quote name ++ str ": " ++ err

/-- The loop of `List` over the entries of the directory. -/
def summaries (s : RecoveryStore) :
    List Bytes → Prog ListCall ListCall.Answer (Except Bytes (List RecoverySummary))
  | [] => pure (.ok [])
  | name :: names => do
    match validateRecoveryID name with
    | .error err => pure (.error (unsafeArtifact name err))
    | .ok () =>
      match ← embed (s.readArtifact name) with
      | .error err => pure (.error (unreadArtifact name err))
      | .ok artifact =>
        match ← s.summaries names with
        | .error err => pure (.error err)
        | .ok rest => pure (.ok (artifact.summary :: rest))

/-- `List` -/
def list (s : RecoveryStore) (slice : Sorter RecoverySummary.less) :
    Prog ListCall ListCall.Answer (Except Bytes (List RecoverySummary)) := do
  match ← embed s.validateRecoveryDir with
  | .error err => pure (.error err)
  | .ok () =>
    match ← Prog.ask ListCall.readDir with
    | .error err => pure (.error (str "reading recovery directory: " ++ err))
    | .ok entries =>
      match ← s.summaries entries with
      | .error err => pure (.error err)
      | .ok found => pure (.ok (slice.sort found))

end Program

end RecoveryStore

/-- The names of a directory, as `os.ReadDir` sorts them. -/
def entries (v : Volume) : List Bytes := v.names.keys.insertionSort (· ≤ ·)

/-- `os.ReadDir` answers with the names of the recovery directory. -/
def ListCall.act (d : Disk) (ch : DiskChoice) : (c : ListCall) → Option (c.Answer × Disk)
  | .call c => d.act ch c
  | .readDir => some (if ch.file.fault then .error ch.file.text else .ok (entries d.recovery), d)

/-! ## What `List` returns -/

theorem mem_entries {v : Volume} {name : Bytes} :
    name ∈ entries v ↔ ∃ o, v.names.lookup name = some o := by
  rw [entries, List.mem_insertionSort, ← AList.mem_keys, ← AList.lookup_isSome,
    Option.isSome_iff_exists]

theorem nodup_entries (v : Volume) : (entries v).Nodup :=
  (List.perm_insertionSort _ _).nodup_iff.2 v.names.keys_nodup

theorem embed_meets {α : Type} {Good : DiskChoice → Prop} {I : Disk → Prop} {p : Program α}
    {d : Disk} {Q : α → Disk → Prop} (h : Meets Disk.act Good I p d Q) :
    Meets ListCall.act Good I (embed p) d Q := by
  induction p generalizing d with
  | ret a => exact h
  | call c k ih => exact ⟨h.1, h.2.1, fun ch r d' hg hact => ih r (h.2.2 ch r d' hg hact)⟩

namespace RecoveryStore

section Result

variable [Platform] [Codec] {s : RecoveryStore} {P v : Volume}

/-- What the loop finds under a name that leads to a file. -/
def readEntry (s : RecoveryStore) (v : Volume) (name : Bytes) : Except Bytes RecoverySummary :=
  match validateRecoveryID name, v.file? name with
  | .error err, _ => .error (unsafeArtifact name err)
  | .ok (), none => .error []
  | .ok (), some g =>
    match s.judge v.dirLink g name with
    | .error err => .error (unreadArtifact name err)
    | .ok artifact => .ok artifact.summary

/-- What `List` finds in a directory. -/
def listing (s : RecoveryStore) (slice : Sorter RecoverySummary.less) (v : Volume) :
    Except Bytes (List RecoverySummary) :=
  match s.checkDir v.dirLink with
  | .error err => .error err
  | .ok () => ((entries v).mapM (s.readEntry v)).map slice.sort

theorem readEntry_of_still {v' : Volume} (h : v.Still v') : s.readEntry v' = s.readEntry v := by
  funext name
  simp only [readEntry, h.file?, h.dirLink]

theorem summaries_meets {names : List Bytes} (hfiles : ∀ name ∈ names, ∃ g, v.file? name = some g) :
    Meets ListCall.act (Faultless True) (fun _ => True) (s.summaries names) ⟨P, v⟩ fun r _ =>
      r = names.mapM (s.readEntry v) := by
  induction names generalizing v with
  | nil => exact meets_pure trivial rfl
  | cons name names ih =>
    obtain ⟨g, hg⟩ := hfiles name (by simp)
    rw [List.mapM_cons]
    cases hid : validateRecoveryID name with
    | error err =>
      simp only [summaries, readEntry, hid]
      exact meets_pure trivial rfl
    | ok u =>
      simp only [summaries, readEntry, hid, hg]
      have hread : Meets Disk.act (Faultless True) (fun _ => True) (s.readArtifact name) ⟨P, v⟩ _ :=
        s.readArtifact_meets hg fun _ _ => trivial
      refine meets_bind (embed_meets hread) fun r d' _ hpost => ?_
      obtain ⟨⟨v', hstill, hd'⟩, hr⟩ := hpost
      subst hd'
      obtain rfl : r = s.judge v.dirLink g name := by
        rcases hr with hr | ⟨hns, -⟩
        · exact hr
        · exact absurd trivial hns
      cases s.judge v.dirLink g name with
      | error err => exact meets_pure trivial rfl
      | ok artifact =>
        have hfiles' : ∀ name ∈ names, ∃ g, v'.file? name = some g := fun n hn =>
          hstill.file? n ▸ hfiles n (by simp [hn])
        refine meets_bind (ih hfiles') fun r d' _ hr => ?_
        rw [readEntry_of_still hstill] at hr
        subst hr
        cases names.mapM (s.readEntry v) <;> exact meets_pure trivial rfl

/-- **What `List` returns** on a directory whose names all lead to files. -/
theorem list_meets {slice : Sorter RecoverySummary.less}
    (hfiles : ∀ name o, v.names.lookup name = some o → o < v.files.length) :
    Meets ListCall.act (Faultless True) (fun _ => True) (s.list slice) ⟨P, v⟩ fun r _ =>
      r = s.listing slice v := by
  have hdir : Meets Disk.act (Faultless True) (fun _ => True) s.validateRecoveryDir ⟨P, v⟩ _ :=
    s.validateRecoveryDir_meets trivial
  refine meets_bind (embed_meets hdir) fun r d' _ hpost => ?_
  obtain ⟨hd', hr⟩ := hpost
  subst hd'
  obtain rfl : r = s.checkDir v.dirLink := by
    rcases hr with hr | ⟨hns, -⟩
    · exact hr
    · exact absurd trivial hns
  cases hcheck : s.checkDir v.dirLink with
  | error err => exact meets_pure trivial (by simp [listing, hcheck])
  | ok u =>
    refine meets_ask_bind trivial ⟨default, fun _ => rfl, rfl⟩ fun ch r d' hch hact => ?_
    obtain ⟨rfl, rfl⟩ := Prod.mk.inj (Option.some.inj hact)
    simp only [hch trivial, Bool.false_eq_true, if_false]
    have hentries : ∀ name ∈ entries v, ∃ g, v.file? name = some g := by
      intro name hname
      obtain ⟨o, ho⟩ := mem_entries.1 hname
      refine ⟨v.files.get ⟨o, hfiles name o ho⟩, ?_⟩
      simp [Volume.file?, ho, hfiles name o ho]
    refine meets_bind (summaries_meets hentries) fun r d' _ hr => ?_
    subst hr
    cases hfound : (entries v).mapM (s.readEntry v) with
    | error err => exact meets_pure trivial (by simp [listing, hcheck, hfound, Except.map])
    | ok found => exact meets_pure trivial (by simp [listing, hcheck, hfound, Except.map])

end Result

/-! ## The published artifacts -/

section Published

variable {ι : Type}

/-- The `Publish` has linked its file to its identifier, where it is. -/
def Linked (inputs : ι → RecoveryArtifactInput) (w : Scene ι) (i : ι) : Prop :=
  ∃ t, w.file i = some t ∧ w.disk.recovery.names.lookup (inputs i).recoveryID = some t

/-- The summary of the artifact of an input, made at a time. -/
def summaryOf (input : RecoveryArtifactInput) (now : ℕ) : RecoverySummary :=
  ⟨input.recoveryID, input.project, now⟩

/-- The listing has one summary for each published artifact, with its identifier, its project and
its time, and is sorted by time and then by identifier. -/
structure Exact (inputs : ι → RecoveryArtifactInput) (w : Scene ι) (out : List RecoverySummary) :
    Prop where
  mem : ∀ x, x ∈ out ↔ ∃ i, Linked inputs w i ∧ x = summaryOf (inputs i) (w.time i)
  once : (out.map RecoverySummary.recoveryID).Nodup
  sorted : out.Pairwise fun a b =>
    a.createdAt < b.createdAt ∨ a.createdAt = b.createdAt ∧ a.recoveryID < b.recoveryID

variable [Platform] [JsonErrors] {s : RecoveryStore} {inputs : ι → RecoveryArtifactInput}
  {link : FileInfo} {w : Scene ι} {slice : Sorter RecoverySummary.less}

theorem readEntry_of_isTemp {v : Volume} {name : Bytes} (h : IsTemp name) :
    ∃ err, s.readEntry v name = .error err := by
  cases hid : validateRecoveryID name with
  | error err => exact ⟨unsafeArtifact name err, by simp only [readEntry, hid]⟩
  | ok u => exact absurd h (not_isTemp_of_valid hid)

/-- The summary of an artifact that is in place, with its project made valid. -/
theorem readEntry_of_entry {input : RecoveryArtifactInput} {now : ℕ} {v : Volume} {name : Bytes}
    (h : s.Entry input now v name) :
    s.readEntry v name = .ok (readBack input now).summary := by
  obtain ⟨rfl, g, hg, huid⟩ := h
  have howner : s.euid = s.expectedOwner :=
    huid.symm.trans ((s.checkArtifactFile_iff _).1 hg.check).2.2.2.1
  simp only [readEntry, hg.id, hg.file, judge_readBack hg howner]

/-- The loop succeeds exactly if it meets no temporary name. -/
theorem Sound.exists_mapM_iff (h : Sound s inputs link w) :
    (∃ found, (entries w.disk.recovery).mapM (s.readEntry w.disk.recovery) = .ok found) ↔
      ∀ name ∈ entries w.disk.recovery, ¬ IsTemp name := by
  rw [Fallible.exists_mapM_iff]
  refine forall₂_congr fun name hname => ?_
  constructor
  · rintro ⟨x, hx⟩ htemp
    obtain ⟨err, herr⟩ := @readEntry_of_isTemp _ _ s w.disk.recovery name htemp
    exact absurd (herr.symm.trans hx) (by simp)
  · intro htemp
    obtain ⟨o, ho⟩ := mem_entries.1 hname
    rcases h.names name o ho with hn | ⟨i, -, hentry⟩
    · exact absurd hn htemp
    · exact ⟨_, readEntry_of_entry hentry⟩

/-- What the loop finds under a name. -/
theorem Sound.readEntry_eq_ok (h : Sound s inputs link w) {name : Bytes} {x : RecoverySummary}
    (hname : name ∈ entries w.disk.recovery) (hx : s.readEntry w.disk.recovery name = .ok x) :
    ∃ i, Linked inputs w i ∧ name = (inputs i).recoveryID ∧
      x = (readBack (inputs i) (w.time i)).summary := by
  obtain ⟨o, ho⟩ := mem_entries.1 hname
  rcases h.names name o ho with htemp | ⟨i, hi, hentry⟩
  · obtain ⟨err, herr⟩ := @readEntry_of_isTemp _ _ s w.disk.recovery name htemp
    exact absurd (herr.symm.trans hx) (by simp)
  · have hx' := Except.ok.inj (hx.symm.trans (readEntry_of_entry hentry))
    obtain ⟨rfl, -⟩ := hentry
    exact ⟨i, ⟨o, hi, ho⟩, rfl, hx'⟩

section Found

variable {found : List RecoverySummary}
  (hfound : (entries w.disk.recovery).mapM (s.readEntry w.disk.recovery) = .ok found)

include hfound

theorem Sound.mem_found (h : Sound s inputs link w) (x : RecoverySummary) :
    x ∈ found ↔ ∃ i, Linked inputs w i ∧ x = (readBack (inputs i) (w.time i)).summary := by
  have hmem : x ∈ found ↔ ∃ name ∈ entries w.disk.recovery,
      s.readEntry w.disk.recovery name = .ok x := by
    rw [← List.mem_map, mapM_eq_ok_iff.1 hfound, List.mem_map]
    simp
  rw [hmem]
  constructor
  · rintro ⟨name, hname, hx⟩
    obtain ⟨i, hi, -, hx⟩ := h.readEntry_eq_ok hname hx
    exact ⟨i, hi, hx⟩
  · rintro ⟨i, ⟨t, hi, ht⟩, rfl⟩
    have hname : (inputs i).recoveryID ∈ entries w.disk.recovery := mem_entries.2 ⟨t, ht⟩
    refine ⟨_, hname, ?_⟩
    rcases h.names _ t ht with htemp | ⟨j, hj, hentry⟩
    · exact absurd htemp (h.exists_mapM_iff.1 ⟨found, hfound⟩ _ hname)
    · obtain rfl := h.inj i j t hi hj
      exact readEntry_of_entry hentry

/-- The identifiers are the names of the directory. -/
theorem Sound.recoveryIDs_found (h : Sound s inputs link w) :
    found.map RecoverySummary.recoveryID = entries w.disk.recovery := by
  have hids : (entries w.disk.recovery).map (fun name =>
      (s.readEntry w.disk.recovery name).map RecoverySummary.recoveryID) =
        (entries w.disk.recovery).map .ok := by
    refine List.map_congr_left fun name hname => ?_
    obtain ⟨x, hx⟩ := Fallible.exists_mapM_iff.1 ⟨found, hfound⟩ name hname
    obtain ⟨i, -, rfl, rfl⟩ := h.readEntry_eq_ok hname hx
    rw [hx]
    rfl
  have hmap := congrArg (List.map (Except.map RecoverySummary.recoveryID))
    (mapM_eq_ok_iff.1 hfound)
  rw [List.map_map, List.map_map] at hmap
  have hok : Function.Injective (Except.ok : Bytes → Except Bytes Bytes) := fun _ _ => Except.ok.inj
  refine hok.list_map ?_
  rw [← hids, List.map_map]
  exact hmap.symm

/-- The sorted list of what is found is exact if the projects are valid. -/
theorem Sound.exact_iff (h : Sound s inputs link w) :
    Exact inputs w (slice.sort found) ↔
      ∀ i, Linked inputs w i → Utf8.Valid (inputs i).project := by
  have hperm : ∀ x, x ∈ slice.sort found ↔ x ∈ found := fun x =>
    (slice.sorts found).perm.mem_iff
  have hnodup : (found.map RecoverySummary.recoveryID).Nodup := by
    rw [h.recoveryIDs_found hfound]
    exact nodup_entries _
  constructor
  · intro hexact i hi
    have hmem := (hexact.mem _).1 ((hperm _).2 ((h.mem_found hfound _).2 ⟨i, hi, rfl⟩))
    obtain ⟨j, ⟨t, hj, htj⟩, heq⟩ := hmem
    obtain ⟨t', hi, hti⟩ := hi
    have hid : (inputs i).recoveryID = (inputs j).recoveryID := congrArg (·.recoveryID) heq
    rw [hid, htj] at hti
    obtain rfl := Option.some.inj hti
    obtain rfl := h.inj i j t hi hj
    exact (Utf8.toValid_eq_self_iff _).1 (congrArg RecoverySummary.project heq)
  · intro hvalid
    refine ⟨fun x => ?_, ?_, ?_⟩
    · rw [hperm, h.mem_found hfound]
      refine exists_congr fun i => and_congr_right fun hi => ?_
      rw [readBack_eq_iff.2 (hvalid i hi)]
      rfl
    · exact ((slice.sorts found).perm.map _).nodup_iff.2 hnodup
    · exact ((slice.sorts found).increasing hnodup).imp fun h => lessBy_iff.1 h

end Found

variable [DecidableEq ι]

/-- **A listing is that of the published artifacts exactly if there is no temporary file.** However
`Publish` calls interleave on an empty directory, and wherever they are cut off: `List` succeeds
with one summary for each artifact that is linked, sorted, if and only if the directory passes its
check, no temporary name is in it, and the projects of the artifacts are valid UTF-8. -/
theorem list_exact_iff {d : Disk} {time : ι → ℕ}
    {p : Pool Call Call.Answer (Option Bytes) ι (Scene ι)} (slice : Sorter RecoverySummary.less)
    (hempty : d.recovery.names = ∅)
    (h : Pool.Reaches (Scene.act s.euid) (s.pool inputs d time) p) :
    Meets ListCall.act (Faultless True) (fun _ => True) (s.list slice) p.state.disk (fun r _ =>
        ∃ out, r = .ok out ∧ Exact inputs p.state out) ↔
      s.checkDir d.recovery.dirLink = .ok () ∧
      (∀ name o, p.state.disk.recovery.names.lookup name = some o → ¬ IsTemp name) ∧
      ∀ i, Linked inputs p.state i → Utf8.Valid (inputs i).project := by
  have hsound := sound_of_reaches hempty h
  obtain ⟨⟨⟨P, v⟩, time', file⟩, left⟩ := p
  have hlist := @list_meets _ _ s P v slice hsound.names_lt
  -- `List` returns the listing
  have hmeets : Meets ListCall.act (Faultless True) (fun _ => True) (s.list slice) ⟨P, v⟩
    (fun r _ =>
      ∃ out, r = .ok out ∧ Exact inputs ⟨⟨P, v⟩, time', file⟩ out) ↔
        ∃ out, s.listing slice v = .ok out ∧ Exact inputs ⟨⟨P, v⟩, time', file⟩ out := by
    constructor
    · intro hexact
      obtain ⟨r, d', ⟨out, hr, hout⟩, hr'⟩ := hexact.common hlist
      exact ⟨out, hr'.symm.trans hr, hout⟩
    · rintro ⟨out, hr, hout⟩
      exact meets_mono hlist (fun _ h => h) fun r _ hr' => ⟨out, hr'.trans hr, hout⟩
  have htemps : (∀ name o, v.names.lookup name = some o → ¬ IsTemp name) ↔
      ∀ name ∈ entries v, ¬ IsTemp name := by
    simp only [mem_entries, forall_exists_index]
  rw [hmeets, htemps]
  have hlink : v.dirLink = d.recovery.dirLink := hsound.dirLink
  unfold listing
  rw [hlink]
  cases hcheck : s.checkDir d.recovery.dirLink with
  | error err => simp
  | ok u =>
    rw [← hsound.exists_mapM_iff]
    constructor
    · rintro ⟨out, hout, hexact⟩
      cases hfound : (entries v).mapM (s.readEntry v) with
      | error err => simp [hfound, Except.map] at hout
      | ok found =>
        obtain rfl : slice.sort found = out := by simpa [hfound, Except.map] using hout
        exact ⟨rfl, ⟨found, rfl⟩, (hsound.exact_iff hfound).1 hexact⟩
    · rintro ⟨-, ⟨found, hfound⟩, hvalid⟩
      have hfound' : (entries v).mapM (s.readEntry v) = .ok found := hfound
      exact ⟨slice.sort found, by simp [hfound', Except.map], (hsound.exact_iff hfound).2 hvalid⟩

end Published

/-! One `Publish` of a project `db` on an empty directory, with nothing failing. -/

def demoSlice : Sorter RecoverySummary.less :=
  ⟨fun xs => xs.insertionSort fun a b => RecoverySummary.less b a = false, sorts_insertionSort⟩

def demoInputs (_ : Unit) : RecoveryArtifactInput := ⟨demoRecoveryID, str "db", [], []⟩

def demoPool : Pool Call Call.Answer (Option Bytes) Unit (Scene Unit) :=
  @pool (@instCodecOfJsonErrors demoErrors) Unit demoPlatform demoStore demoInputs demoRecoveryDisk
    fun _ => 0

/-- The pool after some calls of `Publish`. -/
def demoAfter (calls : ℕ) : Option (Pool Call Call.Answer (Option Bytes) Unit (Scene Unit)) :=
  demoPool.run (Scene.act 0) (List.replicate calls ((), demoDiskChoice false))

def demoList : Prog ListCall ListCall.Answer (Except Bytes (List RecoverySummary)) :=
  @list demoPlatform (@instCodecOfJsonErrors demoErrors) demoStore demoSlice

/-- After the last call of `Publish` its artifact is listed. -/
theorem list_exact_db :
    ∃ p, Pool.Reaches (Scene.act 0) demoPool p ∧
      Meets ListCall.act (Faultless True) (fun _ => True) demoList p.state.disk fun r _ =>
        ∃ out, r = .ok out ∧ Exact demoInputs p.state out := by
  have hrun : (demoAfter 13).any (fun p => entries p.state.disk.recovery == [demoRecoveryID]) =
      true := by decide +kernel
  obtain ⟨p, hp, hentries⟩ := (Option.any_eq_true _ _).1 hrun
  refine ⟨p, Pool.reaches_of_run hp, ?_⟩
  refine (@list_exact_iff Unit demoPlatform demoErrors demoStore demoInputs _ demoRecoveryDisk
    (fun _ => 0) p demoSlice rfl (Pool.reaches_of_run hp)).2 ⟨by decide +kernel, ?_, ?_⟩
  · intro name o ho
    have hmem := mem_entries.2 ⟨o, ho⟩
    rw [beq_iff_eq.1 hentries, List.mem_singleton] at hmem
    exact hmem ▸ not_isTemp_of_valid rfl
  · intro i _
    change Utf8.Valid (str "db")
    decide

def demoUnsafe : Bytes :=
  str "unsafe recovery artifact \".recovery.tmp-1\": " ++
    str "recovery ID must be 32 lowercase hexadecimal characters"

/-- A `Publish` that was cut off after its temporary file was created: every `List` fails. -/
theorem list_fails_during_publish :
    ∃ p, Pool.Reaches (Scene.act 0) demoPool p ∧
      Meets ListCall.act (Faultless True) (fun _ => True) demoList p.state.disk fun r _ =>
        r = .error demoUnsafe := by
  have hrun : (demoAfter 3).any (fun p =>
      match @listing demoPlatform (@instCodecOfJsonErrors demoErrors) demoStore demoSlice
        p.state.disk.recovery with
      | .error err => err == demoUnsafe
      | .ok _ => false) = true := by decide +kernel
  obtain ⟨p, hp, hlisting⟩ := (Option.any_eq_true _ _).1 hrun
  have hreaches := Pool.reaches_of_run hp
  obtain ⟨-, -, -, hlt, -⟩ := @sound_of_reaches (@instCodecOfJsonErrors demoErrors) Unit demoStore
    demoInputs _ demoPlatform demoRecoveryDisk (fun _ => 0) p rfl hreaches
  refine ⟨p, hreaches, ?_⟩
  refine meets_mono (@list_meets demoPlatform (@instCodecOfJsonErrors demoErrors) demoStore
    p.state.disk.policy p.state.disk.recovery demoSlice hlt) (fun _ h => h) ?_
  rintro r - rfl
  split at hlisting
  · next err herr => rw [herr, beq_iff_eq.1 hlisting]
  · cases hlisting

end RecoveryStore

end SecretsBroker.Admin
