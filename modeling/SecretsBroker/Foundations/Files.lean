import Mathlib.Algebra.Order.BigOperators.Group.List
import Mathlib.Algebra.Order.Group.Nat
import Mathlib.Data.Int.Notation
import Mathlib.Data.List.AList
import SecretsBroker.Foundations.Utf8

/-!
# One directory of a file system

The calls by which a program works on the files of one directory, and their effect. A `Volume` is
the directory with the files its names lead to and the open descriptors; a file without a name lives
on while it is open. A call takes effect at once, so a crash between two calls is a state between
two steps.

What the environment decides is in a `Choice`: whether the call fails although it could succeed, and
with which text, how much of a failing write is done, and the random part of a temporary name.
`Volume.step` has no result only where the call does not return: a blocking `flock` on a file that
another descriptor holds, or a temporary name that is taken.
-/

namespace SecretsBroker.Files

inductive Kind
  | regular
  | directory
  | symlink
  | other
  deriving DecidableEq, Inhabited

/-- What the file system keeps for a file besides its contents. -/
structure Attr where
  kind : Kind
  perm : UInt32
  /-- One of the setuid, setgid and sticky bits is set. -/
  special : Bool
  uid : UInt32
  gid : UInt32
  dev : UInt64
  ino : UInt64
  modified : ℤ
  deriving DecidableEq, Inhabited

structure Inode extends Attr where
  bytes : Bytes

/-- The answer of a stat call. -/
structure FileInfo extends Attr where
  size : ℕ
  deriving DecidableEq

/-- The part of a stat answer by which two states of a path are compared. -/
structure Stamp where
  mode : UInt32
  uid : UInt32
  gid : UInt32
  dev : UInt64
  ino : UInt64
  size : ℕ
  modified : ℤ
  deriving DecidableEq

def Inode.info (f : Inode) : FileInfo := ⟨f.toAttr, f.bytes.length⟩

def FileInfo.stamp (i : FileInfo) : Stamp :=
  ⟨i.perm, i.uid, i.gid, i.dev, i.ino, i.size, i.modified⟩

/-- An open descriptor: the file it leads to and whether it holds the exclusive lock on it. -/
structure Desc where
  file : ℕ
  locked : Bool
  deriving DecidableEq

inductive LockError
  | wouldBlock
  | other (text : Bytes)

inductive LinkError
  | exists
  | other (text : Bytes)

/-- The calls. Names are the names of the directory, descriptors are numbers. -/
inductive FileOp
  | statDir
  | lstatDir
  | lstat (name : Bytes)
  | openRead (name : Bytes)
  | fstat (fd : ℕ)
  | readAll (fd : ℕ) (limit : ℕ)
  | flock (fd : ℕ) (nonblocking : Bool)
  | createTemp (stem : Bytes)
  | chown (fd : ℕ) (uid gid : UInt32)
  | chmod (fd : ℕ) (perm : UInt32)
  | write (fd : ℕ) (data : Bytes)
  | sync (fd : ℕ)
  | close (fd : ℕ)
  | rename (source target : Bytes)
  | link (source target : Bytes)
  | remove (name : Bytes)
  | openDir
  | syncDir
  | closeDir
  deriving DecidableEq

/-- What a call is answered by. `none` is success where there is nothing to return. -/
abbrev FileOp.Answer : FileOp → Type
  | .statDir | .lstatDir | .lstat _ | .fstat _ => Except Bytes FileInfo
  | .openRead _ => Except Bytes ℕ
  | .readAll _ _ => Except Bytes Bytes
  | .flock _ _ => Option LockError
  | .createTemp _ => Except Bytes (ℕ × Bytes)
  | .write _ _ => ℕ × Option Bytes
  | .link _ _ => Option LinkError
  | .chown _ _ _ | .chmod _ _ | .sync _ | .close _ | .rename _ _ | .remove _ | .openDir
  | .syncDir | .closeDir => Option Bytes

structure Volume where
  dirInfo : FileInfo
  /-- The answer of `lstat` on the directory's own path. -/
  dirLink : FileInfo
  names : AList fun _ : Bytes => ℕ
  files : List Inode
  fds : List (Option Desc)

structure Choice where
  fault : Bool
  text : Bytes
  written : ℕ
  random : Bytes
  /-- What a file created now starts with; it is a regular file without special bits. -/
  fresh : Attr
  modified : ℤ
  deriving Inhabited

namespace Volume

/-- The file a name leads to. -/
def file? (v : Volume) (name : Bytes) : Option Inode :=
  (v.names.lookup name).bind fun o => v.files[o]?

/-- The open descriptor with this number. -/
def desc? (v : Volume) (fd : ℕ) : Option Desc := (v.fds[fd]?).join

/-- The file behind an open descriptor. -/
def behind? (v : Volume) (fd : ℕ) : Option Inode := (v.desc? fd).bind fun d => v.files[d.file]?

/-- Another descriptor than `fd` holds the lock on the file `o`. -/
def held (v : Volume) (o fd : ℕ) : Bool :=
  (List.range v.fds.length).any fun k => k != fd && v.desc? k == some ⟨o, true⟩

/-- Change the file behind an open descriptor. -/
def modify (v : Volume) (fd : ℕ) (f : Inode → Inode) : Volume :=
  match v.desc? fd with
  | some d => { v with files := v.files.modify d.file f }
  | none => v

/-- The effect and the answer of a call. -/
def step (v : Volume) (ch : Choice) : (op : FileOp) → Option (op.Answer × Volume)
  | .statDir => some (if ch.fault then .error ch.text else .ok v.dirInfo, v)
  | .lstatDir => some (if ch.fault then .error ch.text else .ok v.dirLink, v)
  | .lstat name =>
    match v.file? name with
    | some f => some (if ch.fault then .error ch.text else .ok f.info, v)
    | none => some (.error ch.text, v)
  | .openRead name =>
    match v.names.lookup name, v.file? name with
    | some o, some f =>
      -- the final component is not followed
      if ch.fault || f.kind == .symlink then some (.error ch.text, v)
      else some (.ok v.fds.length, { v with fds := v.fds ++ [some ⟨o, false⟩] })
    | _, _ => some (.error ch.text, v)
  | .fstat fd =>
    match v.behind? fd with
    | some f => some (if ch.fault then .error ch.text else .ok f.info, v)
    | none => some (.error ch.text, v)
  | .readAll fd limit =>
    match v.behind? fd with
    | some f => some (if ch.fault then .error ch.text else .ok (f.bytes.take limit), v)
    | none => some (.error ch.text, v)
  | .flock fd nonblocking =>
    match v.desc? fd with
    | none => some (some (.other ch.text), v)
    | some d =>
      if ch.fault then some (some (.other ch.text), v)
      else if v.held d.file fd then
        if nonblocking then some (some .wouldBlock, v) else none
      else some (none, { v with fds := v.fds.set fd (some ⟨d.file, true⟩) })
  | .createTemp stem =>
    if ch.fault then some (.error ch.text, v)
    else if (v.names.lookup (stem ++ ch.random)).isSome then none
    else some (.ok (v.fds.length, stem ++ ch.random),
      { v with
        names := v.names.insert (stem ++ ch.random) v.files.length
        files := v.files ++ [⟨{ ch.fresh with kind := .regular, special := false }, []⟩]
        fds := v.fds ++ [some ⟨v.files.length, false⟩] })
  | .chown fd uid gid =>
    if ch.fault || (v.desc? fd).isNone then some (some ch.text, v)
    else some (none, v.modify fd fun f => { f with uid := uid, gid := gid })
  | .chmod fd perm =>
    if ch.fault || (v.desc? fd).isNone then some (some ch.text, v)
    else some (none, v.modify fd fun f => { f with perm := perm })
  | .write fd data =>
    if (v.desc? fd).isNone then some ((0, some ch.text), v)
    else if ch.fault then
      some ((min ch.written data.length, some ch.text), v.modify fd fun f =>
        { f with bytes := f.bytes ++ data.take ch.written, modified := ch.modified })
    else some ((data.length, none), v.modify fd fun f =>
      { f with bytes := f.bytes ++ data, modified := ch.modified })
  | .sync _ => some (if ch.fault then some ch.text else none, v)
  | .close fd =>
    -- the descriptor is gone whatever the call says, and its lock with it
    some (if ch.fault then some ch.text else none, { v with fds := v.fds.set fd none })
  | .rename source target =>
    match v.names.lookup source with
    | none => some (some ch.text, v)
    | some o =>
      if ch.fault then some (some ch.text, v)
      else some (none, { v with names := (v.names.erase source).insert target o })
  | .link source target =>
    match v.names.lookup source with
    | none => some (some (.other ch.text), v)
    | some o =>
      if (v.names.lookup target).isSome then some (some .exists, v)
      else if ch.fault then some (some (.other ch.text), v)
      else some (none, { v with names := v.names.insert target o })
  | .remove name =>
    if ch.fault || (v.names.lookup name).isNone then some (some ch.text, v)
    else some (none, { v with names := v.names.erase name })
  | .openDir => some (if ch.fault then some ch.text else none, v)
  | .syncDir => some (if ch.fault then some ch.text else none, v)
  | .closeDir => some (if ch.fault then some ch.text else none, v)

/-! ## Descriptors and files after an update -/

theorem lt_of_desc? {v : Volume} {fd : ℕ} {d : Desc} (h : v.desc? fd = some d) :
    fd < v.fds.length := by
  by_contra hge
  simp [desc?, List.getElem?_eq_none (Nat.le_of_not_lt hge)] at h

theorem desc?_open (v : Volume) (d : Desc) (fd : ℕ) :
    ({ v with fds := v.fds ++ [some d] } : Volume).desc? fd =
      if fd = v.fds.length then some d else v.desc? fd := by
  unfold desc?
  split_ifs with h
  · simp [h]
  · rcases Nat.lt_or_gt_of_ne h with hlt | hgt
    · simp [List.getElem?_append_left hlt]
    · simp [List.getElem?_eq_none (show (v.fds ++ [some d]).length ≤ fd by simp; omega),
        List.getElem?_eq_none (Nat.le_of_lt hgt)]

/-- A descriptor just opened holds no lock. -/
theorem desc?_of_open_locked {v : Volume} {o f fd : ℕ}
    (h : ({ v with fds := v.fds ++ [some ⟨o, false⟩] } : Volume).desc? fd = some ⟨f, true⟩) :
    v.desc? fd = some ⟨f, true⟩ := by
  rw [desc?_open] at h
  split_ifs at h
  · simp at h
  · exact h

theorem desc?_set {v : Volume} {fd : ℕ} (x : Option Desc) (h : fd < v.fds.length) (k : ℕ) :
    ({ v with fds := v.fds.set fd x } : Volume).desc? k = if k = fd then x else v.desc? k := by
  unfold desc?
  split_ifs with hk
  · simp [hk, h]
  · simp [List.getElem?_set_ne (Ne.symm hk)]

theorem desc?_close (v : Volume) (fd k : ℕ) :
    ({ v with fds := v.fds.set fd none } : Volume).desc? k =
      if k = fd then none else v.desc? k := by
  by_cases h : fd < v.fds.length
  · exact desc?_set none h k
  · rw [List.set_eq_of_length_le (Nat.le_of_not_lt h)]
    split_ifs with hk
    · simp [desc?, hk, List.getElem?_eq_none (Nat.le_of_not_lt h)]
    · rfl

theorem held_eq_false {v : Volume} {o fd : ℕ} (h : v.held o fd = false) {k : ℕ}
    (hk : v.desc? k = some ⟨o, true⟩) : k = fd := by
  by_contra hne
  have := List.any_eq_false.1 h k (List.mem_range.2 (lt_of_desc? hk))
  simp [hk, hne] at this

theorem modify_of_desc? {v : Volume} {fd : ℕ} {d : Desc} (h : v.desc? fd = some d)
    (f : Inode → Inode) : v.modify fd f = { v with files := v.files.modify d.file f } := by
  simp [modify, h]

theorem desc?_modify (v : Volume) (fd : ℕ) (f : Inode → Inode) (k : ℕ) :
    (v.modify fd f).desc? k = v.desc? k := by
  unfold modify
  split <;> rfl

theorem dirLink_modify (v : Volume) (fd : ℕ) (f : Inode → Inode) :
    (v.modify fd f).dirLink = v.dirLink := by
  unfold modify
  split <;> rfl

/-! ## What a call does, by its answer -/

/-- A call with this answer has left the volume as it was, has read no contents, and is no failed
call on the directory. -/
def Inert : (op : FileOp) → op.Answer → Prop
  | .statDir, _ | .lstatDir, _ | .lstat _, _ | .fstat _, _ | .sync _, _ | .closeDir, _ => True
  | .openDir, r | .syncDir, r => r = none
  | .openRead _, r => ∃ e, r = .error e
  | .readAll _ _, r => ∃ e, r = .error e
  | .createTemp _, r => ∃ e, r = .error e
  | .flock _ _, r => r ≠ none
  | .link _ _, r => r ≠ none
  | .chown _ _ _, r | .chmod _ _, r | .rename _ _, r | .remove _, r => r ≠ none
  | .write _ _, _ | .close _, _ => False

theorem step_inert {v v' : Volume} {ch : Choice} {op : FileOp} {r : op.Answer}
    (h : v.step ch op = some (r, v')) (hi : Inert op r) : v' = v := by
  cases op <;> simp only [step, Inert] at h hi <;> grind

theorem step_openDir {v v' : Volume} {ch : Choice} {r : Option Bytes}
    (h : v.step ch .openDir = some (r, v')) : v' = v := by
  simp only [step, Option.some.injEq, Prod.mk.injEq] at h
  exact h.2.symm

theorem step_syncDir {v v' : Volume} {ch : Choice} {r : Option Bytes}
    (h : v.step ch .syncDir = some (r, v')) : v' = v := by
  simp only [step, Option.some.injEq, Prod.mk.injEq] at h
  exact h.2.symm

theorem step_lstat {v v' : Volume} {ch : Choice} {name : Bytes} {info : FileInfo}
    (h : v.step ch (.lstat name) = some (.ok info, v')) :
    v' = v ∧ ∃ o f, v.names.lookup name = some o ∧ v.files[o]? = some f ∧ f.info = info := by
  simp only [step, file?] at h
  cases ho : v.names.lookup name with
  | none => simp [ho] at h
  | some o =>
    cases hf : v.files[o]? with
    | none => simp [ho, hf] at h
    | some f =>
      by_cases hc : ch.fault = true <;> simp [ho, hf, hc] at h
      exact ⟨h.2.symm, o, f, rfl, hf, h.1⟩

theorem step_openRead {v v' : Volume} {ch : Choice} {name : Bytes} {fd : ℕ}
    (h : v.step ch (.openRead name) = some (.ok fd, v')) :
    ∃ o, v.names.lookup name = some o ∧ fd = v.fds.length ∧
      v' = { v with fds := v.fds ++ [some ⟨o, false⟩] } := by
  simp only [step] at h
  grind

theorem step_readAll {v v' : Volume} {ch : Choice} {fd limit : ℕ} {b : Bytes}
    (h : v.step ch (.readAll fd limit) = some (.ok b, v')) :
    v' = v ∧ ∃ d f, v.desc? fd = some d ∧ v.files[d.file]? = some f ∧ b = f.bytes.take limit := by
  simp only [step, behind?] at h
  cases hd : v.desc? fd with
  | none => simp [hd] at h
  | some d =>
    cases hf : v.files[d.file]? with
    | none => simp [hd, hf] at h
    | some f =>
      by_cases hc : ch.fault = true <;> simp [hd, hf, hc] at h
      exact ⟨h.2.symm, d, f, rfl, hf, h.1.symm⟩

theorem step_flock {v v' : Volume} {ch : Choice} {fd : ℕ} {nonblocking : Bool}
    (h : v.step ch (.flock fd nonblocking) = some (none, v')) :
    ∃ d, v.desc? fd = some d ∧ v.held d.file fd = false ∧
      v' = { v with fds := v.fds.set fd (some ⟨d.file, true⟩) } := by
  simp only [step] at h
  grind

theorem step_createTemp {v v' : Volume} {ch : Choice} {stem name : Bytes} {fd : ℕ}
    (h : v.step ch (.createTemp stem) = some (.ok (fd, name), v')) :
    v.names.lookup name = none ∧ name = stem ++ ch.random ∧ fd = v.fds.length ∧
      v' = { v with
        names := v.names.insert name v.files.length
        files := v.files ++ [⟨{ ch.fresh with kind := .regular, special := false }, []⟩]
        fds := v.fds ++ [some ⟨v.files.length, false⟩] } := by
  simp only [step] at h
  split_ifs at h with h₁ h₂
  · simp at h
  · simp only [Option.some.injEq, Prod.mk.injEq, Except.ok.injEq] at h
    obtain ⟨⟨rfl, rfl⟩, rfl⟩ := h
    exact ⟨by simpa using h₂, rfl, rfl, rfl⟩

/-- A write appends to the file behind the descriptor: all of the data when it succeeds. -/
theorem step_write {v v' : Volume} {ch : Choice} {fd : ℕ} {data : Bytes} {r : ℕ × Option Bytes}
    (h : v.step ch (.write fd data) = some (r, v')) :
    (∃ f, v' = v.modify fd f ∧
      (r.2 = none → ∀ i : Inode, (f i).bytes = i.bytes ++ data)) := by
  simp only [step] at h
  split_ifs at h with h₁ h₂
  · obtain ⟨rfl, rfl⟩ := Prod.mk.inj (Option.some.inj h)
    refine ⟨id, ?_, by simp⟩
    simp only [Option.isNone_iff_eq_none] at h₁
    simp [modify, h₁]
  · obtain ⟨rfl, rfl⟩ := Prod.mk.inj (Option.some.inj h)
    exact ⟨_, rfl, by simp⟩
  · obtain ⟨rfl, rfl⟩ := Prod.mk.inj (Option.some.inj h)
    exact ⟨_, rfl, fun _ _ => rfl⟩

theorem step_chown {v v' : Volume} {ch : Choice} {fd : ℕ} {uid gid : UInt32}
    (h : v.step ch (.chown fd uid gid) = some (none, v')) :
    v' = v.modify fd fun f => { f with uid := uid, gid := gid } := by
  simp only [step] at h
  grind

theorem step_chmod {v v' : Volume} {ch : Choice} {fd : ℕ} {perm : UInt32}
    (h : v.step ch (.chmod fd perm) = some (none, v')) :
    v' = v.modify fd fun f => { f with perm := perm } := by
  simp only [step] at h
  grind

theorem step_close {v v' : Volume} {ch : Choice} {fd : ℕ} {r : Option Bytes}
    (h : v.step ch (.close fd) = some (r, v')) : v' = { v with fds := v.fds.set fd none } := by
  simp only [step, Option.some.injEq, Prod.mk.injEq] at h
  exact h.2.symm

theorem step_rename {v v' : Volume} {ch : Choice} {source target : Bytes}
    (h : v.step ch (.rename source target) = some (none, v')) :
    ∃ o, v.names.lookup source = some o ∧
      v' = { v with names := (v.names.erase source).insert target o } := by
  simp only [step] at h
  grind

theorem step_link {v v' : Volume} {ch : Choice} {source target : Bytes}
    (h : v.step ch (.link source target) = some (none, v')) :
    ∃ o, v.names.lookup source = some o ∧ v.names.lookup target = none ∧
      v' = { v with names := v.names.insert target o } := by
  simp only [step] at h
  cases ho : v.names.lookup source with
  | none => simp [ho] at h
  | some o =>
    simp only [ho] at h
    split_ifs at h with h₁ h₂
    · simp at h
    · simp at h
    · exact ⟨o, rfl, by simpa using h₁, (Prod.mk.inj (Option.some.inj h)).2.symm⟩

theorem step_remove {v v' : Volume} {ch : Choice} {name : Bytes}
    (h : v.step ch (.remove name) = some (none, v')) :
    v' = { v with names := v.names.erase name } := by
  simp only [step] at h
  grind

/-! ## Volumes that differ in their descriptors -/

/-- The same files under the same names. -/
structure Still (v v' : Volume) : Prop where
  dirInfo : v'.dirInfo = v.dirInfo
  dirLink : v'.dirLink = v.dirLink
  names : v'.names = v.names
  files : v'.files = v.files

/-- The same files and the same open descriptors. -/
structure Same (v v' : Volume) : Prop extends Still v v' where
  desc : ∀ fd, v'.desc? fd = v.desc? fd

theorem Still.file? {v v' : Volume} (h : Still v v') (name : Bytes) :
    v'.file? name = v.file? name := by
  simp [Volume.file?, h.names, h.files]

theorem Same.refl (v : Volume) : Same v v := ⟨⟨rfl, rfl, rfl, rfl⟩, fun _ => rfl⟩

theorem Same.trans {v v' v'' : Volume} (h : Same v v') (h' : Same v' v'') : Same v v'' where
  dirInfo := h'.dirInfo.trans h.dirInfo
  dirLink := h'.dirLink.trans h.dirLink
  names := h'.names.trans h.names
  files := h'.files.trans h.files
  desc := fun fd => (h'.desc fd).trans (h.desc fd)

/-- A descriptor opened and closed again. -/
theorem same_open_close (v : Volume) (d : Desc) :
    Same v { v with fds := (v.fds ++ [some d]).set v.fds.length none } where
  dirInfo := rfl
  dirLink := rfl
  names := rfl
  files := rfl
  desc := by
    intro fd
    refine (desc?_close { v with fds := v.fds ++ [some d] } v.fds.length fd).trans ?_
    rw [desc?_open]
    split_ifs with h
    · simp [h, desc?]
    · rfl

/-! ## Calls that return -/

/-- A call that fails returns. -/
theorem isSome_step_fault {v : Volume} {ch : Choice} (h : ch.fault = true) (op : FileOp) :
    (v.step ch op).isSome = true := by
  cases op <;> simp only [step, h] <;> grind

/-- Only a lock and a temporary name can keep a call from returning. -/
theorem isSome_step {v : Volume} {ch : Choice} {op : FileOp}
    (hlock : ∀ fd nonblocking, op ≠ .flock fd nonblocking)
    (htemp : ∀ stem, op ≠ .createTemp stem) : (v.step ch op).isSome = true := by
  cases op with
  | flock fd nonblocking => exact absurd rfl (hlock fd nonblocking)
  | createTemp stem => exact absurd rfl (htemp stem)
  | _ =>
    simp only [step]
    grind

theorem isSome_step_flock {v : Volume} {ch : Choice} {fd : ℕ} {nonblocking : Bool} {d : Desc}
    (hd : v.desc? fd = some d) (h : v.held d.file fd = false) :
    (v.step ch (.flock fd nonblocking)).isSome = true := by
  simp only [step, hd, h]
  grind

/-- Some temporary name is free. -/
theorem exists_step_createTemp (v : Volume) (ch : Choice) (stem : Bytes) :
    ∃ random, (v.step { ch with random := random } (.createTemp stem)).isSome = true := by
  let long : Bytes := List.replicate ((v.names.keys.map List.length).sum + 1) 0
  have hfree : v.names.lookup (stem ++ long) = none := by
    rw [AList.lookup_eq_none]
    intro hmem
    have hle := List.le_sum_of_mem (List.mem_map_of_mem (AList.mem_keys.1 hmem) :
      (stem ++ long).length ∈ v.names.keys.map List.length)
    simp [long] at hle
    omega
  refine ⟨long, ?_⟩
  simp only [step, hfree]
  grind

end Volume

end SecretsBroker.Files
