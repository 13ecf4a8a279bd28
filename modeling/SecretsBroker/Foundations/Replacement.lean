import Mathlib.Logic.Function.Basic
import SecretsBroker.Foundations.Files
import SecretsBroker.Foundations.Interaction

/-!
# Replacing a file under a lock on the file that is replaced

Several processes read one file of a directory and replace it by a new version. Each one reads it
between two looks at its stamp, then locks what it finds under the name, looks again, writes a
temporary file and renames it over the name. The lock is on the file and not on the name, so it may
be a lock on a version that is gone; the look under the lock rules that out.

`Phase` is where a process stands and `Next` what it may do there, with the answer it got. The
versions that were installed are numbered in order. `Knows` says what a process knows of them in
each phase, and `Inv.step` that every step of every process keeps the knowledge of all. The result
is `Inv.chain`: each replacement replaces the version that its process had read.

The stamps are compared instead of the files, so this needs that no two versions share a stamp
(`Distinct`) whenever a process compares two stamps.
-/

namespace SecretsBroker.Replacement

open Files

/-- Where a process stands. `m` is the stamp it compares with, `b` are the bytes it has read, `fd`
is the descriptor it reads or holds the lock by, `c` are the bytes of its temporary file. -/
inductive Phase
  | idle
  | looked (m : Stamp)
  | opened (m : Stamp) (fd : ℕ)
  | fetched (m : Stamp) (b : Bytes) (fd : ℕ)
  | got (m : Stamp) (b : Bytes)
  | observed (m : Stamp) (b : Bytes)
  | contending (m : Stamp) (b : Bytes) (fd : ℕ)
  | locked (m : Stamp) (b : Bytes) (fd : ℕ)
  | confirmed (m : Stamp) (b : Bytes) (fd : ℕ)
  | drafting (m : Stamp) (b : Bytes) (fd tmp : ℕ) (name : Bytes) (c : Option Bytes)
  | drafted (m : Stamp) (b : Bytes) (fd : ℕ) (name : Bytes) (c : Option Bytes)
  /-- The replacement is done; `fault` tells whether a call on the directory has failed since. -/
  | renamed (b c : Bytes) (fd : ℕ) (fault : Bool)
  | finished (b c : Bytes) (fault : Bool)

namespace Phase

/-- The descriptors that the process has open. -/
def fds : Phase → List ℕ
  | opened _ fd | fetched _ _ fd | contending _ _ fd | locked _ _ fd | confirmed _ _ fd => [fd]
  | drafting _ _ fd tmp _ _ => [fd, tmp]
  | drafted _ _ fd _ _ | renamed _ _ fd _ => [fd]
  | _ => []

/-- The bytes that the process has read. -/
def bytes? : Phase → Option Bytes
  | fetched _ b _ | got _ b | observed _ b | contending _ b _ | locked _ b _ | confirmed _ b _
  | drafting _ b _ _ _ _ | drafted _ b _ _ _ => some b
  | _ => none

/-- What the process has replaced, and by what. -/
def result : Phase → Option (Bytes × Bytes)
  | renamed b c _ _ | finished b c _ => some (b, c)
  | _ => none

/-- The name of the process's temporary file. -/
def draft : Phase → Option Bytes
  | drafting _ _ _ _ name _ | drafted _ _ _ name _ => some name
  | _ => none

/-- The process has seen, under the lock, that it holds the current version. -/
def Holding : Phase → Prop
  | confirmed _ _ _ | drafting _ _ _ _ _ _ | drafted _ _ _ _ _ => True
  | _ => False

/-- The next look of the process is compared with an earlier one. -/
def Comparing : Phase → Prop
  | got _ _ | locked _ _ _ => True
  | _ => False

theorem holding_of_draft {q : Phase} {name : Bytes} (h : q.draft = some name) : q.Holding := by
  cases q <;> simp [draft] at h <;> trivial

end Phase

/-- What a process may do: the calls that are allowed in a phase, and the phase after the answer.
`Permits b c` allows `c` as the replacement of `b`. -/
inductive Next (target : Bytes) (Permits : Bytes → Bytes → Prop) :
    Phase → (op : FileOp) → op.Answer → Phase → Prop
  | stay {q : Phase} {op : FileOp} {r : op.Answer} (h : Volume.Inert op r) :
    Next target Permits q op r q
  | look {info : FileInfo} :
    Next target Permits .idle (.lstat target) (.ok info) (.looked info.stamp)
  | openRead {m : Stamp} {fd : ℕ} :
    Next target Permits (.looked m) (.openRead target) (.ok fd) (.opened m fd)
  | abandon {m : Stamp} {fd : ℕ} {r : Option Bytes} :
    Next target Permits (.opened m fd) (.close fd) r .idle
  | fetch {m : Stamp} {fd limit : ℕ} {b : Bytes} (h : b.length < limit) :
    Next target Permits (.opened m fd) (.readAll fd limit) (.ok b) (.fetched m b fd)
  | overlong {m : Stamp} {fd limit : ℕ} {b : Bytes} :
    Next target Permits (.opened m fd) (.readAll fd limit) (.ok b) (.opened m fd)
  | closeRead {m : Stamp} {b : Bytes} {fd : ℕ} {r : Option Bytes} :
    Next target Permits (.fetched m b fd) (.close fd) r (.got m b)
  | observe {m : Stamp} {b : Bytes} {info : FileInfo} (h : info.stamp = m) :
    Next target Permits (.got m b) (.lstat target) (.ok info) (.observed m b)
  | openLock {m : Stamp} {b : Bytes} {fd : ℕ} :
    Next target Permits (.observed m b) (.openRead target) (.ok fd) (.contending m b fd)
  | lock {m : Stamp} {b : Bytes} {fd : ℕ} {nonblocking : Bool} :
    Next target Permits (.contending m b fd) (.flock fd nonblocking) none (.locked m b fd)
  | confirm {m : Stamp} {b : Bytes} {fd : ℕ} {info : FileInfo} (h : info.stamp = m) :
    Next target Permits (.locked m b fd) (.lstat target) (.ok info) (.confirmed m b fd)
  | create {m : Stamp} {b stem name : Bytes} {fd tmp : ℕ} :
    Next target Permits (.confirmed m b fd) (.createTemp stem) (.ok (tmp, name))
      (.drafting m b fd tmp name (some []))
  | chown {m : Stamp} {b name : Bytes} {fd tmp : ℕ} {c : Option Bytes} {uid gid : UInt32} :
    Next target Permits (.drafting m b fd tmp name c) (.chown tmp uid gid) none
      (.drafting m b fd tmp name c)
  | chmod {m : Stamp} {b name : Bytes} {fd tmp : ℕ} {c : Option Bytes} {perm : UInt32} :
    Next target Permits (.drafting m b fd tmp name c) (.chmod tmp perm) none
      (.drafting m b fd tmp name c)
  | write {m : Stamp} {b name data c : Bytes} {fd tmp n : ℕ} :
    Next target Permits (.drafting m b fd tmp name (some c)) (.write tmp data) (n, none)
      (.drafting m b fd tmp name (some (c ++ data)))
  | spoil {m : Stamp} {b name data : Bytes} {fd tmp : ℕ} {c : Option Bytes}
    {r : ℕ × Option Bytes} :
    Next target Permits (.drafting m b fd tmp name c) (.write tmp data) r
      (.drafting m b fd tmp name none)
  | closeDraft {m : Stamp} {b name : Bytes} {fd tmp : ℕ} {c r : Option Bytes} :
    Next target Permits (.drafting m b fd tmp name c) (.close tmp) r (.drafted m b fd name c)
  | discard {m : Stamp} {b name : Bytes} {fd : ℕ} {c : Option Bytes} :
    Next target Permits (.drafted m b fd name c) (.remove name) none (.confirmed m b fd)
  | replace {m : Stamp} {b c name : Bytes} {fd : ℕ} (h : Permits b c) :
    Next target Permits (.drafted m b fd name (some c)) (.rename name target) none
      (.renamed b c fd false)
  | openDirFailed {b c e : Bytes} {fd : ℕ} {fault : Bool} :
    Next target Permits (.renamed b c fd fault) .openDir (some e) (.renamed b c fd true)
  | syncDirFailed {b c e : Bytes} {fd : ℕ} {fault : Bool} :
    Next target Permits (.renamed b c fd fault) .syncDir (some e) (.renamed b c fd true)
  | unlock {m : Stamp} {b : Bytes} {fd : ℕ} {r : Option Bytes} {q : Phase}
    (h : q = .contending m b fd ∨ q = .locked m b fd ∨ q = .confirmed m b fd ∨
      ∃ name c, q = .drafted m b fd name c) :
    Next target Permits q (.close fd) r .idle
  | finish {b c : Bytes} {fd : ℕ} {fault : Bool} {r : Option Bytes} :
    Next target Permits (.renamed b c fd fault) (.close fd) r (.finished b c fault)

theorem Next.mono {target : Bytes} {Permits Permits' : Bytes → Bytes → Prop} {q q' : Phase}
    {op : FileOp} {r : op.Answer} (hp : ∀ b c, Permits b c → Permits' b c)
    (h : Next target Permits q op r q') : Next target Permits' q op r q' := by
  cases h with
  | stay h => exact .stay h
  | fetch h => exact .fetch h
  | overlong => exact .overlong
  | chown => exact .chown
  | chmod => exact .chmod
  | observe h => exact .observe h
  | confirm h => exact .confirm h
  | replace h => exact .replace (hp _ _ h)
  | unlock h => exact .unlock h
  | _ => constructor

/-! ## What the processes know -/

section Knowledge

variable (v : Volume) (vs : List ℕ)

/-- Version `i` has the stamp `m`. -/
def Stamped (i : ℕ) (m : Stamp) : Prop :=
  ∃ o f, vs[i]? = some o ∧ v.files[o]? = some f ∧ f.info.stamp = m

/-- Version `i` is the file `o`, with the contents `b`. -/
def Contains (o i : ℕ) (b : Bytes) : Prop :=
  vs[i]? = some o ∧ ∃ f, v.files[o]? = some f ∧ f.bytes = b

/-- The descriptor leads to version `j`, with the lock on it if `l`. -/
def Opens (j fd : ℕ) (l : Bool) : Prop := ∃ o, vs[j]? = some o ∧ v.desc? fd = some ⟨o, l⟩

/-- No two versions share a stamp. -/
def Distinct : Prop := ∀ i j m, Stamped v vs i m → Stamped v vs j m → i = j

/-- The current version is the file `o` with the contents `b`, and the descriptor holds the lock on
it. -/
def Holds (o : ℕ) (b : Bytes) (fd : ℕ) : Prop :=
  ∃ i, vs.length = i + 1 ∧ Contains v vs o i b ∧ Opens v vs i fd true

/-- The name leads to the file `t`, which is no version and has no other name; its contents are `c`
unless a write has failed. -/
structure Drafts (name : Bytes) (c : Option Bytes) (t : ℕ) : Prop where
  lookup : v.names.lookup name = some t
  new : t ∉ vs
  only : ∀ n, v.names.lookup n = some t → n = name
  contents : ∀ c', c = some c' → ∃ f, v.files[t]? = some f ∧ f.bytes = c'

/-- What a process knows of the versions in each phase; `o` is the file that it has read. -/
def Knows (o : ℕ) : Phase → Prop
  | .idle | .renamed _ _ _ _ | .finished _ _ _ => True
  | .looked m => ∃ i, Stamped v vs i m
  | .opened m fd => ∃ i j, i ≤ j ∧ Stamped v vs i m ∧ Opens v vs j fd false
  | .fetched m b _ | .got m b => ∃ i j, i ≤ j ∧ Stamped v vs i m ∧ Contains v vs o j b
  | .observed m b => ∃ i, Stamped v vs i m ∧ Contains v vs o i b
  | .contending m b fd =>
    ∃ i j, i ≤ j ∧ Stamped v vs i m ∧ Contains v vs o i b ∧ Opens v vs j fd false
  | .locked m b fd =>
    ∃ i j, i ≤ j ∧ Stamped v vs i m ∧ Contains v vs o i b ∧ Opens v vs j fd true
  | .confirmed _ b fd => Holds v vs o b fd
  | .drafting _ b fd tmp name c =>
    Holds v vs o b fd ∧ ∃ t, Drafts v vs name c t ∧ v.desc? tmp = some ⟨t, false⟩
  | .drafted _ b fd name c => Holds v vs o b fd ∧ ∃ t, Drafts v vs name c t

/-- A change of the volume that a process in the phase `q` does not notice. -/
structure Frame (v v' : Volume) (vs vs' : List ℕ) (q : Phase) : Prop where
  versions : vs <+: vs'
  files : ∀ o ∈ vs, v'.files[o]? = v.files[o]?
  fds : ∀ fd ∈ q.fds, v'.desc? fd = v.desc? fd
  holding : q.Holding → vs' = vs
  draft : ∀ name c t, q.draft = some name → Drafts v vs name c t → Drafts v' vs name c t

end Knowledge

section Frame

variable {v v' : Volume} {vs vs' : List ℕ} {q : Phase}

theorem Frame.getElem? (h : Frame v v' vs vs' q) {i o : ℕ} (ho : vs[i]? = some o) :
    vs'[i]? = some o := by
  obtain ⟨t, rfl⟩ := h.versions
  rw [List.getElem?_append_left (List.getElem?_eq_some_iff.1 ho).1, ho]

theorem Frame.stamped (h : Frame v v' vs vs' q) {i : ℕ} {m : Stamp} (hs : Stamped v vs i m) :
    Stamped v' vs' i m := by
  obtain ⟨o, f, ho, hf, hm⟩ := hs
  exact ⟨o, f, h.getElem? ho, (h.files o (List.mem_of_getElem? ho)).trans hf, hm⟩

theorem Frame.contains (h : Frame v v' vs vs' q) {o i : ℕ} {b : Bytes}
    (hc : Contains v vs o i b) : Contains v' vs' o i b := by
  obtain ⟨ho, f, hf, hb⟩ := hc
  exact ⟨h.getElem? ho, f, (h.files o (List.mem_of_getElem? ho)).trans hf, hb⟩

theorem Frame.opens (h : Frame v v' vs vs' q) {j fd : ℕ} {l : Bool} (hfd : fd ∈ q.fds)
    (ho : Opens v vs j fd l) : Opens v' vs' j fd l := by
  obtain ⟨o, ho, hd⟩ := ho
  exact ⟨o, h.getElem? ho, (h.fds fd hfd).trans hd⟩

theorem Frame.holds (h : Frame v v' vs vs' q) {o : ℕ} {b : Bytes} {fd : ℕ} (hfd : fd ∈ q.fds)
    (hq : q.Holding) (hh : Holds v vs o b fd) : Holds v' vs' o b fd := by
  obtain ⟨i, hlen, hc, ho⟩ := hh
  exact ⟨i, h.holding hq ▸ hlen, h.contains hc, h.opens hfd ho⟩

theorem Frame.drafts (h : Frame v v' vs vs' q) {name : Bytes} {c : Option Bytes} {t : ℕ}
    (hq : q.Holding) (hn : q.draft = some name) (hd : Drafts v vs name c t) :
    Drafts v' vs' name c t := h.holding hq ▸ h.draft name c t hn hd

/-- **What a process knows survives the steps it does not notice.** -/
theorem Knows.frame (h : Frame v v' vs vs' q) {o : ℕ} (hk : Knows v vs o q) :
    Knows v' vs' o q := by
  cases q with
  | idle | renamed | finished => trivial
  | looked m =>
    obtain ⟨i, hs⟩ := hk
    exact ⟨i, h.stamped hs⟩
  | opened m fd =>
    obtain ⟨i, j, hij, hs, ho⟩ := hk
    exact ⟨i, j, hij, h.stamped hs, h.opens (by simp [Phase.fds]) ho⟩
  | fetched m b fd | got m b =>
    obtain ⟨i, j, hij, hs, hc⟩ := hk
    exact ⟨i, j, hij, h.stamped hs, h.contains hc⟩
  | observed m b =>
    obtain ⟨i, hs, hc⟩ := hk
    exact ⟨i, h.stamped hs, h.contains hc⟩
  | contending m b fd | locked m b fd =>
    obtain ⟨i, j, hij, hs, hc, ho⟩ := hk
    exact ⟨i, j, hij, h.stamped hs, h.contains hc, h.opens (by simp [Phase.fds]) ho⟩
  | confirmed m b fd => exact h.holds (by simp [Phase.fds]) trivial hk
  | drafting m b fd tmp name c =>
    obtain ⟨hh, t, hd, ht⟩ := hk
    exact ⟨h.holds (by simp [Phase.fds]) trivial hh, t, h.drafts trivial rfl hd,
      (h.fds tmp (by simp [Phase.fds])).trans ht⟩
  | drafted m b fd name c =>
    obtain ⟨hh, t, hd⟩ := hk
    exact ⟨h.holds (by simp [Phase.fds]) trivial hh, t, h.drafts trivial rfl hd⟩

end Frame

/-! ## The invariant -/

/-- A replacement: the process, the file and the bytes it had read last, and the bytes it
installed. -/
structure Entry (ι : Type) where
  who : ι
  source : ℕ
  read : Bytes
  written : Bytes

/-- What has happened so far: the file and the bytes each process has read last, the files that were
installed under the name, oldest first, the first of them as it was at the start, and the
replacements in order. -/
structure History (ι : Type) where
  read : ι → ℕ × Bytes
  origin : Inode
  versions : List ℕ
  log : List (Entry ι)

/-- The contents under a name. -/
def contents (v : Volume) (name : Bytes) : Bytes := ((v.file? name).map Inode.bytes).getD []

/-- The history after a call of process `i` that leaves the volume `v'`. -/
def History.after {ι : Type} [DecidableEq ι] (target : Bytes) (h : History ι) (v' : Volume)
    (i : ι) : (op : FileOp) → op.Answer → History ι
  | .readAll fd _, .ok b =>
    { h with read := Function.update h.read i (((v'.desc? fd).map Desc.file).getD 0, b) }
  | .rename _ name, none =>
    if name = target then
      { h with
        versions := h.versions ++ (v'.names.lookup target).toList
        log := h.log ++ [⟨i, (h.read i).1, (h.read i).2, contents v' target⟩] }
    else h
  | _, _ => h

/-- What holds in every state of a system of processes that follow `Next`. -/
structure Inv {ι : Type} (target : Bytes) (Permits : ι → Bytes → Bytes → Prop) (v : Volume)
    (h : History ι) (phase : ι → Phase) : Prop where
  names_lt : ∀ n o, v.names.lookup n = some o → o < v.files.length
  lock_unique : ∀ a b o, v.desc? a = some ⟨o, true⟩ → v.desc? b = some ⟨o, true⟩ → a = b
  versions_lt : ∀ o ∈ h.versions, o < v.files.length
  current : ∃ o, h.versions[h.log.length]? = some o ∧ v.names.lookup target = some o
  length : h.versions.length = h.log.length + 1
  fds_lt : ∀ i, ∀ fd ∈ (phase i).fds, fd < v.fds.length
  fds_disjoint : ∀ i j, i ≠ j → ∀ fd ∈ (phase i).fds, fd ∉ (phase j).fds
  read : ∀ i b, (phase i).bytes? = some b → (h.read i).2 = b
  knows : ∀ i, Knows v h.versions (h.read i).1 (phase i)
  origin : ∃ o, h.versions[0]? = some o ∧ v.files[o]? = some h.origin
  /-- The log has the replacement of each process that has made one, and no other. -/
  logged : ∀ i b c, (phase i).result = some (b, c) ↔
    ∃ e ∈ h.log, e.who = i ∧ e.read = b ∧ e.written = c
  unique : (h.log.map Entry.who).Nodup
  /-- Replacement `k` replaced version `k`, which its process had read, by version `k + 1`. -/
  chain : ∀ k e, h.log[k]? = some e → Contains v h.versions e.source k e.read ∧
    (∃ o, Contains v h.versions o (k + 1) e.written) ∧ Permits e.who e.read e.written

section Invariant

variable {ι : Type} [DecidableEq ι] {target : Bytes} {Permits : ι → Bytes → Bytes → Prop}
  {v v' : Volume} {h h' : History ι} {phase : ι → Phase} {i : ι} {q' : Phase}

/-- A change of the volume that installs nothing and touches no version. -/
structure Keeps (target : Bytes) (vs : List ℕ) (v v' : Volume) : Prop where
  names_lt : ∀ n o, v'.names.lookup n = some o → o < v'.files.length
  lock_unique : ∀ a b o, v'.desc? a = some ⟨o, true⟩ → v'.desc? b = some ⟨o, true⟩ → a = b
  files_le : v.files.length ≤ v'.files.length
  fds_le : v.fds.length ≤ v'.fds.length
  target : v'.names.lookup target = v.names.lookup target
  files : ∀ o ∈ vs, v'.files[o]? = v.files[o]?

/-- A step of process `i` that installs nothing: what it now knows and owns, and that the others
notice nothing. -/
theorem Inv.move (hi : Inv target Permits v h phase) (hk : Keeps target h.versions v v')
    (hvs : h'.versions = h.versions) (hlog : h'.log = h.log) (horigin : h'.origin = h.origin)
    (hreads : ∀ j, j ≠ i → h'.read j = h.read j)
    (hread : ∀ b, q'.bytes? = some b → (h'.read i).2 = b)
    (hres : q'.result = (phase i).result)
    (hframe : ∀ j, j ≠ i → Frame v v' h.versions h.versions (phase j))
    (hfds : ∀ fd ∈ q'.fds, fd ∈ (phase i).fds ∨ fd = v.fds.length ∧ fd < v'.fds.length)
    (hq : Knows v' h.versions (h'.read i).1 q') :
    Inv target Permits v' h' (Function.update phase i q') := by
  have self : Function.update phase i q' i = q' := Function.update_self i q' phase
  have other : ∀ j, j ≠ i → Function.update phase i q' j = phase j :=
    fun j hj => Function.update_of_ne hj q' phase
  -- no descriptor of `i` is one of the others'
  have fresh : ∀ j, j ≠ i → ∀ fd ∈ q'.fds, fd ∉ (phase j).fds := by
    intro j hj fd hfd hmem
    rcases hfds fd hfd with hold | ⟨rfl, -⟩
    · exact hi.fds_disjoint i j (Ne.symm hj) fd hold hmem
    · exact absurd (hi.fds_lt j _ hmem) (lt_irrefl _)
  refine ⟨hk.names_lt, hk.lock_unique, ?_, ?_, ?_, ?_, ?_, ?_, ?_, ?_, ?_, hlog ▸ hi.unique, ?_⟩
  · intro o ho
    exact lt_of_lt_of_le (hi.versions_lt o (hvs ▸ ho)) hk.files_le
  · obtain ⟨o, ho, ht⟩ := hi.current
    exact ⟨o, by rw [hvs, hlog, ho], hk.target.trans ht⟩
  · rw [hvs, hlog, hi.length]
  · intro j fd hfd
    by_cases hj : j = i
    · subst hj
      rw [self] at hfd
      rcases hfds fd hfd with hold | ⟨-, hlt⟩
      · exact lt_of_lt_of_le (hi.fds_lt j fd hold) hk.fds_le
      · exact hlt
    · rw [other j hj] at hfd
      exact lt_of_lt_of_le (hi.fds_lt j fd hfd) hk.fds_le
  · intro a b hab fd ha hb
    by_cases hai : a = i
    · subst hai
      rw [self] at ha
      rw [other b (Ne.symm hab)] at hb
      exact fresh b (Ne.symm hab) fd ha hb
    · rw [other a hai] at ha
      by_cases hbi : b = i
      · subst hbi
        rw [self] at hb
        exact fresh a hai fd hb ha
      · rw [other b hbi] at hb
        exact hi.fds_disjoint a b hab fd ha hb
  · intro j b hb
    by_cases hj : j = i
    · subst hj
      rw [self] at hb
      exact hread b hb
    · rw [other j hj] at hb
      rw [hreads j hj]
      exact hi.read j b hb
  · intro j
    rw [hvs]
    by_cases hj : j = i
    · subst hj
      rw [self]
      exact hq
    · rw [other j hj, hreads j hj]
      exact (hi.knows j).frame (hframe j hj)
  · obtain ⟨o, ho, hf⟩ := hi.origin
    exact ⟨o, by rw [hvs, ho], by rw [hk.files o (List.mem_of_getElem? ho), hf, horigin]⟩
  · intro j b c
    rw [hlog, ← hi.logged j b c]
    by_cases hj : j = i
    · subst hj
      rw [self, hres]
    · rw [other j hj]
  · intro k e he
    rw [hlog] at he
    obtain ⟨h₁, ⟨o, h₂⟩, h₃⟩ := hi.chain k e he
    have keep : ∀ o n b, Contains v h.versions o n b → Contains v' h'.versions o n b := by
      rintro o n b ⟨ho, f, hf, hb⟩
      exact ⟨by rw [hvs, ho], f, (hk.files o (List.mem_of_getElem? ho)).trans hf, hb⟩
    exact ⟨keep _ k _ h₁, ⟨o, keep o (k + 1) _ h₂⟩, h₃⟩

/-- A process that holds the current version has its lock, through a descriptor of its own. -/
theorem Knows.holding {vs : List ℕ} {src : ℕ} {q : Phase} (hk : Knows v vs src q)
    (hq : q.Holding) :
    ∃ n o fd, vs.length = n + 1 ∧ vs[n]? = some o ∧ fd ∈ q.fds ∧ v.desc? fd = some ⟨o, true⟩ := by
  have key : ∀ {b : Bytes} {fd : ℕ}, fd ∈ q.fds → Holds v vs src b fd →
      ∃ n o fd, vs.length = n + 1 ∧ vs[n]? = some o ∧ fd ∈ q.fds ∧
        v.desc? fd = some ⟨o, true⟩ := by
    rintro b fd hfd ⟨n, hn, -, o, ho, hd⟩
    exact ⟨n, o, fd, hn, ho, hfd, hd⟩
  cases q with
  | confirmed m b fd => exact key (by simp [Phase.fds]) hk
  | drafting m b fd tmp name c => exact key (by simp [Phase.fds]) hk.1
  | drafted m b fd name c => exact key (by simp [Phase.fds]) hk.1
  | _ => exact hq.elim

omit [DecidableEq ι] in
/-- **At most one process holds the current version.** -/
theorem Inv.holding_unique (hi : Inv target Permits v h phase) {j : ι}
    (hq : (phase i).Holding) (hj : (phase j).Holding) : j = i := by
  obtain ⟨n, o, fd, hn, ho, hfd, hd⟩ := (hi.knows i).holding hq
  obtain ⟨n', o', fd', hn', ho', hfd', hd'⟩ := (hi.knows j).holding hj
  obtain rfl : n = n' := by omega
  obtain rfl : o = o' := Option.some.inj (ho.symm.trans ho')
  obtain rfl := hi.lock_unique fd fd' o hd hd'
  by_contra hne
  exact hi.fds_disjoint i j (Ne.symm hne) fd hfd hfd'

omit [DecidableEq ι] in
theorem Inv.no_draft (hi : Inv target Permits v h phase) (hq : (phase i).Holding) {j : ι}
    (hj : j ≠ i) {name : Bytes} : (phase j).draft ≠ some name :=
  fun hd => hj (hi.holding_unique hq (Phase.holding_of_draft hd))

omit [DecidableEq ι] in
theorem Inv.keeps_refl (hi : Inv target Permits v h phase) : Keeps target h.versions v v :=
  ⟨hi.names_lt, hi.lock_unique, le_rfl, le_rfl, rfl, fun _ _ => rfl⟩

omit [DecidableEq ι] in
/-- A change of the descriptors only. -/
theorem Inv.keeps_fds (hi : Inv target Permits v h phase) {fds : List (Option Desc)}
    (hle : v.fds.length ≤ fds.length)
    (hu : ∀ a b o, ({ v with fds := fds } : Volume).desc? a = some ⟨o, true⟩ →
      ({ v with fds := fds } : Volume).desc? b = some ⟨o, true⟩ → a = b) :
    Keeps target h.versions v { v with fds := fds } :=
  ⟨hi.names_lt, hu, le_rfl, hle, rfl, fun _ _ => rfl⟩

theorem frame_fds {vs : List ℕ} {q : Phase} {fds : List (Option Desc)}
    (hd : ∀ fd ∈ q.fds, ({ v with fds := fds } : Volume).desc? fd = v.desc? fd) :
    Frame v { v with fds := fds } vs vs q :=
  ⟨List.prefix_rfl, fun _ _ => rfl, hd, fun _ => rfl, fun _ _ _ _ h => ⟨h.1, h.2, h.3, h.4⟩⟩

theorem frame_refl {vs : List ℕ} {q : Phase} : Frame v v vs vs q := frame_fds fun _ _ => rfl

/-- A step that leaves the volume as it was. -/
theorem Inv.still (hi : Inv target Permits v h phase) (hvs : h'.versions = h.versions)
    (hlog : h'.log = h.log) (horigin : h'.origin = h.origin)
    (hreads : ∀ j, j ≠ i → h'.read j = h.read j)
    (hread : ∀ b, q'.bytes? = some b → (h'.read i).2 = b) (hres : q'.result = (phase i).result)
    (hfds : ∀ fd ∈ q'.fds, fd ∈ (phase i).fds) (hq : Knows v h.versions (h'.read i).1 q') :
    Inv target Permits v h' (Function.update phase i q') :=
  hi.move hi.keeps_refl hvs hlog horigin hreads hread hres (fun _ _ => frame_refl)
    (fun fd hfd => .inl (hfds fd hfd)) hq

/-- Opening a file. -/
theorem Inv.afterOpen (hi : Inv target Permits v h phase) {o : ℕ}
    (hread : ∀ b, q'.bytes? = some b → (h.read i).2 = b) (hres : q'.result = (phase i).result)
    (hfds : ∀ fd ∈ q'.fds, fd ∈ (phase i).fds ∨ fd = v.fds.length)
    (hq : Knows { v with fds := v.fds ++ [some ⟨o, false⟩] } h.versions (h.read i).1 q') :
    Inv target Permits { v with fds := v.fds ++ [some ⟨o, false⟩] } h
      (Function.update phase i q') := by
  refine hi.move (hi.keeps_fds (by simp) ?_) rfl rfl rfl (fun _ _ => rfl) hread hres ?_ ?_ hq
  · intro a b f ha hb
    exact hi.lock_unique a b f (Volume.desc?_of_open_locked ha) (Volume.desc?_of_open_locked hb)
  · intro j hj
    refine frame_fds fun fd hfd => ?_
    rw [Volume.desc?_open, if_neg (Nat.ne_of_lt (hi.fds_lt j fd hfd))]
  · intro fd hfd
    exact (hfds fd hfd).imp_right fun h => ⟨h, by simp [h]⟩

/-- Closing one of the process's descriptors. -/
theorem Inv.afterClose (hi : Inv target Permits v h phase) {fd : ℕ} (hfd : fd ∈ (phase i).fds)
    (hread : ∀ b, q'.bytes? = some b → (h.read i).2 = b) (hres : q'.result = (phase i).result)
    (hfds : ∀ k ∈ q'.fds, k ∈ (phase i).fds)
    (hq : Knows { v with fds := v.fds.set fd none } h.versions (h.read i).1 q') :
    Inv target Permits { v with fds := v.fds.set fd none } h (Function.update phase i q') := by
  refine hi.move (hi.keeps_fds (by simp) ?_) rfl rfl rfl (fun _ _ => rfl) hread hres ?_
    (fun k hk => .inl (hfds k hk)) hq
  · intro a b f ha hb
    rw [Volume.desc?_close] at ha hb
    split_ifs at ha hb
    exact hi.lock_unique a b f ha hb
  · intro j hj
    refine frame_fds fun k hk => ?_
    rw [Volume.desc?_close, if_neg]
    rintro rfl
    exact hi.fds_disjoint i j (Ne.symm hj) k hfd hk

/-- Taking the lock by one of the process's descriptors. -/
theorem Inv.afterLock (hi : Inv target Permits v h phase) {fd : ℕ} {d : Desc}
    (hfd : fd ∈ (phase i).fds) (hd : v.desc? fd = some d) (hfree : v.held d.file fd = false)
    (hread : ∀ b, q'.bytes? = some b → (h.read i).2 = b) (hres : q'.result = (phase i).result)
    (hfds : ∀ k ∈ q'.fds, k ∈ (phase i).fds)
    (hq : Knows { v with fds := v.fds.set fd (some ⟨d.file, true⟩) } h.versions (h.read i).1 q') :
    Inv target Permits { v with fds := v.fds.set fd (some ⟨d.file, true⟩) } h
      (Function.update phase i q') := by
  have hlt := Volume.lt_of_desc? hd
  refine hi.move (hi.keeps_fds (by simp) ?_) rfl rfl rfl (fun _ _ => rfl) hread hres ?_
    (fun k hk => .inl (hfds k hk)) hq
  · -- a second lock on the file would have been seen by `held`
    intro a b f ha hb
    rw [Volume.desc?_set _ hlt] at ha hb
    split_ifs at ha hb with h₁ h₂ h₂
    · rw [h₁, h₂]
    · obtain rfl : d.file = f := by simpa using ha
      rw [h₁, Volume.held_eq_false hfree hb]
    · obtain rfl : d.file = f := by simpa using hb
      rw [h₂, Volume.held_eq_false hfree ha]
    · exact hi.lock_unique a b f ha hb
  · intro j hj
    refine frame_fds fun k hk => ?_
    rw [Volume.desc?_set _ hlt, if_neg]
    rintro rfl
    exact hi.fds_disjoint i j (Ne.symm hj) k hfd hk

/-- Changing the process's temporary file. -/
theorem Inv.afterModify (hi : Inv target Permits v h phase) (hold : (phase i).Holding) {t : ℕ}
    (ht : t ∉ h.versions) (f : Inode → Inode) (hread : ∀ b, q'.bytes? = some b → (h.read i).2 = b)
    (hres : q'.result = (phase i).result)
    (hfds : ∀ k ∈ q'.fds, k ∈ (phase i).fds)
    (hq : Knows { v with files := v.files.modify t f } h.versions (h.read i).1 q') :
    Inv target Permits { v with files := v.files.modify t f } h (Function.update phase i q') := by
  have hfiles : ∀ o ∈ h.versions, (v.files.modify t f)[o]? = v.files[o]? := by
    intro o ho
    have hne : t ≠ o := fun he => ht (he ▸ ho)
    simp [hne]
  refine hi.move ⟨?_, hi.lock_unique, ?_, le_rfl, rfl, hfiles⟩ rfl rfl rfl (fun _ _ => rfl) hread
    hres ?_ (fun k hk => .inl (hfds k hk)) hq
  · intro n o hn
    simpa using hi.names_lt n o hn
  · simp
  · intro j hj
    exact ⟨List.prefix_rfl, hfiles, fun _ _ => rfl, fun _ => rfl,
      fun _ _ _ hd => absurd hd (hi.no_draft hold hj)⟩

/-- Removing the process's temporary file. -/
theorem Inv.afterRemove (hi : Inv target Permits v h phase) (hold : (phase i).Holding)
    {name : Bytes} (hne : name ≠ target) (hread : ∀ b, q'.bytes? = some b → (h.read i).2 = b)
    (hres : q'.result = (phase i).result)
    (hfds : ∀ k ∈ q'.fds, k ∈ (phase i).fds)
    (hq : Knows { v with names := v.names.erase name } h.versions (h.read i).1 q') :
    Inv target Permits { v with names := v.names.erase name } h (Function.update phase i q') := by
  refine hi.move ⟨?_, hi.lock_unique, le_rfl, le_rfl, ?_, fun _ _ => rfl⟩ rfl rfl rfl
    (fun _ _ => rfl) hread hres ?_ (fun k hk => .inl (hfds k hk)) hq
  · intro n o hn
    by_cases hnn : n = name
    · subst hnn
      simp [AList.lookup_erase] at hn
    · exact hi.names_lt n o (by rwa [AList.lookup_erase_ne hnn] at hn)
  · exact AList.lookup_erase_ne (Ne.symm hne)
  · intro j hj
    exact ⟨List.prefix_rfl, fun _ _ => rfl, fun _ _ => rfl, fun _ => rfl,
      fun _ _ _ hd => absurd hd (hi.no_draft hold hj)⟩

/-- Creating the process's temporary file. -/
theorem Inv.afterCreate (hi : Inv target Permits v h phase) (hold : (phase i).Holding)
    {name : Bytes} (hnew : v.names.lookup name = none) (a : Attr)
    (hread : ∀ b, q'.bytes? = some b → (h.read i).2 = b) (hres : q'.result = (phase i).result)
    (hfds : ∀ k ∈ q'.fds, k ∈ (phase i).fds ∨ k = v.fds.length)
    (hq : Knows { v with
        names := v.names.insert name v.files.length
        files := v.files ++ [⟨a, []⟩]
        fds := v.fds ++ [some ⟨v.files.length, false⟩] } h.versions (h.read i).1 q') :
    Inv target Permits { v with
        names := v.names.insert name v.files.length
        files := v.files ++ [⟨a, []⟩]
        fds := v.fds ++ [some ⟨v.files.length, false⟩] } h (Function.update phase i q') := by
  obtain ⟨cur, -, hcur⟩ := hi.current
  have hne : target ≠ name := by
    rintro rfl
    simp [hnew] at hcur
  have hfiles : ∀ o ∈ h.versions, (v.files ++ [⟨a, []⟩])[o]? = v.files[o]? :=
    fun o ho => List.getElem?_append_left (hi.versions_lt o ho)
  refine hi.move ⟨?_, ?_, by simp, by simp, AList.lookup_insert_ne hne, hfiles⟩ rfl rfl rfl
    (fun _ _ => rfl) hread hres ?_ ?_ hq
  · intro n o hn
    by_cases hnn : n = name
    · subst hnn
      obtain rfl : v.files.length = o := by simpa using hn
      simp
    · have := hi.names_lt n o (by rwa [AList.lookup_insert_ne hnn] at hn)
      simp only [List.length_append, List.length_cons, List.length_nil]
      omega
  · intro x y f hx hy
    exact hi.lock_unique x y f (Volume.desc?_of_open_locked hx) (Volume.desc?_of_open_locked hy)
  · intro j hj
    refine ⟨List.prefix_rfl, hfiles, fun fd hfd => ?_, fun _ => rfl,
      fun _ _ _ hd => absurd hd (hi.no_draft hold hj)⟩
    exact (Volume.desc?_open v ⟨v.files.length, false⟩ fd).trans
      (if_neg (Nat.ne_of_lt (hi.fds_lt j fd hfd)))
  · intro k hk
    exact (hfds k hk).imp_right fun h => ⟨h, by simp [h]⟩

/-- The rename: the temporary file becomes the next version, in place of the one that was read. -/
theorem Inv.afterReplace (hi : Inv target Permits v h phase) {m : Stamp} {b c name : Bytes}
    {fd t : ℕ} (hp : phase i = .drafted m b fd name (some c)) (hperm : Permits i b c)
    (hname : v.names.lookup name = some t)
    (hv : v' = { v with names := (v.names.erase name).insert target t }) :
    Inv target Permits v' (h.after target v' i (.rename name target) none)
      (Function.update phase i (.renamed b c fd false)) := by
  have hold : (phase i).Holding := by simp [hp, Phase.Holding]
  have hknows := hi.knows i
  rw [hp] at hknows
  obtain ⟨⟨n, hn, hread, hopen⟩, t', hd⟩ := hknows
  obtain rfl : t = t' := Option.some.inj (hname.symm.trans hd.lookup)
  obtain ⟨f, hf, hfc⟩ := hd.contents c rfl
  have hlog : n = h.log.length := by have := hi.length; omega
  have hlook : v'.names.lookup target = some t := by simp [hv]
  have hcont : contents v' target = c := by
    simp [contents, Volume.file?, hv, hf, hfc]
  have hfiles : v'.files = v.files := by simp [hv]
  have hdesc : ∀ k, v'.desc? k = v.desc? k := by simp [hv, Volume.desc?]
  have hafter : h.after target v' i (.rename name target) none =
      ⟨h.read, h.origin, h.versions ++ [t], h.log ++ [⟨i, (h.read i).1, b, c⟩]⟩ := by
    simp [History.after, hlook, hcont, hi.read i b (by simp [hp, Phase.bytes?])]
  have hframe : ∀ j, j ≠ i → Frame v v' h.versions (h.versions ++ [t]) (phase j) := fun j hj =>
    ⟨List.prefix_append _ _, fun o _ => by rw [hfiles], fun k _ => hdesc k,
      fun hq => absurd (hi.holding_unique hold hq) hj,
      fun _ _ _ hq => absurd hq (hi.no_draft hold hj)⟩
  have keep : ∀ o k x, Contains v h.versions o k x → Contains v' (h.versions ++ [t]) o k x := by
    rintro o k x ⟨ho, g, hg, hx⟩
    exact ⟨by rw [List.getElem?_append_left (List.getElem?_eq_some_iff.1 ho).1, ho], g,
      by rw [hfiles, hg], hx⟩
  have hsub : ∀ j, ∀ k ∈ (Function.update phase i (.renamed b c fd false) j).fds,
      k ∈ (phase j).fds := by
    intro j k hk
    by_cases hj : j = i
    · subst hj
      rw [Function.update_self] at hk
      simpa [hp, Phase.fds] using hk
    · rwa [Function.update_of_ne hj] at hk
  -- the process had no entry
  have hnone : ∀ e ∈ h.log, e.who ≠ i := by
    intro e he hw
    have := (hi.logged i e.read e.written).2 ⟨e, he, hw, rfl, rfl⟩
    simp [hp, Phase.result] at this
  rw [hafter]
  refine ⟨?_, ?_, ?_, ?_, ?_, ?_, ?_, ?_, ?_, ?_, ?_, ?_, ?_⟩
  · intro x o hx
    rw [hfiles]
    by_cases hxt : x = target
    · subst hxt
      obtain rfl : t = o := Option.some.inj (hlook.symm.trans hx)
      exact hi.names_lt name t hname
    · simp only [hv, AList.lookup_insert_ne hxt] at hx
      by_cases hxn : x = name
      · subst hxn
        simp [AList.lookup_erase] at hx
      · exact hi.names_lt x o (by rwa [AList.lookup_erase_ne hxn] at hx)
  · intro x y o hx hy
    exact hi.lock_unique x y o (hdesc x ▸ hx) (hdesc y ▸ hy)
  · intro o ho
    rw [hfiles]
    rcases List.mem_append.1 ho with ho | ho
    · exact hi.versions_lt o ho
    · obtain rfl : o = t := by simpa using ho
      exact hi.names_lt name o hname
  · exact ⟨t, by simp [← hi.length], hlook⟩
  · simp [hi.length]
  · intro j k hk
    have := hi.fds_lt j k (hsub j k hk)
    simpa [hv] using this
  · intro x y hxy k hx hy
    exact hi.fds_disjoint x y hxy k (hsub x k hx) (hsub y k hy)
  · intro j x hx
    by_cases hj : j = i
    · subst hj
      rw [Function.update_self] at hx
      simp [Phase.bytes?] at hx
    · rw [Function.update_of_ne hj] at hx
      exact hi.read j x hx
  · intro j
    by_cases hj : j = i
    · subst hj
      rw [Function.update_self]
      trivial
    · rw [Function.update_of_ne hj]
      exact (hi.knows j).frame (hframe j hj)
  · obtain ⟨o, ho, hg⟩ := hi.origin
    exact ⟨o, by rw [List.getElem?_append_left (List.getElem?_eq_some_iff.1 ho).1, ho],
      by rw [hfiles, hg]⟩
  · intro j x y
    simp only [List.mem_append, List.mem_singleton]
    by_cases hj : j = i
    · subst hj
      rw [Function.update_self]
      constructor
      · intro hxy
        obtain ⟨rfl, rfl⟩ : b = x ∧ c = y := by simpa [Phase.result] using hxy
        exact ⟨_, .inr rfl, rfl, rfl, rfl⟩
      · rintro ⟨e, he | rfl, hw, rfl, rfl⟩
        · exact absurd hw (hnone e he)
        · rfl
    · rw [Function.update_of_ne hj, hi.logged j x y]
      constructor
      · rintro ⟨e, he, hrest⟩
        exact ⟨e, .inl he, hrest⟩
      · rintro ⟨e, he | rfl, hw, hrest⟩
        · exact ⟨e, he, hw, hrest⟩
        · exact absurd hw.symm hj
  · rw [List.map_append, List.map_singleton, List.nodup_append]
    refine ⟨hi.unique, List.nodup_singleton _, fun x hx y hy => ?_⟩
    obtain ⟨e, he, rfl⟩ := List.mem_map.1 hx
    rw [List.mem_singleton.1 hy]
    exact hnone e he
  · intro k e he
    by_cases hk : k < h.log.length
    · rw [List.getElem?_append_left hk] at he
      obtain ⟨h₁, ⟨o, h₂⟩, h₃⟩ := hi.chain k e he
      exact ⟨keep _ k _ h₁, ⟨o, keep o (k + 1) _ h₂⟩, h₃⟩
    · -- the entry just added: its process held the version that was current
      have hlt := (List.getElem?_eq_some_iff.1 he).1
      simp only [List.length_append, List.length_cons, List.length_nil] at hlt
      obtain rfl : k = h.log.length := by omega
      obtain rfl : (⟨i, (h.read i).1, b, c⟩ : Entry ι) = e := by simpa using he
      refine ⟨keep _ _ _ (hlog ▸ hread), ⟨t, ?_, f, by rw [hfiles, hf], hfc⟩, hperm⟩
      simp [← hi.length]

theorem History.after_inert {op : FileOp} {r : op.Answer} (hr : Volume.Inert op r) :
    h.after target v' i op r = h := by
  cases op <;> simp only [Volume.Inert] at hr <;> try rfl
  all_goals
    cases r
    all_goals first | rfl | simp at hr

omit [DecidableEq ι] in
/-- The version that the name leads to now. -/
theorem Inv.stamped_current (hi : Inv target Permits v h phase) {ch : Choice} {info : FileInfo}
    (hs : v.step ch (.lstat target) = some (.ok info, v')) :
    v' = v ∧ Stamped v h.versions h.log.length info.stamp := by
  obtain ⟨rfl, o, f, ho, hf, rfl⟩ := Volume.step_lstat hs
  obtain ⟨cur, hcur, ht⟩ := hi.current
  obtain rfl : cur = o := Option.some.inj (ht.symm.trans ho)
  exact ⟨rfl, cur, f, hcur, hf, rfl⟩

omit [DecidableEq ι] in
theorem Inv.index_le (hi : Inv target Permits v h phase) {j o : ℕ} (ho : h.versions[j]? = some o) :
    j ≤ h.log.length := by
  have hlt := (List.getElem?_eq_some_iff.1 ho).1
  have := hi.length
  omega

omit [DecidableEq ι] in
/-- Opening the name gives a descriptor of the current version, which is not older than any. -/
theorem Inv.opens_current (hi : Inv target Permits v h phase) {ch : Choice} {fd : ℕ}
    (hs : v.step ch (.openRead target) = some (.ok fd, v')) :
    ∃ o, fd = v.fds.length ∧ v' = { v with fds := v.fds ++ [some ⟨o, false⟩] } ∧
      Opens v' h.versions h.log.length fd false := by
  obtain ⟨o, ho, rfl, rfl⟩ := Volume.step_openRead hs
  obtain ⟨cur, hcur, ht⟩ := hi.current
  obtain rfl : cur = o := Option.some.inj (ht.symm.trans ho)
  exact ⟨cur, rfl, rfl, cur, hcur, by rw [Volume.desc?_open, if_pos rfl]⟩

/-- A change of the temporary file, with the contents it is known to have before and after. -/
theorem Inv.modifyDraft (hi : Inv target Permits v h phase) {m : Stamp} {b name : Bytes}
    {fd tmp : ℕ} {c c' : Option Bytes} (hp : phase i = .drafting m b fd tmp name c)
    (f : Inode → Inode)
    (hc : ∀ x', c' = some x' → ∃ x, c = some x ∧ ∀ g : Inode, g.bytes = x → (f g).bytes = x') :
    Inv target Permits (v.modify tmp f) h
      (Function.update phase i (.drafting m b fd tmp name c')) := by
  have hknows := hi.knows i
  rw [hp] at hknows
  obtain ⟨⟨n, hn, ⟨ho, g, hg, hb⟩, hopen⟩, t, hd, ht⟩ := hknows
  have hne : t ≠ (h.read i).1 := fun he => hd.new (he ▸ List.mem_of_getElem? ho)
  rw [Volume.modify_of_desc? ht]
  refine hi.afterModify (by simp [hp, Phase.Holding]) hd.new f ?_ (by simp [hp, Phase.result])
    (by simp [hp, Phase.fds]) ?_
  · exact fun x hx => hi.read i x (by simpa [hp, Phase.bytes?] using hx)
  · refine ⟨⟨n, hn, ⟨ho, g, by simpa [hne] using hg, hb⟩, hopen⟩, t,
      ⟨hd.lookup, hd.new, hd.only, ?_⟩, ht⟩
    intro x' hx'
    obtain ⟨x, hx, hf⟩ := hc x' hx'
    obtain ⟨g', hg', hgb⟩ := hd.contents x hx
    exact ⟨f g', by simp [hg'], hf g' hgb⟩

/-- **Every step of every process keeps the invariant**, provided that no two versions share a
stamp when the process compares two looks. -/
theorem Inv.step (hi : Inv target Permits v h phase) {ch : Choice} {op : FileOp} {r : op.Answer}
    (hd : (phase i).Comparing → Distinct v h.versions) (hs : v.step ch op = some (r, v'))
    (hn : Next target (Permits i) (phase i) op r q') :
    Inv target Permits v' (h.after target v' i op r) (Function.update phase i q') := by
  have hknows := hi.knows i
  have hread := hi.read i
  generalize hp : phase i = q at hn hknows hread hd
  cases hn with
  | stay hr =>
    obtain rfl := Volume.step_inert hs hr
    rw [History.after_inert hr, ← hp, Function.update_eq_self]
    exact hi
  | look =>
    obtain ⟨rfl, hst⟩ := hi.stamped_current hs
    exact hi.still rfl rfl rfl (fun _ _ => rfl) (by simp [Phase.bytes?])
      (by simp [hp, Phase.result]) (by simp [Phase.fds]) ⟨_, hst⟩
  | @openRead m fd =>
    obtain ⟨o, rfl, rfl, hopen⟩ := hi.opens_current hs
    obtain ⟨k, hst⟩ := hknows
    refine hi.afterOpen (by simp [Phase.bytes?]) (by simp [hp, Phase.result])
      (by simp [Phase.fds]) ?_
    obtain ⟨_, _, hk, _⟩ := id hst
    exact ⟨k, h.log.length, hi.index_le hk, hst, hopen⟩
  | abandon =>
    obtain rfl := Volume.step_close hs
    exact hi.afterClose (by simp [hp, Phase.fds]) (by simp [Phase.bytes?])
      (by simp [hp, Phase.result]) (by simp [Phase.fds]) trivial
  | @fetch m fd limit b hlt =>
    obtain ⟨rfl, d, f, hdesc, hf, rfl⟩ := Volume.step_readAll hs
    obtain ⟨k, j, hkj, hst, o, ho, hfd⟩ := hknows
    obtain rfl : d = ⟨o, false⟩ := Option.some.inj (hdesc.symm.trans hfd)
    -- fewer bytes than the limit, so they are all
    have hall : f.bytes.take limit = f.bytes := by
      rw [List.length_take] at hlt
      exact List.take_of_length_le (by omega)
    refine hi.still rfl rfl rfl (fun j hj => Function.update_of_ne hj _ _) ?_
      (by simp [hp, Phase.result]) (by simp [hp, Phase.fds]) ?_
    · intro x hx
      obtain rfl : f.bytes.take limit = x := by simpa [Phase.bytes?] using hx
      simp [History.after]
    · refine ⟨k, j, hkj, hst, ?_⟩
      simp only [History.after, Function.update_self, hfd, Option.map_some, Option.getD_some]
      exact ⟨ho, f, hf, hall.symm⟩
  | overlong =>
    obtain ⟨rfl, -⟩ := Volume.step_readAll hs
    exact hi.still rfl rfl rfl (fun j hj => Function.update_of_ne hj _ _) (by simp [Phase.bytes?])
      (by simp [hp, Phase.result]) (by simp [hp]) hknows
  | closeRead =>
    obtain rfl := Volume.step_close hs
    refine hi.afterClose (by simp [hp, Phase.fds]) ?_ (by simp [hp, Phase.result])
      (by simp [Phase.fds]) hknows
    exact fun x hx => hread x (by simpa [Phase.bytes?] using hx)
  | observe hm =>
    obtain ⟨rfl, hst⟩ := hi.stamped_current hs
    obtain ⟨k, j, hkj, hst', hc⟩ := hknows
    -- the stamp of the first look is the current one, so nothing was installed in between
    have hk : k = h.log.length := hd trivial _ _ _ hst' (hm ▸ hst)
    have hj : j = k := le_antisymm (hk ▸ hi.index_le hc.1) hkj
    refine hi.still rfl rfl rfl (fun _ _ => rfl) ?_ (by simp [hp, Phase.result])
      (by simp [Phase.fds]) ⟨k, hst', hj ▸ hc⟩
    exact fun x hx => hread x (by simpa [Phase.bytes?] using hx)
  | @openLock m b fd =>
    obtain ⟨o, rfl, rfl, hopen⟩ := hi.opens_current hs
    obtain ⟨k, hst, hc⟩ := hknows
    refine hi.afterOpen ?_ (by simp [hp, Phase.result]) (by simp [Phase.fds]) ?_
    · exact fun x hx => hread x (by simpa [Phase.bytes?] using hx)
    · obtain ⟨_, _, hk, _⟩ := id hst
      exact ⟨k, h.log.length, hi.index_le hk, hst, hc, hopen⟩
  | @lock m b fd nonblocking =>
    obtain ⟨d, hdesc, hfree, rfl⟩ := Volume.step_flock hs
    obtain ⟨k, j, hkj, hst, hc, o, ho, hfd⟩ := hknows
    refine hi.afterLock (by simp [hp, Phase.fds]) hdesc hfree ?_ (by simp [hp, Phase.result])
      (by simp [hp, Phase.fds]) ?_
    · exact fun x hx => hread x (by simpa [Phase.bytes?] using hx)
    · obtain rfl : d = ⟨o, false⟩ := Option.some.inj (hdesc.symm.trans hfd)
      exact ⟨k, j, hkj, hst, hc, o, ho,
        by rw [Volume.desc?_set _ (Volume.lt_of_desc? hdesc), if_pos rfl]⟩
  | confirm hm =>
    obtain ⟨rfl, hst⟩ := hi.stamped_current hs
    obtain ⟨k, j, hkj, hst', hc, o, ho, hfd⟩ := hknows
    -- the version that was read is current, and the lock is on one that is not older
    have hk : k = h.log.length := hd trivial _ _ _ hst' (hm ▸ hst)
    have hj : j = k := le_antisymm (hk ▸ hi.index_le ho) hkj
    refine hi.still rfl rfl rfl (fun _ _ => rfl) ?_ (by simp [hp, Phase.result])
      (by simp [hp, Phase.fds]) ⟨k, by rw [hi.length, hk], hc, o, hj ▸ ho, hfd⟩
    exact fun x hx => hread x (by simpa [Phase.bytes?] using hx)
  | @create m b stem name fd tmp =>
    obtain ⟨hnew, -, rfl, rfl⟩ := Volume.step_createTemp hs
    obtain ⟨n, hn, ⟨ho, f, hf, hb⟩, o', ho', hfd⟩ := hknows
    refine hi.afterCreate (by simp [hp, Phase.Holding]) hnew
      { ch.fresh with kind := .regular, special := false } ?_ (by simp [hp, Phase.result])
      (by simp [hp, Phase.fds]) ?_
    · exact fun x hx => hread x (by simpa [Phase.bytes?] using hx)
    · refine ⟨⟨n, hn, ⟨ho, f, ?_, hb⟩, o', ho', ?_⟩, v.files.length, ⟨?_, ?_, ?_, ?_⟩, ?_⟩
      · rw [List.getElem?_append_left (hi.versions_lt _ (List.mem_of_getElem? ho)), hf]
      · refine (Volume.desc?_open v ⟨v.files.length, false⟩ fd).trans ?_
        rw [if_neg (Nat.ne_of_lt (Volume.lt_of_desc? hfd)), hfd]
      · exact AList.lookup_insert _
      · exact fun hmem => absurd (hi.versions_lt _ hmem) (lt_irrefl _)
      · intro x hx
        by_contra hne
        rw [AList.lookup_insert_ne hne] at hx
        exact absurd (hi.names_lt x _ hx) (lt_irrefl _)
      · intro x hx
        obtain rfl : [] = x := by simpa using hx
        exact ⟨⟨{ ch.fresh with kind := .regular, special := false }, []⟩, by simp, rfl⟩
      · exact (Volume.desc?_open v ⟨v.files.length, false⟩ _).trans (if_pos rfl)
  | chown =>
    rw [Volume.step_chown hs]
    exact hi.modifyDraft hp _ fun x hx => ⟨x, hx, fun _ h => h⟩
  | chmod =>
    rw [Volume.step_chmod hs]
    exact hi.modifyDraft hp _ fun x hx => ⟨x, hx, fun _ h => h⟩
  | @write m b name data c fd tmp n =>
    obtain ⟨f, rfl, hf⟩ := Volume.step_write hs
    refine hi.modifyDraft hp f fun x hx => ⟨c, rfl, fun g hg => ?_⟩
    rw [hf rfl g, hg, Option.some.inj hx]
  | spoil =>
    obtain ⟨f, rfl, -⟩ := Volume.step_write hs
    exact hi.modifyDraft hp f (by simp)
  | @closeDraft m b name fd tmp c r =>
    obtain rfl := Volume.step_close hs
    obtain ⟨⟨n, hn, hc, o, ho, hfd⟩, t, hdr, ht⟩ := hknows
    refine hi.afterClose (by simp [hp, Phase.fds]) ?_ (by simp [hp, Phase.result])
      (by simp [hp, Phase.fds]) ?_
    · exact fun x hx => hread x (by simpa [Phase.bytes?] using hx)
    · have hne : fd ≠ tmp := by
        rintro rfl
        simp [hfd] at ht
      exact ⟨⟨n, hn, hc, o, ho, by rw [Volume.desc?_close, if_neg hne, hfd]⟩, t,
        ⟨hdr.lookup, hdr.new, hdr.only, hdr.contents⟩⟩
  | @discard m b name fd c =>
    rw [Volume.step_remove hs]
    obtain ⟨hh, t, hdr⟩ := hknows
    obtain ⟨cur, hcur, htarget⟩ := hi.current
    refine hi.afterRemove (by simp [hp, Phase.Holding]) ?_ ?_ (by simp [hp, Phase.result])
      (by simp [hp, Phase.fds]) hh
    · rintro rfl
      obtain rfl : cur = t := Option.some.inj (htarget.symm.trans hdr.lookup)
      exact hdr.new (List.mem_of_getElem? hcur)
    · exact fun x hx => hread x (by simpa [Phase.bytes?] using hx)
  | replace hperm =>
    obtain ⟨t, ht, hv⟩ := Volume.step_rename hs
    exact hi.afterReplace hp hperm ht hv
  | openDirFailed =>
    obtain rfl := Volume.step_openDir hs
    exact hi.still rfl rfl rfl (fun _ _ => rfl) (by simp [Phase.bytes?])
      (by simp [hp, Phase.result]) (by simp [hp, Phase.fds]) trivial
  | syncDirFailed =>
    obtain rfl := Volume.step_syncDir hs
    exact hi.still rfl rfl rfl (fun _ _ => rfl) (by simp [Phase.bytes?])
      (by simp [hp, Phase.result]) (by simp [hp, Phase.fds]) trivial
  | @unlock m b fd r q hq =>
    obtain rfl := Volume.step_close hs
    refine hi.afterClose ?_ (by simp [Phase.bytes?]) ?_ (by simp [Phase.fds]) trivial
    · rcases hq with rfl | rfl | rfl | ⟨name, c, rfl⟩ <;> simp [hp, Phase.fds]
    · rcases hq with rfl | rfl | rfl | ⟨name, c, rfl⟩ <;> simp [hp, Phase.result]
  | finish =>
    obtain rfl := Volume.step_close hs
    exact hi.afterClose (by simp [hp, Phase.fds]) (by simp [Phase.bytes?])
      (by simp [hp, Phase.result]) (by simp [Phase.fds]) trivial

end Invariant

/-! ## The start -/

/-- A volume in which processes may start: the name leads to the file `o`, which is `f`. -/
structure Ready (v : Volume) (target : Bytes) (o : ℕ) (f : Inode) : Prop where
  names_lt : ∀ n k, v.names.lookup n = some k → k < v.files.length
  lock_unique : ∀ a b k, v.desc? a = some ⟨k, true⟩ → v.desc? b = some ⟨k, true⟩ → a = b
  lookup : v.names.lookup target = some o
  file : v.files[o]? = some f

theorem Ready.file? {v : Volume} {target : Bytes} {o : ℕ} {f : Inode} (h : Ready v target o f) :
    v.file? target = some f := by
  simp [Volume.file?, h.lookup, h.file]

/-- Nothing has happened, and the file `o` is the only version. -/
def History.start {ι : Type} (o : ℕ) (f : Inode) : History ι := ⟨fun _ => (0, []), f, [o], []⟩

theorem Ready.inv {ι : Type} {target : Bytes} {Permits : ι → Bytes → Bytes → Prop} {v : Volume}
    {o : ℕ} {f : Inode} (h : Ready v target o f) :
    Inv target Permits v (History.start o f) fun _ => .idle where
  names_lt := h.names_lt
  lock_unique := h.lock_unique
  versions_lt := by
    intro k hk
    obtain rfl : k = o := by simpa [History.start] using hk
    exact h.names_lt target k h.lookup
  current := ⟨o, rfl, h.lookup⟩
  length := rfl
  fds_lt := by simp [Phase.fds]
  fds_disjoint := by simp [Phase.fds]
  read := by simp [Phase.bytes?]
  knows := fun _ => trivial
  origin := ⟨o, rfl, h.file⟩
  unique := by simp [History.start]
  logged := by simp [Phase.result, History.start]
  chain := by simp [History.start]

/-! ## A single process -/

/-- A call on the directory has failed since the replacement. -/
def Phase.fault : Phase → Bool
  | .renamed _ _ _ fault | .finished _ _ fault => fault
  | _ => false

/-- A failed call on the directory. -/
def DirFault : (op : FileOp) → op.Answer → Prop
  | .openDir, r | .syncDir, r => r ≠ none
  | _, _ => False

/-- The phase tells whether a call on the directory has failed. -/
theorem Next.fault_iff {target : Bytes} {Permits : Bytes → Bytes → Prop} {q q' : Phase}
    {op : FileOp} {r : op.Answer} (hn : Next target Permits q op r q') :
    q'.fault = true ↔ q.fault = true ∨ DirFault op r := by
  cases hn with
  | @stay q op r hr => cases op <;> simp_all [Volume.Inert, DirFault]
  | @unlock m b fd r q hq =>
    rcases hq with rfl | rfl | rfl | ⟨name, c, rfl⟩ <;> simp [Phase.fault, DirFault]
  | _ => simp [Phase.fault, DirFault]

section Solo

variable {target : Bytes} {Permits : Bytes → Bytes → Prop} {v : Volume} {h : History Unit}
  {q : Phase}

theorem Inv.log_eq_nil (hi : Inv target (fun _ => Permits) v h fun _ => q) (hq : q.result = none) :
    h.log = [] := by
  refine List.eq_nil_iff_forall_not_mem.2 fun e he => ?_
  have := (hi.logged () e.read e.written).2 ⟨e, he, rfl, rfl, rfl⟩
  simp [hq] at this

/-- A process alone that has replaced nothing finds the file as it was at the start. -/
theorem Inv.untouched (hi : Inv target (fun _ => Permits) v h fun _ => q)
    (hq : q.result = none) : v.file? target = some h.origin := by
  obtain ⟨cur, hcur, hlookup⟩ := hi.current
  obtain ⟨o, ho, hf⟩ := hi.origin
  rw [hi.log_eq_nil hq] at hcur
  obtain rfl : cur = o := Option.some.inj (hcur.symm.trans ho)
  simp [Volume.file?, hlookup, hf]

/-- A process alone that has replaced `b` by `c` had found `b`, and `c` is there now. -/
theorem Inv.replaced (hi : Inv target (fun _ => Permits) v h fun _ => q) {b c : Bytes}
    (hq : q.result = some (b, c)) :
    h.origin.bytes = b ∧ contents v target = c ∧ Permits b c := by
  obtain ⟨e, he, -, rfl, rfl⟩ := (hi.logged () b c).1 hq
  -- there is one process, so there is one entry
  have hlog : h.log = [e] := by
    have hu := hi.unique
    cases hl : h.log with
    | nil => simp [hl] at he
    | cons x l =>
      cases l with
      | nil =>
        rw [hl] at he
        rw [List.mem_singleton.1 he]
      | cons y l => simp [hl] at hu
  obtain ⟨hread, ⟨o', ho', f, hf, hfb⟩, hperm⟩ := hi.chain 0 e (by simp [hlog])
  obtain ⟨o, ho, hfo⟩ := hi.origin
  obtain ⟨hsrc, g, hg, hgb⟩ := hread
  obtain rfl : e.source = o := Option.some.inj (hsrc.symm.trans ho)
  obtain rfl : g = h.origin := Option.some.inj (hg.symm.trans hfo)
  obtain ⟨cur, hcur, hlookup⟩ := hi.current
  rw [hlog] at hcur
  obtain rfl : cur = o' := Option.some.inj (hcur.symm.trans ho')
  exact ⟨hgb, by simp [contents, Volume.file?, hlookup, hf, hfb], hperm⟩

/-- A process alone never compares stamps of two versions. -/
theorem Inv.distinct_solo (hi : Inv target (fun _ => Permits) v h fun _ => q)
    (hq : q.Comparing) : Distinct v h.versions := by
  have hnone : q.result = none := by
    cases q <;> first | rfl | exact hq.elim
  have hlen := hi.length
  rw [hi.log_eq_nil hnone] at hlen
  rintro i j m ⟨_, _, hi', _⟩ ⟨_, _, hj', _⟩
  have hi' := (List.getElem?_eq_some_iff.1 hi').1
  have hj' := (List.getElem?_eq_some_iff.1 hj').1
  simp only [List.length_nil] at hlen
  omega

end Solo

theorem History.after_origin {ι : Type} [DecidableEq ι] (target : Bytes) (h : History ι)
    (v' : Volume) (i : ι) (op : FileOp) (r : op.Answer) :
    (h.after target v' i op r).origin = h.origin := by
  unfold History.after
  split
  · rfl
  · split <;> rfl
  · rfl

end SecretsBroker.Replacement
