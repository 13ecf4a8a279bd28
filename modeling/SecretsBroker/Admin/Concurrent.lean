import SecretsBroker.Admin.Protocol

/-!
# Editors that run at the same time

Any number of editors of one policy, each in a mutation of its own, with their calls interleaved in
any order. A call on the policy directory acts on the shared volume; every other call is answered in
any way at all. `no_lost_update` says that the replacements of the policy form a chain: each one
replaces the version that its editor has read, by what its mutation makes of it.
-/

namespace SecretsBroker.Admin

open Files Interaction Replacement

variable [Platform] [Codec]

/-- An editor with the mutation it runs. -/
structure Session where
  editor : Editor
  action : Action

/-- The program of a session, with the flag and the error it returns. -/
def Session.program (s : Session) : Program (Bool × Option Bytes) :=
  match s.action with
  | .mutate m => s.editor.mutate m
  | .remove name confirmation recoveryID => do
    let (result, err) ← s.editor.removeProject name confirmation recoveryID
    pure (result.changed, err)
  | .restore recoveryID confirmation => do
    let (result, err) ← s.editor.restoreProject recoveryID confirmation
    pure (result.changed, err)

/-- What a session may replace a policy by. -/
def Session.Permits (s : Session) : Bytes → Bytes → Prop := s.action.Permits s.editor

theorem Session.conforms (s : Session) :
    Conforms (PolicyNext s.editor.name s.Permits) s.program .idle fun x q =>
      Ends s.Permits x.1 x.2 q := by
  obtain ⟨e, action⟩ := s
  cases action with
  | mutate m => exact mutate_conforms e m
  | remove name confirmation recoveryID =>
    exact conforms_bind (remove_conforms e name confirmation recoveryID) fun _ _ h => h
  | restore recoveryID confirmation =>
    exact conforms_bind (restore_conforms e recoveryID confirmation) fun _ _ h => h

/-- The policy directory, what has happened in it, and what is left of each session. -/
structure World (ι : Type) where
  volume : Volume
  history : History ι
  left : ι → Program (Bool × Option Bytes)

section Interleaving

variable {ι : Type} [DecidableEq ι] {target : Bytes}

/-- One call of one session. -/
inductive World.Step (target : Bytes) (w : World ι) : World ι → Prop
  | policy {i : ι} {ch : Choice} {op : FileOp} {r : op.Answer} {v' : Volume}
    {k : op.Answer → Program (Bool × Option Bytes)} (hp : w.left i = .call (.file .policy op) k)
    (hs : w.volume.step ch op = some (r, v')) :
    World.Step target w
      ⟨v', w.history.after target v' i op r, Function.update w.left i (k r)⟩
  | other {i : ι} {c : Call} {k : c.Answer → Program (Bool × Option Bytes)} (r : c.Answer)
    (hp : w.left i = .call c k) (hc : ∀ op, c ≠ .file .policy op) :
    World.Step target w { w with left := Function.update w.left i (k r) }

/-- The worlds that some interleaving reaches, as long as no two versions of the policy share a
stamp. -/
inductive World.Reaches (target : Bytes) (w : World ι) : World ι → Prop
  | refl : World.Reaches target w w
  | step {w' w'' : World ι} (h : World.Reaches target w w')
    (hd : Distinct w'.volume w'.history.versions) (hs : World.Step target w' w'') :
    World.Reaches target w w''

/-- All sessions at their start. -/
def World.start (sessions : ι → Session) (v : Volume) (o : ℕ) (f : Inode) : World ι :=
  ⟨v, History.start o f, fun i => (sessions i).program⟩

/-- What holds in every reachable world: the sessions stand in phases of the protocol that explain
what is left of them. -/
def World.Explained (target : Bytes) (sessions : ι → Session) (w : World ι) : Prop :=
  ∃ phase : ι → Phase, Inv target (fun i => (sessions i).Permits) w.volume w.history phase ∧
    ∀ i, Conforms (PolicyNext target (sessions i).Permits) (w.left i) (phase i) fun x q =>
      Ends (sessions i).Permits x.1 x.2 q

omit [DecidableEq ι] in
theorem World.explained_start {sessions : ι → Session} {v : Volume} {o : ℕ} {f : Inode}
    (hname : ∀ i, (sessions i).editor.name = target) (hv : Ready v target o f) :
    (World.start sessions v o f).Explained target sessions := by
  refine ⟨fun _ => .idle, hv.inv, fun i => ?_⟩
  rw [← hname i]
  exact (sessions i).conforms

omit [Codec] in
/-- Every call of every session keeps the protocol. -/
theorem World.Step.explained {sessions : ι → Session} {w w' : World ι}
    (hs : World.Step target w w') (hd : Distinct w.volume w.history.versions)
    (he : w.Explained target sessions) : w'.Explained target sessions := by
  obtain ⟨phase, hi, hc⟩ := he
  -- the session that moves is in the phase after its call, the others stay where they are
  have move : ∀ {i : ι} {p : Program (Bool × Option Bytes)} {q : Phase},
      Conforms (PolicyNext target (sessions i).Permits) p q
        (fun x q => Ends (sessions i).Permits x.1 x.2 q) →
      ∀ j, Conforms (PolicyNext target (sessions j).Permits) (Function.update w.left i p j)
        (Function.update phase i q j) fun x q => Ends (sessions j).Permits x.1 x.2 q := by
    intro i p q hq j
    by_cases hj : j = i
    · subst hj
      rwa [Function.update_self, Function.update_self]
    · rw [Function.update_of_ne hj, Function.update_of_ne hj]
      exact hc j
  cases hs with
  | @policy i ch op r v' k hp hstep =>
    have hci := hc i
    rw [hp] at hci
    obtain ⟨q', hn, hk⟩ := hci r
    exact ⟨Function.update phase i q', hi.step (fun _ => hd) hstep hn, move hk⟩
  | @other i c k r hp hother =>
    have hci := hc i
    rw [hp] at hci
    obtain ⟨q', hn, hk⟩ := hci r
    obtain rfl : q' = phase i := by
      cases c with
      | file d op =>
        cases d with
        | policy => exact absurd rfl (hother op)
        | recovery => exact hn
      | _ => exact hn
    refine ⟨phase, hi, fun j => ?_⟩
    have := move hk j
    rwa [Function.update_eq_self] at this

omit [Codec] in
theorem World.Reaches.explained {sessions : ι → Session} {w w' : World ι}
    (h : World.Reaches target w w') (he : w.Explained target sessions) :
    w'.Explained target sessions := by
  induction h with
  | refl => exact he
  | step _ hd hs ih => exact hs.explained hd ih

omit [Codec] in
/-- A permitted replacement respects the revision of its editor. -/
theorem Session.Permits.revision {s : Session} {b c : Bytes} (h : s.Permits b c) :
    s.editor.expectedRevision ≠ [] → hexDigest b = s.editor.expectedRevision := by
  have key : ∀ cfg, s.editor.interpret b = .ok cfg → s.editor.expectedRevision ≠ [] →
      hexDigest b = s.editor.expectedRevision := by
    intro cfg hcfg hrev
    by_contra hne
    simp [Editor.interpret, hrev, hne] at hcfg
  obtain ⟨e, action⟩ := s
  cases action with
  | mutate m =>
    obtain ⟨cfg, hcfg, -⟩ := h
    exact key cfg hcfg
  | remove name confirmation recoveryID =>
    obtain ⟨cfg, hcfg, -⟩ := h
    exact key cfg hcfg
  | restore recoveryID confirmation =>
    obtain ⟨cfg, artifact, hcfg, -⟩ := h
    exact key cfg hcfg

end Interleaving

/-- **No update is lost.** However the calls of any number of editors interleave, the file under the
policy's name is the newest of the versions that were installed, one for each replacement, and
replacement `k` of the log replaced version `k` by version `k + 1`: version `k` is the file that its
editor read last, with the bytes it read, version `k + 1` has the bytes that the mutation makes of
them, and an editor with a revision has replaced a policy with that SHA-256. A session that has
returned with the flag set has its entry in the log. -/
theorem no_lost_update {ι : Type} [DecidableEq ι] {target : Bytes} {sessions : ι → Session}
    {v : Volume} {o : ℕ} {f : Inode} {w : World ι}
    (hname : ∀ i, (sessions i).editor.name = target) (hv : Ready v target o f)
    (h : World.Reaches target (World.start sessions v o f) w) :
    w.history.versions.length = w.history.log.length + 1 ∧
      w.volume.names.lookup target = w.history.versions[w.history.log.length]? ∧
      (∀ k entry, w.history.log[k]? = some entry →
        Contains w.volume w.history.versions entry.source k entry.read ∧
        (∃ new, Contains w.volume w.history.versions new (k + 1) entry.written) ∧
        (sessions entry.who).Permits entry.read entry.written ∧
        ((sessions entry.who).editor.expectedRevision ≠ [] →
          hexDigest entry.read = (sessions entry.who).editor.expectedRevision)) ∧
      ∀ i err, w.left i = .ret (true, err) → ∃ entry ∈ w.history.log, entry.who = i := by
  obtain ⟨phase, hi, hc⟩ := h.explained (World.explained_start hname hv)
  obtain ⟨cur, hcur, hlookup⟩ := hi.current
  refine ⟨hi.length, hlookup.trans hcur.symm, fun k entry he => ?_, fun i err hret => ?_⟩
  · obtain ⟨hread, hnew, hperm⟩ := hi.chain k entry he
    exact ⟨hread, hnew, hperm, hperm.revision⟩
  · have hend := hc i
    rw [hret] at hend
    rcases hend with ⟨hfalse, -⟩ | ⟨b, c, -, hq, -⟩
    · simp at hfalse
    · obtain ⟨entry, hmem, hwho, -⟩ := (hi.logged i b c).1 (by rw [hq]; rfl)
      exact ⟨entry, hmem, hwho⟩

/-! A policy with two projects, and an editor that sets the approval mode of the first one. -/

def demoPolicy : Bytes :=
  str "[[projects]]\nalias = \"app\"\napproval = \"never\"\n[[projects]]\nalias = \"db\"\n"

def demoConfirmed : Bytes :=
  str "[[projects]]\nalias = \"app\"\napproval = \"allowlisted-prompt\"\n[[projects]]\nalias = \"db\"\n"

/-- The first policy without its second project. -/
def demoRemoved : Bytes := str "[[projects]]\nalias = \"app\"\napproval = \"never\"\n"

def demoProject (name approval : Bytes) : Project :=
  ⟨name, str "id", str "entry", str "/srv", approval, none⟩

def demoConfig (projects : List Project) : Config where
  runtime := ⟨str "/bin/bws", str "/bin", str "/root"⟩
  tokenSource := ⟨Config.BackendFile, [], str "/etc/token"⟩
  approvalSource := ⟨Config.ApprovalBackendTailscaleRelay, ⟨str "http://relay", 2, 300⟩⟩
  projects := projects

/-- The decoder on the three texts. -/
@[reducible] def demoPlatform : Platform where
  isPrint _ := false
  unmarshal data :=
    let app := demoProject (str "app") Config.ApprovalNever
    let db := demoProject (str "db") Config.ApprovalNever
    if data = demoPolicy then .ok (demoConfig [app, db])
    else if data = demoRemoved then .ok (demoConfig [app])
    else .ok (demoConfig [{ app with approval := Config.ApprovalAllowlistedPrompt }, db])
  parseURL _ := some ⟨str "http", str "relay", false, [], [], []⟩

/-- A codec that is not used. -/
@[reducible] def demoCodec : Codec := ⟨fun _ => .error [], fun _ => .error [], fun _ => .eof⟩

def demoAttr (kind : Kind) (perm : UInt32) (ino : UInt64) : Attr :=
  ⟨kind, perm, false, 0, 0, 1, ino, 7⟩

def demoFile : Inode := ⟨demoAttr .regular 0o644 2, demoPolicy⟩

def demoVolume : Volume where
  dirInfo := ⟨demoAttr .directory 0o755 1, 0⟩
  dirLink := ⟨demoAttr .directory 0o755 1, 0⟩
  names := (∅ : AList fun _ : Bytes => ℕ).insert (str "policy.toml") 0
  files := [demoFile]
  fds := []

def demoEditor : Editor :=
  ⟨str "/etc/policy.toml", str "/etc", str "policy.toml", 0, none, [], 0⟩

/-- Nothing fails. -/
def demoChoice : Choice := ⟨false, [], 0, str "1", demoAttr .regular 0o600 3, 8⟩

def demoSession (_ : Unit) : Session := ⟨demoEditor, .mutate (.setApproval (str "app") ModeConfirm)⟩

/-- The next call of the only session. -/
def World.tick (w : World Unit) : World Unit :=
  match w.left () with
  | .call (.file .policy op) k =>
    match w.volume.step demoChoice op with
    | some (r, v') =>
      ⟨v', w.history.after (str "policy.toml") v' () op r, Function.update w.left () (k r)⟩
    | none => w
  | _ => w

omit [Platform] [Codec] in
theorem distinct_singleton {v : Volume} {vs : List ℕ} (h : vs.length = 1) : Distinct v vs := by
  rintro i j m ⟨_, _, hi, _⟩ ⟨_, _, hj, _⟩
  have hi := (List.getElem?_eq_some_iff.1 hi).1
  have hj := (List.getElem?_eq_some_iff.1 hj).1
  omega

omit [Platform] [Codec] in
theorem World.Reaches.tick {w w' : World Unit} (h : World.Reaches (str "policy.toml") w w')
    (hone : w'.history.versions.length = 1) : World.Reaches (str "policy.toml") w w'.tick := by
  unfold World.tick
  split
  · next op k hp =>
    split
    · next r v' hs => exact .step h (distinct_singleton hone) (.policy hp hs)
    · exact h
  · exact h

/-- The world after `n` calls. -/
def demoWorld : ℕ → World Unit
  | 0 => @World.start demoPlatform demoCodec Unit demoSession demoVolume 0 demoFile
  | n + 1 => (demoWorld n).tick

omit [Platform] [Codec] in
theorem ready_demoVolume : Ready demoVolume (str "policy.toml") 0 demoFile where
  names_lt := by
    intro n k h
    change ((∅ : AList fun _ : Bytes => ℕ).insert (str "policy.toml") 0).lookup n = some k at h
    by_cases hn : n = str "policy.toml"
    · rw [hn, AList.lookup_insert] at h
      obtain rfl := Option.some.inj h
      decide
    · rw [AList.lookup_insert_ne hn] at h
      simp at h
  lock_unique := by simp [Volume.desc?, demoVolume]
  lookup := rfl
  file := rfl

omit [Platform] [Codec] in
theorem reaches_demoWorld {n : ℕ} (h : n ≤ 18) :
    World.Reaches (str "policy.toml") (demoWorld 0) (demoWorld n) := by
  have hone : ∀ n < 18, (demoWorld n).history.versions.length = 1 := by decide +kernel
  induction n with
  | zero => exact .refl
  | succ n ih => exact (ih (by omega)).tick (hone n (by omega))

omit [Platform] [Codec] in
/-- The call after which the policy is replaced. -/
theorem no_lost_update_confirm : (demoWorld 18).history.log.length = 1 ∧
    ∀ entry, (demoWorld 18).history.log[0]? = some entry →
      Contains (demoWorld 18).volume (demoWorld 18).history.versions entry.source 0 entry.read := by
  have h := @no_lost_update demoPlatform demoCodec Unit _ (str "policy.toml") demoSession demoVolume
    0 demoFile (demoWorld 18) (fun _ => rfl) ready_demoVolume (reaches_demoWorld le_rfl)
  exact ⟨by decide +kernel, fun entry he => (h.2.2.1 0 entry he).1⟩

end SecretsBroker.Admin
