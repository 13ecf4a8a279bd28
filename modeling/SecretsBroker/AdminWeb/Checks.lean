import SecretsBroker.AdminWeb.Tokens
import SecretsBroker.Worker.Access

/-!
# Recent check results

The map in which the administrator web server keeps the last path check and the last Bitwarden check
of a project: `storeCheck`, which writes one of the two, and the lock section of `renderProject`
(`showChecks`), which copies both to a page. An entry has one revision and two results that expire
on their own, and storing for one project can remove the entries of the others.

`Stored` has every sequence of `storeCheck` calls, the most recent one first. `Sound` says what such
a sequence keeps: a result in the map is the blank one, or it is that of the latest call of its kind
for its project, and no later call came with another revision. `showChecks_latest` draws from it
what a page can show.
-/

namespace SecretsBroker.AdminWeb

/-! ## The map -/

structure PathCheckResult where
  projectAlias : Bytes
  configuredPath : Bytes
  resolvedPath : Bytes
  resolution : Bytes
  workerCanEnter : Bool
  runnerCanEnter : Bool
  runnerCanWrite : Bool
  deriving DecidableEq

structure ProjectChecks where
  revision : Bytes
  pathExpires : ℤ
  accessExpires : ℤ
  path : Option PathCheckResult
  access : Option AccessDiag.Result
  pathMessage : Bytes
  accessMessage : Bytes
  pathWarning : Bool
  accessWarning : Bool
  deriving DecidableEq

/-- `projectChecks{}`, whose times are the first day of the year 1. -/
def ProjectChecks.zero : ProjectChecks :=
  ⟨[], -62135596800 * 10 ^ 9, -62135596800 * 10 ^ 9, none, none, [], [], false, false⟩

/-- `s.checks` -/
abbrev Checks := AList fun _ : Bytes => ProjectChecks

/-- A call of `storeCheck`: its arguments, with the revision of the request's context and the alias
of its form, and what it meets. The loop over the map reads the clock twice for an entry, the loop
that makes room starts with the first key of `order`, and the result is stored at `storedAt`. -/
structure StoreCall where
  revision : Bytes
  projectAlias : Bytes
  path : Option PathCheckResult
  access : Option AccessDiag.Result
  message : Bytes
  warning : Bool
  bitwarden : Bool
  now : Bytes → ℤ × ℤ
  order : List Bytes
  storedAt : ℤ

/-- The first loop of `storeCheck`. -/
def pruneChecks (revision : Bytes) (now : Bytes → ℤ × ℤ) (checks : Checks) : Checks :=
  ⟨checks.entries.filter fun c => !decide (c.2.revision ≠ revision ∨
      (c.2.pathExpires ≤ (now c.1).1 ∧ c.2.accessExpires ≤ (now c.1).2)),
    checks.nodupKeys.sublist List.filter_sublist⟩

/-- The second loop of `storeCheck`, which stops after the first key that it meets. -/
def evictFirst (order : List Bytes) (checks : Checks) : Checks :=
  match order with
  | [] => checks
  | key :: _ => checks.erase key

/-- What `storeCheck` makes of the entry that it finds. -/
def StoreCall.update (call : StoreCall) (check : ProjectChecks) : ProjectChecks :=
  let check := { check with revision := call.revision }
  if call.bitwarden then
    { check with
      accessExpires := call.storedAt + formLifetime
      access := call.access, accessMessage := call.message, accessWarning := call.warning }
  else
    { check with
      pathExpires := call.storedAt + formLifetime
      path := call.path, pathMessage := call.message, pathWarning := call.warning }

def storeCheck (call : StoreCall) (checks : Checks) : Checks :=
  let checks := pruneChecks call.revision call.now checks
  let check := (checks.lookup call.projectAlias).getD .zero
  let checks :=
    if call.projectAlias ∉ checks ∧ 128 ≤ checks.keys.length then evictFirst call.order checks
    else checks
  checks.insert call.projectAlias (call.update check)

/-- The fields of a project's page that show check results. -/
structure PageChecks where
  path : Option PathCheckResult
  access : Option AccessDiag.Result
  pathMessage : Bytes
  accessMessage : Bytes
  pathWarning : Bool
  accessWarning : Bool
  deriving DecidableEq

/-- The lock section of `renderProject`, which reads the clock for the path check (`now false`) and
for the Bitwarden check (`now true`). -/
def showChecks (checks : Checks) (name revision : Bytes) (now : Bool → ℤ)
    (path : Option PathCheckResult) (access : Option AccessDiag.Result) : PageChecks :=
  let data : PageChecks := ⟨path, access, [], [], false, false⟩
  let check := (checks.lookup name).getD .zero
  if check.revision = revision then
    let data :=
      if now false < check.pathExpires then
        { data with
          path := check.path, pathMessage := check.pathMessage, pathWarning := check.pathWarning }
      else data
    if now true < check.accessExpires then
      { data with
        access := check.access, accessMessage := check.accessMessage,
        accessWarning := check.accessWarning }
    else data
  else data

/-! ## The two kinds of results

What is said of path checks holds of Bitwarden checks too. A `Note` is a result of either kind with
its message and its warning, and `bitwarden` chooses the kind. -/

structure Note where
  result : Option (PathCheckResult ⊕ AccessDiag.Result)
  message : Bytes
  warning : Bool
  deriving DecidableEq

/-- Nothing is shown. -/
def Note.blank : Note := ⟨none, [], false⟩

/-- A result of the kind, of a pair of results. -/
def choose (bitwarden : Bool) (path : Option PathCheckResult) (access : Option AccessDiag.Result) :
    Option (PathCheckResult ⊕ AccessDiag.Result) :=
  if bitwarden then access.map .inr else path.map .inl

def ProjectChecks.note (check : ProjectChecks) (bitwarden : Bool) : Note where
  result := choose bitwarden check.path check.access
  message := if bitwarden then check.accessMessage else check.pathMessage
  warning := if bitwarden then check.accessWarning else check.pathWarning

def ProjectChecks.expires (check : ProjectChecks) (bitwarden : Bool) : ℤ :=
  if bitwarden then check.accessExpires else check.pathExpires

def PageChecks.note (page : PageChecks) (bitwarden : Bool) : Note where
  result := choose bitwarden page.path page.access
  message := if bitwarden then page.accessMessage else page.pathMessage
  warning := if bitwarden then page.accessWarning else page.pathWarning

/-- What a call of `storeCheck` stores. -/
def StoreCall.note (call : StoreCall) : Note :=
  ⟨choose call.bitwarden call.path call.access, call.message, call.warning⟩

@[simp] theorem ProjectChecks.note_zero (bitwarden : Bool) :
    ProjectChecks.zero.note bitwarden = .blank := by
  cases bitwarden <;> rfl

section Update

variable (call : StoreCall) (check : ProjectChecks)

@[simp] theorem StoreCall.revision_update : (call.update check).revision = call.revision := by
  unfold StoreCall.update
  split <;> rfl

@[simp] theorem StoreCall.note_update_self :
    (call.update check).note call.bitwarden = call.note := by
  cases hkind : call.bitwarden <;> simp [update, StoreCall.note, ProjectChecks.note, choose, hkind]

@[simp] theorem StoreCall.expires_update_self :
    (call.update check).expires call.bitwarden = call.storedAt + formLifetime := by
  cases hkind : call.bitwarden <;> simp [update, ProjectChecks.expires, hkind]

theorem StoreCall.note_update_of_ne {bitwarden : Bool} (h : bitwarden ≠ call.bitwarden) :
    (call.update check).note bitwarden = check.note bitwarden := by
  obtain rfl := Bool.eq_not_of_ne h
  cases hkind : call.bitwarden <;> simp [update, ProjectChecks.note, choose, hkind]

theorem StoreCall.expires_update_of_ne {bitwarden : Bool} (h : bitwarden ≠ call.bitwarden) :
    (call.update check).expires bitwarden = check.expires bitwarden := by
  obtain rfl := Bool.eq_not_of_ne h
  cases hkind : call.bitwarden <;> simp [update, ProjectChecks.expires, hkind]

end Update

/-- A page shows a result of the entry when the revisions agree and the result has not expired.
Every caller of `renderProject` passes no results of its own. -/
theorem note_showChecks (checks : Checks) (name revision : Bytes) (now : Bool → ℤ)
    (bitwarden : Bool) :
    (showChecks checks name revision now none none).note bitwarden =
      if ((checks.lookup name).getD .zero).revision = revision ∧
          now bitwarden < ((checks.lookup name).getD .zero).expires bitwarden
      then ((checks.lookup name).getD .zero).note bitwarden else .blank := by
  unfold showChecks
  generalize (checks.lookup name).getD .zero = check
  by_cases hrevision : check.revision = revision
  · -- the other result may be shown too; it is in other fields
    by_cases hpath : now false < check.pathExpires <;>
      by_cases haccess : now true < check.accessExpires <;>
      cases bitwarden <;>
      simp [hrevision, hpath, haccess, PageChecks.note, ProjectChecks.note, ProjectChecks.expires,
        choose, Note.blank]
  · cases bitwarden <;> simp [hrevision, PageChecks.note, choose, Note.blank]

/-! ## Storing -/

theorem lookup_pruneChecks {revision : Bytes} {now : Bytes → ℤ × ℤ} {checks : Checks} {name : Bytes}
    {check : ProjectChecks} (h : (pruneChecks revision now checks).lookup name = some check) :
    checks.lookup name = some check ∧ check.revision = revision := by
  have hp := (lookup_filter rfl).1 h
  simp only [ne_eq, Bool.not_eq_true', decide_eq_false_iff_not, not_or, not_not] at hp
  exact ⟨hp.1, hp.2.1⟩

theorem lookup_evictFirst {order : List Bytes} {checks : Checks} {name : Bytes}
    {check : ProjectChecks} (h : (evictFirst order checks).lookup name = some check) :
    checks.lookup name = some check := by
  cases order with
  | nil => exact h
  | cons key order =>
    have hne : name ≠ key := by
      rintro rfl
      rw [evictFirst, AList.lookup_erase] at h
      cases h
    rwa [evictFirst, AList.lookup_erase_ne hne] at h

/-- The entry of the call's project is what the call makes of an entry of its revision or of the
zero value, and the other entries were there before, with the call's revision. -/
theorem lookup_storeCheck {call : StoreCall} {checks : Checks} {name : Bytes}
    {check : ProjectChecks} (h : (storeCheck call checks).lookup name = some check) :
    (name = call.projectAlias ∧ ∃ before, check = call.update before ∧
        (before = .zero ∨ checks.lookup name = some before ∧ before.revision = call.revision)) ∨
      (name ≠ call.projectAlias ∧ checks.lookup name = some check ∧
        check.revision = call.revision) := by
  simp only [storeCheck] at h
  by_cases hname : name = call.projectAlias
  · subst hname
    rw [AList.lookup_insert] at h
    refine .inl ⟨rfl, _, (Option.some.inj h).symm, ?_⟩
    cases hfound : (pruneChecks call.revision call.now checks).lookup call.projectAlias with
    | none => exact .inl rfl
    | some before => exact .inr (lookup_pruneChecks hfound)
  · rw [AList.lookup_insert_ne hname] at h
    refine .inr ⟨hname, ?_⟩
    split_ifs at h
    · exact lookup_pruneChecks (lookup_evictFirst h)
    · exact lookup_pruneChecks h

theorem length_pruneChecks_le (revision : Bytes) (now : Bytes → ℤ × ℤ) (checks : Checks) :
    (pruneChecks revision now checks).keys.length ≤ checks.keys.length := by
  simp only [AList.keys, List.keys, List.length_map]
  exact List.length_filter_le _ _

section Length

variable {α : Type} {β : α → Type} [DecidableEq α] {m : AList β} {a : α}

theorem length_keys_erase (h : a ∈ m) : (m.erase a).keys.length = m.keys.length - 1 := by
  rw [AList.keys_erase]
  exact List.length_erase_of_mem (AList.mem_keys.1 h)

theorem length_keys_insert (h : a ∈ m) (b : β a) : (m.insert a b).keys.length = m.keys.length := by
  have hmem : a ∈ m.keys := AList.mem_keys.1 h
  rw [AList.keys_insert, List.length_cons, List.length_erase_of_mem hmem]
  exact Nat.sub_add_cancel (List.length_pos_of_mem hmem)

theorem length_keys_insert_le (b : β a) : (m.insert a b).keys.length ≤ m.keys.length + 1 := by
  rw [AList.keys_insert, List.length_cons]
  exact Nat.add_le_add_right List.length_erase_le 1

end Length

/-- Making room removes an entry, as the loop meets the keys of the map. -/
theorem length_evictFirst {order : List Bytes} {checks : Checks} (h : order.Perm checks.keys)
    (hpos : 0 < checks.keys.length) :
    (evictFirst order checks).keys.length = checks.keys.length - 1 := by
  cases order with
  | nil => simp [← h.length_eq] at hpos
  | cons key order => exact length_keys_erase (AList.mem_keys.2 (h.subset List.mem_cons_self))

theorem length_storeCheck_le {call : StoreCall} {checks : Checks} (h : checks.keys.length ≤ 128)
    (horder : call.order.Perm (pruneChecks call.revision call.now checks).keys) :
    (storeCheck call checks).keys.length ≤ 128 := by
  have hpruned := (length_pruneChecks_le call.revision call.now checks).trans h
  simp only [storeCheck]
  generalize pruneChecks call.revision call.now checks = pruned at horder hpruned
  by_cases hmem : call.projectAlias ∈ pruned
  · -- the entry is replaced
    rw [if_neg (not_and_of_not_left _ (not_not.2 hmem)), length_keys_insert hmem]
    exact hpruned
  · split_ifs with hfull
    · have hroom := length_evictFirst horder (by omega)
      refine length_keys_insert_le _ |>.trans ?_
      omega
    · have hroom : ¬ 128 ≤ pruned.keys.length := fun hlength => hfull ⟨hmem, hlength⟩
      refine length_keys_insert_le _ |>.trans ?_
      omega

/-! ## Sequences of calls -/

/-- The calls that have stored, the most recent one first, with the map and the clock that they
leave. The map is empty at the start, and the clock never goes back. -/
inductive Stored : List StoreCall → Checks → ℤ → Prop
  | start (clock : ℤ) : Stored [] ∅ clock
  | store {log : List StoreCall} {checks : Checks} {clock : ℤ} (h : Stored log checks clock)
    (call : StoreCall)
    (hnow : ∀ key, clock ≤ (call.now key).1 ∧ (call.now key).1 ≤ (call.now key).2 ∧
      (call.now key).2 ≤ call.storedAt)
    (horder : call.order.Perm (pruneChecks call.revision call.now checks).keys) :
    Stored (call :: log) (storeCheck call checks) call.storedAt

/-- The call is for the project and of the kind. -/
def StoreCall.Concerns (call : StoreCall) (name : Bytes) (bitwarden : Bool) : Prop :=
  call.projectAlias = name ∧ call.bitwarden = bitwarden

/-- The call is the most recent one of its kind for the project, it carries the revision, and so
does every call after it. -/
def Latest (log : List StoreCall) (name : Bytes) (bitwarden : Bool) (revision : Bytes)
    (call : StoreCall) : Prop :=
  call.Concerns name bitwarden ∧ call.revision = revision ∧ ∃ newer older,
    log = newer ++ call :: older ∧
      ∀ later ∈ newer, ¬ later.Concerns name bitwarden ∧ later.revision = revision

theorem latest_head (call : StoreCall) (log : List StoreCall) :
    Latest (call :: log) call.projectAlias call.bitwarden call.revision call :=
  ⟨⟨rfl, rfl⟩, rfl, [], log, rfl, by simp⟩

theorem Latest.cons {log : List StoreCall} {name : Bytes} {bitwarden : Bool} {revision : Bytes}
    {call : StoreCall} (h : Latest log name bitwarden revision call) {next : StoreCall}
    (hother : ¬ next.Concerns name bitwarden) (hrevision : next.revision = revision) :
    Latest (next :: log) name bitwarden revision call := by
  obtain ⟨hconcerns, hcall, newer, older, rfl, hnewer⟩ := h
  refine ⟨hconcerns, hcall, next :: newer, older, rfl, ?_⟩
  rintro later (_ | ⟨_, hlater⟩)
  · exact ⟨hother, hrevision⟩
  · exact hnewer later hlater

/-- A result in the map is blank, or the one of the latest call. -/
def Sound (log : List StoreCall) (clock : ℤ) (name : Bytes) (check : ProjectChecks) : Prop :=
  ∀ bitwarden, check.note bitwarden = .blank ∨
    ∃ call, Latest log name bitwarden check.revision call ∧ check.note bitwarden = call.note ∧
      check.expires bitwarden = call.storedAt + formLifetime ∧ call.storedAt ≤ clock

theorem sound_zero (log : List StoreCall) (clock : ℤ) (name : Bytes) :
    Sound log clock name .zero := fun bitwarden => .inl (by simp)

/-- A call with the revision of an entry leaves what it does not concern. -/
theorem Sound.cons {log : List StoreCall} {clock : ℤ} {name : Bytes} {check : ProjectChecks}
    (h : Sound log clock name check) {next : StoreCall} (hrevision : next.revision = check.revision)
    (hclock : clock ≤ next.storedAt) {bitwarden : Bool} (hother : ¬ next.Concerns name bitwarden) :
    check.note bitwarden = .blank ∨
      ∃ call, Latest (next :: log) name bitwarden check.revision call ∧
        check.note bitwarden = call.note ∧
        check.expires bitwarden = call.storedAt + formLifetime ∧ call.storedAt ≤ next.storedAt := by
  rcases h bitwarden with hblank | ⟨call, hlatest, hnote, hexpires, hstored⟩
  · exact .inl hblank
  · exact .inr ⟨call, hlatest.cons hother hrevision, hnote, hexpires, hstored.trans hclock⟩

/-- The call's own result is the latest, and the entry's other result is what it was. -/
theorem Sound.update {log : List StoreCall} {clock : ℤ} {call : StoreCall} {check : ProjectChecks}
    (h : Sound log clock call.projectAlias check)
    (hcheck : check = .zero ∨ check.revision = call.revision) (hclock : clock ≤ call.storedAt) :
    Sound (call :: log) call.storedAt call.projectAlias (call.update check) := by
  intro bitwarden
  by_cases hkind : bitwarden = call.bitwarden
  · subst hkind
    refine .inr ⟨call, ?_, by simp, by simp, le_rfl⟩
    rw [StoreCall.revision_update]
    exact latest_head call log
  · rw [call.note_update_of_ne check hkind, call.expires_update_of_ne check hkind,
      StoreCall.revision_update]
    rcases hcheck with rfl | hrevision
    · exact .inl (by simp)
    · rw [← hrevision]
      exact h.cons hrevision.symm hclock fun hc => hkind hc.2.symm

/-- **What every sequence of calls keeps**: the map has room for 128 entries, and its results are
those of the latest calls. -/
theorem Stored.sound {log : List StoreCall} {checks : Checks} {clock : ℤ}
    (h : Stored log checks clock) :
    checks.keys.length ≤ 128 ∧
      ∀ name check, checks.lookup name = some check → Sound log clock name check := by
  induction h with
  | start clock =>
    refine ⟨by simp, fun name check hcheck => ?_⟩
    simp at hcheck
  | @store log checks clock h call hnow horder ih =>
    obtain ⟨hlength, hsound⟩ := ih
    obtain ⟨hfirst, hsecond, hlast⟩ := hnow call.projectAlias
    have hclock : clock ≤ call.storedAt := (hfirst.trans hsecond).trans hlast
    refine ⟨length_storeCheck_le hlength horder, fun name check hcheck => ?_⟩
    rcases lookup_storeCheck hcheck with
      ⟨rfl, before, rfl, rfl | ⟨hbefore, hrevision⟩⟩ | ⟨hname, hbefore, hrevision⟩
    · exact (sound_zero log clock _).update (.inl rfl) hclock
    · exact (hsound _ _ hbefore).update (.inr hrevision) hclock
    · exact fun bitwarden =>
        (hsound _ _ hbefore).cons hrevision.symm hclock fun hc => hname hc.1.symm

/-- **A page shows only current results.** After any sequence of `storeCheck` calls the map has at
most 128 entries. If the page of a project at a revision shows a result, a message or a warning of a
path check or of a Bitwarden check, then they are those of the most recent such call for the
project, the call carried the page's revision and so did every call since, and it was less than ten
minutes ago. -/
theorem showChecks_latest {log : List StoreCall} {checks : Checks} {clock : ℤ}
    (h : Stored log checks clock) :
    checks.keys.length ≤ 128 ∧
      ∀ (name revision : Bytes) (now : Bool → ℤ) (bitwarden : Bool), clock ≤ now bitwarden →
        (showChecks checks name revision now none none).note bitwarden ≠ .blank →
        ∃ call, Latest log name bitwarden revision call ∧
          (showChecks checks name revision now none none).note bitwarden = call.note ∧
          call.storedAt ≤ now bitwarden ∧ now bitwarden < call.storedAt + formLifetime := by
  obtain ⟨hlength, hsound⟩ := h.sound
  refine ⟨hlength, fun name revision now bitwarden hnow hshown => ?_⟩
  rw [note_showChecks] at hshown ⊢
  split_ifs at hshown ⊢ with hcurrent
  · obtain ⟨rfl, htime⟩ := hcurrent
    cases hfound : checks.lookup name with
    | none =>
      rw [hfound] at hshown
      exact absurd (ProjectChecks.note_zero bitwarden) hshown
    | some check =>
      rw [hfound] at hshown htime
      obtain ⟨call, hlatest, hnote, hexpires, hstored⟩ :=
        (hsound name check hfound bitwarden).resolve_left hshown
      exact ⟨call, hlatest, hnote, hstored.trans hnow, hexpires ▸ htime⟩
  · exact absurd rfl hshown

/-- A path check of `db` that could not be completed, a minute after the epoch. -/
def pathCall : StoreCall where
  revision := str "r1"
  projectAlias := str "db"
  path := none
  access := none
  message := str "Path check did not complete."
  warning := true
  bitwarden := false
  now := fun _ => (0, 0)
  order := []
  storedAt := 60 * 10 ^ 9

/-- A Bitwarden check of `db` three minutes later. -/
def accessCall : StoreCall where
  revision := str "r1"
  projectAlias := str "db"
  path := none
  access := some ⟨1, str "all_accessible", []⟩
  message := str "Bitwarden check completed."
  warning := false
  bitwarden := true
  now := fun _ => (240 * 10 ^ 9, 240 * 10 ^ 9)
  order := [str "db"]
  storedAt := 240 * 10 ^ 9

theorem stored_demo : Stored [accessCall, pathCall] (storeCheck accessCall (storeCheck pathCall ∅))
    (240 * 10 ^ 9) := by
  have hpath := Stored.store (Stored.start 0) pathCall (by simp [pathCall]) (by decide)
  exact hpath.store accessCall (by simp [pathCall, accessCall]) (by decide)

/-- Nine minutes after the epoch the page still shows the path check. -/
theorem showChecks_latest_db :
    ∃ call, Latest [accessCall, pathCall] (str "db") false (str "r1") call ∧
      (showChecks (storeCheck accessCall (storeCheck pathCall ∅)) (str "db") (str "r1")
        (fun _ => 540 * 10 ^ 9) none none).note false = call.note ∧
      call.storedAt ≤ 540 * 10 ^ 9 ∧ 540 * 10 ^ 9 < call.storedAt + formLifetime :=
  (showChecks_latest stored_demo).2 (str "db") (str "r1") (fun _ => 540 * 10 ^ 9) false
    (by decide) (by decide +kernel)

end SecretsBroker.AdminWeb
