import Mathlib.Order.Basic
import SecretsBroker.AdminWeb.Commit
import SecretsBroker.AdminWeb.Tokens

/-!
# Changes that are committed without a confirmation

`review` computes a flag that says whether a change widens what may run or what it runs with, and
`commit` insists on a confirmation only where the flag is set. The flag is computed on the displayed
modes, the authority is the matrix of `Project.decide`. `no_silent_widening` relates the two: a
change that was committed without the confirmation leaves every project with its metadata and with
verdicts that are at most the earlier ones, and a project it adds denies everything.
-/

namespace SecretsBroker

/-- How much a verdict lets through. -/
def Verdict.rank : Verdict → ℕ
  | .deny => 0
  | .prompt => 1
  | .allow => 2

theorem Verdict.rank_injective : Function.Injective Verdict.rank := by
  intro v w h
  cases v <;> cases w <;> first | rfl | exact absurd h (by decide)

instance : PartialOrder Verdict := PartialOrder.lift Verdict.rank Verdict.rank_injective

theorem Verdict.deny_le (v : Verdict) : Verdict.deny ≤ v := Nat.zero_le v.rank

theorem Verdict.le_allow (v : Verdict) : v ≤ .allow := by
  cases v <;> exact Nat.le_of_ble_eq_true rfl

/-- A shorter allowlist lets less through, in each approval mode. -/
theorem Project.decide_le_of_subset {p p' : Project} (ha : p'.approval = p.approval)
    (hs : p'.allowArgv ⊆ p.allowArgv) (argv : List Bytes) : p'.decide argv ≤ p.decide argv := by
  by_cases hl : argv ∈ p'.allowArgv
  · exact le_of_eq (Admin.decide_congr ha (iff_of_true hl (hs hl)))
  have hno : Policy.matches? p'.allowArgv argv = false := by
    rw [Bool.eq_false_iff, ne_eq, Policy.matches?_iff]
    exact hl
  simp only [Project.decide, ha, hno, Bool.false_and, Bool.false_eq_true, if_false]
  -- the unlisted command is prompted for or denied, the listed one is never denied
  split_ifs <;> first
    | exact le_refl _
    | exact Verdict.le_allow _
    | exact Verdict.deny_le _

/-- Asking for listed commands and denying the others is at most what any mode does. -/
theorem Project.decide_confirm_le (p : Project) (argv : List Bytes) :
    ({ p with approval := Config.ApprovalAllowlistedPrompt } : Project).decide argv ≤
      p.decide argv := by
  have hconfirm : ({ p with approval := Config.ApprovalAllowlistedPrompt } : Project).decide argv =
      if Policy.matches? p.allowArgv argv then .prompt else .deny := by
    have hne : Config.ApprovalAllowlistedPrompt ≠ Config.ApprovalAlways := by decide +kernel
    have hne' : Config.ApprovalAllowlistedPrompt ≠ Config.ApprovalPrompt := by decide +kernel
    simp only [Project.decide, Project.allowArgv, hne, hne', if_false]
    split_ifs <;> simp_all
  rw [hconfirm]
  by_cases hl : Policy.matches? p.allowArgv argv = true
  · -- a listed command is denied in no mode
    rw [if_pos hl]
    simp only [Project.decide, hl, Bool.true_and, if_true]
    split_ifs <;> first
      | exact le_refl _
      | exact Verdict.le_allow _
  · rw [if_neg hl]
    exact Verdict.deny_le _

namespace AdminWeb

open Admin Fallible Files Interaction Replacement

/-- One project does not run more than another one, and runs it with the same things. -/
structure Narrows (p p' : Project) : Prop where
  bwsProjectID : p'.bwsProjectID = p.bwsProjectID
  tokenEntry : p'.tokenEntry = p.tokenEntry
  workingDir : p'.workingDir = p.workingDir
  decide : ∀ argv, p'.decide argv ≤ p.decide argv

theorem Narrows.refl (p : Project) : Narrows p p := ⟨rfl, rfl, rfl, fun _ => le_refl _⟩

/-- **A configuration that does not widen another one**, as the broker looks projects up. -/
structure NotWider (cfg cfg' : Config) : Prop where
  kept : ∀ name p, cfg.project name = some p → ∃ p', cfg'.project name = some p' ∧ Narrows p p'
  denied : ∀ name p', cfg.project name = none → cfg'.project name = some p' →
    ∀ argv, p'.decide argv = .deny

theorem NotWider.refl (cfg : Config) : NotWider cfg cfg where
  kept _ p hp := ⟨p, hp, .refl p⟩
  denied name p' hnone hp' := by
    rw [hnone] at hp'
    simp at hp'

/-- The lookup after a change of the projects of an alias. -/
theorem project_editing {cfg : Config} {name other : Bytes} {g : Project → Project}
    (hg : ∀ p, (g p).projectAlias = p.projectAlias) :
    (editing cfg name g).project other =
      (cfg.project other).map fun p => if p.projectAlias = name then g p else p := by
  have halias : ∀ p : Project,
      (if p.projectAlias = name then g p else p).projectAlias = p.projectAlias := by
    intro p
    split
    · exact hg p
    · rfl
  rw [Config.project, editing, List.find?_map, Config.project]
  congr 2
  funext p
  simp [halias]

theorem notWider_editing {cfg : Config} {name : Bytes} {g : Project → Project}
    (hg : ∀ p, (g p).projectAlias = p.projectAlias)
    (h : ∀ p, cfg.project name = some p → Narrows p (g p)) : NotWider cfg (editing cfg name g) where
  kept other p hp := by
    have halias := Config.project_alias hp
    refine ⟨if p.projectAlias = name then g p else p, by rw [project_editing hg, hp]; rfl, ?_⟩
    split
    · next heq => exact h p (by rw [← heq, halias]; exact hp)
    · exact .refl p
  denied other p' hnone hp' := by
    rw [project_editing hg, hnone] at hp'
    simp at hp'

section Changes

variable [Platform]

/-- A project that the editor creates denies everything until commands are listed. -/
theorem notWider_create {cfg : Config} (input : ProjectInput) :
    NotWider cfg ((Mutation.createProject input).meaning cfg) where
  kept name p hp := by
    refine ⟨p, ?_, .refl p⟩
    have hfound : cfg.projects.find? (fun q => q.projectAlias == name) = some p := hp
    simp [Mutation.meaning, Config.project, List.find?_append, hfound]
  denied name p' hnone hp' := by
    have hmissing : cfg.projects.find? (fun q => q.projectAlias == name) = none := hnone
    simp only [Mutation.meaning, Config.project, List.find?_append, hmissing, Option.none_or] at hp'
    obtain rfl : p' = input.project := by
      simpa using List.mem_of_find?_eq_some hp'
    intro argv
    rfl

/-! ## The flag of a reviewed change -/

section Flag

variable {cfg : Config} {form : Form} {change : PolicyChange} {p : Project}

/-- Metadata that the form shows unchanged. -/
theorem narrows_metadata (hc : reviewChange .metadata form (some (detailOf p)) = .ok change)
    (hw : change.widen = false) (current : ProjectDetail) :
    Narrows p ((metadataChange current change.input).apply p) := by
  simp only [reviewChange, reviewInput] at hc
  split_ifs at hc
  obtain rfl := Except.ok.inj hc
  simp only [detailOf, Bool.or_eq_false_iff, bne_eq_false_iff_eq] at hw
  obtain ⟨⟨hid, htoken⟩, hdir⟩ := hw
  -- a field is left out or named with the value it has
  have field : ∀ {x : Option Bytes} {old new : Bytes}, x = none ∨ x = some new → new = old →
      x.getD old = old := by
    rintro x old new (rfl | rfl) rfl <;> rfl
  obtain ⟨h₁, h₂, h₃⟩ := metadataChange_fields current (inputOf form)
  exact ⟨field h₁ hid, field h₂ htoken, field h₃ hdir,
    fun argv => le_of_eq (decide_congr rfl Iff.rfl)⟩

omit [Platform] in
/-- A mode is displayed as automatic where it is stored so. -/
theorem approval_of_displayed (hp : p.approval ∈ Config.approvalModes)
    (h : (displayApproval p.approval).1 = ModeAutomatic) : p.approval = Config.ApprovalNever := by
  have hmodes : p.approval = Config.ApprovalAlways ∨ p.approval = Config.ApprovalPrompt ∨
      p.approval = Config.ApprovalAllowlistedPrompt ∨ p.approval = Config.ApprovalNever := by
    simpa [Config.approvalModes] using hp
  rcases hmodes with hm | hm | hm | hm
  · rw [hm] at h
    exact absurd h (by decide +kernel)
  · rw [hm] at h
    exact absurd h (by decide +kernel)
  · rw [hm] at h
    exact absurd h (by decide +kernel)
  · exact hm

theorem narrows_mode (hp : p.approval ∈ Config.approvalModes)
    (hc : reviewChange .mode form (some (detailOf p)) = .ok change) (hw : change.widen = false) :
    Narrows p (withMode change.mode p) := by
  simp only [reviewChange, reviewMode] at hc
  split_ifs at hc with hfields hmode
  obtain rfl := Except.ok.inj hc
  dsimp only at hw ⊢
  have hcases : form.get (str "mode") = ModeConfirm ∨ form.get (str "mode") = ModeAutomatic := by
    by_contra hno
    rw [not_or] at hno
    exact hmode hno
  rcases hcases with hm | hm
  · have hstored : withMode (form.get (str "mode")) p =
        { p with approval := Config.ApprovalAllowlistedPrompt } := by
      have hne : ModeConfirm ≠ ModeAutomatic := by decide +kernel
      simp [withMode, storedApproval, hm, hne]
    rw [hstored]
    exact ⟨rfl, rfl, rfl, Project.decide_confirm_le p⟩
  · -- the flag is clear only where the project shows as automatic already
    have hshown : (displayApproval p.approval).1 = ModeAutomatic := by
      simpa [hm, detailOf] using hw
    have hnever := approval_of_displayed hp hshown
    have hsame : withMode (form.get (str "mode")) p = p := by
      simp only [withMode, storedApproval, hm, if_true]
      rw [← hnever]
    rw [hsame]
    exact .refl p

omit [Platform] in
theorem narrows_remove (argv : List Bytes) (p : Project) : Narrows p (withoutCommand argv p) := by
  unfold withoutCommand
  split
  · refine ⟨rfl, rfl, rfl, Project.decide_le_of_subset rfl ?_⟩
    intro v hv
    simp only [Project.allowArgv, Slice.elems_ofAppend, List.mem_map, List.mem_filter] at hv ⊢
    obtain ⟨entry, ⟨hentry, -⟩, rfl⟩ := hv
    exact ⟨entry, hentry, rfl⟩
  · exact .refl p

/-- **A change whose flag is clear does not widen the policy that it was reviewed on.** -/
theorem notWider_of_reviewed {kind : Kind} (ha : cfg.Accepted)
    (hp : cfg.project change.projectAlias = some p)
    (hc : reviewChange kind form (some (detailOf p)) = .ok change) (hk : kind ≠ .create)
    (hw : change.widen = false) (current : ProjectDetail) :
    NotWider cfg ((change.mutation current).meaning cfg) := by
  have hmode : p.approval ∈ Config.approvalModes :=
    (ha.project p (Config.project_mem hp)).approval_mem
  have found : ∀ {g : Project → Project}, Narrows p (g p) →
      ∀ q, cfg.project change.projectAlias = some q → Narrows q (g q) := by
    intro g hg q hq
    obtain rfl : p = q := Option.some.inj (hp.symm.trans hq)
    exact hg
  have hkind := (reviewChange_fields hc).1
  cases kind with
  | create => exact absurd rfl hk
  | metadata =>
    rw [PolicyChange.mutation, hkind]
    exact notWider_editing (fun _ => rfl) (found (narrows_metadata hc hw current))
  | mode =>
    rw [PolicyChange.mutation, hkind]
    refine notWider_editing (fun q => ?_) (found (narrows_mode hmode hc hw))
    unfold withMode
    split <;> rfl
  | add =>
    -- the flag is set for every added command
    simp only [reviewChange, reviewAdd] at hc
    split_ifs at hc
    obtain rfl := Except.ok.inj hc
    simp at hw
  | remove =>
    rw [PolicyChange.mutation, hkind]
    refine notWider_editing (fun q => ?_) (found (narrows_remove change.argv p))
    unfold withoutCommand
    split <;> rfl

end Flag

/-! ## Two requests -/

/-- A read of the policy returns what these bytes hold. -/
def ReadsPolicy (data : Bytes) (cfg : Config) : Event AdminWeb.Call.Answer → Prop
  | ⟨.policy .revision, r⟩ => r = .ok (hexDigest data)
  | ⟨.policy .listProjects, r⟩ => r = .ok (cfg.projects.map summaryOf)
  | ⟨.policy (.getProject name), r⟩ => r = getProject cfg name
  | _ => True

/-- The project behind what `GetProject` shows. -/
theorem getProject_ok {cfg : Config} {name : Bytes} {detail : ProjectDetail}
    (h : getProject cfg name = .ok detail) :
    ∃ p, cfg.project name = some p ∧ detail = detailOf p := by
  obtain ⟨i, hi, h⟩ := bind_eq_ok.1 h
  obtain ⟨before, p, after, hps, hlen, hname, hbefore⟩ := findProject_ok hi
  have hget : cfg.projects[i]? = some p := by
    rw [hps, ← hlen, List.getElem?_append_right (le_refl _)]
    simp
  rw [hget] at h
  have hcfg : cfg = { cfg with projects := before ++ p :: after } := by rw [← hps]
  refine ⟨p, ?_, (Except.ok.inj h).symm⟩
  rw [hcfg]
  exact project_split hname hbefore

/-- **No silent widening.** A form is reviewed on a policy and the change is committed by a second
request whose form does not say `confirm=yes`. If the editor finds that policy again, it leaves one
that lets nothing more through. What the second request itself reads does not matter. -/
theorem no_silent_widening {host : Bytes} {reviewing committing : AdminWeb.Request}
    {tr tr' : Trace AdminWeb.Call.Answer} {page page' : Response} {token token' : Bytes}
    {change : PolicyChange} {entry : FormToken} {form : Form} {revision : Bytes} {m : Mutation}
    {result : Bool × Option Bytes} {reader : Editor} {o : ℕ} {f : Inode} {cfg : Config}
    {d d' : Disk} {trd : Trace Admin.Call.Answer}
    (hfile : Ready d.policy reader.name o f) (hparse : Config.parse f.bytes = .ok cfg)
    (hreview : Runs (serve host reviewing) tr page) (hreads : ∀ ev ∈ tr, ReadsPolicy f.bytes cfg ev)
    (hattach : ⟨.attach token change, ()⟩ ∈ tr)
    (hcommit : Runs (serve host committing) tr' page')
    (hnext : ⟨.next token' .commit entry, ()⟩ ∈ tr') (hchange : entry.change = some change)
    (hmutate : ⟨.policy (.mutate revision m), result⟩ ∈ tr')
    (hform : Posts host committing .commit form) (hconfirm : form.get (str "confirm") ≠ str "yes")
    (hexec : Exec Disk.act d (answer reader (.mutate revision m)) trd d' result) :
    ∃ cfg', Config.parse (contents d'.policy reader.name) = .ok cfg' ∧ NotWider cfg cfg' := by
  have ha := Config.accepted_of_parse hparse
  -- what the commit makes of the change that it was handed
  obtain ⟨before, after, rfl⟩ := List.append_of_mem hmutate
  obtain ⟨token₁, entry₁, form₁, hnext₁, hposts₁, change₁, current, hchange₁, -, hconf, hm, -⟩ :=
    hcommit.allowed (serve_conforms host committing) rfl
  rw [List.nil_append] at hnext₁
  have hsame := next_unique hcommit hnext (List.mem_append_left _ hnext₁) trivial trivial
  simp only [Sigma.mk.injEq, AdminWeb.Call.next.injEq] at hsame
  obtain ⟨⟨-, -, rfl⟩, -⟩ := hsame
  obtain rfl : change₁ = change := Option.some.inj (hchange₁.symm.trans hchange)
  obtain rfl := hform.unique hposts₁
  have hwiden : change₁.widen = false := by
    simp only [confirmed, Bool.and_eq_true, Bool.not_eq_true', Bool.and_eq_false_iff] at hconf
    rcases hconf.2 with hw | hyes
    · exact hw
    · exact absurd (by simpa using hyes) hconfirm
  -- what the review saw when it made the change
  have hwide : NotWider cfg (m.meaning cfg) := by
    obtain ⟨x, y, rfl⟩ := List.append_of_mem hattach
    obtain ⟨kind, first, start, form', -, -, -, hreviewed⟩ :=
      hreview.allowed (serve_conforms host reviewing) rfl
    rw [hm]
    rcases hreviewed with ⟨rfl, begun, name, hc, rfl⟩ | ⟨hk, detail, hread, hc⟩
    · have hkind := (reviewChange_fields hc).1
      rw [PolicyChange.mutation, hkind]
      exact notWider_create _
    · have hshown := hreads _ (List.mem_append_left _ (by simpa using hread))
      obtain ⟨p, hp, rfl⟩ := getProject_ok (Eq.symm hshown)
      rw [← (reviewChange_fields hc).2.1] at hp
      exact notWider_of_reviewed ha hp hc hk hwiden current
  -- the editor leaves the policy as it was, or with the meaning of the mutation
  obtain ⟨err, hout, -⟩ := reported_audited rfl hfile
    (mutate_conforms { reader with expectedRevision := revision } m) hexec
  generalize result.1 = changed at hout
  cases hout with
  | untouched hfile' hfault =>
    have hkept : contents d'.policy reader.name = f.bytes := by simp [contents, hfile']
    exact ⟨cfg, by rw [hkept, hparse], .refl cfg⟩
  | replaced hp hfault =>
    obtain ⟨cfg₁, hcfg, hedit⟩ := hp
    obtain rfl : cfg = cfg₁ := Except.ok.inj (hparse.symm.trans (interpret_ok hcfg).1)
    obtain ⟨-, ⟨hnone, -⟩ | ⟨updated, hsome, hupdated⟩⟩ := Mutation.edit_meaning ha hedit
    · simp at hnone
    · obtain rfl := Option.some.inj hsome
      exact ⟨m.meaning cfg, hupdated, hwide⟩

end Changes

/-! The project `app` of the demo policy is put into the mode for confirmed commands. -/

def demoReviewed : PolicyChange :=
  ⟨.mode, str "app", [], emptyInput, ModeConfirm, [], false⟩

/-- The policy is read as it is, and every token is accepted, for this change if it is a commit. -/
def demoServed (cfg : Config) : (c : AdminWeb.Call) → c.Answer
  | .take _ action => some ⟨some action, str "admin", hexDigest demoPolicy, str "app", 0,
      if action = .commit then some demoReviewed else none⟩
  | .issue _ _ _ => .ok (str "token")
  | .attach _ _ | .next _ _ _ => ()
  | .policy .revision => .ok (hexDigest demoPolicy)
  | .policy .listProjects => .ok (cfg.projects.map summaryOf)
  | .policy (.getProject name) => @getProject demoPlatform cfg name
  | .policy (.mutate _ _) => (true, none)
  | .availableName _ => []
  | .hasAvailable | .listAvailable | .check _ _ => false

theorem readsPolicy_demoServed (cfg : Config) (c : AdminWeb.Call) :
    @ReadsPolicy demoPlatform demoPolicy cfg ⟨c, demoServed cfg c⟩ := by
  cases c with
  | policy c => cases c <;> first | rfl | trivial
  | _ => trivial

/-- The reviewed change is attached to its token. -/
def attachesReviewed : Event AdminWeb.Call.Answer → Bool
  | ⟨.attach _ change, _⟩ => change = demoReviewed
  | _ => false

def commitsReviewed : Event AdminWeb.Call.Answer → Bool
  | ⟨.next _ .commit entry, _⟩ => entry.change = some demoReviewed
  | _ => false

def setsConfirm : Event AdminWeb.Call.Answer → Bool
  | ⟨.policy (.mutate revision (.setApproval name mode)), result⟩ =>
    revision = hexDigest demoPolicy ∧ name = str "app" ∧ mode = ModeConfirm ∧ result = (true, none)
  | _ => false

theorem attachesReviewed_iff {ev : Event AdminWeb.Call.Answer} :
    attachesReviewed ev = true ↔ ∃ token, ev = ⟨.attach token demoReviewed, ()⟩ := by
  obtain ⟨c, r⟩ := ev
  cases c <;> simp [attachesReviewed]

theorem commitsReviewed_iff {ev : Event AdminWeb.Call.Answer} :
    commitsReviewed ev = true ↔
      ∃ token entry, ev = ⟨.next token .commit entry, ()⟩ ∧ entry.change = some demoReviewed := by
  obtain ⟨c, r⟩ := ev
  cases c with
  | next token action entry => cases action <;> simp [commitsReviewed]
  | _ => simp [commitsReviewed]

theorem eq_of_setsConfirm {ev : Event AdminWeb.Call.Answer} (h : setsConfirm ev = true) :
    ev = ⟨.policy (.mutate (hexDigest demoPolicy) (.setApproval (str "app") ModeConfirm)),
      (true, none)⟩ := by
  unfold setsConfirm at h
  split at h
  · simp only [decide_eq_true_eq] at h
    obtain ⟨rfl, rfl, rfl, rfl⟩ := h
    rfl
  · simp at h

def demoPolicyConfig : Config :=
  demoConfig [demoProject (str "app") Config.ApprovalNever,
    demoProject (str "db") Config.ApprovalNever]

/-- The requests of the demo site against the policy. -/
def demoServedRun (i : Fin 3) : Trace AdminWeb.Call.Answer × Response :=
  (@serve demoPlatform (str "host") (demoRequests i)).play (demoServed demoPolicyConfig)

/-- The change is committed without a confirmation. -/
theorem no_silent_widening_confirm :
    ∃ (d' : Disk) (cfg' : Config), contents d'.policy (str "policy.toml") = demoConfirmed ∧
      @Config.parse demoPlatform (contents d'.policy (str "policy.toml")) = .ok cfg' ∧
      NotWider demoPolicyConfig cfg' := by
  let := demoPlatform
  have hreviewed : (demoServedRun 1).1.any attachesReviewed = true := by decide +kernel
  have hcommitted : (demoServedRun 2).1.any commitsReviewed = true := by decide +kernel
  have hset : (demoServedRun 2).1.any setsConfirm = true := by decide +kernel
  have hrun : (execWith Disk.act (demoChoices 0) demoDisk (answer demoEditor
      (.mutate (hexDigest demoPolicy) (.setApproval (str "app") ModeConfirm)))).any
      (fun x => demoLeaves true demoConfirmed MutationChanged x && x.2.2.2.isNone) = true := by
    decide +kernel
  obtain ⟨ev, hattach, hev⟩ := List.any_eq_true.1 hreviewed
  obtain ⟨token, rfl⟩ := attachesReviewed_iff.1 hev
  obtain ⟨ev, hnext, hev⟩ := List.any_eq_true.1 hcommitted
  obtain ⟨token', entry, rfl, hchange⟩ := commitsReviewed_iff.1 hev
  obtain ⟨ev, hmutate, hev⟩ := List.any_eq_true.1 hset
  obtain rfl := eq_of_setsConfirm hev
  obtain ⟨trd, d', ⟨changed, err⟩, hexec, hleft⟩ := exists_exec_of_any hrun
  simp only [demoLeaves, Bool.and_eq_true, decide_eq_true_eq, Option.isNone_iff_eq_none] at hleft
  obtain ⟨⟨⟨rfl, hpolicy⟩, -⟩, rfl⟩ := hleft
  have hready : Ready demoDisk.policy demoEditor.name 0 demoFile := ready_demoVolume
  have hreads : ∀ ev ∈ (demoServedRun 1).1, ReadsPolicy demoFile.bytes demoPolicyConfig ev := by
    intro ev hev
    have := readsPolicy_demoServed demoPolicyConfig ev.1
    rwa [← mem_play hev] at this
  have hform : ∃ form, checkPost (str "host")
      (demoPost (demoForm 15 "confirm" "no" (by decide +kernel))) = .ok form ∧
      form.get (str "confirm") ≠ str "yes" := by
    refine ⟨demoForm 15 "confirm" "no" (by decide +kernel), rfl, by decide +kernel⟩
  obtain ⟨form, hpost, hconfirm⟩ := hform
  have hparse : Config.parse demoFile.bytes = .ok demoPolicyConfig := by decide +kernel
  obtain ⟨cfg', hparse', hwide⟩ := no_silent_widening hready hparse
    (runs_play (demoServed demoPolicyConfig) (serve (str "host") (demoRequests 1))) hreads hattach
    (runs_play (demoServed demoPolicyConfig) (serve (str "host") (demoRequests 2))) hnext hchange
    hmutate ⟨_, rfl, hpost⟩ hconfirm hexec
  exact ⟨d', cfg', hpolicy, hparse', hwide⟩

end AdminWeb

end SecretsBroker
