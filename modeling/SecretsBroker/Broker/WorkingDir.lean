import SecretsBroker.Broker.Host
import SecretsBroker.Foundations.Symlinks

/-!
# Where the command starts

A history is a run of the broker over its runner with the state of the file system at each of its
calls, so links may change between any two of them. `startsInConfigured_iff`: the command starts in
the directory of the project exactly when the requested path still leads, at the moment of the exec,
to where it led when it was checked. Nothing in `Run` enforces that: the string that was checked is
handed on, not the directory it was resolved to (`repointed_during_approval`).
-/

namespace SecretsBroker.Host

open Interaction

/-- A run with the state of the file system at each call. -/
abbrev History := List (Event Call.Answer × FileSystem)

namespace History

def calls (h : History) : Calls := h.map Prod.fst

/-- The file system answers for itself: a path is resolved as it stands at that moment, and a
process that was started has entered its directory. -/
structure Consistent (cwd : List Bytes) (h : History) : Prop where
  evalSymlinks : ∀ path res fs, (⟨.adapter (.evalSymlinks path), res⟩, fs) ∈ h →
    res = fs.evalSymlinks cwd path
  exec : ∀ cmd child fs, (⟨.exec cmd, child⟩, fs) ∈ h → child.started = true →
    ∃ place, fs.resolve cwd cmd.dir = .ok place

/-- The directory `dir` leads to one place throughout. -/
def Fixed (cwd : List Bytes) (h : History) (dir : Bytes) (place : Except Bytes (List Bytes)) :
    Prop :=
  ∀ e ∈ h, e.2.resolve cwd dir = place

/-- Every command starts in `place`. -/
def StartsIn (cwd : List Bytes) (h : History) (place : Except Bytes (List Bytes)) : Prop :=
  ∀ cmd child fs, (⟨.exec cmd, child⟩, fs) ∈ h → child.started = true →
    fs.resolve cwd cmd.dir = place

/-- When a command starts, `dir` leads to where it led when it was resolved for the check. -/
def KeptSinceCheck (cwd : List Bytes) (h : History) (dir : Bytes) : Prop :=
  ∀ cmd child fs, (⟨.exec cmd, child⟩, fs) ∈ h → child.started = true →
    ∀ res fs', (⟨.adapter (.evalSymlinks dir), res⟩, fs') ∈ h →
      fs.resolve cwd dir = fs'.resolve cwd dir

theorem mem_calls {h : History} {e : Event Call.Answer} : e ∈ h.calls ↔ ∃ fs, (e, fs) ∈ h := by
  simp [calls]

end History

/-- A run that hands a command to the operating system: what the broker did before, the command, and
the audit record. -/
theorem run_exec [Unicode] {r : BWSRunner} {b : Broker} {req : RunRequest} {tr : Calls}
    {out : RunOutcome} (h : Runs (run r b req) tr out) {cmd : Cmd} {child : Child}
    (hmem : ⟨.exec cmd, child⟩ ∈ tr) :
    ∃ runID before spec res, Broker.Passed Broker.Cleared b req runID before spec ∧
      cmd = r.cmd spec ∧
      tr = lift before ++ [⟨.exec cmd, child⟩] ++
        [⟨.adapter (.finish runID (Broker.finishRecord out)), res⟩] := by
  rcases run_cases h with
    ⟨tr₀, rfl, -, -⟩ | ⟨runID, before, spec, result, piece, res, hp, -, rfl, hpiece, -⟩
  · exact absurd hmem not_exec_mem_lift
  · rcases hpiece with ⟨err, -, rfl, -⟩ | ⟨-, child', rfl, -⟩
    · simp [not_exec_mem_lift] at hmem
    · have : cmd = r.cmd spec ∧ child = child' := by
        simpa [not_exec_mem_lift] using hmem
      obtain ⟨rfl, rfl⟩ := this
      exact ⟨runID, before, spec, res, hp, rfl, rfl⟩

/-- The resolutions of a run that started a command for a project bound to a directory: the two of
the directory check. -/
theorem run_exec_checked [Unicode] {r : BWSRunner} {b : Broker} {req : RunRequest} {tr : Calls}
    {out : RunOutcome} {project : Project} (hproj : b.cfg.project req.project = some project)
    (hwd : project.workingDir ≠ []) (h : Runs (run r b req) tr out) {cmd : Cmd} {child : Child}
    (hmem : ⟨.exec cmd, child⟩ ∈ tr) :
    cmd.dir = req.workingDir ∧ ∃ allowedPath requestedPath,
      Path.clean allowedPath = Path.clean requestedPath ∧
      ⟨.adapter (.evalSymlinks project.workingDir), .ok allowedPath⟩ ∈ tr ∧
      ⟨.adapter (.evalSymlinks req.workingDir), .ok requestedPath⟩ ∈ tr ∧
      ∀ path res, ⟨.adapter (.evalSymlinks path), res⟩ ∈ tr →
        path = project.workingDir ∨ (path = req.workingDir ∧ res = .ok requestedPath) := by
  obtain ⟨runID, before, spec, res, hp, rfl, rfl⟩ := run_exec h hmem
  obtain ⟨project', tok, dirCalls, approvalCalls, rfl, hproj', hdir, hcleared, rfl⟩ := hp
  obtain rfl : project' = project := Option.some.inj (hproj'.symm.trans hproj)
  rcases hdir with ⟨hempty, -⟩ | ⟨-, hrun⟩
  · exact absurd hempty hwd
  obtain ⟨allowedPath, requestedPath, rfl, hclean⟩ := Broker.runs_sameWorkingDir_true hrun
  refine ⟨rfl, allowedPath, requestedPath, hclean, by simp [lift], by simp [lift], ?_⟩
  intro path res' hres
  have happr : ⟨.evalSymlinks path, res'⟩ ∉ approvalCalls := by
    rcases hcleared with ⟨rfl, -⟩ | ⟨rfl, -⟩ <;> simp
  simp only [List.append_assoc, List.mem_append, adapter_mem_lift, List.mem_cons, happr,
    List.cons_append, List.nil_append, List.not_mem_nil, Sigma.mk.injEq, reduceCtorEq, false_and,
    false_or, or_false, Broker.Call.evalSymlinks.injEq, Call.adapter.injEq] at hres
  rcases hres with ⟨rfl, -⟩ | ⟨rfl, hres⟩
  · exact Or.inl rfl
  · exact Or.inr ⟨rfl, eq_of_heq hres⟩

/-- **The command starts in the project's directory exactly when the requested path was kept.** For
every project bound to a directory, every request and every history of the file system during the
run in which the project's own directory leads to one place: the command starts in that place if
and only if the requested path leads, when the command starts, to where it led when it was
checked. -/
theorem startsInConfigured_iff [Unicode] {r : BWSRunner} {b : Broker} {req : RunRequest}
    {project : Project} (hproj : b.cfg.project req.project = some project)
    (hwd : project.workingDir ≠ []) {cwd : List Bytes} {hist : History} {out : RunOutcome}
    (hrun : Runs (run r b req) hist.calls out) (hcons : hist.Consistent cwd)
    {place : Except Bytes (List Bytes)} (hfix : hist.Fixed cwd project.workingDir place) :
    hist.StartsIn cwd place ↔ hist.KeptSinceCheck cwd req.workingDir := by
  -- where the requested path led at the check is the place of the project
  have hcheck : ∀ cmd child fs, (⟨.exec cmd, child⟩, fs) ∈ hist → cmd.dir = req.workingDir ∧
      (∀ res fs', (⟨.adapter (.evalSymlinks req.workingDir), res⟩, fs') ∈ hist →
        fs'.resolve cwd req.workingDir = place) ∧
      ∃ res fs', (⟨.adapter (.evalSymlinks req.workingDir), res⟩, fs') ∈ hist := by
    intro cmd child fs hmem
    obtain ⟨hdir, allowedPath, requestedPath, hclean, hallowed, hrequested, honly⟩ :=
      run_exec_checked hproj hwd hrun (History.mem_calls.2 ⟨fs, hmem⟩)
    obtain ⟨fs₁, h₁⟩ := History.mem_calls.1 hallowed
    obtain ⟨fs₂, h₂⟩ := History.mem_calls.1 hrequested
    refine ⟨hdir, fun res fs' hres => ?_, _, fs₂, h₂⟩
    rcases honly _ _ (History.mem_calls.2 ⟨fs', hres⟩) with heq | ⟨-, rfl⟩
    · rw [heq]
      exact hfix _ hres
    · have he₁ := hcons.evalSymlinks _ _ _ h₁
      have he := hcons.evalSymlinks _ _ _ hres
      rw [← FileSystem.resolve_eq_of_clean_eq he₁.symm he.symm hclean]
      exact hfix _ h₁
  constructor
  · intro hstarts cmd child fs hmem hst res fs' hres
    obtain ⟨hdir, hplace, -⟩ := hcheck cmd child fs hmem
    rw [hplace res fs' hres, ← hdir]
    exact hstarts cmd child fs hmem hst
  · intro hkept cmd child fs hmem hst
    obtain ⟨hdir, hplace, res, fs', hres⟩ := hcheck cmd child fs hmem
    rw [hdir, hkept cmd child fs hmem hst res fs' hres]
    exact hplace res fs' hres

section Witness

/-- A project bound to a directory, whose commands all need an approval. -/
def boundProject : Project where
  projectAlias := str "app"
  bwsProjectID := str "proj"
  tokenEntry := str "entry"
  workingDir := str "/srv/app"
  approval := Config.ApprovalAlways
  allow := none

def boundBroker : Broker where
  cfg := { Broker.exampleConfig with projects := [boundProject] }
  causeProvider := false

/-- A request from a directory that is a link of the caller. -/
def linkRequest : RunRequest := { Broker.exampleRequest with workingDir := str "/home/u/link" }

/-- A file system where the link of the caller has a target. -/
def linkedTo (target : Bytes) : FileSystem where
  node place :=
    if place = [str "home", str "u", str "link"] then some (.link target)
    else if place ∈ [[], [str "srv"], [str "srv", str "app"], [str "home"], [str "home", str "u"],
      [str "tmp"]] then some .dir
    else none

/-- Every adapter succeeds, and paths are resolved while the link leads to the project. -/
def approvingAnswers : (c : Call) → c.Answer
  | .adapter (.start _) => .ok (str "r1")
  | .adapter (.evalSymlinks path) => (linkedTo (str "/srv/app")).evalSymlinks [] path
  | .adapter (.approve _) => (Decision.approved, none)
  | .adapter .approveCause => []
  | .adapter (.resolve _) => .ok ⟨str "s3cr3t"⟩
  | .adapter (.run _) => .error []
  | .adapter (.finish _ _) => none
  | .exec _ => .ended (.code 0) none none

def linkRun : Calls × RunOutcome :=
  (@run Broker.examplePlatform.toUnicode exampleRunner boundBroker linkRequest).play
    approvingAnswers

/-- The link leads to the project until the approval (the fourth call), and to `target` after it. -/
def linkHistory (target : Bytes) : History :=
  linkRun.1.mapIdx fun i e => (e, linkedTo (if i < 4 then str "/srv/app" else target))

theorem linkHistory_runs (target : Bytes) :
    Runs (@run Broker.examplePlatform.toUnicode exampleRunner boundBroker linkRequest)
      (linkHistory target).calls linkRun.2 := by
  have hcalls : (linkHistory target).calls = linkRun.1 := by
    apply List.ext_getElem?
    intro i
    cases h : linkRun.1[i]? <;> simp [History.calls, linkHistory, h]
  rw [hcalls]
  exact runs_play approvingAnswers _

/-- What the file system has to answer for itself at one call of the history, and that the project's
directory stays where it is. -/
def answersItself (e : Event Call.Answer × FileSystem) : Bool :=
  e.2.resolve [] (str "/srv/app") == .ok [str "srv", str "app"] &&
    match e with
    | (⟨.adapter (.evalSymlinks path), res⟩, fs) => res == fs.evalSymlinks [] path
    | (⟨.exec cmd, _⟩, fs) => (fs.resolve [] cmd.dir).isOk
    | _ => true

theorem consistent_of_answersItself {h : History} (hall : ∀ e ∈ h, answersItself e = true) :
    h.Consistent [] ∧ h.Fixed [] (str "/srv/app") (.ok [str "srv", str "app"]) := by
  refine ⟨⟨fun path res fs hmem => ?_, fun cmd child fs hmem _ => ?_⟩, fun e hmem => ?_⟩
  · have := hall _ hmem
    simp only [answersItself, Bool.and_eq_true, beq_iff_eq] at this
    exact this.2
  · have := hall _ hmem
    simp only [answersItself, Bool.and_eq_true] at this
    cases hr : fs.resolve [] cmd.dir with
    | ok place => exact ⟨place, rfl⟩
    | error err => simp [hr, Except.isOk, Except.toBool] at this
  · have := hall _ hmem
    simp only [answersItself, Bool.and_eq_true, beq_iff_eq] at this
    exact this.1

/-- A link that is left alone: the command starts in the directory of the project. -/
theorem startsInConfigured_link :
    (linkHistory (str "/srv/app")).StartsIn [] (.ok [str "srv", str "app"]) := by
  have hall : ∀ e ∈ linkHistory (str "/srv/app"), answersItself e = true := by decide +kernel
  obtain ⟨hcons, hfix⟩ := consistent_of_answersItself hall
  refine (@startsInConfigured_iff Broker.examplePlatform.toUnicode exampleRunner boundBroker
    linkRequest boundProject (by decide) (by decide) [] _ _ (linkHistory_runs _) hcons _ hfix).2 ?_
  have hsame : ∀ e ∈ linkHistory (str "/srv/app"), e.2 = linkedTo (str "/srv/app") := by
    intro e he
    obtain ⟨i, hi, rfl⟩ := List.mem_mapIdx.1 he
    simp
  intro cmd child fs hmem _ res fs' hmem'
  have hfs : fs = linkedTo (str "/srv/app") := hsame _ hmem
  have hfs' : fs' = linkedTo (str "/srv/app") := hsame _ hmem'
  rw [hfs, hfs']

/-- The caller points the link elsewhere while the approver decides: the directory check has passed,
the approval was given for the link, and the command starts in another directory. -/
theorem repointed_during_approval :
    ∃ hist : History,
      (∃ out, Runs (@run Broker.examplePlatform.toUnicode exampleRunner boundBroker linkRequest)
        hist.calls out) ∧
      hist.Consistent [] ∧ hist.Fixed [] boundProject.workingDir (.ok [str "srv", str "app"]) ∧
      ∃ cmd child fs, (⟨.exec cmd, child⟩, fs) ∈ hist ∧ child.started = true ∧
        fs.resolve [] cmd.dir = .ok [str "tmp"] := by
  have hall : ∀ e ∈ linkHistory (str "/tmp"), answersItself e = true := by decide +kernel
  obtain ⟨hcons, hfix⟩ := consistent_of_answersItself hall
  refine ⟨linkHistory (str "/tmp"), ⟨_, linkHistory_runs _⟩, hcons, hfix,
    exampleRunner.cmd (Broker.runSpec boundProject linkRequest ⟨str "s3cr3t"⟩),
    .ended (.code 0) none none, linkedTo (str "/tmp"), ?_, rfl, by decide +kernel⟩
  exact List.mem_of_getElem? (i := 5) rfl

end Witness

end SecretsBroker.Host
