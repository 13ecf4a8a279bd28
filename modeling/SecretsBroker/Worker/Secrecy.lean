import SecretsBroker.Foundations.TwoRuns
import SecretsBroker.Worker.Accounting

/-!
# The token reaches nothing but the command's environment

A run of a session in which the resolver answered one token is compared with the run in which it
answers another one (`retoken`), through the layers of the session: the broker, its runner, and the
encoder beside them. The two make the same calls in the same order; only the entry
`BWS_ACCESS_TOKEN` in the environment of the command differs (`token_noninterference`). So the
frames that the caller receives, the audit records, the prompt that is approved and the command line
do not depend on the token.
-/

namespace SecretsBroker

open Interaction

/-! ## One token in the place of another -/

/-- Another token; the empty one stays, since the runner refuses it. -/
def Token.swap (t : Bytes) (tok : Token) : Token := if tok.value = [] then tok else ⟨t⟩

def RunSpec.swapToken (t : Bytes) (spec : RunSpec) : RunSpec :=
  { spec with token := spec.token.swap t }

/-- The name under which `bws` looks for its token. -/
def tokenVariable : Bytes := str "BWS_ACCESS_TOKEN="

/-- Another token in an environment. -/
def swapVariable (t : Bytes) (env : List Bytes) : List Bytes :=
  env.map fun entry => if tokenVariable.isPrefixOf entry then tokenVariable ++ t else entry

def Cmd.swapToken (t : Bytes) (cmd : Cmd) : Cmd := { cmd with env := cmd.env.map (swapVariable t) }

theorem swapVariable_buildEnv (t tok commandPath home : Bytes) :
    swapVariable t (BWSRunner.buildEnv tok commandPath home) =
      BWSRunner.buildEnv t commandPath home := by
  have hpath : tokenVariable.isPrefixOf (str "PATH=" ++ commandPath) = false := rfl
  have hhome : tokenVariable.isPrefixOf (str "HOME=" ++ home) = false := rfl
  have hlang : tokenVariable.isPrefixOf (str "LANG=C.UTF-8") = false := rfl
  have htok : tokenVariable.isPrefixOf (str "BWS_ACCESS_TOKEN=" ++ tok) = true :=
    List.isPrefixOf_iff_prefix.2 (List.prefix_append _ _)
  simp only [swapVariable, BWSRunner.buildEnv, List.map_cons, List.map_nil, hpath, hhome, hlang,
    htok, Bool.false_eq_true, if_false, if_true]
  rfl

variable {t : Bytes}

/-- The runner checks nothing about a token but that there is one. -/
theorem check_swapToken (ht : t ≠ []) (r : BWSRunner) (spec : RunSpec) :
    r.check (spec.swapToken t) = r.check spec := by
  by_cases hnil : spec.token.value = []
  · rw [RunSpec.swapToken, Token.swap, if_pos hnil]
  · have htok : (spec.token.swap t).value ≠ [] := by
      rw [Token.swap, if_neg hnil]
      exact ht
    simp only [BWSRunner.check, RunSpec.swapToken, htok, hnil, if_false]
    rfl

/-- The command for another token. -/
theorem cmd_swapToken (r : BWSRunner) {spec : RunSpec} (h : spec.token.value ≠ []) :
    r.cmd (spec.swapToken t) = (r.cmd spec).swapToken t := by
  have htok : spec.token.swap t = ⟨t⟩ := if_neg h
  simp [BWSRunner.cmd, RunSpec.swapToken, Cmd.swapToken, htok, swapVariable_buildEnv,
    BWSRunner.args]

theorem token_ne_of_check {r : BWSRunner} {spec : RunSpec} (h : r.check spec = .ok ()) :
    spec.token.value ≠ [] := by
  intro hnil
  unfold BWSRunner.check at h
  by_cases h₁ : spec.argv = []
  · rw [if_pos h₁] at h
    cases h
  rw [if_neg h₁] at h
  by_cases h₂ : spec.projectID = []
  · rw [if_pos h₂] at h
    cases h
  rw [if_neg h₂, if_pos hnil] at h
  cases h

/-! ## The broker -/

namespace Broker

/-- A call of the broker and its answer, with another token. -/
def retoken (t : Bytes) : Event Call.Answer → Event Call.Answer
  | ⟨.resolve entry, .ok tok⟩ => ⟨.resolve entry, .ok (tok.swap t)⟩
  | ⟨.run spec, res⟩ => ⟨.run (spec.swapToken t), res⟩
  | e => e

/-- The second call is the first with another token. -/
def Retokened (t : Bytes) (e e' : Event Call.Answer) : Prop := e' = retoken t e

/-- A call that neither gets nor uses the token. -/
def isTokenFree (c : Call) : Bool :=
  match c with
  | .resolve _ | .run _ => false
  | _ => true

theorem unmoved_retokened {c : Call} (h : isTokenFree c = true) : Unmoved (Retokened t) c := by
  intro res res'
  cases c with
  | resolve entry => cases h
  | run spec => cases h
  | _ => simp [Retokened, retoken]

theorem tracks_execute (runID : Bytes) (project : Project) (req : RunRequest) :
    Tracks (Retokened t) (execute runID project req) (execute runID project req) Eq := by
  have hdeny : ∀ reason, Tracks (Retokened t) (deny runID reason) (deny runID reason) Eq :=
    fun reason => Only.tracks
      (only_deny (fun _ _ => unmoved_retokened rfl) runID reason)
  refine tracks_ask_bind (fun res => ?_) fun res res' hres => ?_
  · cases res with
    | error err => exact ⟨.error err, rfl⟩
    | ok tok => exact ⟨.ok (tok.swap t), rfl⟩
  cases res with
  | error err =>
    obtain rfl : res' = .error err := by simpa [Retokened, retoken] using hres
    exact hdeny _
  | ok tok =>
    obtain rfl : res' = .ok (tok.swap t) := by simpa [Retokened, retoken] using hres
    refine tracks_ask_bind (fun result => ⟨result, rfl⟩) fun result result' hresult => ?_
    obtain rfl : result' = result := by
      simpa [Retokened, retoken, RunSpec.swapToken] using hresult
    cases result' with
    | error err => exact hdeny _
    | ok result =>
      exact tracks_unmoved (unmoved_retokened rfl) fun finishErr => tracks_pure rfl

/-- **The broker does the same for every token.** -/
theorem tracks_run [Unicode] (b : Broker) (req : RunRequest) :
    Tracks (Retokened t) (b.run req) (b.run req) Eq := by
  have hdeny : ∀ runID reason, Tracks (Retokened t) (deny runID reason) (deny runID reason) Eq :=
    fun runID reason => Only.tracks
      (only_deny (fun _ _ => unmoved_retokened rfl) runID reason)
  have hauthorise : ∀ runID project, Tracks (Retokened t) (b.authorise runID project req)
      (b.authorise runID project req) Eq := by
    intro runID project
    unfold authorise
    split
    · exact hdeny _ _
    · refine tracks_unmoved (unmoved_retokened rfl) fun decision => ?_
      dsimp only
      split
      · exact Only.tracks (only_rejected (fun _ _ => unmoved_retokened rfl)
          (unmoved_retokened rfl) b runID)
      · exact tracks_execute _ _ _
    · exact tracks_execute _ _ _
  refine tracks_unmoved (unmoved_retokened rfl) fun started => ?_
  cases started with
  | error err => exact tracks_pure rfl
  | ok runID =>
    dsimp only
    split
    · exact hdeny _ _
    · next project _ =>
      split
      · refine tracks_bind (Only.tracks (only_sameWorkingDir
          (fun _ => unmoved_retokened rfl) _ _)) fun ok ok' hok => ?_
        subst hok
        cases ok with
        | true => exact hauthorise runID project
        | false => exact hdeny _ _
      · exact hauthorise runID project

/-- The call of the counterpart, which does not depend on the answer. -/
def swapCall (t : Bytes) : Call → Call
  | .run spec => .run (spec.swapToken t)
  | c => c

theorem Retokened.call_eq {c c' : Call} {res : c.Answer} {res' : c'.Answer}
    (h : Retokened t ⟨c, res⟩ ⟨c', res'⟩) : c' = swapCall t c := by
  have hfst : c' = (retoken t ⟨c, res⟩).1 := congrArg Sigma.fst h
  rw [hfst]
  cases c with
  | resolve entry => cases res <;> rfl
  | _ => rfl

theorem exists_retokened (c : Call) (res : c.Answer) :
    ∃ res', Retokened t ⟨c, res⟩ ⟨swapCall t c, res'⟩ := by
  cases c with
  | resolve entry =>
    cases res with
    | error err => exact ⟨.error err, rfl⟩
    | ok tok => exact ⟨.ok (tok.swap t), rfl⟩
  | _ => exact ⟨res, rfl⟩

end Broker

/-! ## The runner -/

/-- The second command is the first with another token. -/
def Exec.Retokened (t : Bytes) (e e' : Event Exec.Call.Answer) : Prop :=
  ∃ cmd child, e = ⟨.run cmd, child⟩ ∧ e' = ⟨.run (cmd.swapToken t), child⟩

theorem BWSRunner.tracks_run (ht : t ≠ []) (r : BWSRunner) (spec : RunSpec) :
    Tracks (Exec.Retokened t) (r.run spec) (r.run (spec.swapToken t)) Eq := by
  unfold BWSRunner.run
  rw [check_swapToken ht]
  cases hc : r.check spec with
  | error err => exact tracks_pure rfl
  | ok u =>
    have hcmd := @cmd_swapToken t r spec (token_ne_of_check hc)
    -- both run the command, with equal answers
    have hpass : Tracks (Exec.Retokened t)
        (runPassthrough r.bwsBinary (args spec)
          (some (buildEnv spec.token.value r.commandPath r.home)) spec.workingDir spec.stdin
          spec.stdout spec.stderr)
        (runPassthrough r.bwsBinary (args (spec.swapToken t))
          (some (buildEnv (spec.swapToken t).token.value r.commandPath r.home))
          (spec.swapToken t).workingDir (spec.swapToken t).stdin (spec.swapToken t).stdout
          (spec.swapToken t).stderr) Eq := by
      refine tracks_ask_bind (fun child => ⟨child, r.cmd spec, child, rfl, ?_⟩)
        fun child child' hchild => ?_
      · rw [← hcmd]
        rfl
      · obtain ⟨cmd, child₀, h₁, h₂⟩ := hchild
        obtain rfl := eq_of_heq (Sigma.mk.inj h₁).2
        obtain rfl := eq_of_heq (Sigma.mk.inj h₂).2
        split <;> exact tracks_pure rfl
    refine tracks_bind hpass fun x x' hx => ?_
    subst hx
    obtain ⟨exitCode, err⟩ := x
    cases err with
    | none => exact tracks_pure rfl
    | some err => exact tracks_pure rfl

namespace Host

/-- A call of the broker over its runner, with another token. -/
def Retokened (t : Bytes) (e e' : Event Call.Answer) : Prop :=
  (∃ c res c' res', e = ⟨.adapter c, res⟩ ∧ e' = ⟨.adapter c', res'⟩ ∧
      Broker.Retokened t ⟨c, res⟩ ⟨c', res'⟩) ∨
    ∃ cmd child, e = ⟨.exec cmd, child⟩ ∧ e' = ⟨.exec (cmd.swapToken t), child⟩

theorem retokened_adapter {c c' : Broker.Call} {res : c.Answer} {res' : c'.Answer} :
    Retokened t ⟨.adapter c, res⟩ ⟨.adapter c', res'⟩ ↔
      Broker.Retokened t ⟨c, res⟩ ⟨c', res'⟩ := by
  constructor
  · rintro (⟨c₀, res₀, c₀', res₀', h₁, h₂, h⟩ | ⟨cmd, child, h₁, -⟩)
    · obtain ⟨hc, hres⟩ := Sigma.mk.inj h₁
      obtain rfl := Call.adapter.inj hc
      obtain rfl := eq_of_heq hres
      obtain ⟨hc', hres'⟩ := Sigma.mk.inj h₂
      obtain rfl := Call.adapter.inj hc'
      obtain rfl := eq_of_heq hres'
      exact h
    · cases h₁
  · exact fun h => Or.inl ⟨c, res, c', res', rfl, rfl, h⟩

theorem tracks_adapters (ht : t ≠ []) (r : BWSRunner) (c : Broker.Call) :
    Tracks (Retokened t) (adapters r c) (adapters r (Broker.swapCall t c)) fun res res' =>
      Broker.Retokened t ⟨c, res⟩ ⟨Broker.swapCall t c, res'⟩ := by
  have hask : ∀ c : Broker.Call, Tracks (Retokened t) (Prog.ask (Call.adapter c))
      (Prog.ask (Call.adapter (Broker.swapCall t c))) fun res res' =>
        Broker.Retokened t ⟨c, res⟩ ⟨Broker.swapCall t c, res'⟩ := by
    intro c
    refine tracks_mono (tracks_ask fun res => ?_) fun res res' h => retokened_adapter.1 h
    obtain ⟨res', h⟩ := @Broker.exists_retokened t c res
    exact ⟨res', retokened_adapter.2 h⟩
  cases c with
  | run spec =>
    have hlow : ∀ c c', (∀ res, ∃ res', Exec.Retokened t ⟨c, res⟩ ⟨c', res'⟩) →
        Tracks (Retokened t) (osRunner c) (osRunner c') fun res res' =>
          Exec.Retokened t ⟨c, res⟩ ⟨c', res'⟩ := by
      intro c c' htotal
      obtain ⟨cmd⟩ := c
      obtain ⟨cmd'⟩ := c'
      obtain ⟨res', cmd₀, child, h₁, h₂⟩ := htotal (.notStarted [])
      cases h₁
      obtain rfl := Exec.Call.run.inj (Sigma.mk.inj h₂).1
      refine ⟨fun child => ⟨child, Or.inr ⟨cmd, child, rfl, rfl⟩⟩, fun child child' h => ?_⟩
      rcases h with ⟨_, _, _, _, h₁, -⟩ | ⟨cmd₁, child₁, h₁, h₂⟩
      · cases h₁
      · cases h₁
        obtain rfl := eq_of_heq (Sigma.mk.inj h₂).2
        exact ⟨cmd, child', rfl, rfl⟩
    refine tracks_mono (tracks_interp hlow (BWSRunner.tracks_run ht r spec)) fun res res' h => ?_
    subst h
    rfl
  | start rec => exact hask (.start rec)
  | evalSymlinks path => exact hask (.evalSymlinks path)
  | approve prompt => exact hask (.approve prompt)
  | approveCause => exact hask .approveCause
  | resolve entry => exact hask (.resolve entry)
  | finish runID rec => exact hask (.finish runID rec)

theorem tracks_run [Unicode] (ht : t ≠ []) (r : BWSRunner) (b : Broker) (req : RunRequest) :
    Tracks (Retokened t) (run r b req) (run r b req) Eq := by
  refine tracks_interp (fun c c' htotal => ?_) (Broker.tracks_run (t := t) b req)
  have hc : c' = Broker.swapCall t c := by
    obtain ⟨res', h⟩ := htotal (Worker.Session.someAnswer (.adapter c))
    exact h.call_eq
  subst hc
  exact tracks_adapters ht r c

end Host

/-! ## Sessions -/

namespace Worker.Session

/-- A call of a session and its answer, with another token: the answer of the resolver, and the
environment of the command. -/
def retoken (t : Bytes) : Event Call.Answer → Event Call.Answer
  | ⟨.adapter c, res⟩ =>
    ⟨.adapter (Broker.retoken t ⟨c, res⟩).1, (Broker.retoken t ⟨c, res⟩).2⟩
  | ⟨.exec cmd, spawned⟩ => ⟨.exec (cmd.swapToken t), spawned⟩
  | e => e

/-- The second call is the first with another token. -/
def Retokened (t : Bytes) (e e' : Event Call.Answer) : Prop := e' = retoken t e

theorem retokened_adapter {c c' : Broker.Call} {res : c.Answer} {res' : c'.Answer} :
    Retokened t ⟨.adapter c, res⟩ ⟨.adapter c', res'⟩ ↔
      Broker.Retokened t ⟨c, res⟩ ⟨c', res'⟩ := by
  change (⟨.adapter c', res'⟩ : Event Call.Answer) =
    ⟨.adapter (Broker.retoken t ⟨c, res⟩).1, (Broker.retoken t ⟨c, res⟩).2⟩ ↔
      ⟨c', res'⟩ = Broker.retoken t ⟨c, res⟩
  generalize Broker.retoken t ⟨c, res⟩ = e
  obtain ⟨c₀, res₀⟩ := e
  constructor
  · intro h
    obtain ⟨hc, hres⟩ := Sigma.mk.inj h
    obtain rfl := Call.adapter.inj hc
    obtain rfl := eq_of_heq hres
    rfl
  · intro h
    cases h
    rfl

/-- A call that neither gets nor uses the token. -/
def isTokenFree : Call → Bool
  | .adapter c => Broker.isTokenFree c
  | .exec _ => false
  | _ => true

theorem unmoved_retokened {c : Call} (h : isTokenFree c = true) : Unmoved (Retokened t) c := by
  intro res res'
  cases c with
  | adapter c =>
    rw [retokened_adapter]
    exact Broker.unmoved_retokened h res res'
  | exec cmd => cases h
  | _ => simp [Retokened, retoken]

theorem tracks_answer (enc : Encoder) (c c' : Host.Call)
    (htotal : ∀ res, ∃ res', Host.Retokened t ⟨c, res⟩ ⟨c', res'⟩) :
    Tracks (Retokened t) (answer enc c) (answer enc c') fun x x' =>
      Host.Retokened t ⟨c, x.1⟩ ⟨c', x'.1⟩ ∧ x.2 = x'.2 := by
  cases c with
  | adapter c =>
    cases c' with
    | exec cmd' =>
      obtain ⟨res', ⟨_, _, _, _, -, h, -⟩ | ⟨_, _, h, -⟩⟩ :=
        htotal (someAnswer (.adapter c)) <;> cases h
    | adapter c' =>
      refine tracks_ask_bind (fun res => ?_) fun res res' h => ?_
      · obtain ⟨res', h⟩ := htotal res
        exact ⟨res', retokened_adapter.2 (Host.retokened_adapter.1 h)⟩
      · exact tracks_pure ⟨Host.retokened_adapter.2 (retokened_adapter.1 h), rfl⟩
  | exec cmd =>
    obtain ⟨child', ⟨_, _, _, _, h, -⟩ | ⟨cmd₀, child₀, h₁, h₂⟩⟩ := htotal (.notStarted [])
    · cases h
    cases h₁
    obtain rfl := (Sigma.mk.inj h₂).1
    refine tracks_ask_bind (fun spawned => ⟨spawned, rfl⟩) fun spawned spawned' h => ?_
    obtain rfl : spawned' = spawned := by simpa [Retokened, retoken] using h
    cases spawned' with
    | notStarted err => exact tracks_pure ⟨Or.inr ⟨cmd, _, rfl, rfl⟩, rfl⟩
    | ended output exit readErr ctxErr =>
      have hcopy := only_copyOutput (fun _ => unmoved_retokened (t := t) rfl) output enc
      refine tracks_bind hcopy.tracks fun x x' hx => ?_
      subst hx
      exact tracks_pure ⟨Or.inr ⟨cmd, _, rfl, rfl⟩, rfl⟩

/-- **A session does the same for every token.** -/
theorem tracks_serve [Platform] (ht : t ≠ []) (s : Server) :
    Tracks (Retokened t) (serve s) (serve s) Eq := by
  have hrefuse : ∀ req outcome err, Tracks (Retokened t)
      (writeAuditedWorkerError req outcome err) (writeAuditedWorkerError req outcome err) Eq :=
    fun req outcome err => Only.tracks
      (only_bind (only_auditDenied (unmoved_retokened rfl) fun _ => unmoved_retokened rfl)
        fun auditErr => only_encode (fun _ => unmoved_retokened rfl) _ _)
  refine tracks_unmoved (unmoved_retokened rfl) fun opened => ?_
  cases opened with
  | some err => exact Only.tracks (only_encode (fun _ => unmoved_retokened rfl) _ _)
  | none =>
    refine tracks_unmoved (unmoved_retokened rfl) fun input => ?_
    split
    · exact hrefuse _ _ _
    · next req _ =>
      split
      · exact hrefuse _ _ _
      · next cfg _ =>
        split
        · refine tracks_bind (tracks_interp (fun c c' htotal => ?_)
            (Only.tracks (Broker.only_dryRun
              (fun _ => Broker.unmoved_retokened (t := t) rfl) (broker cfg) _ _ _)))
            fun dry dry' hdry => ?_
          · exact tracks_mono (tracks_ask fun res => by
              obtain ⟨res', h⟩ := htotal res
              exact ⟨res', retokened_adapter.2 h⟩) fun res res' h => retokened_adapter.1 h
          · subst hdry
            exact Only.tracks (only_encode (fun _ => unmoved_retokened rfl) _ _)
        · refine tracks_bind (tracks_thread tracks_answer
            (Host.tracks_run ht (runner cfg) (broker cfg) (runRequest req)) none) fun x x' hx => ?_
          obtain ⟨out, enc⟩ := x
          obtain ⟨out', enc'⟩ := x'
          obtain ⟨rfl, rfl⟩ := hx
          exact Only.tracks (only_report (fun _ => unmoved_retokened rfl) _ _)

/-- The calls of a session that are no secret: all but the answers of the resolver and the
commands. -/
def isPublic (e : Event Call.Answer) : Bool := isTokenFree e.1

theorem isPublic_retoken (e : Event Call.Answer) : isPublic (retoken t e) = isPublic e := by
  obtain ⟨c, res⟩ := e
  cases c with
  | adapter c =>
    cases c with
    | resolve entry => cases res <;> rfl
    | _ => rfl
  | _ => rfl

theorem retoken_of_isPublic {e : Event Call.Answer} (h : isPublic e = true) : retoken t e = e := by
  obtain ⟨c, res⟩ := e
  exact ((unmoved_retokened h res res).2 rfl).symm

theorem forall₂_retokened {tr tr' : Calls} (h : List.Forall₂ (Retokened t) tr tr') :
    tr' = tr.map (retoken t) := by
  induction h with
  | nil => rfl
  | cons he _ ih => rw [ih, he, List.map_cons]

theorem wire_retoken (tr : Calls) : wire (tr.map (retoken t)) = wire tr := by
  simp only [wire, List.flatMap_map]
  congr 1
  funext e
  obtain ⟨c, res⟩ := e
  cases c <;> rfl

/-- **The token goes to the command's environment and nowhere else.** For every policy, every
request and every behaviour of the log, the adapters and the operating system: if the resolver had
answered any other token, and everything else had answered the same, the session would have made the
same calls in the same order, with only the entry `BWS_ACCESS_TOKEN` of the command's environment
changed. In particular the bytes on its output are the same, and so are the audit records, the
prompt that was shown and every other call. -/
theorem token_noninterference [Platform] {s : Server} {tr : Calls} {enc : Encoder}
    (h : Runs (serve s) tr enc) (ht : t ≠ []) :
    Runs (serve s) (tr.map (retoken t)) enc ∧ wire (tr.map (retoken t)) = wire tr ∧
      (tr.map (retoken t)).filter isPublic = tr.filter isPublic := by
  obtain ⟨tr', enc', hrun, hall, rfl⟩ := (tracks_serve ht s).runs h
  obtain rfl := forall₂_retokened hall
  refine ⟨hrun, wire_retoken tr, ?_⟩
  rw [List.filter_map, show isPublic ∘ retoken t = isPublic from funext isPublic_retoken]
  refine (List.map_congr_left fun e he => ?_).trans (List.map_id _)
  exact retoken_of_isPublic (List.mem_filter.1 he).2

/-- The example session with another token. -/
theorem token_noninterference_push :
    wire ((exampleSession (exampleRequest [str "git", str "push"])).1.map (retoken (str "other"))) =
        wire (exampleSession (exampleRequest [str "git", str "push"])).1 ∧
      ∃ cmd, ⟨.exec cmd, exampleSpawned⟩ ∈
          (exampleSession (exampleRequest [str "git", str "push"])).1.map (retoken (str "other")) ∧
        cmd.env.map List.getLast? = some (some (str "BWS_ACCESS_TOKEN=other")) := by
  refine ⟨(@token_noninterference _ examplePlatform exampleServer _ _
    (runs_play (exampleAnswers (exampleRequest [str "git", str "push"])) _) (by decide)).2.1, ?_⟩
  exact ⟨_, List.mem_of_getElem? (i := 6) rfl, by decide +kernel⟩

end Worker.Session

end SecretsBroker
