import SecretsBroker.Admin.Concurrent
import SecretsBroker.Admin.Disk
import SecretsBroker.Admin.Meaning

/-!
# The policy as an atomic object

Seen from outside, a policy is a configuration, and an edit changes it at once: `Action.Makes` is
what each action does to a configuration, with nothing about files, locks, temporary files or the
bytes of the policy. `editors_refine_policy` says that any interleaving of any number of editors is
a run of that machine: what the worker would load at any moment is the configuration that the edits
so far have made, one after another, and each session has made its edit at most once.
-/

namespace SecretsBroker.Admin

open Fallible Files Interaction Replacement

variable [Platform]

/-! ## The machine -/

/-- **What an action makes of a configuration**, in one step. -/
def Action.Makes (action : Action) (cfg cfg' : Config) : Prop :=
  match action with
  | .mutate m => m.Finds cfg ∧ cfg' = m.meaning cfg
  | .remove name _ _ =>
    ∃ before p after, cfg.projects = before ++ p :: after ∧ p.projectAlias = name ∧
      cfg' = { cfg with projects := before ++ after }
  | .restore _ name =>
    ∃ before p after, cfg'.projects = before ++ p :: after ∧ p.projectAlias = name ∧
      cfg = { cfg' with projects := before ++ after }

/-- The sessions `done`, in this order, lead from one configuration to the other. -/
inductive Performed {ι : Type} (sessions : ι → Session) (cfg₀ : Config) : List ι → Config → Prop
  | nil : Performed sessions cfg₀ [] cfg₀
  | snoc {done : List ι} {cfg cfg' : Config} {i : ι} (h : Performed sessions cfg₀ done cfg)
    (hi : (sessions i).action.Makes cfg cfg') : Performed sessions cfg₀ (done ++ [i]) cfg'

/-! ## One replacement -/

/-- An edit leaves a policy that the worker accepts. -/
theorem Mutation.edit_worker {m : Mutation} {data updated : Bytes} {cfg : Config}
    (h : m.edit data cfg = .ok (some updated)) :
    ∃ cfg', Config.parse updated = .ok cfg' ∧ cfg'.validateWorker = .ok () := by
  have edited : ∀ {name message : Bytes} {edit : ProjectEdit},
      editProject name message edit data cfg = .ok (some updated) →
      ∃ cfg', Config.parse updated = .ok cfg' ∧ cfg'.validateWorker = .ok () := by
    intro name message edit h
    obtain ⟨before, p, after, p', -, -, -, -, hparse, hworker⟩ := editProject_ok h
    exact ⟨_, hparse, hworker⟩
  cases m with
  | createProject input =>
    obtain ⟨-, -, hparse, hworker⟩ := createProject_ok h
    exact ⟨_, hparse, hworker⟩
  | setApproval name mode =>
    obtain ⟨approval, -, h⟩ := bind_eq_ok.1 h
    exact edited h
  | updateProjectMetadata name input => exact edited h
  | addAllowlist name argv => exact edited h
  | removeAllowlist name argv => exact edited h

/-- A replacement of the bytes is a step of the machine. -/
theorem Session.Permits.makes {s : Session} {b c : Bytes} {cfg : Config} (h : s.Permits b c)
    (hb : Config.parse b = .ok cfg) :
    ∃ cfg', Config.parse c = .ok cfg' ∧ cfg'.validateWorker = .ok () ∧
      s.action.Makes cfg cfg' := by
  obtain ⟨e, action⟩ := s
  cases action with
  | mutate m =>
    obtain ⟨cfg₁, hcfg, hedit⟩ := h
    obtain rfl := Except.ok.inj (hb.symm.trans (interpret_ok hcfg).1)
    obtain ⟨cfg', hparse, hworker⟩ := Mutation.edit_worker hedit
    obtain ⟨hfinds, ⟨hnone, -⟩ | ⟨u, hu, hmeaning⟩⟩ :=
      Mutation.edit_meaning (Config.accepted_of_parse hb) hedit
    · cases hnone
    · obtain rfl := Option.some.inj hu
      obtain rfl := Except.ok.inj (hparse.symm.trans hmeaning)
      exact ⟨_, hparse, hworker, hfinds, rfl⟩
  | remove name confirmation recoveryID =>
    obtain ⟨cfg₁, hcfg, hedit⟩ := h
    obtain rfl := Except.ok.inj (hb.symm.trans (interpret_ok hcfg).1)
    obtain ⟨before, p, after, hps, hname, -, -, hwithout, hparse, hworker⟩ :=
      removeProject_ok hedit
    exact ⟨_, hparse, hworker, before, p, after, hps, hname, hwithout⟩
  | restore recoveryID confirmation =>
    obtain ⟨cfg₁, artifact, hcfg, rfl, hedit⟩ := h
    obtain rfl := Except.ok.inj (hb.symm.trans (interpret_ok hcfg).1)
    obtain ⟨rfl, -, stored, i, hparse, hworker, hfind, hwithout, -⟩ := restoreProject_ok hedit
    obtain ⟨before, p, after, hps, rfl, hname, -⟩ := findProject_ok hfind
    refine ⟨stored, hparse, hworker, before, p, after, hps, hname, ?_⟩
    rw [← hwithout, withoutProject, hps]
    simp [List.eraseIdx_append]

/-! ## Any interleaving -/

variable [Codec] {ι : Type} [DecidableEq ι] {target : Bytes} {sessions : ι → Session}

omit [Platform] [Codec] in
/-- The first version stays what it was. -/
theorem World.Reaches.origin {w w' : World ι} (h : World.Reaches target w w') :
    w'.history.origin = w.history.origin := by
  induction h with
  | refl => rfl
  | step _ _ hs ih =>
    cases hs with
    | policy => exact (History.after_origin ..).trans ih
    | other => exact ih

omit [Codec] [DecidableEq ι] in
/-- What version `k` of the policy means. -/
theorem performed_version {w : World ι} {phase : ι → Phase} {cfg₀ : Config}
    (hi : Inv target (fun i => (sessions i).Permits) w.volume w.history phase)
    (hparse : Config.parse w.history.origin.bytes = .ok cfg₀)
    (hworker : cfg₀.validateWorker = .ok ()) {k : ℕ} (hk : k ≤ w.history.log.length) :
    ∃ o b cfg, Contains w.volume w.history.versions o k b ∧ Config.parse b = .ok cfg ∧
      cfg.validateWorker = .ok () ∧
      Performed sessions cfg₀ ((w.history.log.take k).map Entry.who) cfg := by
  induction k with
  | zero =>
    obtain ⟨o, ho, hfile⟩ := hi.origin
    exact ⟨o, _, cfg₀, ⟨ho, _, hfile, rfl⟩, hparse, hworker, .nil⟩
  | succ k ih =>
    obtain ⟨o, b, cfg, ⟨ho, f, hf, rfl⟩, hb, -, hperf⟩ := ih (by omega)
    have hlt : k < w.history.log.length := hk
    -- the entry replaced this very version
    obtain ⟨⟨hsource, f', hf', hread⟩, ⟨new, hnew⟩, hpermits⟩ :=
      hi.chain k w.history.log[k] (List.getElem?_eq_getElem hlt)
    obtain rfl := Option.some.inj (ho.symm.trans hsource)
    obtain rfl := Option.some.inj (hf.symm.trans hf')
    rw [← hread] at hpermits
    obtain ⟨cfg', hc, hworker', hmakes⟩ := hpermits.makes hb
    refine ⟨new, _, cfg', hnew, hc, hworker', ?_⟩
    rw [List.take_add_one, List.getElem?_eq_getElem hlt, List.map_append]
    exact hperf.snoc hmakes

omit [Codec] [DecidableEq ι] in
/-- What the file under the policy's name means. -/
theorem performed_contents {w : World ι} {phase : ι → Phase} {cfg₀ : Config}
    (hi : Inv target (fun i => (sessions i).Permits) w.volume w.history phase)
    (hparse : Config.parse w.history.origin.bytes = .ok cfg₀)
    (hworker : cfg₀.validateWorker = .ok ()) :
    ∃ cfg, Config.parse (contents w.volume target) = .ok cfg ∧ cfg.validateWorker = .ok () ∧
      Performed sessions cfg₀ (w.history.log.map Entry.who) cfg := by
  obtain ⟨cur, b, cfg, ⟨hcur, file, hfile, rfl⟩, hb, hworker', hperf⟩ :=
    performed_version hi hparse hworker (le_refl _)
  have hcontents : contents w.volume target = file.bytes := by
    obtain ⟨o', ho', hlookup⟩ := hi.current
    obtain rfl := Option.some.inj (hcur.symm.trans ho')
    simp [contents, Volume.file?, hlookup, hfile]
  rw [List.take_length] at hperf
  exact ⟨cfg, hcontents ▸ hb, hworker', hperf⟩

/-- **Editors refine the atomic policy.** However the calls of any number of editors interleave
(commands of the CLI and commits of the web page, removals and restorations among them), at every
moment the file under the policy's name is one that the worker accepts, and its configuration is
what the sessions in the log have made of the first one, each in one step and in the order of the
log. A session occurs there at most once; one that has reported a change does occur, and one that
has reported neither a change nor an error does not. -/
theorem editors_refine_policy {v : Volume} {o : ℕ} {f : Inode} {w : World ι} {cfg₀ : Config}
    (hname : ∀ i, (sessions i).editor.name = target) (hv : Ready v target o f)
    (hparse : Config.parse f.bytes = .ok cfg₀) (hworker : cfg₀.validateWorker = .ok ())
    (h : World.Reaches target (World.start sessions v o f) w) :
    ∃ cfg, Config.parse (contents w.volume target) = .ok cfg ∧ cfg.validateWorker = .ok () ∧
      Performed sessions cfg₀ (w.history.log.map Entry.who) cfg ∧
      (w.history.log.map Entry.who).Nodup ∧
      (∀ i err, w.left i = .ret (true, err) → i ∈ w.history.log.map Entry.who) ∧
      ∀ i, w.left i = .ret (false, none) → i ∉ w.history.log.map Entry.who := by
  obtain ⟨phase, hi, hc⟩ := h.explained (World.explained_start hname hv)
  obtain ⟨cfg, hcfg, hworker', hperf⟩ := performed_contents hi (h.origin ▸ hparse) hworker
  refine ⟨cfg, hcfg, hworker', hperf, hi.unique, fun i err hret => ?_, fun i hret => ?_⟩
  · have hend := hc i
    rw [hret] at hend
    rcases hend with ⟨hfalse, -⟩ | ⟨b, c, -, hq, -⟩
    · simp at hfalse
    · obtain ⟨entry, hmem, hwho, -⟩ := (hi.logged i b c).1 (by rw [hq]; rfl)
      exact List.mem_map.2 ⟨entry, hmem, hwho⟩
  · have hend := hc i
    rw [hret] at hend
    intro hmem
    obtain ⟨entry, hentry, rfl⟩ := List.mem_map.1 hmem
    have hresult := (hi.logged entry.who _ _).2 ⟨entry, hentry, rfl, rfl, rfl⟩
    rcases hend with ⟨-, hreplaced⟩ | ⟨b, c, -, -, hchanged⟩
    · cases hq : phase entry.who <;> simp [hq, Phase.result, replaced] at hresult hreplaced
    · simp at hchanged

omit [Platform] [Codec] in
/-- The replaced policy of the example. -/
theorem editors_refine_policy_confirm : ∃ cfg,
    @Config.parse demoPlatform (contents (demoWorld 18).volume (str "policy.toml")) = .ok cfg ∧
      @Performed demoPlatform Unit demoSession
        (demoConfig [demoProject (str "app") Config.ApprovalNever,
          demoProject (str "db") Config.ApprovalNever]) [()] cfg := by
  have hparse : @Config.parse demoPlatform demoFile.bytes =
      .ok (demoConfig [demoProject (str "app") Config.ApprovalNever,
        demoProject (str "db") Config.ApprovalNever]) := by decide +kernel
  have hworker : @Config.validateWorker demoPlatform
      (demoConfig [demoProject (str "app") Config.ApprovalNever,
        demoProject (str "db") Config.ApprovalNever]) = .ok () := by decide +kernel
  obtain ⟨cfg, hcfg, -, hperf, -⟩ := @editors_refine_policy demoPlatform demoCodec Unit _
    (str "policy.toml") demoSession demoVolume 0 demoFile (demoWorld 18) _ (fun _ => rfl)
    ready_demoVolume hparse hworker (reaches_demoWorld le_rfl)
  have hlog : (demoWorld 18).history.log.map Entry.who = [()] := by decide +kernel
  exact ⟨cfg, hcfg, hlog ▸ hperf⟩

end SecretsBroker.Admin
