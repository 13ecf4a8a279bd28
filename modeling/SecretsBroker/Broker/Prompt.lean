import SecretsBroker.Broker.Gate
import SecretsBroker.Foundations.Unquote

/-!
# What the approver sees

`formatPrompt` is the only thing a human sees of a request. `prompt_determines` says that it shows
all of it: two requests with the same prompt have the same project, directory and arguments, each
argument has one line of its own, and no text in a request can make another line. Together with the
calls of `Run` this means that the prompt that was approved determines what the runner is given.
-/

namespace SecretsBroker

open Interaction

section Prompt

variable [Unicode]

/-! ## The lines of a prompt -/

/-- The line of an argument. -/
def argLine (i : ℕ) (arg : Bytes) : Bytes :=
  str "  argv[" ++ itoa i ++ str "] = " ++ quoteToASCII arg

def projectLine (project : Bytes) : Bytes :=
  str "secrets-broker: allow project " ++ quote project ++ str " to run:"

def directoryLine (workingDir : Bytes) : Bytes :=
  str "working directory: " ++ quoteToASCII workingDir

/-- The lines of a prompt. A prompt without arguments ends in an empty line. -/
def promptLines (project workingDir : Bytes) (argv : List Bytes) : List Bytes :=
  projectLine project :: [] :: directoryLine workingDir ::
    if argv = [] then [[]] else argv.mapIdx argLine

/-- A text without control characters. -/
def Shown (l : Bytes) : Prop := ∀ b ∈ l, 0x20 ≤ b.toNat

omit [Unicode] in
theorem Shown.append {l l' : Bytes} (h : Shown l) (h' : Shown l') : Shown (l ++ l') := by
  intro b hb
  rcases List.mem_append.1 hb with hb | hb
  · exact h b hb
  · exact h' b hb

omit [Unicode] in
theorem shown_itoa (n : ℕ) : Shown (itoa n) := by
  intro b hb
  obtain ⟨c, hc, hbc⟩ := List.mem_flatMap.1 hb
  have hdigit := Nat.isDigit_of_mem_toDigits (by decide) (by decide) hc
  simp only [Char.isDigit, ge_iff_le, Bool.and_eq_true, decide_eq_true_eq] at hdigit
  have hle : 48 ≤ c.toNat := hdigit.1
  exact Utf8.le_of_mem_encodeRune (by omega) b hbc

theorem shown_argLine (i : ℕ) (arg : Bytes) : Shown (argLine i arg) :=
  (((show Shown (str "  argv[") by unfold Shown; decide +kernel).append (shown_itoa i)).append
    (by unfold Shown; decide +kernel)).append fun b hb => (mem_quoteToASCII b hb).1

theorem shown_promptLines (project workingDir : Bytes) (argv : List Bytes) :
    ∀ l ∈ promptLines project workingDir argv, Shown l := by
  have hnil : Shown [] := by simp [Shown]
  simp only [promptLines, List.forall_mem_cons]
  refine ⟨?_, hnil, ?_, ?_⟩
  · exact ((show Shown (str "secrets-broker: allow project ")
      by unfold Shown; decide +kernel).append
      le_of_mem_quote).append (by unfold Shown; decide +kernel)
  · exact (show Shown (str "working directory: ") by unfold Shown; decide +kernel).append
      fun b hb => (mem_quoteToASCII b hb).1
  · split_ifs
    · simpa using hnil
    · intro l hl
      obtain ⟨i, hi, rfl⟩ := List.mem_mapIdx.1 hl
      exact shown_argLine i _

theorem formatPrompt_eq (project workingDir : Bytes) (argv : List Bytes) :
    formatPrompt project workingDir argv =
      [0x0A].intercalate (promptLines project workingDir argv) := by
  have hnl : str "\n" = [0x0A] := by decide
  have hrun : str " to run:\n\nworking directory: " =
      str " to run:" ++ 0x0A :: 0x0A :: str "working directory: " := by decide +kernel
  have hlines : [0x0A].intercalate (if argv = [] then [[]] else argv.mapIdx argLine) =
      [0x0A].intercalate (argv.mapIdx argLine) := by
    split_ifs with h
    · simp [h]
    · rfl
  have hne : (if argv = [] then [[]] else argv.mapIdx argLine) ≠ [] := by
    split_ifs with h
    · simp
    · simpa using h
  have hdef : formatPrompt project workingDir argv = str "secrets-broker: allow project " ++
      quote project ++ str " to run:\n\nworking directory: " ++ quoteToASCII workingDir ++
        str "\n" ++
      (str "\n").intercalate (argv.mapIdx argLine) := rfl
  unfold promptLines
  rw [hdef, List.intercalate_cons_of_ne_nil (by simp), List.intercalate_cons_of_ne_nil (by simp),
    List.intercalate_cons_of_ne_nil hne, hlines]
  simp only [hnl, hrun, projectLine, directoryLine, List.append_assoc, List.cons_append,
    List.nil_append]

/-- The lines of a prompt are those lines, and no others. -/
theorem splitOn_formatPrompt (project workingDir : Bytes) (argv : List Bytes) :
    (formatPrompt project workingDir argv).splitOn 0x0A = promptLines project workingDir argv := by
  rw [formatPrompt_eq]
  apply List.splitOn_intercalate
  · intro l hl hmem
    exact absurd (shown_promptLines _ _ _ l hl _ hmem) (by decide)
  · simp [promptLines]

/-! ## Two requests with the same prompt -/

theorem mapIdx_argLine_inj {argv argv' : List Bytes}
    (h : argv.mapIdx argLine = argv'.mapIdx argLine) : argv = argv' := by
  apply List.ext_getElem?
  intro i
  have hi := congrArg (fun ls => ls[i]?) h
  simp only [List.getElem?_mapIdx] at hi
  -- at the same place the two lines have the same number
  have hline : ∀ {a a' : Bytes}, argLine i a = argLine i a' → a = a' := by
    intro a a' heq
    have hcancel := List.append_cancel_left heq
    rw [← List.append_nil (quoteToASCII a), ← List.append_nil (quoteToASCII a')] at hcancel
    exact (quoteToASCII_append_inj hcancel).1
  cases ha : argv[i]? with
  | none =>
    cases ha' : argv'[i]? with
    | none => rfl
    | some a' => simp [ha, ha'] at hi
  | some a =>
    cases ha' : argv'[i]? with
    | none => simp [ha, ha'] at hi
    | some a' =>
      simp only [ha, ha', Option.map_some, Option.some.injEq] at hi
      rw [hline hi]

theorem promptLines_inj {project workingDir project' workingDir' : Bytes} {argv argv' : List Bytes}
    (h : promptLines project workingDir argv = promptLines project' workingDir' argv') :
    project = project' ∧ workingDir = workingDir' ∧ argv = argv' := by
  simp only [promptLines, List.cons.injEq, true_and] at h
  obtain ⟨hproject, hdir, hargs⟩ := h
  refine ⟨?_, ?_, ?_⟩
  · simp only [projectLine, List.append_assoc, List.append_cancel_left_eq] at hproject
    exact (quote_append_inj hproject).1
  · have hcancel := List.append_cancel_left hdir
    rw [← List.append_nil (quoteToASCII workingDir), ← List.append_nil (quoteToASCII workingDir')]
      at hcancel
    exact (quoteToASCII_append_inj hcancel).1
  · -- a line of an argument is not empty
    have hne : ∀ i arg, argLine i arg ≠ [] := by
      intro i arg hnil
      have hhead : str "  argv[" ≠ [] := by decide
      simp only [argLine, List.append_eq_nil_iff] at hnil
      exact hhead hnil.1.1.1
    cases argv with
    | nil =>
      cases argv' with
      | nil => rfl
      | cons a' args' =>
        simp only [if_true, reduceCtorEq, if_false, List.mapIdx_cons, List.cons.injEq] at hargs
        exact absurd hargs.1.symm (hne _ _)
    | cons a args =>
      cases argv' with
      | nil =>
        simp only [if_true, reduceCtorEq, if_false, List.mapIdx_cons, List.cons.injEq] at hargs
        exact absurd hargs.1 (hne _ _)
      | cons a' args' =>
        rw [if_neg (by simp), if_neg (by simp)] at hargs
        exact mapIdx_argLine_inj hargs

/-! ## What is approved is what runs -/

/-- A call that shows the request, or hands it to the runner, has the request of `req`. -/
def ShowsRequest (req : RunRequest) : Broker.Call → Prop
  | .approve prompt => prompt = formatPrompt req.project req.workingDir req.argv
  | .run spec => spec.workingDir = req.workingDir ∧ spec.argv = req.argv
  | _ => True

namespace Broker

variable {req : RunRequest}

theorem shows_deny (runID : Bytes) (reason : Reason) :
    Only (ShowsRequest req) (deny runID reason) :=
  only_ask_bind trivial fun _ => trivial

theorem shows_execute (runID : Bytes) (project : Project) :
    Only (ShowsRequest req) (execute runID project req) := by
  refine only_ask_bind trivial fun r => ?_
  cases r with
  | error e => exact shows_deny _ _
  | ok tok =>
    refine only_ask_bind ⟨rfl, rfl⟩ fun r => ?_
    cases r with
    | error e => exact shows_deny _ _
    | ok result => exact only_ask_bind trivial fun _ => trivial

theorem shows_rejected (b : Broker) (runID : Bytes) :
    Only (ShowsRequest req) (b.rejected runID) := by
  refine only_bind (shows_deny _ _) fun outcome => ?_
  split_ifs
  · refine only_ask_bind trivial fun cause => ?_
    split_ifs
    · exact only_ask_bind trivial fun _ => trivial
    · trivial
  · trivial

theorem shows_authorise (b : Broker) (runID : Bytes) (project : Project) :
    Only (ShowsRequest req) (b.authorise runID project req) := by
  unfold authorise
  split
  · exact shows_deny _ _
  · refine only_ask_bind rfl ?_
    rintro ⟨decision, err⟩
    simp only
    split_ifs
    · exact shows_rejected b runID
    · exact shows_execute runID project
  · exact shows_execute runID project

theorem shows_sameWorkingDir (allowed requested : Bytes) :
    Only (ShowsRequest req) (sameWorkingDir allowed requested) := by
  unfold sameWorkingDir
  split_ifs
  · trivial
  · refine only_ask_bind trivial fun r => ?_
    cases r with
    | error e => trivial
    | ok allowedPath =>
      refine only_ask_bind trivial fun r => ?_
      cases r with
      | error e => trivial
      | ok requestedPath => trivial

theorem shows_run (b : Broker) : Only (ShowsRequest req) (b.run req) := by
  refine only_ask_bind trivial fun r => ?_
  cases r with
  | error e => trivial
  | ok runID =>
    simp only
    split
    · exact shows_deny _ _
    · split_ifs
      · refine only_bind (shows_sameWorkingDir _ _) fun ok => ?_
        split_ifs
        · exact shows_authorise b runID _
        · exact shows_deny _ _
      · exact shows_authorise b runID _

end Broker

/-- **What the human approves determines what runs.** The prompt determines the project, the
directory and the arguments; its lines are the line of the project, an empty one, the line of the
directory and one for each argument, without any control character; and if a run shows a prompt,
whatever request has that prompt is the one that the runner is given. -/
theorem prompt_determines :
    (∀ project workingDir argv project' workingDir' argv',
      formatPrompt project workingDir argv = formatPrompt project' workingDir' argv' →
        project = project' ∧ workingDir = workingDir' ∧ argv = argv') ∧
    (∀ project workingDir argv,
      (formatPrompt project workingDir argv).splitOn 0x0A = promptLines project workingDir argv ∧
        ∀ l ∈ promptLines project workingDir argv, Shown l) ∧
    ∀ (b : Broker) (req : RunRequest) (tr : Broker.Calls) (out : RunOutcome),
      Runs (b.run req) tr out → ∀ project workingDir argv answer,
        ⟨.approve (formatPrompt project workingDir argv), answer⟩ ∈ tr →
          req.project = project ∧
          ∀ spec result, ⟨.run spec, result⟩ ∈ tr →
            spec.workingDir = workingDir ∧ spec.argv = argv := by
  have hinj : ∀ project workingDir argv project' workingDir' argv',
      formatPrompt project workingDir argv = formatPrompt project' workingDir' argv' →
        project = project' ∧ workingDir = workingDir' ∧ argv = argv' := by
    intro project workingDir argv project' workingDir' argv' h
    apply promptLines_inj
    rw [← splitOn_formatPrompt, ← splitOn_formatPrompt, h]
  refine ⟨hinj, fun project workingDir argv => ⟨splitOn_formatPrompt _ _ _,
    shown_promptLines _ _ _⟩, ?_⟩
  intro b req tr out hrun project workingDir argv answer happrove
  have hshows := (Broker.shows_run b).of_runs hrun
  obtain ⟨rfl, rfl, rfl⟩ := hinj _ _ _ _ _ _ (hshows _ happrove).symm
  exact ⟨rfl, fun spec result hmem => hshows _ hmem⟩

end Prompt

end SecretsBroker
