import SecretsBroker.Admin.Editor
import SecretsBroker.Broker.Run
import SecretsBroker.Foundations.Digest
import SecretsBroker.Foundations.Journal

/-!
# The audit logs

`JSONLLogger` of `internal/audit` and `MutationJSONLLogger` of `internal/admin`: each start and each
finish is one record, appended as a line of JSON to a file that any number of processes append to.
An append opens the file, writes its line and syncs it, and may fail at each of these calls; a write
may fail after any part of the line.

`records_found_iff` says for every run of appends when the records whose append returned no error
can be read from the file again.
-/

namespace SecretsBroker.Audit

open Json Utf8

/-! ## Records -/

/-- A time in the form of RFC 3339, as `time.Time` is marshalled. -/
structure Timestamp where
  text : Bytes
  printable : ∀ b ∈ text, 0x20 ≤ b.toNat ∧ b.toNat < 0x7F
  deriving DecidableEq

instance (text : Bytes) : Decidable (∀ b ∈ text, 0x20 ≤ b.toNat ∧ b.toNat < 0x7F) :=
  List.decidableBAll _ text

/-- The zero time. -/
def Timestamp.zero : Timestamp := ⟨str "0001-01-01T00:00:00Z", by decide +kernel⟩

/-- The value of a member of type `time.Time`. -/
def decodeTime (old : Timestamp) : Json → Option Timestamp
  | .string s => if h : ∀ b ∈ s, 0x20 ≤ b.toNat ∧ b.toNat < 0x7F then some ⟨s, h⟩ else none
  | .null => some old
  | _ => none

def timeKind : Kind Timestamp := ⟨fun t => some (encodeString t.text), decodeTime⟩

/-- `record`: a line of the broker's log. -/
structure Record where
  runID : Bytes
  timestamp : Timestamp
  event : Bytes
  project : Bytes := []
  workingDir : Bytes := []
  argv : List Bytes := []
  outcome : Bytes := []
  exitCode : Option Int64 := none
  deriving DecidableEq

def recordFields : List (Json.Field Record) :=
  [.of (str "run_id") Record.runID (fun r v => { r with runID := v }) .string,
    .of (str "timestamp") Record.timestamp (fun r v => { r with timestamp := v }) timeKind,
    .of (str "event") Record.event (fun r v => { r with event := v }) .string,
    .of (str "project") Record.project (fun r v => { r with project := v }) (.omitEmpty .string []),
    .of (str "working_dir") Record.workingDir (fun r v => { r with workingDir := v })
      (.omitEmpty .string []),
    .of (str "argv") Record.argv (fun r v => { r with argv := v }) (.omitEmpty .strings []),
    .of (str "outcome") Record.outcome (fun r v => { r with outcome := v }) (.omitEmpty .string []),
    .of (str "exit_code") Record.exitCode (fun r v => { r with exitCode := v }) (.pointer .int 0)]

/-- The record of `JSONLLogger.Start`. -/
def Record.start (runID : Bytes) (now : Timestamp) (rec : StartRecord) : Record where
  runID := runID
  timestamp := now
  event := str "start"
  project := rec.project
  workingDir := rec.workingDir
  argv := rec.argv

/-- The record of `JSONLLogger.Finish`. -/
def Record.finish (runID : Bytes) (now : Timestamp) (rec : FinishRecord) : Record where
  runID := runID
  timestamp := now
  event := str "finish"
  outcome := rec.outcome
  exitCode := rec.exitCode.map Int64.ofInt

/-- `mutationRecord`: a line of the administrator's log. -/
structure MutationRecord where
  mutationID : Bytes
  timestamp : Timestamp
  event : Bytes
  actorUID : Option Int64 := none
  actorLogin : Bytes := []
  project : Bytes := []
  operation : Bytes := []
  approvalMode : Bytes := []
  argvSHA256 : Bytes := []
  argvCount : Int64 := 0
  recoveryID : Bytes := []
  fields : List Bytes := []
  outcome : Bytes := []
  deriving DecidableEq

def mutationRecordFields : List (Json.Field MutationRecord) :=
  [.of (str "mutation_id") MutationRecord.mutationID (fun r v => { r with mutationID := v })
    .string,
    .of (str "timestamp") MutationRecord.timestamp (fun r v => { r with timestamp := v }) timeKind,
    .of (str "event") MutationRecord.event (fun r v => { r with event := v }) .string,
    .of (str "actor_uid") MutationRecord.actorUID (fun r v => { r with actorUID := v })
      (.pointer .int 0),
    .of (str "actor_login") MutationRecord.actorLogin (fun r v => { r with actorLogin := v })
      (.omitEmpty .string []),
    .of (str "project") MutationRecord.project (fun r v => { r with project := v })
      (.omitEmpty .string []),
    .of (str "operation") MutationRecord.operation (fun r v => { r with operation := v })
      (.omitEmpty .string []),
    .of (str "approval_mode") MutationRecord.approvalMode (fun r v => { r with approvalMode := v })
      (.omitEmpty .string []),
    .of (str "argv_sha256") MutationRecord.argvSHA256 (fun r v => { r with argvSHA256 := v })
      (.omitEmpty .string []),
    .of (str "argv_count") MutationRecord.argvCount (fun r v => { r with argvCount := v })
      (.omitEmpty .int 0),
    .of (str "recovery_id") MutationRecord.recoveryID (fun r v => { r with recoveryID := v })
      (.omitEmpty .string []),
    .of (str "fields") MutationRecord.fields (fun r v => { r with fields := v })
      (.omitEmpty .strings []),
    .of (str "outcome") MutationRecord.outcome (fun r v => { r with outcome := v })
      (.omitEmpty .string [])]

/-- `digestArgv`. -/
def digestArgv (argv : List Bytes) : Bytes := hexDigest (encodeArray (argv.map encodeString))

/-- The record of `MutationJSONLLogger.Start`. -/
def MutationRecord.start (mutationID : Bytes) (now : Timestamp) (actorLogin : Bytes)
    (rec : Admin.MutationStart) : MutationRecord where
  mutationID := mutationID
  timestamp := now
  event := str "start"
  actorUID := some (Int64.ofInt rec.actorUID)
  actorLogin := actorLogin
  project := rec.project
  operation := rec.operation
  approvalMode := rec.approvalMode
  argvSHA256 := if rec.argv = [] then [] else digestArgv rec.argv
  argvCount := Int64.ofNat rec.argv.length
  recoveryID := rec.recoveryID
  fields := rec.fields

/-- The record of `MutationJSONLLogger.Finish`. -/
def MutationRecord.finish (mutationID : Bytes) (now : Timestamp) (outcome actorLogin : Bytes) :
    MutationRecord where
  mutationID := mutationID
  timestamp := now
  event := str "finish"
  outcome := outcome
  actorLogin := actorLogin

/-! ## Their formats -/

theorem carries_timeKind (old t : Timestamp) : timeKind.Carries old t t := by
  have hvalid : toValid t.text = t.text :=
    (toValid_eq_self_iff _).2 (valid_of_ascii fun b hb => by have := (t.printable b hb).2; omega)
  refine Kind.carries_of_write rfl (reads_encodeString t.text).inside ?_
  rw [hvalid]
  exact dif_pos t.printable

theorem oneLine_timeKind : timeKind.OneLine := by
  rintro t text ⟨⟩
  exact newline_encodeString t.text

/-- A record with its texts as a reader of UTF-8 reports them. -/
def Record.toValid (r : Record) : Record :=
  { r with
    runID := Utf8.toValid r.runID
    event := Utf8.toValid r.event
    project := Utf8.toValid r.project
    workingDir := Utf8.toValid r.workingDir
    argv := r.argv.map Utf8.toValid
    outcome := Utf8.toValid r.outcome }

/-- The format of the broker's log. -/
def recordFormat : LineFormat Record where
  fields := recordFields
  zero := { runID := [], timestamp := .zero, event := [] }
  back := Record.toValid
  distinct := by decide +kernel
  carried r :=
    .of (Kind.carries_string _ r.runID) rfl <|
    .of (carries_timeKind _ r.timestamp) rfl <|
    .of (Kind.carries_string _ r.event) rfl <|
    .of (Kind.carries_string_omitEmpty r.project) rfl <|
    .of (Kind.carries_string_omitEmpty r.workingDir) rfl <|
    .of (Kind.carries_strings_omitEmpty r.argv) rfl <|
    .of (Kind.carries_string_omitEmpty r.outcome) rfl <|
    .of (Kind.carries_int_pointer r.exitCode) rfl <| .nil _
  oneLine := newline_encodeStruct <| by
    simp only [recordFields, List.forall_mem_cons, List.not_mem_nil, false_imp_iff, implies_true,
      and_true]
    exact ⟨Kind.oneLine_string.field _ _ _, oneLine_timeKind.field _ _ _,
      Kind.oneLine_string.field _ _ _, (Kind.oneLine_string.omitEmpty _).field _ _ _,
      (Kind.oneLine_string.omitEmpty _).field _ _ _, (Kind.oneLine_strings.omitEmpty _).field _ _ _,
      (Kind.oneLine_string.omitEmpty _).field _ _ _, (Kind.oneLine_int.pointer _).field _ _ _⟩
  start r := by
    have hname : encodeString (str "run_id") = 0x22 :: 0x72 :: str "un_id\"" := by decide +kernel
    obtain ⟨L, hL⟩ := encodeStruct_cons (f := recordFields.head (by decide)) (x := r) rfl hname
    exact ⟨0x72, L, by decide, hL⟩

/-- All texts of the record are valid UTF-8. -/
def Record.Valid (r : Record) : Prop :=
  Utf8.Valid r.runID ∧ Utf8.Valid r.event ∧ Utf8.Valid r.project ∧ Utf8.Valid r.workingDir ∧
    (∀ arg ∈ r.argv, Utf8.Valid arg) ∧ Utf8.Valid r.outcome

theorem Record.toValid_eq_self_iff (r : Record) : r.toValid = r ↔ r.Valid := by
  obtain ⟨runID, timestamp, event, project, workingDir, argv, outcome, exitCode⟩ := r
  simp [Record.toValid, Record.Valid, Utf8.toValid_eq_self_iff, Utf8.map_toValid_eq_self_iff]

/-- A record with its texts as a reader of UTF-8 reports them. -/
def MutationRecord.toValid (r : MutationRecord) : MutationRecord :=
  { r with
    mutationID := Utf8.toValid r.mutationID
    event := Utf8.toValid r.event
    actorLogin := Utf8.toValid r.actorLogin
    project := Utf8.toValid r.project
    operation := Utf8.toValid r.operation
    approvalMode := Utf8.toValid r.approvalMode
    argvSHA256 := Utf8.toValid r.argvSHA256
    recoveryID := Utf8.toValid r.recoveryID
    fields := r.fields.map Utf8.toValid
    outcome := Utf8.toValid r.outcome }

/-- The format of the administrator's log. -/
def mutationFormat : LineFormat MutationRecord where
  fields := mutationRecordFields
  zero := { mutationID := [], timestamp := .zero, event := [] }
  back := MutationRecord.toValid
  distinct := by decide +kernel
  carried r :=
    .of (Kind.carries_string _ r.mutationID) rfl <|
    .of (carries_timeKind _ r.timestamp) rfl <|
    .of (Kind.carries_string _ r.event) rfl <|
    .of (Kind.carries_int_pointer r.actorUID) rfl <|
    .of (Kind.carries_string_omitEmpty r.actorLogin) rfl <|
    .of (Kind.carries_string_omitEmpty r.project) rfl <|
    .of (Kind.carries_string_omitEmpty r.operation) rfl <|
    .of (Kind.carries_string_omitEmpty r.approvalMode) rfl <|
    .of (Kind.carries_string_omitEmpty r.argvSHA256) rfl <|
    .of (Kind.carries_int_omitEmpty r.argvCount) rfl <|
    .of (Kind.carries_string_omitEmpty r.recoveryID) rfl <|
    .of (Kind.carries_strings_omitEmpty r.fields) rfl <|
    .of (Kind.carries_string_omitEmpty r.outcome) rfl <| .nil _
  oneLine := newline_encodeStruct <| by
    have htext := Kind.oneLine_string.omitEmpty []
    simp only [mutationRecordFields, List.forall_mem_cons, List.not_mem_nil, false_imp_iff,
      implies_true, and_true]
    exact ⟨Kind.oneLine_string.field _ _ _, oneLine_timeKind.field _ _ _,
      Kind.oneLine_string.field _ _ _, (Kind.oneLine_int.pointer _).field _ _ _,
      htext.field _ _ _, htext.field _ _ _, htext.field _ _ _, htext.field _ _ _,
      htext.field _ _ _, (Kind.oneLine_int.omitEmpty _).field _ _ _, htext.field _ _ _,
      (Kind.oneLine_strings.omitEmpty _).field _ _ _, htext.field _ _ _⟩
  start r := by
    have hname : encodeString (str "mutation_id") = 0x22 :: 0x6D :: str "utation_id\"" := by
      decide +kernel
    obtain ⟨L, hL⟩ :=
      encodeStruct_cons (f := mutationRecordFields.head (by decide)) (x := r) rfl hname
    exact ⟨0x6D, L, by decide, hL⟩

/-- All texts of the record are valid UTF-8. -/
def MutationRecord.Valid (r : MutationRecord) : Prop :=
  Utf8.Valid r.mutationID ∧ Utf8.Valid r.event ∧ Utf8.Valid r.actorLogin ∧ Utf8.Valid r.project ∧
    Utf8.Valid r.operation ∧ Utf8.Valid r.approvalMode ∧ Utf8.Valid r.argvSHA256 ∧
    Utf8.Valid r.recoveryID ∧ (∀ field ∈ r.fields, Utf8.Valid field) ∧ Utf8.Valid r.outcome

theorem MutationRecord.toValid_eq_self_iff (r : MutationRecord) : r.toValid = r ↔ r.Valid := by
  obtain ⟨mutationID, timestamp, event, actorUID, actorLogin, project, operation, approvalMode,
    argvSHA256, argvCount, recoveryID, fields, outcome⟩ := r
  simp [MutationRecord.toValid, MutationRecord.Valid, Utf8.toValid_eq_self_iff,
    Utf8.map_toValid_eq_self_iff]

/-! ## Appending -/

/-- What the calls of an append answer: an error, or nothing. -/
structure Calls where
  mkdirAll : Option Bytes := none
  validatePrivateDir : Option Bytes := none
  openAppend : Option Bytes := none
  marshal : Option Bytes := none
  /-- The error of the write, with the number of bytes that were written before it. -/
  write : Option (ℕ × Bytes) := none
  sync : Option Bytes := none

/-- An append of a line: the error it returns, if any, and how many bytes have reached the file. The
two logs differ in the name that the errors give them. -/
def appendLine (log : Bytes) (calls : Calls) (line : Bytes) : Option Bytes × ℕ :=
  match calls.openAppend with
  | some err => (some (str "opening " ++ log ++ str " log: " ++ err), 0)
  | none =>
    match calls.marshal with
    | some err => (some (str "marshaling " ++ log ++ str " record: " ++ err), 0)
    | none =>
      match calls.write with
      | some (n, err) => (some (str "writing " ++ log ++ str " record: " ++ err), n)
      | none =>
        match calls.sync with
        | some err => (some (str "syncing " ++ log ++ str " record: " ++ err), line.length)
        | none => (none, line.length)

theorem appendLine_whole {log : Bytes} {calls : Calls} {line : Bytes}
    (h : (appendLine log calls line).1 = none) : line.length ≤ (appendLine log calls line).2 := by
  obtain ⟨_, _, openAppend, marshal, write, sync⟩ := calls
  cases openAppend with
  | some err => simp [appendLine] at h
  | none =>
    cases marshal with
    | some err => simp [appendLine] at h
    | none =>
      cases write with
      | some p => simp [appendLine] at h
      | none =>
        cases sync with
        | some err => simp [appendLine] at h
        | none => exact Nat.le_refl _

/-- A logger of records: its `append`, which returns no error only if the whole line is written. -/
structure Logger {ρ : Type} (F : LineFormat ρ) where
  append : Calls → ρ → Option Bytes × ℕ
  whole : ∀ calls rec, (append calls rec).1 = none → (F.line rec).length ≤ (append calls rec).2

/-- `JSONLLogger`. -/
def JSONLLogger : Logger recordFormat where
  append calls rec := appendLine (str "audit") calls (recordFormat.line rec)
  whole _ _ := appendLine_whole

/-- `MutationJSONLLogger`, which prepares the directory in each append. -/
def MutationJSONLLogger : Logger mutationFormat where
  append calls rec :=
    match calls.mkdirAll with
    | some err => (some (str "creating administrator audit directory: " ++ err), 0)
    | none =>
      match calls.validatePrivateDir with
      | some err => (some (str "validating administrator audit directory: " ++ err), 0)
      | none => appendLine (str "administrator audit") calls (mutationFormat.line rec)
  whole calls rec h := by
    split at h
    · exact absurd h (by simp)
    · split at h
      · exact absurd h (by simp)
      · exact appendLine_whole h

namespace Logger

variable {ρ : Type} {F : LineFormat ρ} (L : Logger F)

/-- An append of a record, with what its calls answer. -/
def attempt (p : Calls × ρ) : F.Append where
  record := p.2
  written := (L.append p.1 p.2).2
  succeeded := (L.append p.1 p.2).1.isNone
  whole h := L.whole p.1 p.2 (Option.isNone_iff_eq_none.1 h)

/-- The appends of a run, whoever makes them, in the order of their writes. -/
def run (appends : List (Calls × ρ)) : List F.Append := appends.map L.attempt

/-- The log file after a run. -/
def file (appends : List (Calls × ρ)) : Bytes := LineFormat.file (L.run appends)

/-- Every record whose append returned no error is found in the file, as the line that its append
has completed. -/
def Recoverable (appends : List (Calls × ρ)) : Prop := LineFormat.Recoverable (L.run appends)

theorem recoverable_iff (appends : List (Calls × ρ)) :
    L.Recoverable appends ↔ ∀ pre calls rec post, appends = pre ++ (calls, rec) :: post →
      (L.append calls rec).1 = none → openLine (L.file pre) = [] ∧ F.back rec = rec := by
  rw [Recoverable, LineFormat.recoverable_iff]
  constructor
  · rintro h pre calls rec post rfl hok
    exact h (L.run pre) (L.attempt (calls, rec)) (L.run post) (by simp [run])
      (Option.isNone_iff_eq_none.2 hok)
  · intro h pre a post hrun hok
    obtain ⟨pre, tail, rfl, rfl, htail⟩ := List.map_eq_append_iff.1 hrun
    obtain ⟨⟨calls, rec⟩, post, rfl, rfl, rfl⟩ := List.map_eq_cons_iff.1 htail
    exact h pre calls rec post rfl (Option.isNone_iff_eq_none.1 hok)

end Logger

/-- **When the audit logs can be read back.** For every run of appends to either log, by any number
of processes and with any calls failing: each record whose append returned no error is found as one
complete line that decodes to it, if and only if every such append found the file ending with a
complete line and its record has texts in valid UTF-8. -/
theorem records_found_iff (appends : List (Calls × Record))
    (mutations : List (Calls × MutationRecord)) :
    (JSONLLogger.Recoverable appends ↔
      ∀ pre calls rec post, appends = pre ++ (calls, rec) :: post →
        (JSONLLogger.append calls rec).1 = none →
          openLine (JSONLLogger.file pre) = [] ∧ rec.Valid) ∧
    (MutationJSONLLogger.Recoverable mutations ↔
      ∀ pre calls rec post, mutations = pre ++ (calls, rec) :: post →
        (MutationJSONLLogger.append calls rec).1 = none →
          openLine (MutationJSONLLogger.file pre) = [] ∧ rec.Valid) := by
  constructor
  · rw [Logger.recoverable_iff]
    simp only [← Record.toValid_eq_self_iff]
    rfl
  · rw [Logger.recoverable_iff]
    simp only [← MutationRecord.toValid_eq_self_iff]
    rfl

/-- The record of a start, for a project. -/
def demoRecord (runID project : Bytes) : Record :=
  .start runID ⟨str "2026-07-01T10:00:00Z", by decide +kernel⟩
    ⟨project, str "/srv/app", [str "deploy"]⟩

/-- A start whose write fails after its first byte hides the start that is recorded after it; and a
project name that is no UTF-8 is not found as it was. -/
theorem torn_write_hides_next :
    ¬ JSONLLogger.Recoverable [({ write := some (1, str "no space left on device") },
        demoRecord (str "00") (str "app")), ({}, demoRecord (str "01") (str "app"))] ∧
      ¬ JSONLLogger.Recoverable [({}, demoRecord (str "00") [0xFF])] := by
  constructor
  · intro h
    have hopen := ((JSONLLogger.recoverable_iff _).1 h [_] _ _ [] rfl rfl).1
    exact absurd hopen (by decide +kernel)
  · intro h
    have hback := ((JSONLLogger.recoverable_iff _).1 h [] _ _ [] rfl rfl).2
    exact absurd hback (by decide +kernel)

end SecretsBroker.Audit
