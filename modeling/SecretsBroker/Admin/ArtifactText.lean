import SecretsBroker.Admin.Artifacts
import SecretsBroker.Foundations.Base64
import SecretsBroker.Foundations.Timestamp

/-!
# The text of a recovery artifact

`encoding/json` on `RecoveryArtifact`: the codec that `Publish` and `Read` use, with its fields and
their names. The messages of the decoder are a parameter. `decode_artifactOf` says what comes back
of an artifact: its digests, its policy and its time as they are, and its project up to invalid
UTF-8, which JSON cannot carry.
-/

namespace SecretsBroker.Admin

open Json Utf8 Timestamp

/-- The message of `encoding/json` for a text it cannot decode. -/
class JsonErrors where
  message : Bytes → Bytes

/-- A slice of bytes that is nil when it is empty, which is written as `null`. -/
def bytesOrNull : Kind Bytes where
  write s := if s = [] then some (str "null") else Kind.bytes.write s
  read := Kind.bytes.read

theorem carries_bytesOrNull (old s : Bytes) : bytesOrNull.Carries old s s := by
  by_cases hs : s = []
  · subst hs
    have hnull : (str "null", Json.null) ∈ literals := by simp [literals]
    exact Kind.carries_of_write (by simp [bytesOrNull]) (Kind.reads_literal hnull).inside rfl
  · obtain ⟨hout, hin⟩ := Kind.carries_bytes old s
    refine ⟨fun h => hout ?_, fun t h => hin t ?_⟩ <;> simpa [bytesOrNull, hs] using h

def artifactFields : List (Json.Field RecoveryArtifact) :=
  [.of (str "version") (fun a => Int64.ofInt a.version) (fun a n => { a with version := n.toInt })
      .int,
    .of (str "recovery_id") RecoveryArtifact.recoveryID (fun a s => { a with recoveryID := s })
      .string,
    .of (str "created_at") RecoveryArtifact.createdAt (fun a t => { a with createdAt := t }) .time,
    .of (str "project") RecoveryArtifact.project (fun a s => { a with project := s }) .string,
    .of (str "before_sha256") RecoveryArtifact.beforeSHA256
      (fun a s => { a with beforeSHA256 := s }) .string,
    .of (str "after_sha256") RecoveryArtifact.afterSHA256 (fun a s => { a with afterSHA256 := s })
      .string,
    .of (str "policy") RecoveryArtifact.policy (fun a b => { a with policy := b }) bytesOrNull]

def RecoveryArtifact.zero : RecoveryArtifact := ⟨0, [], zeroTime, [], [], [], []⟩

/-- `json.Marshal`, `Decode` with `DisallowUnknownFields`, and a second `Decode`. -/
instance [JsonErrors] : Codec where
  marshal a :=
    match rfc3339Nano a.createdAt with
    | none =>
      .error (str "json: error calling MarshalJSON for type time.Time: Time.MarshalJSON: " ++
        str "year outside of range [0,9999]")
    | some _ => .ok (encodeStruct artifactFields a)
  decode data :=
    match parse data with
    | none => .error (JsonErrors.message data)
    | some (j, rest) =>
      match decodeStruct true artifactFields .zero j with
      | none => .error (JsonErrors.message data)
      | some a => .ok (a, rest)
  trailer rest :=
    if skipSpace rest = [] then .eof
    else
      match parse rest with
      | none => .invalid (JsonErrors.message rest)
      | some _ => .value

theorem distinct_artifactFields : Distinct artifactFields := by
  decide +kernel

/-- An artifact comes back with its texts made valid. -/
theorem carried_artifact {a : RecoveryArtifact} {text : Bytes}
    (htime : rfc3339Nano a.createdAt = some text) (hversion : a.version = recoveryArtifactVersion) :
    Carried a artifactFields .zero { a with
      recoveryID := toValid a.recoveryID
      project := toValid a.project
      beforeSHA256 := toValid a.beforeSHA256
      afterSHA256 := toValid a.afterSHA256 } := by
  have hint : (Int64.ofInt a.version).toInt = a.version := by
    rw [hversion]
    rfl
  refine .of (Kind.carries_int _ _) rfl ?_
  refine .of (Kind.carries_string _ _) rfl ?_
  refine .of (Kind.carries_time htime _) rfl ?_
  refine .of (Kind.carries_string _ _) rfl ?_
  refine .of (Kind.carries_string _ _) rfl ?_
  refine .of (Kind.carries_string _ _) rfl ?_
  refine .of (carries_bytesOrNull _ _) rfl ?_
  simp only [hint]
  exact .nil _

theorem toValid_of_lowerHex {s : Bytes} (h : ∀ b ∈ s, isLowerHex b = true) : toValid s = s := by
  refine (toValid_eq_self_iff s).2 (valid_of_ascii fun b hb => ?_)
  have hall : ∀ b : UInt8, isLowerHex b = true → b.toNat < 0x80 := by
    intro b hb
    simp only [isLowerHex, Bool.or_eq_true, Bool.and_eq_true, decide_eq_true_eq,
      UInt8.le_iff_toNat_le] at hb
    rcases hb with ⟨-, hb⟩ | ⟨-, hb⟩
    · exact lt_of_le_of_lt hb (by decide)
    · exact lt_of_le_of_lt hb (by decide)
  exact hall b (h b hb)

namespace RecoveryStore

variable [JsonErrors] {input : RecoveryArtifactInput} {now : ℕ} {text : Bytes}

/-- What `Read` makes of an artifact that `Publish` has written. -/
def readBack (input : RecoveryArtifactInput) (now : ℕ) : RecoveryArtifact :=
  { artifactOf input now with project := toValid input.project }

omit [JsonErrors] in
theorem lowerHex_of_validateRecoveryID {recoveryID : Bytes}
    (h : validateRecoveryID recoveryID = .ok ()) : ∀ b ∈ recoveryID, isLowerHex b = true := by
  unfold validateRecoveryID at h
  split_ifs at h with hid
  exact List.all_eq_true.1 hid.2

/-- **What the codec gives back of an artifact.** -/
theorem decode_artifactOf (hid : validateRecoveryID input.recoveryID = .ok ())
    (h : Codec.marshal (artifactOf input now) = .ok text) :
    Codec.decode text = .ok (readBack input now, []) := by
  have hrid := toValid_of_lowerHex (lowerHex_of_validateRecoveryID hid)
  have hdigest : ∀ data, toValid (hexDigest data) = hexDigest data := fun data =>
    toValid_of_lowerHex fun _ hb => mem_hexDigest hb
  obtain ⟨a, ha⟩ : ∃ a, a = artifactOf input now := ⟨_, rfl⟩
  have hversion : a.version = recoveryArtifactVersion := by rw [ha]; rfl
  have hback : { a with
      recoveryID := toValid a.recoveryID
      project := toValid a.project
      beforeSHA256 := toValid a.beforeSHA256
      afterSHA256 := toValid a.afterSHA256 } = readBack input now := by
    simp only [ha, artifactOf, readBack, hrid, hdigest]
  rw [← ha] at h
  cases htime : rfc3339Nano a.createdAt with
  | none => simp [Codec.marshal, htime] at h
  | some time =>
    simp only [Codec.marshal, htime, Except.ok.injEq] at h
    obtain ⟨ms, k, hreads, hdecode⟩ :=
      (carried_artifact htime hversion).decode distinct_artifactFields true
    have hparse := hreads.parse []
    rw [List.append_nil] at hparse
    subst h
    simp only [Codec.decode, hparse, hdecode, hback]

theorem trailer_nil : Codec.trailer [] = .eof := rfl

omit [JsonErrors] in
theorem validateRecoveryArtifact_readBack (hproject : input.project ≠ []) :
    validateRecoveryArtifact (readBack input now) input.recoveryID = .ok () := by
  have hne : toValid input.project ≠ [] := by
    intro h
    have := length_le_toValid input.project
    rw [h, List.length_nil, Nat.le_zero, List.length_eq_zero_iff] at this
    exact hproject this
  have :=
    @validateRecoveryArtifact_artifactOf { input with project := toValid input.project } now hne
  exact this

/-- **`Read` of an artifact that is published.** -/
theorem judge_readBack [Platform] {s : RecoveryStore} {g : Files.Inode} {v : Files.Volume}
    (h : s.Published input now g v) (howner : s.euid = s.expectedOwner) :
    s.judge v.dirLink g input.recoveryID = .ok (readBack input now) :=
  judge_of_decode h howner (decode_artifactOf h.id h.text) trailer_nil
    (validateRecoveryArtifact_readBack h.project)

omit [JsonErrors] in
/-- The project is the one that was given exactly if that is valid UTF-8. -/
theorem readBack_eq_iff : readBack input now = artifactOf input now ↔ Valid input.project := by
  rw [← toValid_eq_self_iff]
  constructor
  · intro h
    exact congrArg RecoveryArtifact.project h
  · intro h
    rw [readBack, h]
    rfl

end RecoveryStore

end SecretsBroker.Admin
