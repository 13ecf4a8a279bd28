import SecretsBroker.Foundations.Base64
import SecretsBroker.Foundations.Interaction
import SecretsBroker.Foundations.Quote
import SecretsBroker.Worker.Protocol

/-!
# The frames that the worker sends back

`internal/worker`: the frames that `Server.Serve` writes for the output of a command and for its
result, and `Client.Run`, which starts the worker, sends the request, decodes the frames until the
stream ends and waits for the worker. `Client.run` is a program over the calls that can fail; what
the worker's standard output delivers is the answer to one of them (`Reader`), since nothing that
the client does after its request has an effect on it.

`frame_protocol` is the contract of the two sides: a stream that is complete carries the output and
the result, and no stream that breaks off earlier, or that has an error frame or a frame of an
unknown type in it, is taken for a result.
-/

namespace SecretsBroker.Worker

open Interaction

structure Result where
  denied : Bool
  reason : Bytes
  cause : Bytes
  exitCode : Int64
  deriving DecidableEq

def Result.zero : Result := ⟨false, [], [], 0⟩

structure Frame where
  type : Bytes
  data : Bytes
  result : Option Result
  message : Bytes
  deriving DecidableEq

def Frame.zero : Frame := ⟨[], [], none, []⟩

def frameStdout : Bytes := str "stdout"
def frameStderr : Bytes := str "stderr"
def frameResult : Bytes := str "result"
def frameError : Bytes := str "error"

def resultFields : List (Json.Field Result) :=
  [.of (str "denied") Result.denied (fun r b => { r with denied := b }) .bool,
    .of (str "reason") Result.reason (fun r s => { r with reason := s }) (.omitEmpty .string []),
    .of (str "cause") Result.cause (fun r s => { r with cause := s }) (.omitEmpty .string []),
    .of (str "exit_code") Result.exitCode (fun r n => { r with exitCode := n }) .int]

def frameFields : List (Json.Field Frame) :=
  [.of (str "type") Frame.type (fun f s => { f with type := s }) .string,
    .of (str "data") Frame.data (fun f b => { f with data := b }) (.omitEmpty .bytes []),
    .of (str "result") Frame.result (fun f r => { f with result := r })
      (.pointer (.struct false resultFields) Result.zero),
    .of (str "message") Frame.message (fun f s => { f with message := s }) (.omitEmpty .string [])]

/-! ## The worker's side -/

/-- The two streams of a command. -/
inductive Stream
  | stdout
  | stderr
  deriving DecidableEq

/-- The type of the frames of a stream. -/
def Stream.frameType : Stream → Bytes
  | .stdout => frameStdout
  | .stderr => frameStderr

/-- The JSON of a frame. -/
def Frame.text (f : Frame) : Bytes := Json.encodeStruct frameFields f

/-- `encoder.Encode`: the JSON and a newline. -/
def Frame.encode (f : Frame) : Bytes := f.text ++ [0x0A]

/-- What `frameWriter.Write` sends for some bytes of a stream. -/
def Frame.chunk (c : Stream × Bytes) : Frame := ⟨c.1.frameType, c.2, none, []⟩

def Frame.ofResult (r : Result) : Frame := ⟨frameResult, [], some r, []⟩

/-- The frames of the output of a command. -/
def encodeChunks (chunks : List (Stream × Bytes)) : Bytes :=
  chunks.flatMap fun c => (Frame.chunk c).encode

/-- What a command has written to a stream. -/
def outputOf (s : Stream) (chunks : List (Stream × Bytes)) : Bytes :=
  chunks.flatMap fun c => if c.1 = s then c.2 else []

/-! ## The client's side -/

/-- How the frames of a stream end: at its end, or with an error of the decoder. -/
inductive Ending
  | eof
  | failed
  deriving DecidableEq

/-- A value that is complete only when the next byte is seen. -/
def isOpenEnded : Json → Bool
  | .null | .bool _ | .number _ => true
  | _ => false

/-- The frames that the decoder finds. A value is a frame also if it is followed by anything. -/
def decodeFramesAux (err : Option Bytes) : ℕ → Bytes → List Frame × Ending
  | 0, _ => ([], .failed)
  | n + 1, s =>
    match Json.parse s with
    | none => ([], if Json.skipSpace s = [] ∧ err = none then .eof else .failed)
    | some (j, rest) =>
      if isOpenEnded j ∧ rest = [] ∧ err ≠ none then ([], .failed)
      else
        match Json.decodeStruct false frameFields Frame.zero j with
        | none => ([], .failed)
        | some f => (f :: (decodeFramesAux err n rest).1, (decodeFramesAux err n rest).2)

def decodeFrames (r : Reader) : List Frame × Ending :=
  decodeFramesAux r.err (r.data.length + 1) r.data

/-- The calls of `Client.Run` that can fail. -/
inductive ClientCall
  | stdinPipe
  | stdoutPipe
  | start
  /-- The request is written to the worker's standard input. -/
  | send (data : Bytes)
  | closeStdin
  /-- What the worker's standard output delivers. -/
  | output
  | write (s : Stream) (data : Bytes)
  | wait

abbrev ClientCall.Answer : ClientCall → Type
  | .output => Reader
  | _ => Option Bytes

abbrev ClientProgram := Prog ClientCall ClientCall.Answer

/-- The errors of `Client.Run`. What the decoder itself reports is left open. -/
inductive ClientError
  | openingStdin (err : Bytes)
  | openingStdout (err : Bytes)
  | starting (err : Bytes)
  | sending (err : Bytes)
  | closing (err : Bytes)
  | decoding
  | writing (s : Stream) (err : Bytes)
  | worker (message : Bytes)
  | unknownType (type : Bytes)
  | noResult (err : Option Bytes)
  | afterResult (err : Bytes)

def ClientError.text [Unicode] : ClientError → Bytes
  | .openingStdin err => str "opening worker stdin: " ++ err
  | .openingStdout err => str "opening worker stdout: " ++ err
  | .starting err => str "starting worker: " ++ err
  | .sending err => str "sending worker request: " ++ err
  | .closing err => str "closing worker request: " ++ err
  | .decoding => str "decoding worker response: "
  | .writing s err => str "writing command " ++ s.frameType ++ str ": " ++ err
  | .worker message => str "worker: " ++ message
  | .unknownType type => str "worker returned unknown frame type " ++ quote type
  | .noResult none => str "worker exited without a result"
  | .noResult (some err) => str "worker exited without a result: " ++ err
  | .afterResult err => str "worker exited after returning a result: " ++ err

/-- `_ = cmd.Wait()` before an error is returned. -/
def giveUp {α : Type} (err : ClientError) : ClientProgram (Except ClientError α) := do
  let _ ← Prog.ask ClientCall.wait
  pure (.error err)

/-- The loop over the frames: the last result, or an error. -/
def receive (ending : Ending) :
    List Frame → Option Result → ClientProgram (Except ClientError (Option Result))
  | [], result =>
    match ending with
    | .eof => pure (.ok result)
    | .failed => giveUp .decoding
  | f :: frames, result =>
    if f.type = frameStdout then do
      match ← Prog.ask (ClientCall.write .stdout f.data) with
      | some err => giveUp (.writing .stdout err)
      | none => receive ending frames result
    else if f.type = frameStderr then do
      match ← Prog.ask (ClientCall.write .stderr f.data) with
      | some err => giveUp (.writing .stderr err)
      | none => receive ending frames result
    else if f.type = frameResult then receive ending frames f.result
    else if f.type = frameError then giveUp (.worker f.message)
    else giveUp (.unknownType f.type)

/-- The end of `Client.Run`, after the last frame. -/
def finish (result : Option Result) : ClientProgram (Except ClientError Result) := do
  let waitErr ← Prog.ask ClientCall.wait
  match result, waitErr with
  | none, _ => pure (.error (.noResult waitErr))
  | some _, some err => pure (.error (.afterResult err))
  | some result, none => pure (.ok result)

/-- `Client.Run` from the moment when the request was sent. -/
def Client.collect : ClientProgram (Except ClientError Result) := do
  let r ← Prog.ask ClientCall.output
  match ← receive (decodeFrames r).2 (decodeFrames r).1 none with
  | .error err => pure (.error err)
  | .ok result => finish result

/-- `Client.Run` -/
def Client.run (req : Request) : ClientProgram (Except ClientError Result) := do
  match ← Prog.ask ClientCall.stdinPipe with
  | some err => pure (.error (.openingStdin err))
  | none =>
    match ← Prog.ask ClientCall.stdoutPipe with
    | some err => pure (.error (.openingStdout err))
    | none =>
      match ← Prog.ask ClientCall.start with
      | some err => pure (.error (.starting err))
      | none =>
        match ← Prog.ask (ClientCall.send (encodeRequest req)) with
        | some err =>
          let _ ← Prog.ask ClientCall.closeStdin
          giveUp (.sending err)
        | none =>
          match ← Prog.ask ClientCall.closeStdin with
          | some err => giveUp (.closing err)
          | none => Client.collect

/-! ## Frames are read back -/

/-- The texts of a result are UTF-8, as all the texts that the server uses are. -/
def Result.Valid (r : Result) : Prop := Utf8.Valid r.reason ∧ Utf8.Valid r.cause

instance (r : Result) : Decidable r.Valid := inferInstanceAs (Decidable (_ ∧ _))

theorem distinct_resultFields : Json.Distinct resultFields := by decide +kernel

theorem distinct_frameFields : Json.Distinct frameFields := by decide +kernel

theorem carried_result {r : Result} (h : r.Valid) : Json.Carried r resultFields Result.zero r := by
  have hreason : Utf8.toValid r.reason = r.reason := (Utf8.toValid_eq_self_iff _).2 h.1
  have hcause : Utf8.toValid r.cause = r.cause := (Utf8.toValid_eq_self_iff _).2 h.2
  refine .of (Json.Kind.carries_bool _ r.denied) rfl ?_
  refine .of (Json.Kind.carries_string_omitEmpty r.reason) rfl ?_
  refine .of (Json.Kind.carries_string_omitEmpty r.cause) rfl ?_
  refine .of (Json.Kind.carries_int _ r.exitCode) rfl ?_
  rw [hreason, hcause]
  exact .nil _

/-- A frame comes back from its JSON. -/
def Frame.ReadsBack (f : Frame) : Prop :=
  ∃ ms k, Json.Reads f.text (.object ms) k ∧
    Json.decodeStruct false frameFields Frame.zero (.object ms) = some f

theorem readsBack_of_carried {f : Frame} (h : Json.Carried f frameFields Frame.zero f) :
    f.ReadsBack := h.decode distinct_frameFields false

theorem readsBack_chunk (c : Stream × Bytes) : (Frame.chunk c).ReadsBack := by
  have htype : Utf8.toValid c.1.frameType = c.1.frameType := by
    cases c.1 <;> decide +kernel
  apply readsBack_of_carried
  refine .of (Json.Kind.carries_string _ _) rfl ?_
  refine .of (Json.Kind.carries_bytes_omitEmpty _) rfl ?_
  refine .of (Json.Kind.carries_pointer_none _ _) rfl ?_
  refine .of (Json.Kind.carries_string_omitEmpty _) rfl ?_
  simp only [Frame.chunk, htype]
  exact .nil _

theorem readsBack_ofResult {r : Result} (h : r.Valid) : (Frame.ofResult r).ReadsBack := by
  obtain ⟨ms, k, hreads, hdecode⟩ := (carried_result h).decode distinct_resultFields false
  have htype : Utf8.toValid frameResult = frameResult := by decide +kernel
  apply readsBack_of_carried
  refine .of (Json.Kind.carries_string _ _) rfl ?_
  refine .of (Json.Kind.carries_bytes_omitEmpty _) rfl ?_
  refine .of (Json.Kind.carries_pointer_some rfl hreads.inside (by simp) hdecode) rfl ?_
  refine .of (Json.Kind.carries_string_omitEmpty _) rfl ?_
  simp only [Frame.ofResult, htype]
  exact .nil _

/-- More fuel than bytes does not matter. -/
theorem decodeFramesAux_of_lt {err : Option Bytes} {n : ℕ} {s : Bytes} (h : s.length < n) :
    decodeFramesAux err n s = decodeFrames ⟨s, err⟩ := by
  suffices key : ∀ m, s.length < m → decodeFramesAux err n s = decodeFramesAux err m s from
    key _ (Nat.lt_succ_self _)
  induction n generalizing s with
  | zero => omega
  | succ n ih =>
    intro m hm
    obtain ⟨m, rfl⟩ : ∃ k, m = k + 1 := ⟨m - 1, by omega⟩
    rw [decodeFramesAux, decodeFramesAux]
    cases hp : Json.parse s with
    | none => rfl
    | some p =>
      obtain ⟨j, rest⟩ := p
      have hlen := Json.length_of_parse hp
      have hrest := ih (s := rest) (by omega) m (by omega)
      simp only [hrest]

/-- The first frame of a stream. -/
theorem decodeFrames_frame {f : Frame} (h : f.ReadsBack) (rest : Bytes) (err : Option Bytes) :
    decodeFrames ⟨f.text ++ rest, err⟩ =
      (f :: (decodeFrames ⟨rest, err⟩).1, (decodeFrames ⟨rest, err⟩).2) := by
  obtain ⟨ms, k, hreads, hdecode⟩ := h
  have hparse := hreads.parse rest
  have hlen := Json.length_of_parse hparse
  have hfuel : decodeFramesAux err (f.text ++ rest).length rest = decodeFrames ⟨rest, err⟩ :=
    decodeFramesAux_of_lt hlen
  rw [decodeFrames, decodeFramesAux, hparse]
  simp only [isOpenEnded, Bool.false_eq_true, false_and, if_false, hdecode, hfuel]

/-- White space before a stream does not count. -/
theorem decodeFrames_newline (rest : Bytes) (err : Option Bytes) :
    decodeFrames ⟨0x0A :: rest, err⟩ = decodeFrames ⟨rest, err⟩ := by
  have hparse : Json.parse (0x0A :: rest) = Json.parse rest := Json.parse_space rfl rest
  have hskip : Json.skipSpace (0x0A :: rest) = Json.skipSpace rest := rfl
  have hfuel : decodeFramesAux err (rest.length + 1 + 1) rest = decodeFrames ⟨rest, err⟩ :=
    decodeFramesAux_of_lt (by omega)
  rw [← hfuel]
  change decodeFramesAux err (rest.length + 1 + 1) (0x0A :: rest) = _
  rw [decodeFramesAux, decodeFramesAux, hparse, hskip]

theorem decodeFrames_encode {f : Frame} (h : f.ReadsBack) (rest : Bytes) (err : Option Bytes) :
    decodeFrames ⟨f.encode ++ rest, err⟩ =
      (f :: (decodeFrames ⟨rest, err⟩).1, (decodeFrames ⟨rest, err⟩).2) := by
  rw [Frame.encode, List.append_assoc, decodeFrames_frame h, List.singleton_append,
    decodeFrames_newline]

theorem decodeFrames_chunks (chunks : List (Stream × Bytes)) (rest : Bytes) (err : Option Bytes) :
    decodeFrames ⟨encodeChunks chunks ++ rest, err⟩ =
      (chunks.map Frame.chunk ++ (decodeFrames ⟨rest, err⟩).1, (decodeFrames ⟨rest, err⟩).2) := by
  induction chunks with
  | nil => rfl
  | cons c chunks ih =>
    have hcons : encodeChunks (c :: chunks) ++ rest =
        (Frame.chunk c).encode ++ (encodeChunks chunks ++ rest) := by simp [encodeChunks]
    rw [hcons, decodeFrames_encode (readsBack_chunk c), ih]
    rfl

/-- A text that breaks off before the end of a frame has no frame. -/
theorem decodeFrames_truncated {f : Frame} (h : f.ReadsBack) {p : Bytes} (hp : p <+: f.text)
    (hne : p ≠ f.text) (err : Option Bytes) : (decodeFrames ⟨p, err⟩).1 = [] := by
  obtain ⟨ms, k, hreads, -⟩ := h
  have hparse : Json.parse p = none := Json.parse_truncated hreads hp hne
  rw [decodeFrames, decodeFramesAux, hparse]

/-- **A stream that breaks off before the end of the last frame has only frames of output.** -/
theorem decodeFrames_cut {chunks : List (Stream × Bytes)} {last : Frame} (h : last.ReadsBack)
    {p : Bytes} (hp : p <+: encodeChunks chunks ++ last.text)
    (hne : p ≠ encodeChunks chunks ++ last.text) (err : Option Bytes) :
    ∀ f ∈ (decodeFrames ⟨p, err⟩).1, ∃ c, f = Frame.chunk c := by
  induction chunks generalizing p with
  | nil =>
    rw [decodeFrames_truncated h hp hne]
    simp
  | cons c chunks ih =>
    have hcons : encodeChunks (c :: chunks) ++ last.text =
        (Frame.chunk c).text ++ 0x0A :: (encodeChunks chunks ++ last.text) := by
      simp [encodeChunks, Frame.encode]
    rw [hcons] at hp hne
    have hback := readsBack_chunk c
    -- the frame alone, without its newline
    have hwhole : ∀ f ∈ (decodeFrames ⟨(Frame.chunk c).text, err⟩).1, ∃ c, f = Frame.chunk c := by
      have hframe := decodeFrames_frame hback [] err
      rw [List.append_nil] at hframe
      have hempty : (decodeFrames ⟨[], err⟩).1 = [] := rfl
      rw [hframe, hempty]
      intro f hf
      exact ⟨c, List.mem_singleton.1 hf⟩
    obtain ⟨t, ht⟩ := hp
    rcases List.append_eq_append_iff.1 ht with ⟨a, htext, -⟩ | ⟨a, rfl, ha⟩
    · by_cases hwholly : p = (Frame.chunk c).text
      · rw [hwholly]
        exact hwhole
      · rw [decodeFrames_truncated hback ⟨a, htext.symm⟩ hwholly]
        simp
    · cases a with
      | nil =>
        rw [List.append_nil]
        exact hwhole
      | cons b q =>
        obtain ⟨rfl, hq⟩ := List.cons.inj ha
        have hrest := ih ⟨t, hq.symm⟩ fun heq => hne (by rw [heq])
        rw [decodeFrames_frame hback, decodeFrames_newline]
        intro f hf
        rcases List.mem_cons.1 hf with rfl | hf
        · exact ⟨c, rfl⟩
        · exact hrest f hf

/-! ## What the client makes of the frames -/

/-- The call has failed. -/
def Fails : Event ClientCall.Answer → Prop
  | ⟨.output, _⟩ => False
  | ⟨.stdinPipe, r⟩ | ⟨.stdoutPipe, r⟩ | ⟨.start, r⟩ | ⟨.send _, r⟩ | ⟨.closeStdin, r⟩
  | ⟨.write _ _, r⟩ | ⟨.wait, r⟩ => r ≠ none

/-- What was written to a stream of the caller. -/
def written (s : Stream) (tr : Trace ClientCall.Answer) : Bytes :=
  tr.flatMap fun ev =>
    match ev with
    | ⟨.write s' data, _⟩ => if s' = s then data else []
    | _ => []

theorem runs_giveUp {α : Type} {err : ClientError} {tr : Trace ClientCall.Answer}
    {out : Except ClientError α} (h : Runs (giveUp err) tr out) : out = .error err := by
  obtain ⟨r, tr', -, h⟩ := runs_ask_bind.1 h
  exact (runs_pure.1 h).2

/-- A frame of output is written to its stream. -/
theorem runs_receive_chunk {ending : Ending} {c : Stream × Bytes} {frames : List Frame}
    {result : Option Result} {tr : Trace ClientCall.Answer}
    {out : Except ClientError (Option Result)}
    (h : Runs (receive ending (Frame.chunk c :: frames) result) tr out) :
    (∃ tr' err, tr = ⟨.write c.1 c.2, some err⟩ :: tr' ∧ out = .error (.writing c.1 err)) ∨
      ∃ tr', tr = ⟨.write c.1 c.2, none⟩ :: tr' ∧ Runs (receive ending frames result) tr' out := by
  have hne : frameStderr ≠ frameStdout := by decide +kernel
  obtain ⟨s, data⟩ := c
  cases s with
  | stdout =>
    rw [receive, Frame.chunk, Stream.frameType, if_pos rfl] at h
    obtain ⟨answer, tr', htr, hrest⟩ := runs_ask_bind.1 h
    cases answer with
    | some err => exact .inl ⟨tr', err, htr, runs_giveUp hrest⟩
    | none => exact .inr ⟨tr', htr, hrest⟩
  | stderr =>
    rw [receive, Frame.chunk, Stream.frameType, if_neg hne, if_pos rfl] at h
    obtain ⟨answer, tr', htr, hrest⟩ := runs_ask_bind.1 h
    cases answer with
    | some err => exact .inl ⟨tr', err, htr, runs_giveUp hrest⟩
    | none => exact .inr ⟨tr', htr, hrest⟩

/-- The frames of a command's output and of its result, while every write succeeds. -/
theorem receive_chunks {chunks : List (Stream × Bytes)} {result : Option Result} {r : Result}
    {tr : Trace ClientCall.Answer} {out : Except ClientError (Option Result)}
    (h : Runs (receive .eof (chunks.map Frame.chunk ++ [Frame.ofResult r]) result) tr out)
    (hok : ∀ ev ∈ tr, ¬ Fails ev) :
    out = .ok (some r) ∧ ∀ s, written s tr = outputOf s chunks := by
  induction chunks generalizing tr result with
  | nil =>
    have hne : frameResult ≠ frameStdout ∧ frameResult ≠ frameStderr := by decide +kernel
    simp only [List.map_nil, List.nil_append, receive, Frame.ofResult, hne.1, hne.2, if_false,
      if_true] at h
    obtain ⟨rfl, rfl⟩ := runs_pure.1 h
    exact ⟨rfl, fun s => rfl⟩
  | cons c chunks ih =>
    rcases runs_receive_chunk h with ⟨tr', err, rfl, -⟩ | ⟨tr', rfl, hrest⟩
    · have hfails : Fails ⟨.write c.1 c.2, some err⟩ := by simp [Fails]
      exact absurd hfails (hok _ List.mem_cons_self)
    obtain ⟨hout, hwritten⟩ := ih hrest fun ev hev => hok ev (by simp [hev])
    refine ⟨hout, fun s' => ?_⟩
    have htail := hwritten s'
    simp only [written, outputOf, List.flatMap_cons] at htail ⊢
    rw [htail]

/-- Frames of output alone give no result. -/
theorem receive_output {frames : List Frame} (hf : ∀ f ∈ frames, ∃ c, f = Frame.chunk c)
    {ending : Ending} {tr : Trace ClientCall.Answer} {out : Except ClientError (Option Result)}
    (h : Runs (receive ending frames none) tr out) : ∀ r, out ≠ .ok (some r) := by
  induction frames generalizing tr with
  | nil =>
    intro r
    cases ending with
    | eof =>
      obtain ⟨-, rfl⟩ := runs_pure.1 h
      simp
    | failed =>
      rw [runs_giveUp h]
      simp
  | cons f frames ih =>
    obtain ⟨c, rfl⟩ := hf f (by simp)
    rcases runs_receive_chunk h with ⟨tr', err, -, rfl⟩ | ⟨tr', -, hrest⟩
    · simp
    · exact ih (fun f hf' => hf f (by simp [hf'])) hrest

/-- A frame of another type ends the loop with an error, wherever it stands. -/
theorem receive_foreign {frames : List Frame} {f : Frame} (hf : f ∈ frames)
    (htype : f.type ∉ [frameStdout, frameStderr, frameResult]) {ending : Ending}
    {result : Option Result} {tr : Trace ClientCall.Answer}
    {out : Except ClientError (Option Result)} (h : Runs (receive ending frames result) tr out) :
    ∃ err, out = .error err := by
  induction frames generalizing tr result with
  | nil => simp at hf
  | cons g frames ih =>
    by_cases hg : f = g
    · subst hg
      simp only [List.mem_cons, List.not_mem_nil, or_false, not_or] at htype
      simp only [receive, htype.1, htype.2.1, htype.2.2, if_false] at h
      split_ifs at h
      · exact ⟨_, runs_giveUp h⟩
      · exact ⟨_, runs_giveUp h⟩
    have hrest : f ∈ frames := by
      rcases List.mem_cons.1 hf with heq | hf
      · exact absurd heq hg
      · exact hf
    rw [receive] at h
    split_ifs at h with h₁ h₂ h₃ h₄
    · obtain ⟨answer, tr', -, hwritten⟩ := runs_ask_bind.1 h
      cases answer with
      | some err => exact ⟨_, runs_giveUp hwritten⟩
      | none => exact ih hrest hwritten
    · obtain ⟨answer, tr', -, hwritten⟩ := runs_ask_bind.1 h
      cases answer with
      | some err => exact ⟨_, runs_giveUp hwritten⟩
      | none => exact ih hrest hwritten
    · exact ih hrest h
    · exact ⟨_, runs_giveUp h⟩
    · exact ⟨_, runs_giveUp h⟩

/-- A run either fails before it reads the worker's output, or it collects it. -/
theorem run_cases {req : Request} {tr : Trace ClientCall.Answer} {out : Except ClientError Result}
    (h : Runs (Client.run req) tr out) :
    (∀ r, ⟨.output, r⟩ ∉ tr) ∨
      ∃ rest, tr = [⟨.stdinPipe, none⟩, ⟨.stdoutPipe, none⟩, ⟨.start, none⟩,
          ⟨.send (encodeRequest req), none⟩, ⟨.closeStdin, none⟩] ++ rest ∧
        Runs Client.collect rest out := by
  obtain ⟨r₁, tr₁, rfl, h₁⟩ := runs_ask_bind.1 h
  cases r₁ with
  | some err =>
    obtain ⟨rfl, -⟩ := runs_pure.1 h₁
    exact .inl (by simp)
  | none =>
  obtain ⟨r₂, tr₂, rfl, h₂⟩ := runs_ask_bind.1 h₁
  cases r₂ with
  | some err =>
    obtain ⟨rfl, -⟩ := runs_pure.1 h₂
    exact .inl (by simp)
  | none =>
  obtain ⟨r₃, tr₃, rfl, h₃⟩ := runs_ask_bind.1 h₂
  cases r₃ with
  | some err =>
    obtain ⟨rfl, -⟩ := runs_pure.1 h₃
    exact .inl (by simp)
  | none =>
  obtain ⟨r₄, tr₄, rfl, h₄⟩ := runs_ask_bind.1 h₃
  cases r₄ with
  | some err =>
    obtain ⟨r₅, tr₅, rfl, h₅⟩ := runs_ask_bind.1 h₄
    obtain ⟨r₆, tr₆, rfl, h₆⟩ := runs_ask_bind.1 h₅
    obtain ⟨rfl, -⟩ := runs_pure.1 h₆
    exact .inl (by simp)
  | none =>
  obtain ⟨r₅, tr₅, rfl, h₅⟩ := runs_ask_bind.1 h₄
  cases r₅ with
  | some err =>
    obtain ⟨r₆, tr₆, rfl, h₆⟩ := runs_ask_bind.1 h₅
    obtain ⟨rfl, -⟩ := runs_pure.1 h₆
    exact .inl (by simp)
  | none => exact .inr ⟨tr₅, rfl, h₅⟩

/-- The loop reads nothing more. -/
theorem receive_only (ending : Ending) (frames : List Frame) (result : Option Result) :
    Only (fun c => c ≠ ClientCall.output) (receive ending frames result) := by
  have hgive : ∀ {α : Type} (err : ClientError),
      Only (fun c => c ≠ ClientCall.output) (giveUp err : ClientProgram (Except ClientError α)) :=
    fun err => only_ask_bind (by simp) fun _ => trivial
  induction frames generalizing result with
  | nil =>
    cases ending with
    | eof => trivial
    | failed => exact hgive _
  | cons f frames ih =>
    rw [receive]
    split_ifs
    · refine only_ask_bind (by simp) fun answer => ?_
      cases answer with
      | some err => exact hgive _
      | none => exact ih _
    · refine only_ask_bind (by simp) fun answer => ?_
      cases answer with
      | some err => exact hgive _
      | none => exact ih _
    · exact ih _
    · exact hgive _
    · exact hgive _

/-- A run that reads the worker's output, in its parts. -/
theorem run_parts {req : Request} {tr : Trace ClientCall.Answer} {out : Except ClientError Result}
    {r : Reader} (h : Runs (Client.run req) tr out) (hr : ⟨.output, r⟩ ∈ tr) :
    ∃ tr₁ tr₂ received, (∀ s, written s tr = written s tr₁) ∧ (∀ ev ∈ tr₁ ++ tr₂, ev ∈ tr) ∧
      Runs (receive (decodeFrames r).2 (decodeFrames r).1 none) tr₁ received ∧
      ((∃ err, received = .error err ∧ out = .error err) ∨
        ∃ result, received = .ok result ∧
          ∃ waitErr, tr₂ = [⟨.wait, waitErr⟩] ∧ Runs (finish result) tr₂ out) := by
  rcases run_cases h with hno | ⟨rest, rfl, hcollect⟩
  · exact absurd hr (hno r)
  obtain ⟨r', tr', rfl, hafter⟩ := runs_ask_bind.1 hcollect
  obtain ⟨tr₁, tr₂, received, rfl, hreceive, hend⟩ := runs_bind.1 hafter
  have hloop := (receive_only _ _ _).of_runs hreceive
  -- the answer in the trace is the one that was decoded
  have hsame : ∀ hno : ⟨.output, r⟩ ∉ tr₂, r = r' := by
    intro hno
    simp only [List.cons_append, List.nil_append, List.mem_cons, List.mem_append] at hr
    rcases hr with hr | hr | hr | hr | hr | hr | hr | hr
    · simp at hr
    · simp at hr
    · simp at hr
    · simp at hr
    · simp at hr
    · simpa using hr
    · exact absurd rfl (hloop _ hr)
    · exact absurd hr hno
  have hsub : ∀ ev ∈ tr₁ ++ tr₂, ev ∈ ([⟨.stdinPipe, none⟩, ⟨.stdoutPipe, none⟩, ⟨.start, none⟩,
      ⟨.send (encodeRequest req), none⟩, ⟨.closeStdin, none⟩] ++
        ⟨.output, r'⟩ :: (tr₁ ++ tr₂) : Trace ClientCall.Answer) := by
    intro ev hev
    exact List.mem_append_right _ (List.mem_cons_of_mem _ hev)
  cases received with
  | error err =>
    obtain ⟨rfl, rfl⟩ := runs_pure.1 hend
    obtain rfl := hsame (by simp)
    refine ⟨tr₁, [], .error err, fun s => ?_, hsub, hreceive, .inl ⟨err, rfl, rfl⟩⟩
    simp [written]
  | ok result =>
    obtain ⟨waitErr, tr₃, rfl, hwait⟩ := runs_ask_bind.1 hend
    obtain rfl : tr₃ = [] := by
      cases result <;> cases waitErr <;> exact (runs_pure.1 hwait).1
    obtain rfl := hsame (by simp)
    refine ⟨tr₁, [⟨.wait, waitErr⟩], .ok result, fun s => ?_, hsub, hreceive,
      .inr ⟨result, rfl, waitErr, rfl, hend⟩⟩
    simp [written]

/-- No result is returned where the loop has found none. -/
theorem error_of_receive {req : Request} {tr : Trace ClientCall.Answer}
    {out : Except ClientError Result} {r : Reader} (h : Runs (Client.run req) tr out)
    (hr : ⟨.output, r⟩ ∈ tr)
    (hnone : ∀ tr' received,
      Runs (receive (decodeFrames r).2 (decodeFrames r).1 none) tr' received →
        ∀ result, received ≠ .ok (some result)) : ∃ err, out = .error err := by
  obtain ⟨tr₁, tr₂, received, -, -, hreceive, hend⟩ := run_parts h hr
  rcases hend with ⟨err, -, rfl⟩ | ⟨result, rfl, waitErr, rfl, hfinish⟩
  · exact ⟨err, rfl⟩
  · cases result with
    | some result => exact absurd rfl (hnone tr₁ _ hreceive result)
    | none =>
      obtain ⟨waitErr', tr', -, hlast⟩ := runs_ask_bind.1 hfinish
      exact ⟨_, (runs_pure.1 hlast).2⟩

/-- **The contract of the frame stream.** If the worker's output is the frames of any chunks and of
a result, and nothing fails, the client writes to each stream exactly what the command wrote to it
and returns the result. If the output breaks off before the end of the result frame, or if a frame
of another type is in it, the client returns an error, whatever else happens. -/
theorem frame_protocol (req : Request) (chunks : List (Stream × Bytes)) {result : Result}
    (hvalid : result.Valid) {tr : Trace ClientCall.Answer} {out : Except ClientError Result}
    (h : Runs (Client.run req) tr out) {data : Bytes} {err : Option Bytes}
    (houtput : ⟨.output, ⟨data, err⟩⟩ ∈ tr) :
    (data = encodeChunks chunks ++ (Frame.ofResult result).encode → err = none →
        (∀ ev ∈ tr, ¬ Fails ev) → out = .ok result ∧ ∀ s, written s tr = outputOf s chunks) ∧
      (data <+: encodeChunks chunks ++ (Frame.ofResult result).text →
        data ≠ encodeChunks chunks ++ (Frame.ofResult result).text → ∃ e, out = .error e) ∧
      ((∃ f ∈ (decodeFrames ⟨data, err⟩).1, f.type ∉ [frameStdout, frameStderr, frameResult]) →
        ∃ e, out = .error e) := by
  have hback := readsBack_ofResult hvalid
  refine ⟨?_, ?_, ?_⟩
  · rintro rfl rfl hok
    obtain ⟨tr₁, tr₂, received, hwritten, hsub, hreceive, hend⟩ := run_parts h houtput
    have hframes := decodeFrames_chunks chunks (Frame.ofResult result).encode none
    have hlast := decodeFrames_encode hback [] none
    rw [List.append_nil] at hlast
    have hempty : decodeFrames ⟨[], none⟩ = ([], .eof) := rfl
    rw [hempty] at hlast
    rw [hlast] at hframes
    rw [hframes] at hreceive
    obtain ⟨rfl, hstreams⟩ := receive_chunks hreceive fun ev hev => hok ev (hsub ev (by simp [hev]))
    refine ⟨?_, fun s => (hwritten s).trans (hstreams s)⟩
    rcases hend with ⟨e, he, -⟩ | ⟨found, hfound, waitErr, rfl, hfinish⟩
    · simp at he
    · obtain rfl := Except.ok.inj hfound
      obtain ⟨waitErr', tr', htr, hreturn⟩ := runs_ask_bind.1 hfinish
      obtain ⟨heq, rfl⟩ := List.cons.inj htr
      cases heq
      cases waitErr with
      | none => exact (runs_pure.1 hreturn).2
      | some e =>
        have hfails : Fails ⟨.wait, some e⟩ := by simp [Fails]
        exact absurd hfails (hok _ (hsub _ (by simp)))
  · intro hp hne
    exact error_of_receive h houtput fun tr' received hreceive =>
      receive_output (decodeFrames_cut hback hp hne err) hreceive
  · rintro ⟨f, hf, htype⟩
    refine error_of_receive h houtput fun tr' received hreceive result => ?_
    obtain ⟨e, rfl⟩ := receive_foreign hf htype hreceive
    simp

/-! A command that writes to both streams and exits with 3. -/

def demoChunks : List (Stream × Bytes) :=
  [(.stdout, str "one\n"), (.stderr, str "two"), (.stdout, [0xFF, 0x00])]

def demoResult : Result := ⟨false, [], [], 3⟩

/-- Nothing fails. -/
def demoAnswer : (c : ClientCall) → c.Answer
  | .output => ⟨encodeChunks demoChunks ++ (Frame.ofResult demoResult).encode, none⟩
  | .stdinPipe | .stdoutPipe | .start | .send _ | .closeStdin | .write _ _ | .wait => none

theorem frame_protocol_exit : ∃ tr, Runs (Client.run ⟨str "app", str "/srv", [str "ls"], false⟩) tr
    (.ok demoResult) ∧ written .stdout tr = str "one\n" ++ [0xFF, 0x00] ∧
    written .stderr tr = str "two" := by
  have hrun := runs_play demoAnswer (Client.run ⟨str "app", str "/srv", [str "ls"], false⟩)
  have hok : ∀ ev ∈ ((Client.run ⟨str "app", str "/srv", [str "ls"], false⟩).play demoAnswer).1,
      ¬ Fails ev := by
    intro ev hev
    obtain ⟨c, r⟩ := ev
    obtain rfl : r = demoAnswer c := mem_play hev
    cases c <;> simp [Fails, demoAnswer]
  have houtput : (⟨.output, demoAnswer .output⟩ : Event ClientCall.Answer) ∈
      ((Client.run ⟨str "app", str "/srv", [str "ls"], false⟩).play demoAnswer).1 := by
    simp [Client.run, Client.collect, Prog.play, Prog.ask, bind, Prog.bind, demoAnswer]
  obtain ⟨hout, hwritten⟩ :=
    (frame_protocol _ demoChunks (by decide +kernel) hrun houtput).1 rfl rfl hok
  rw [hout] at hrun
  refine ⟨_, hrun, (hwritten .stdout).trans ?_, (hwritten .stderr).trans ?_⟩ <;> decide +kernel

end SecretsBroker.Worker
