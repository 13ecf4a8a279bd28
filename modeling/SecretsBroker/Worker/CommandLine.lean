import SecretsBroker.Worker.Accounting

/-!
# The command line

`secrets-broker run` (`internal/cli`): the checks of the arguments, the request to the worker, and
the exit code. Together with `Client.Run` and a session of the worker this is the whole way from
the words on a command line to the process and back.

The client and the session are connected by two pipes (`Joined`): each side reads a beginning of
what the other has written, and the worker may be cut off after any of its calls.

* `exit_status_of_command`: an exit status other than 2, 125 and 126 is that of the command, which
  was executed for the very words of the command line, behind the gate; and its output was
  delivered.
* `session_reported`: when nothing fails, the caller is told what the session ended with.
-/

namespace SecretsBroker.Worker

open Interaction

/-! ## Beginnings of a request and of an answer -/

/-- **The worker takes the whole request, or none**: what it decodes from a beginning of what the
client sends is the request, up to invalid UTF-8. -/
theorem decodeRequest_prefix {req : Request} (hargv : req.argv ≠ []) {r : Reader}
    (hp : r.data <+: encodeRequest req) {req' : Request} (h : decodeRequest r = .ok req') :
    req' = req.toValid := by
  have hreads := Json.reads_object (by simp [Request.items]) (Request.items_reads hargv)
  rw [Request.items_members] at hreads
  unfold decodeRequest at h
  split at h
  · cases h
  · next data hread =>
    split at h
    · cases h
    · next hsize =>
      -- the limit was not reached, so all that was delivered was read
      have hdata : data = r.data := by
        unfold Reader.readLimited at hread
        split at hread
        · obtain rfl := Except.ok.inj hread
          rw [List.length_take] at hsize
          omega
        · split at hread
          · cases hread
          · exact (Except.ok.inj hread).symm
      subst hdata
      have hwhole : ∃ rest, r.data = Json.encodeObject req.members ++ rest ∧
          Json.skipSpace rest = [] := by
        rcases List.prefix_concat_iff.1 hp with heq | hcut
        · exact ⟨[0x0A], heq, rfl⟩
        · by_cases hne : r.data = Json.encodeObject req.members
          · exact ⟨[], by rw [hne, List.append_nil], rfl⟩
          · rw [Json.parse_truncated hreads hcut hne] at h
            cases h
      obtain ⟨rest, heq, hspace⟩ := hwhole
      rw [heq, hreads.parse rest] at h
      simp only [decodeValue_items, hspace, ne_eq, not_true_eq_false, if_false] at h
      unfold Request.check at h
      split_ifs at h
      exact (Except.ok.inj h).symm

/-- The frames of output and of a result, read to the end. -/
theorem receive_ok {ending : Ending} {chunks : List (Stream × Bytes)} {r : Result}
    {result x : Option Result} {tr : Trace ClientCall.Answer}
    (h : Runs (receive ending (chunks.map Frame.chunk ++ [Frame.ofResult r]) result) tr (.ok x)) :
    x = some r ∧ ∀ s, written s tr = outputOf s chunks := by
  induction chunks generalizing tr result with
  | nil =>
    have hne : frameResult ≠ frameStdout ∧ frameResult ≠ frameStderr := by decide +kernel
    simp only [List.map_nil, List.nil_append, receive, Frame.ofResult, hne.1, hne.2, if_false,
      if_true] at h
    cases ending with
    | eof =>
      obtain ⟨rfl, hx⟩ := runs_pure.1 h
      exact ⟨Except.ok.inj hx, fun s => rfl⟩
    | failed => exact absurd (runs_giveUp h) (by simp)
  | cons c chunks ih =>
    rcases runs_receive_chunk h with ⟨tr', err, -, habs⟩ | ⟨tr', rfl, hrest⟩
    · cases habs
    · obtain ⟨hx, hwritten⟩ := ih hrest
      refine ⟨hx, fun s' => ?_⟩
      have htail := hwritten s'
      simp only [written, outputOf, List.flatMap_cons] at htail ⊢
      rw [htail]

/-- The client waits for the worker when it has found a result. -/
theorem runs_finish_some {r : Result} {waitErr : Option Bytes} {out : Except ClientError Result}
    (h : Runs (finish (some r)) [⟨.wait, waitErr⟩] out) :
    (waitErr = none ∧ out = .ok r) ∨
      ∃ err, waitErr = some err ∧ out = .error (.afterResult err) := by
  obtain ⟨waitErr', tr', htr, hreturn⟩ := runs_ask_bind.1 h
  obtain ⟨heq, rfl⟩ := List.cons.inj htr
  cases heq
  cases waitErr with
  | none => exact Or.inl ⟨rfl, (runs_pure.1 hreturn).2⟩
  | some err => exact Or.inr ⟨err, rfl, (runs_pure.1 hreturn).2⟩

/-- **A client that returns a result has read all of it.** If what the client reads is a beginning
of the frames of some output and of a result, it returns this result or an error, and with the
result the output is written. -/
theorem client_ok {req : Request} {chunks : List (Stream × Bytes)} {r result : Result}
    (hvalid : r.Valid) {tr : Trace ClientCall.Answer} (h : Runs (Client.run req) tr (.ok result))
    {reader : Reader} (hmem : ⟨.output, reader⟩ ∈ tr)
    (hp : reader.data <+: encodeChunks chunks ++ (Frame.ofResult r).encode) :
    result = r ∧ (∀ s, written s tr = outputOf s chunks) ∧
      encodeChunks chunks ++ (Frame.ofResult r).text <+: reader.data := by
  have hback := readsBack_ofResult hvalid
  obtain ⟨data, err⟩ := reader
  rw [Frame.encode, ← List.append_assoc] at hp
  -- a stream that was cut off has no result
  have hwhole : ∃ rest, data = encodeChunks chunks ++ (Frame.ofResult r).text ++ rest ∧
      (rest = [] ∨ rest = [0x0A]) := by
    rcases List.prefix_concat_iff.1 hp with heq | hcut
    · exact ⟨[0x0A], heq, Or.inr rfl⟩
    · by_cases hne : data = encodeChunks chunks ++ (Frame.ofResult r).text
      · exact ⟨[], by rw [hne, List.append_nil], Or.inl rfl⟩
      · obtain ⟨e, he⟩ := error_of_receive h hmem fun tr' received hreceive =>
          receive_output (decodeFrames_cut hback hcut hne err) hreceive
        cases he
  obtain ⟨rest, rfl, hrest⟩ := hwhole
  have hframes : (decodeFrames ⟨encodeChunks chunks ++ (Frame.ofResult r).text ++ rest, err⟩).1 =
      chunks.map Frame.chunk ++ [Frame.ofResult r] := by
    rw [List.append_assoc, decodeFrames_chunks, decodeFrames_frame hback]
    rcases hrest with rfl | rfl
    · rfl
    · rw [decodeFrames_newline]
      rfl
  obtain ⟨tr₁, tr₂, received, hwritten, -, hreceive, hend⟩ := run_parts h hmem
  rw [hframes] at hreceive
  rcases hend with ⟨e, -, he⟩ | ⟨found, rfl, waitErr, rfl, hfinish⟩
  · cases he
  · obtain ⟨rfl, hout⟩ := receive_ok hreceive
    refine ⟨?_, fun s => (hwritten s).trans (hout s), List.prefix_append _ _⟩
    rcases runs_finish_some hfinish with ⟨-, hresult⟩ | ⟨err, -, habs⟩
    · exact Except.ok.inj hresult
    · cases habs

/-- An error frame is read as one, up to invalid UTF-8. -/
theorem reads_ofError (message : Bytes) :
    ∃ ms k, Json.Reads (Frame.ofError message).text (.object ms) k ∧
      Json.decodeStruct false frameFields Frame.zero (.object ms) =
        some (Frame.ofError (Utf8.toValid message)) := by
  have htype : Utf8.toValid frameError = frameError := by decide +kernel
  refine Json.Carried.decode ?_ distinct_frameFields false
  refine .of (Json.Kind.carries_string _ _) rfl ?_
  refine .of (Json.Kind.carries_bytes_omitEmpty _) rfl ?_
  refine .of (Json.Kind.carries_pointer_none _ _) rfl ?_
  refine .of (Json.Kind.carries_string_omitEmpty _) rfl ?_
  simp only [Frame.ofError, htype]
  exact .nil _

/-- A beginning of an error frame is at most that frame. -/
theorem decodeFrames_ofError {message p : Bytes} (hp : p <+: (Frame.ofError message).encode)
    (err : Option Bytes) :
    (decodeFrames ⟨p, err⟩).1 = [] ∨
      (decodeFrames ⟨p, err⟩).1 = [Frame.ofError (Utf8.toValid message)] := by
  obtain ⟨ms, k, hreads, hdecode⟩ := reads_ofError message
  rcases List.prefix_concat_iff.1 hp with heq | hcut
  · refine Or.inr ?_
    have hparse := hreads.parse [0x0A]
    have hspace : ∀ n, (decodeFramesAux err n [0x0A]).1 = [] := by
      intro n
      cases n <;> rfl
    rw [heq, decodeFrames, decodeFramesAux, hparse]
    simp only [isOpenEnded, Bool.false_eq_true, false_and, if_false, hdecode, hspace]
  · by_cases hne : p = (Frame.ofError message).text
    · refine Or.inr ?_
      have hparse := hreads.parse []
      rw [List.append_nil] at hparse
      have hempty : ∀ n, (decodeFramesAux err n []).1 = [] := by
        intro n
        cases n <;> rfl
      rw [hne, decodeFrames, decodeFramesAux, hparse]
      simp only [isOpenEnded, Bool.false_eq_true, false_and, if_false, hdecode, hempty]
    · refine Or.inl ?_
      rw [decodeFrames, decodeFramesAux, Json.parse_truncated hreads hcut hne]

/-- **No result is read from an error frame, or from output alone.** -/
theorem client_error_of_ofError {req : Request} {message : Bytes} {tr : Trace ClientCall.Answer}
    {out : Except ClientError Result} (h : Runs (Client.run req) tr out) {reader : Reader}
    (hmem : ⟨.output, reader⟩ ∈ tr) (hp : reader.data <+: (Frame.ofError message).encode) :
    ∃ err, out = .error err := by
  refine error_of_receive h hmem fun tr' received hreceive result => ?_
  rcases decodeFrames_ofError hp reader.err with hframes | hframes
  · rw [hframes] at hreceive
    exact receive_output (by simp) hreceive result
  · have htype : frameError ∉ [frameStdout, frameStderr, frameResult] := by decide +kernel
    have hin : Frame.ofError (Utf8.toValid message) ∈ (decodeFrames reader).1 := by
      rw [hframes]
      exact List.mem_singleton_self _
    obtain ⟨e, rfl⟩ := receive_foreign hin htype hreceive
    simp

theorem client_error_of_chunks {req : Request} {chunks : List (Stream × Bytes)}
    {tr : Trace ClientCall.Answer} {out : Except ClientError Result}
    (h : Runs (Client.run req) tr out) {reader : Reader} (hmem : ⟨.output, reader⟩ ∈ tr)
    (hp : reader.data <+: encodeChunks chunks) : ∃ err, out = .error err := by
  have hback := @readsBack_ofResult Result.zero (by decide +kernel)
  have hlen : (Frame.ofResult Result.zero).text ≠ [] := by decide +kernel
  refine error_of_receive h hmem fun tr' received hreceive =>
    receive_output (decodeFrames_cut hback (hp.trans (List.prefix_append _ _)) ?_ reader.err)
      hreceive
  intro heq
  have := hp.length_le
  rw [heq, List.length_append] at this
  exact hlen (List.length_eq_zero_iff.1 (by omega))

/-- **A client to which everything was delivered returns the result**, and writes the output. -/
theorem client_returns {req : Request} {chunks : List (Stream × Bytes)} {r : Result}
    (hvalid : r.Valid) {tr : Trace ClientCall.Answer} {out : Except ClientError Result}
    (h : Runs (Client.run req) tr out)
    (hmem : ⟨.output, ⟨encodeChunks chunks ++ (Frame.ofResult r).encode, none⟩⟩ ∈ tr)
    (hok : ∀ ev ∈ tr, ¬ Fails ev) :
    out = .ok r ∧ ∀ s, written s tr = outputOf s chunks := by
  obtain ⟨tr₁, tr₂, received, hwritten, hsub, hreceive, hend⟩ := run_parts h hmem
  have hframes : decodeFrames ⟨encodeChunks chunks ++ (Frame.ofResult r).encode, none⟩ =
      (chunks.map Frame.chunk ++ [Frame.ofResult r], .eof) := by
    have hlast := decodeFrames_encode (readsBack_ofResult hvalid) [] none
    rw [List.append_nil] at hlast
    rw [decodeFrames_chunks, hlast]
    rfl
  rw [hframes] at hreceive
  obtain ⟨rfl, hstreams⟩ := receive_chunks hreceive fun ev hev => hok ev (hsub ev (by simp [hev]))
  refine ⟨?_, fun s => (hwritten s).trans (hstreams s)⟩
  rcases hend with ⟨e, he, -⟩ | ⟨found, hfound, waitErr, rfl, hfinish⟩
  · cases he
  · obtain rfl := Except.ok.inj hfound
    rcases runs_finish_some hfinish with ⟨-, hout⟩ | ⟨err, rfl, -⟩
    · exact hout
    · have hfails : Fails ⟨.wait, some err⟩ := by simp [Fails]
      exact absurd hfails (hok _ (hsub _ (by simp)))

/-- A client to which an error was delivered returns it. -/
theorem client_returns_error {req : Request} {message : Bytes} {tr : Trace ClientCall.Answer}
    {out : Except ClientError Result} (h : Runs (Client.run req) tr out)
    (hmem : ⟨.output, ⟨(Frame.ofError message).encode, none⟩⟩ ∈ tr) :
    out = .error (.worker (Utf8.toValid message)) ∧ ∀ s, written s tr = [] := by
  obtain ⟨tr₁, tr₂, received, hwritten, -, hreceive, hend⟩ := run_parts h hmem
  have hframes : (decodeFrames ⟨(Frame.ofError message).encode, none⟩).1 =
      [Frame.ofError (Utf8.toValid message)] := by
    obtain ⟨ms, k, hreads, hdecode⟩ := reads_ofError message
    have hparse := hreads.parse [0x0A]
    have hspace : ∀ n, (decodeFramesAux none n [0x0A]).1 = [] := by
      intro n
      cases n <;> rfl
    rw [Frame.encode, decodeFrames, decodeFramesAux, hparse]
    simp only [isOpenEnded, Bool.false_eq_true, false_and, if_false, hdecode, hspace]
  have hne : frameError ≠ frameStdout ∧ frameError ≠ frameStderr ∧ frameError ≠ frameResult := by
    decide +kernel
  rw [hframes] at hreceive
  simp only [receive, Frame.ofError, hne.1, hne.2.1, hne.2.2, if_false, if_true] at hreceive
  obtain ⟨waitErr, tr', rfl, hgive⟩ := runs_ask_bind.1 hreceive
  obtain ⟨rfl, rfl⟩ := runs_pure.1 hgive
  refine ⟨?_, fun s => ?_⟩
  · rcases hend with ⟨e, he, rfl⟩ | ⟨found, hfound, -⟩
    · exact congrArg _ (Except.error.inj he).symm
    · cases hfound
  · rw [hwritten]
    rfl

/-- A client that returns a result has sent its request and read an answer. -/
theorem collect_of_ok {req : Request} {tr : Trace ClientCall.Answer} {result : Result}
    (h : Runs (Client.run req) tr (.ok result)) :
    ∃ rest, tr = [⟨.stdinPipe, none⟩, ⟨.stdoutPipe, none⟩, ⟨.start, none⟩,
        ⟨.send (encodeRequest req), none⟩, ⟨.closeStdin, none⟩] ++ rest ∧
      Runs Client.collect rest (.ok result) := by
  obtain ⟨r₁, tr₁, rfl, h₁⟩ := runs_ask_bind.1 h
  cases r₁ with
  | some err => exact absurd (runs_pure.1 h₁).2 (by simp)
  | none =>
  obtain ⟨r₂, tr₂, rfl, h₂⟩ := runs_ask_bind.1 h₁
  cases r₂ with
  | some err => exact absurd (runs_pure.1 h₂).2 (by simp)
  | none =>
  obtain ⟨r₃, tr₃, rfl, h₃⟩ := runs_ask_bind.1 h₂
  cases r₃ with
  | some err => exact absurd (runs_pure.1 h₃).2 (by simp)
  | none =>
  obtain ⟨r₄, tr₄, rfl, h₄⟩ := runs_ask_bind.1 h₃
  cases r₄ with
  | some err =>
    obtain ⟨r₅, tr₅, -, h₅⟩ := runs_ask_bind.1 h₄
    exact absurd (runs_giveUp h₅) (by simp)
  | none =>
  obtain ⟨r₅, tr₅, rfl, h₅⟩ := runs_ask_bind.1 h₄
  cases r₅ with
  | some err => exact absurd (runs_giveUp h₅) (by simp)
  | none => exact ⟨tr₅, rfl, h₅⟩

/-- A call that sends something to the worker. -/
def isSend (c : ClientCall) : Bool := c matches .send _

theorem giveUp_only_not_send {α : Type} (err : ClientError) :
    Only (fun c => isSend c = false) (giveUp err : ClientProgram (Except ClientError α)) :=
  only_ask_bind rfl fun _ => trivial

theorem receive_only_not_send (ending : Ending) (frames : List Frame) (result : Option Result) :
    Only (fun c => isSend c = false) (receive ending frames result) := by
  induction frames generalizing result with
  | nil =>
    cases ending with
    | eof => trivial
    | failed => exact giveUp_only_not_send _
  | cons f frames ih =>
    rw [receive]
    split_ifs
    · refine only_ask_bind rfl fun answer => ?_
      cases answer with
      | some err => exact giveUp_only_not_send _
      | none => exact ih _
    · refine only_ask_bind rfl fun answer => ?_
      cases answer with
      | some err => exact giveUp_only_not_send _
      | none => exact ih _
    · exact ih _
    · exact giveUp_only_not_send _
    · exact giveUp_only_not_send _

theorem collect_only_not_send : Only (fun c => isSend c = false) Client.collect := by
  refine only_ask_bind rfl fun r => only_bind (receive_only_not_send _ _ _) fun received => ?_
  cases received with
  | error err => trivial
  | ok result =>
    refine only_ask_bind rfl fun waitErr => ?_
    cases result <;> cases waitErr <;> trivial

end SecretsBroker.Worker

namespace SecretsBroker.Cli

open Interaction Worker

/-! ## `secrets-broker run` -/

/-- The calls of the command line: the working directory, the client, and lines that are printed. -/
inductive Call
  | getwd
  | client (c : ClientCall)
  | print (s : Worker.Stream) (data : Bytes)

abbrev Call.Answer : Call → Type
  | .getwd => Except Bytes Bytes
  | .client c => c.Answer
  | .print _ _ => Option Bytes

abbrev Program := Prog Call Call.Answer
abbrev Calls := Trace Call.Answer

def exitDenied : ℤ := 125

/-- An error that `Execute` reports. -/
def usageError (err : Bytes) : Program ℤ := do
  let _ ← Prog.ask (Call.print .stderr (str "secrets-broker: " ++ err ++ str "\n"))
  pure 2

/-- The line for a denial. -/
def deniedLine (r : Result) : Bytes :=
  if r.cause ≠ [] then
    str "secrets-broker: denied (" ++ r.reason ++ str ": " ++ r.cause ++ str ")\n"
  else str "secrets-broker: denied (" ++ r.reason ++ str ")\n"

/-- What is printed for a result: the verdict of a dry run, and a denial. -/
def lines (dryRun : Bool) (r : Result) : List (Worker.Stream × Bytes) :=
  (if dryRun then [(.stdout, dryRunLine r)] else []) ++
    if r.denied then [(.stderr, deniedLine r)] else []

/-- `fmt.Fprintf` of some lines; its errors are not looked at. -/
def printAll : List (Worker.Stream × Bytes) → Program Unit
  | [] => pure ()
  | (s, data) :: rest => do
    let _ ← Prog.ask (Call.print s data)
    printAll rest

/-- `RunE` after the worker has answered. -/
def conclude [Unicode] (dryRun : Bool) : Except ClientError Result → Program ℤ
  | .error err => do
    let _ ← Prog.ask (Call.print .stderr (str "secrets-broker: " ++ err.text ++ str "\n"))
    pure exitDenied
  | .ok r => do
    printAll (lines dryRun r)
    pure r.exitCode.toInt

/-- `secrets-broker run`, from the flags and the words after them. -/
def run [Unicode] (projectAlias : Bytes) (dryRun : Bool) (argv : List Bytes) : Program ℤ :=
  if projectAlias = [] then usageError (str "--project is required")
  else if argv = [] then
    usageError (str "no command given (usage: secrets-broker run --project <alias> -- <command> [args...])")
  else do
    match ← Prog.ask Call.getwd with
    | .error err => usageError (str "resolving working directory: " ++ err)
    | .ok workingDir =>
      let res ← (Client.run ⟨projectAlias, workingDir, argv, dryRun⟩).interp
        fun c => Prog.ask (Call.client c)
      conclude dryRun res

/-- What a process that exits with a code leaves to its parent. -/
def exitStatus (code : ℤ) : ℕ := (code % 256).toNat

/-- What the caller sees on a stream. -/
def shown (s : Worker.Stream) (tr : Calls) : Bytes :=
  tr.flatMap fun e =>
    match e with
    | ⟨.client (.write s' data), _⟩ | ⟨.print s' data, _⟩ => if s' = s then data else []
    | _ => []

/-! ## The two pipes -/

/-- The client and the session read beginnings of what the other has written. -/
structure Joined (cli : Calls) (tr : Session.Calls) : Prop where
  request : ∀ r, ⟨.input, r⟩ ∈ tr → ∃ data res, ⟨.client (.send data), res⟩ ∈ cli ∧ r.data <+: data
  output : ∀ r, ⟨.client .output, r⟩ ∈ cli → r.data <+: Session.wire tr

/-! ## What a run of the command line has done -/

/-- Calls of the client within a run of the command line. -/
def lift (tr : Trace ClientCall.Answer) : Calls := tr.map fun e => ⟨.client e.1, e.2⟩

theorem interprets_client {trc : Trace ClientCall.Answer} {tr : Calls}
    (h : Interprets (fun c => Prog.ask (Call.client c)) trc tr) : tr = lift trc := by
  induction h with
  | nil => rfl
  | cons hp _ ih =>
    rw [runs_ask.1 hp, ih]
    rfl

theorem client_mem_lift {trc : Trace ClientCall.Answer} {c : ClientCall} {res : c.Answer} :
    (⟨.client c, res⟩ : Event Call.Answer) ∈ lift trc ↔ ⟨c, res⟩ ∈ trc := by
  simp only [lift, List.mem_map]
  constructor
  · rintro ⟨⟨c', res'⟩, hmem, heq⟩
    obtain ⟨hc, hres⟩ := Sigma.mk.inj heq
    obtain rfl := Call.client.inj hc
    obtain rfl := eq_of_heq hres
    exact hmem
  · exact fun hmem => ⟨_, hmem, rfl⟩

theorem shown_append (s : Worker.Stream) (tr₁ tr₂ : Calls) :
    shown s (tr₁ ++ tr₂) = shown s tr₁ ++ shown s tr₂ := by
  simp [shown, List.flatMap_append]

theorem shown_lift (s : Worker.Stream) (trc : Trace ClientCall.Answer) :
    shown s (lift trc) = written s trc := by
  induction trc with
  | nil => rfl
  | cons e trc ih =>
    obtain ⟨c, r⟩ := e
    have hcons : shown s (lift (⟨c, r⟩ :: trc)) =
        shown s [⟨.client c, r⟩] ++ shown s (lift trc) := shown_append s [_] _
    have hwritten : written s (⟨c, r⟩ :: trc) = written s [⟨c, r⟩] ++ written s trc := by
      simp [written]
    rw [hcons, hwritten, ih]
    cases c <;> rfl

/-- The lines that are printed at the end. -/
def Prints (pieces : List (Worker.Stream × Bytes)) (tr : Calls) : Prop :=
  (∀ c res, ⟨.client c, res⟩ ∉ tr) ∧ ∀ s, shown s tr = outputOf s pieces

theorem prints_ask {s : Worker.Stream} {data : Bytes} {res : Option Bytes} :
    Prints [(s, data)] [⟨.print s data, res⟩] := by
  refine ⟨by simp, fun s' => ?_⟩
  simp [shown, outputOf]

theorem runs_printAll {pieces : List (Worker.Stream × Bytes)} {tr : Calls}
    (h : Runs (printAll pieces) tr ()) : Prints pieces tr := by
  induction pieces generalizing tr with
  | nil =>
    obtain ⟨rfl, -⟩ := runs_pure.1 h
    exact ⟨by simp, fun s => rfl⟩
  | cons piece pieces ih =>
    obtain ⟨s, data⟩ := piece
    obtain ⟨res, tr', rfl, hrest⟩ := runs_ask_bind.1 h
    obtain ⟨hno, hshown⟩ := ih hrest
    refine ⟨fun c r hmem => ?_, fun s' => ?_⟩
    · rcases List.mem_cons.1 hmem with heq | hmem
      · cases heq
      · exact hno c r hmem
    · have hcons : shown s' (⟨.print s data, res⟩ :: tr') =
          shown s' [⟨.print s data, res⟩] ++ shown s' tr' := shown_append s' [_] _
      rw [hcons, hshown, (@prints_ask s data res).2]
      simp [outputOf]

/-- **A run of the command line**: an error that is reported with 2; or a run of the client, whose
error is reported with 125 and whose result is reported with its exit code. -/
theorem run_cases [Unicode] {projectAlias : Bytes} {dryRun : Bool} {argv : List Bytes}
    {tr : Calls} {code : ℤ} (h : Runs (run projectAlias dryRun argv) tr code) :
    (code = 2 ∧ ∀ c res, ⟨.client c, res⟩ ∉ tr) ∨
      ∃ workingDir trc printed out, argv ≠ [] ∧
        tr = ⟨.getwd, .ok workingDir⟩ :: (lift trc ++ printed) ∧
        Runs (Client.run ⟨projectAlias, workingDir, argv, dryRun⟩) trc out ∧
        ((∃ err, out = .error err ∧ code = exitDenied ∧ Prints
            [(.stderr, str "secrets-broker: " ++ err.text ++ str "\n")] printed) ∨
          ∃ r, out = .ok r ∧ code = r.exitCode.toInt ∧ Prints (lines dryRun r) printed) := by
  have husage : ∀ {err : Bytes} {tr : Calls}, Runs (usageError err) tr code →
      code = 2 ∧ ∀ c res, ⟨.client c, res⟩ ∉ tr := by
    intro err tr h
    obtain ⟨res, tr', rfl, h₁⟩ := runs_ask_bind.1 h
    obtain ⟨rfl, rfl⟩ := runs_pure.1 h₁
    exact ⟨rfl, by simp⟩
  unfold run at h
  split at h
  · exact Or.inl (husage h)
  · split at h
    · exact Or.inl (husage h)
    · next hargv =>
      obtain ⟨cwd, tr₁, rfl, h₁⟩ := runs_ask_bind.1 h
      cases cwd with
      | error err =>
        obtain ⟨hcode, hno⟩ := husage h₁
        exact Or.inl ⟨hcode, by simpa using hno⟩
      | ok workingDir =>
        obtain ⟨tr₂, printed, out, rfl, h₂, h₃⟩ := runs_bind.1 h₁
        obtain ⟨trc, hclient, hi⟩ := runs_interp h₂
        obtain rfl := interprets_client hi
        refine Or.inr ⟨workingDir, trc, printed, out, hargv, rfl, hclient, ?_⟩
        cases out with
        | error err =>
          obtain ⟨res, tr', rfl, h₄⟩ := runs_ask_bind.1 h₃
          obtain ⟨rfl, rfl⟩ := runs_pure.1 h₄
          exact Or.inl ⟨err, rfl, rfl, prints_ask⟩
        | ok r =>
          obtain ⟨tr₃, tr₄, _, rfl, h₄, h₅⟩ := runs_bind.1 h₃
          obtain ⟨rfl, rfl⟩ := runs_pure.1 h₅
          rw [List.append_nil]
          exact Or.inr ⟨r, rfl, rfl, runs_printAll h₄⟩

/-! ## What a session has put on the wire -/

/-- **How far a session has come.** The frames of a session that was cut off are a beginning of
those of its output; or all of `calls` were made, and the frames are a beginning of all. -/
theorem session_wire [Platform] {s : Server} {tr : Session.Calls}
    {left : Session.Program Session.Encoder} (h : Reaches (Session.serve s) tr left) :
    ∃ calls output last, Session.Served s (Session.silent calls) output last ∧
      (Session.wire tr <+: encodeChunks output ∨
        ((∃ writes, tr = calls ++ writes ∧ ∀ e ∈ writes, Session.isWrite e = true) ∧
          Session.wire tr <+: encodeChunks output ++ last.flatMap Frame.encode)) := by
  obtain ⟨rest, enc, hrun⟩ := h.completes Session.someAnswer
  obtain ⟨calls, writes, output, last, mid, heq, hserved, hmid, hend⟩ :=
    Session.served_of_runs hrun
  have hchunks : (output.map Frame.chunk).flatMap Frame.encode = encodeChunks output := by
    simp [encodeChunks, List.flatMap_map]
  have hcalls : Session.wire calls <+: encodeChunks output := by
    rw [← Session.wire_filter, ← hchunks]
    exact hmid.wire_eq.1
  refine ⟨calls, output, last, hserved, ?_⟩
  rcases List.append_eq_append_iff.1 heq with ⟨a, rfl, -⟩ | ⟨a, rfl, ha⟩
  · -- the session was cut off before its last frames
    rw [Session.wire_append] at hcalls
    exact Or.inl ((List.prefix_append _ _).trans hcalls)
  · refine Or.inr ⟨⟨a, rfl, fun e he => hend.isWrite e (by simp [ha, he])⟩, ?_⟩
    have hall := (hmid.append hend).wire_eq.1
    rw [List.flatMap_append, hchunks, ← hend.writes_eq, ← List.filter_append,
      Session.wire_filter, ha, ← List.append_assoc, Session.wire_append] at hall
    exact (List.prefix_append _ _).trans hall

/-! ## From the command line to the process and back -/

/-- What a process leaves to its parent. -/
def status : Exit → ℕ
  | .code n => n % 256
  | .signalled _ => 255

theorem exitStatus_ofInt (n : ℤ) : exitStatus (Int64.ofInt n).toInt = exitStatus n := by
  have hsize : (Int64.size : ℤ) = 18446744073709551616 := rfl
  rw [Int64.toInt_ofInt, exitStatus, exitStatus, Int.bmod_def, hsize]
  split <;> congr 1 <;> omega

/-- The exit code that the runner answers is that of the process. -/
theorem exitStatus_answer {exit : Exit} {copyErr ctxErr : Option Bytes} {result : RunResult}
    (h : BWSRunner.answer (.ended exit copyErr ctxErr) = .ok result) :
    exitStatus result.exitCode = status exit := by
  unfold BWSRunner.answer at h
  cases exit with
  | signalled n =>
    obtain rfl := Except.ok.inj h
    rfl
  | code n =>
    cases n with
    | succ n =>
      obtain rfl := Except.ok.inj h
      simp only [exitStatus, status]
      omega
    | zero =>
      cases herr : ctxErr.or copyErr with
      | none =>
        simp only [Cmd.run, herr, Option.map_none] at h
        obtain rfl := Except.ok.inj h
        rfl
      | some err => simp [Cmd.run, herr] at h

theorem exitStatus_denied {out : RunOutcome} (h : out.denied = true) :
    exitStatus (Session.resultOf out).exitCode.toInt ∈ [125, 126] := by
  simp only [Session.resultOf, h, if_true]
  split <;> decide

/-- A request that was not denied was executed, and the outcome has the command's exit code. -/
theorem admitted_executed [Unicode] {cfg : Config} {req : Request} {calls : Session.Calls}
    {output : List (Worker.Stream × Bytes)} {out : RunOutcome}
    (h : Session.Ran cfg req calls output out) (hd : out.denied = false) :
    ∃ runID before spec exit readErr ctxErr res,
      Broker.Passed Broker.Cleared (Session.broker cfg) (Session.runRequest req) runID before
        spec ∧
      calls = Session.lift before ++
        [⟨.exec ((Session.runner cfg).cmd spec), .ended output exit readErr ctxErr⟩,
          ⟨.adapter (.finish runID (Broker.finishRecord out)), res⟩] ∧
      exitStatus out.exitCode = status exit ∧ out.auditIncomplete = res.isSome := by
  cases h with
  | stopped hrun hno =>
    rw [Session.denied_of_not_runner hrun hno] at hd
    cases hd
  | refused hrun hpassed hcheck hout =>
    rw [hout.1] at hd
    cases hd
  | @executed runID before spec spawned child res out hrun hpassed hcheck hends hout =>
    cases hanswer : BWSRunner.answer child with
    | error err =>
      rw [hanswer] at hout
      rw [hout.1] at hd
      cases hd
    | ok result =>
      rw [hanswer] at hout
      cases spawned with
      | notStarted err =>
        rw [show child = .notStarted err from hends] at hanswer
        cases hanswer
      | ended output exit readErr ctxErr =>
        obtain ⟨copyErr, rfl⟩ := hends
        have hinc := (Session.reports_run hrun).incomplete runID (Broker.finishRecord out) res
          (by simp)
        exact ⟨runID, before, spec, exit, readErr, ctxErr, res, hpassed, rfl,
          by rw [hout.2, exitStatus_answer hanswer], hinc⟩

/-- The client was answered by a session that it is joined with. -/
theorem client_answered [Platform] {s : Server} {projectAlias workingDir : Bytes}
    {argv : List Bytes} {dryRun : Bool} {trc : Trace ClientCall.Answer} {printed : Calls}
    {r : Result} (hargv : argv ≠ [])
    (hclient : Runs (Client.run ⟨projectAlias, workingDir, argv, dryRun⟩) trc (.ok r))
    (hprinted : ∀ c res, ⟨.client c, res⟩ ∉ printed) {tr : Session.Calls}
    {left : Session.Program Session.Encoder} (hreach : Reaches (Session.serve s) tr left)
    (hjoined : Joined (⟨.getwd, .ok workingDir⟩ :: (lift trc ++ printed)) tr) :
    ∃ reader calls output last, ⟨.output, reader⟩ ∈ trc ∧
      Session.Served s (Session.silent calls) output last ∧
      (∃ writes, tr = calls ++ writes ∧ ∀ e ∈ writes, Session.isWrite e = true) ∧
      reader.data <+: encodeChunks output ++ last.flatMap Frame.encode ∧
      ∀ input req, ⟨.input, input⟩ ∈ calls → decodeRequest input = .ok req →
        req = (⟨projectAlias, workingDir, argv, dryRun⟩ : Request).toValid := by
  obtain ⟨rest, rfl, hcollect⟩ := collect_of_ok hclient
  obtain ⟨reader, rest', rfl, -⟩ := runs_ask_bind.1 hcollect
  have hnosend := collect_only_not_send.of_runs hcollect
  have hmem : ⟨.output, reader⟩ ∈ ([⟨.stdinPipe, none⟩, ⟨.stdoutPipe, none⟩, ⟨.start, none⟩,
      ⟨.send (encodeRequest ⟨projectAlias, workingDir, argv, dryRun⟩), none⟩,
      ⟨.closeStdin, none⟩] ++ ⟨.output, reader⟩ :: rest' : Trace ClientCall.Answer) := by simp
  have hwire := hjoined.output reader
    (List.mem_cons_of_mem _ (List.mem_append_left _ (client_mem_lift.2 hmem)))
  obtain ⟨calls, output, last, hserved, hcut | ⟨hcalls, hall⟩⟩ := session_wire hreach
  · obtain ⟨err, habs⟩ := client_error_of_chunks hclient hmem (hwire.trans hcut)
    cases habs
  · refine ⟨reader, calls, output, last, hmem, hserved, hcalls, hwire.trans hall, ?_⟩
    intro input req hinput hdecode
    obtain ⟨writes, rfl, -⟩ := hcalls
    obtain ⟨data, res, hsend, hprefix⟩ :=
      hjoined.request input (List.mem_append_left _ hinput)
    -- only the request itself was sent
    have hdata : data = encodeRequest ⟨projectAlias, workingDir, argv, dryRun⟩ := by
      rcases List.mem_cons.1 hsend with heq | hsend
      · cases heq
      rcases List.mem_append.1 hsend with hsend | hsend
      · have hin := client_mem_lift.1 hsend
        rcases List.mem_append.1 hin with hin | hin
        · simp only [List.mem_cons, List.not_mem_nil, or_false, Sigma.mk.injEq, reduceCtorEq,
            false_and, false_or, ClientCall.send.injEq] at hin
          exact hin.1
        · have := hnosend _ hin
          simp [isSend] at this
      · exact absurd hsend (hprinted _ _)
    rw [hdata] at hprefix
    exact decodeRequest_prefix hargv hprefix hdecode

section Witness

def exampleArgv : List Bytes := [str "git", str "push"]

def exampleTrace : Session.Calls :=
  (Session.exampleSession (Session.exampleRequest exampleArgv)).1

def exampleAnswers : (c : Call) → c.Answer
  | .getwd => .ok (str "/srv/app")
  | .client .output => ⟨Session.wire exampleTrace, none⟩
  | .client .stdinPipe | .client .stdoutPipe | .client .start | .client (.send _)
  | .client .closeStdin | .client (.write _ _) | .client .wait => none
  | .print _ _ => none

def exampleRun : Calls × ℤ :=
  (@run Session.examplePlatform.toUnicode (str "app") false exampleArgv).play exampleAnswers

theorem exampleTrace_explained : Session.Explained exampleTrace := by
  intro text hmem
  exact ⟨.expired, mem_play hmem⟩

theorem exampleTrace_joined : Joined exampleRun.1 exampleTrace where
  request r hmem := by
    obtain rfl : r = ⟨encodeRequest (Session.exampleRequest exampleArgv), none⟩ := mem_play hmem
    exact ⟨_, none, List.mem_of_getElem? (i := 4) rfl, List.prefix_refl _⟩
  output r hmem := by
    obtain rfl : r = ⟨Session.wire exampleTrace, none⟩ := mem_play hmem
    exact List.prefix_refl _

end Witness

/-- **When nothing fails, the caller is told what the session ended with, and so is the audit log.**
For every policy, every command line (dry run or not) and every session whose frames all reach the
client: the exit code and what is printed are those of the session's last frame, after all that the
command has written and at most the worker's warning; and that frame says the same as the audit
records of the session. -/
theorem session_reported [Platform] {s : Server} {projectAlias : Bytes} {dryRun : Bool}
    {argv : List Bytes} {cli : Calls} {code : ℤ}
    (hcli : Runs (run projectAlias dryRun argv) cli code) {tr : Session.Calls}
    (hserve : Runs (Session.serve s) tr none)
    (houtput : ⟨.client .output, ⟨Session.wire tr, none⟩⟩ ∈ cli)
    (hok : ∀ c res, ⟨.client c, res⟩ ∈ cli → ¬ Fails ⟨c, res⟩) (hexp : Session.Explained tr) :
    ∃ last, Session.Accounted (Session.milestones tr) last ∧
      ((∃ (r : Result) (warnings : List (Worker.Stream × Bytes)),
          last = Frame.ofResult r ∧ code = r.exitCode.toInt ∧
          (∀ c ∈ warnings, c = (.stderr, Session.warning)) ∧
          ∀ stream, shown stream cli =
            outputOf stream (Session.outputs tr ++ warnings ++ lines dryRun r)) ∨
        ∃ message, last = Frame.ofError message ∧ code = exitDenied ∧ shown .stdout cli = [] ∧
          shown .stderr cli =
            str "secrets-broker: worker: " ++ Utf8.toValid message ++ str "\n") := by
  obtain ⟨calls, writes, output, frames, mid, rfl, hserved, hmid, hend⟩ :=
    Session.served_of_runs hserve
  have hsub : ∀ e ∈ Session.silent calls, e ∈ calls ++ writes := fun e he =>
    List.mem_append_left _ (List.mem_filter.1 he).1
  have hmiles := @Session.milestones_of_writes calls writes hend.isWrite
  have houtputs : output = Session.outputs (calls ++ writes) := by
    rw [hserved.output_eq]
    exact Session.outputs_of_writes hend.isWrite
  have hwire : Session.wire (calls ++ writes) =
      encodeChunks output ++ frames.flatMap Frame.encode := by
    have hall := (hmid.append hend).wire_eq.2 rfl
    rw [← hend.writes_eq, ← List.filter_append, Session.wire_filter] at hall
    rw [hall]
    simp [encodeChunks, List.flatMap_append, List.flatMap_map]
  obtain ⟨warnings', last, hframes, hacc, -⟩ := hserved.accounted
  rcases run_cases hcli with ⟨-, hno⟩ | ⟨workingDir, trc, printed, out, -, rfl, hclient, hconc⟩
  · exact absurd houtput (hno _ _)
  have hin : ⟨.output, ⟨Session.wire (calls ++ writes), none⟩⟩ ∈ trc := by
    rcases List.mem_cons.1 houtput with heq | hmem
    · cases heq
    rcases List.mem_append.1 hmem with hmem | hmem
    · exact client_mem_lift.1 hmem
    · rcases hconc with ⟨_, -, -, hprint⟩ | ⟨_, -, -, hprint⟩
      · exact absurd hmem (hprint.1 _ _)
      · exact absurd hmem (hprint.1 _ _)
  have hcwd : ∀ stream, shown stream (⟨.getwd, .ok workingDir⟩ :: (lift trc ++ printed)) =
      written stream trc ++ shown stream printed := by
    intro stream
    rw [← shown_lift, ← shown_append]
    rfl
  rw [hmiles]
  refine ⟨last, hacc, ?_⟩
  rcases hserved.ends fun text htext => hexp text (hsub _ htext) with
    ⟨message, hmessage, hnil⟩ | ⟨warnings, r, hresult, hvalid, hwarn⟩
  · refine Or.inr ⟨message, ?_, ?_⟩
    · rw [hmessage] at hframes
      rw [← List.nil_append [Frame.ofError message]] at hframes
      exact (List.singleton_inj.1 (List.append_inj' hframes rfl).2).symm
    · have hdata : Session.wire (calls ++ writes) = (Frame.ofError message).encode := by
        rw [hwire, hnil, hmessage]
        simp [encodeChunks]
      rw [hdata] at hin
      obtain ⟨rfl, hwritten⟩ := client_returns_error hclient hin
      rcases hconc with ⟨err, herr, rfl, hprint⟩ | ⟨r, habs, -⟩
      · obtain rfl := Except.error.inj herr
        rw [hcwd, hcwd, hwritten, hwritten, hprint.2, hprint.2]
        refine ⟨rfl, rfl, ?_⟩
        simp [outputOf, ClientError.text, str]
      · cases habs
  · refine Or.inl ⟨r, warnings, ?_, ?_⟩
    · rw [hresult] at hframes
      exact (List.singleton_inj.1 (List.append_inj' hframes rfl).2).symm
    · have hdata : Session.wire (calls ++ writes) =
          encodeChunks (output ++ warnings) ++ (Frame.ofResult r).encode := by
        rw [hwire, hresult]
        simp [encodeChunks, List.flatMap_append, List.flatMap_map]
      rw [hdata] at hin
      obtain ⟨rfl, hwritten⟩ := client_returns hvalid hclient hin fun ev hev =>
        hok ev.1 ev.2 (List.mem_cons_of_mem _ (List.mem_append_left _ (client_mem_lift.2 hev)))
      rcases hconc with ⟨err, habs, -⟩ | ⟨r', hr, rfl, hprint⟩
      · cases habs
      · obtain rfl := Except.ok.inj hr
        refine ⟨rfl, hwarn, fun stream => ?_⟩
        rw [hcwd, hwritten, hprint.2, houtputs]
        simp [outputOf]

theorem session_reported_push :
    ∃ last, Session.Accounted (Session.milestones exampleTrace) last ∧
      shown .stdout exampleRun.1 = str "pushed\n" := by
  have henc : (Session.exampleSession (Session.exampleRequest exampleArgv)).2 = none := by
    decide +kernel
  have hserve : Runs (@Session.serve Session.examplePlatform Session.exampleServer) exampleTrace
      none := by
    have := runs_play (Session.exampleAnswers (Session.exampleRequest exampleArgv))
      (@Session.serve Session.examplePlatform Session.exampleServer)
    rw [← Session.exampleSession, henc] at this
    exact this
  have hok : ∀ c res, ⟨.client c, res⟩ ∈ exampleRun.1 → ¬ Fails ⟨c, res⟩ := by
    intro c res hmem
    have hres : res = exampleAnswers (.client c) := mem_play hmem
    subst hres
    cases c <;> simp [Fails, exampleAnswers]
  obtain ⟨last, hacc, -⟩ := @session_reported Session.examplePlatform Session.exampleServer _ _ _ _
    _ (runs_play exampleAnswers _) _ hserve (List.mem_of_getElem? (i := 6) rfl) hok
    exampleTrace_explained
  exact ⟨last, hacc, by decide +kernel⟩

end SecretsBroker.Cli
