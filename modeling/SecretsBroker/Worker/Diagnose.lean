import Mathlib.Algebra.Ring.Nat
import SecretsBroker.Config
import SecretsBroker.Foundations.JsonStruct

/-!
# What the diagnostic commands of the worker share

The commands `access-check` and `projects-list` of the worker start alike: they load the policy,
validate it and the runtime it names, and resolve the token (`Server.prepare`). They and the
administrator's side run child processes whose output is kept in a buffer with a limit
(`internal/boundedio`). However the output is split into writes, the buffer holds the first bytes of
it, and says whether there were more (`capture_eq`); the writer is told each time that everything
was written (`Buffer.writes_exact`).
-/

namespace SecretsBroker

/-! ## Bounded output -/

/-- `boundedio.Buffer` -/
structure Buffer where
  buf : Bytes
  limit : ℕ
  exceeded : Bool
  deriving DecidableEq

namespace Buffer

/-- `NewBuffer` -/
def new (limit : ℕ) : Buffer := ⟨[], limit, false⟩

def write (b : Buffer) (p : Bytes) : Buffer :=
  let remaining := b.limit - b.buf.length
  if remaining < p.length then { b with buf := b.buf ++ p.take remaining, exceeded := true }
  else { b with buf := b.buf ++ p }

/-- The buffer after `all` has been written to it. -/
structure Holds (b : Buffer) (all : Bytes) : Prop where
  buf : b.buf = all.take b.limit
  exceeded : b.exceeded = decide (b.limit < all.length)

theorem holds_new (limit : ℕ) : (new limit).Holds [] := ⟨by simp [new], by simp [new]⟩

@[simp] theorem write_limit (b : Buffer) (p : Bytes) : (b.write p).limit = b.limit := by
  simp only [write]
  split <;> rfl

theorem Holds.write {b : Buffer} {all : Bytes} (h : b.Holds all) (p : Bytes) :
    (b.write p).Holds (all ++ p) := by
  have hlen : b.buf.length = min b.limit all.length := by rw [h.buf, List.length_take]
  have htake : (all ++ p).take b.limit = b.buf ++ p.take (b.limit - b.buf.length) := by
    rw [List.take_append, ← h.buf, hlen]
    congr 2
    omega
  by_cases hp : b.limit - b.buf.length < p.length
  · have hover : b.limit < (all ++ p).length := by
      rw [List.length_append]
      omega
    refine ⟨?_, ?_⟩
    · rw [write_limit, htake]
      simp [Buffer.write, hp]
    · rw [write_limit, decide_eq_true hover]
      simp [Buffer.write, hp]
  · -- nothing is cut off, unless everything was before
    have hfits : p.take (b.limit - b.buf.length) = p := List.take_of_length_le (by omega)
    refine ⟨?_, ?_⟩
    · rw [write_limit, htake, hfits]
      simp [Buffer.write, hp]
    · have hexc : (b.write p).exceeded = b.exceeded := by simp [Buffer.write, hp]
      rw [write_limit, hexc, h.exceeded, List.length_append]
      congr 1
      apply propext
      omega

theorem Holds.foldl {b : Buffer} {all : Bytes} (h : b.Holds all) (chunks : List Bytes) :
    (chunks.foldl Buffer.write b).Holds (all ++ chunks.flatten) ∧
      (chunks.foldl Buffer.write b).limit = b.limit := by
  induction chunks generalizing b all with
  | nil => simpa using h
  | cons p chunks ih =>
    obtain ⟨hholds, hlimit⟩ := ih (h.write p)
    rw [List.foldl_cons, List.flatten_cons, ← List.append_assoc]
    exact ⟨hholds, hlimit.trans (write_limit b p)⟩

end Buffer

/-- The buffer after some writes. -/
def capture (limit : ℕ) (chunks : List Bytes) : Buffer :=
  chunks.foldl Buffer.write (Buffer.new limit)

/-- **The buffer keeps the first bytes of the output, however it was split.** -/
theorem capture_eq (limit : ℕ) (chunks : List Bytes) :
    capture limit chunks =
      ⟨chunks.flatten.take limit, limit, decide (limit < chunks.flatten.length)⟩ := by
  obtain ⟨hholds, hlimit⟩ := (Buffer.holds_new limit).foldl chunks
  change (capture limit chunks).limit = limit at hlimit
  change (capture limit chunks).Holds ([] ++ chunks.flatten) at hholds
  obtain ⟨hbuf, hexc⟩ := hholds
  rw [hlimit, List.nil_append] at hbuf hexc
  generalize capture limit chunks = b at *
  cases b
  simp_all

theorem capture_of_le {limit : ℕ} {chunks : List Bytes} (h : chunks.flatten.length ≤ limit) :
    capture limit chunks = ⟨chunks.flatten, limit, false⟩ := by
  rw [capture_eq, List.take_of_length_le h, decide_eq_false (Nat.not_lt.2 h)]

@[simp] theorem capture_nil (limit : ℕ) : capture limit [] = ⟨[], limit, false⟩ := rfl

namespace Buffer

/-- `Write` with what it returns: the number of bytes and an error. The bytes that remain are an
`int`. `write` is what it does to the buffer (`Holds.writeResult`). -/
def writeResult (b : Buffer) (p : Bytes) : (ℕ × Option Bytes) × Buffer :=
  let remaining : ℤ := b.limit - b.buf.length
  if remaining < p.length then
    let b := { b with exceeded := true }
    ((p.length, none),
      if remaining > 0 then { b with buf := b.buf ++ p.take remaining.toNat } else b)
  else ((p.length, none), { b with buf := b.buf ++ p })

/-- Some writes, one after another. -/
def writes (b : Buffer) : List Bytes → List (ℕ × Option Bytes) × Buffer
  | [] => ([], b)
  | p :: ps =>
    let (result, b) := b.writeResult p
    let (results, b) := b.writes ps
    (result :: results, b)

theorem Holds.writeResult {b : Buffer} {all : Bytes} (h : b.Holds all) (p : Bytes) :
    b.writeResult p = ((p.length, none), b.write p) := by
  have hlen : b.buf.length ≤ b.limit := by
    rw [h.buf, List.length_take]
    omega
  have hsub : ((b.limit : ℤ) - b.buf.length).toNat = b.limit - b.buf.length := by omega
  by_cases hp : b.limit - b.buf.length < p.length
  · have hp' : (b.limit : ℤ) - b.buf.length < p.length := by omega
    by_cases hroom : 0 < b.limit - b.buf.length
    · have hroom' : (b.limit : ℤ) - b.buf.length > 0 := by omega
      simp only [Buffer.writeResult, Buffer.write, hp, hp', hroom', hsub, if_true]
    · -- nothing remains, and nothing is appended
      have hroom' : ¬ (b.limit : ℤ) - b.buf.length > 0 := by omega
      have hzero : b.limit - b.buf.length = 0 := by omega
      rw [hzero] at hp
      simp only [Buffer.writeResult, Buffer.write, hp, hp', hroom', if_true, if_false, hzero,
        List.take_zero, List.append_nil]
  · have hp' : ¬ (b.limit : ℤ) - b.buf.length < p.length := by omega
    simp only [Buffer.writeResult, Buffer.write, hp, hp', if_false]

theorem Holds.writes {b : Buffer} {all : Bytes} (h : b.Holds all) (chunks : List Bytes) :
    b.writes chunks = (chunks.map fun p => (p.length, none), chunks.foldl Buffer.write b) := by
  induction chunks generalizing b all with
  | nil => rfl
  | cons p chunks ih =>
    simp only [Buffer.writes, h.writeResult, ih (h.write p), List.map_cons, List.foldl_cons]

/-- **Bounded capture is exact.** Each write reports its length and no error; the buffer holds the
first bytes of all that was written and has been exceeded exactly if that was more; so only the data
counts, not how it was split. -/
theorem writes_exact (limit : ℕ) (chunks : List Bytes) :
    ((new limit).writes chunks).1 = chunks.map (fun p => (p.length, none)) ∧
    ((new limit).writes chunks).2.buf = chunks.flatten.take limit ∧
    (((new limit).writes chunks).2.exceeded = true ↔ limit < (chunks.map List.length).sum) ∧
    ∀ chunks' : List Bytes, chunks'.flatten = chunks.flatten →
      ((new limit).writes chunks').2 = ((new limit).writes chunks).2 := by
  have hwrites : ∀ chunks, (new limit).writes chunks =
      (chunks.map fun p => (p.length, none), capture limit chunks) := (holds_new limit).writes
  simp only [hwrites, capture_eq, decide_eq_true_eq, List.length_flatten, true_and]
  intro chunks' hflat
  rw [← List.length_flatten, ← List.length_flatten, hflat]

/-- Six bytes in three ways, one of which has an empty write at the limit. -/
example : [[[1, 2, 3, 4, 5, 6]], [[1, 2], [3, 4, 5, 6]], [[1, 2, 3, 4, 5], [], [6]]].map
    (fun chunks => ((new 5).writes chunks).2) = List.replicate 3 ⟨[1, 2, 3, 4, 5], 5, true⟩ := by
  decide

end Buffer

/-! ## Child processes -/

/-- A command with captured output. -/
structure Command where
  path : Bytes
  args : List Bytes
  env : List Bytes
  dir : Bytes

/-- What `RunPassthrough` returns for a command and what the command has written. -/
structure Captured where
  exitCode : ℤ
  err : Option Bytes
  stdout : List Bytes
  stderr : List Bytes

/-- What a command of the worker leaves: its exit code and its output. -/
structure Finished where
  exitCode : ℤ
  out : Bytes
  errOut : Bytes
  deriving DecidableEq

/-- The command was run, and this is what it left; its output came in any number of writes. -/
structure Captured.Delivers (c : Captured) (f : Finished) : Prop where
  err : c.err = none
  exitCode : c.exitCode = f.exitCode
  stdout : c.stdout.flatten = f.out
  stderr : c.stderr.flatten = f.errOut

namespace Captured.Delivers

variable {c : Captured} {f : Finished} {limit : ℕ}

theorem capture_stdout (h : c.Delivers f) (hlimit : f.out.length ≤ limit) :
    capture limit c.stdout = ⟨f.out, limit, false⟩ := by
  rw [capture_of_le (by rw [h.stdout]; exact hlimit), h.stdout]

theorem capture_stderr (h : c.Delivers f) (hlimit : f.errOut.length ≤ limit) :
    capture limit c.stderr = ⟨f.errOut, limit, false⟩ := by
  rw [capture_of_le (by rw [h.stderr]; exact hlimit), h.stderr]

end Captured.Delivers

/-! ## The worker -/

/-- What the worker meets on its machine: the policy file and the token file, read with the checks
of `securefile`, the checks of the runtime's paths, the commands it runs (by their number, since a
command run twice may end in two ways) and whether their deadline has passed. -/
structure Server where
  policy : Except Bytes Bytes
  validateExecutable : Bytes → Option Bytes
  validatePrivateDir : Bytes → Option Bytes
  validateTrustedDir : Bytes → Option Bytes
  resolve : Bytes → Except Bytes Bytes
  run : ℕ → Command → Captured
  expired : ℕ → Bool

namespace Server

variable [Platform]

/-- `config.LoadWorker` -/
def loadWorker (s : Server) : Except Bytes Config :=
  match s.policy with
  | .error err => .error (str "reading config: " ++ err)
  | .ok data => Config.parse data

omit [Platform] in
/-- `validateRuntime` -/
def validateRuntime (s : Server) (runtime : Runtime) : Except Bytes Unit :=
  match s.validateExecutable runtime.bwsBinary with
  | some err => .error (str "validating bws binary: " ++ err)
  | none =>
    match s.validatePrivateDir runtime.home with
    | some err => .error (str "validating worker home: " ++ err)
    | none =>
      match (runtime.commandPath.splitOn 0x3A).findSome? s.validateTrustedDir with
      | some err => .error (str "validating command path: " ++ err)
      | none => .ok ()

/-- The policy that a diagnostic command works with. -/
def prepare (s : Server) : Except Bytes Config :=
  match s.loadWorker with
  | .error err => .error (str "loading worker policy: " ++ err)
  | .ok cfg =>
    match cfg.validateWorker with
    | .error err => .error (str "validating worker policy: " ++ err)
    | .ok () =>
      match s.validateRuntime cfg.runtime with
      | .error err => .error (str "validating worker runtime: " ++ err)
      | .ok () => .ok cfg

/-- The token, from the file that the policy names. -/
def resolveToken (s : Server) (cfg : Config) : Except Bytes Bytes :=
  match s.resolve cfg.tokenSource.filePath with
  | .error err => .error (str "resolving worker token: " ++ err)
  | .ok token => .ok token

/-- How the worker calls the BWS client. -/
def bwsCommand (runtime : Runtime) (token : Bytes) (args : List Bytes) : Command where
  path := runtime.bwsBinary
  args := args
  env := [str "PATH=" ++ runtime.commandPath, str "HOME=" ++ runtime.home, str "LANG=C.UTF-8",
    str "BWS_ACCESS_TOKEN=" ++ token]
  dir := runtime.home

/-- A diagnostic command works with a policy that `LoadWorker` and `ValidateWorker` accept. -/
theorem prepare_ok {s : Server} {cfg : Config} (h : s.prepare = .ok cfg) :
    s.loadWorker = .ok cfg ∧ cfg.validateWorker = .ok () := by
  unfold prepare at h
  split at h
  · cases h
  · next hload =>
    split at h
    · cases h
    · next hval =>
      split at h
      · cases h
      · obtain rfl := Except.ok.inj h
        exact ⟨hload, hval⟩

theorem accepted_of_prepare {s : Server} {cfg : Config} (h : s.prepare = .ok cfg) :
    cfg.Accepted := by
  have hload := (prepare_ok h).1
  unfold loadWorker at hload
  split at hload
  · cases hload
  · exact Config.accepted_of_parse hload

end Server

end SecretsBroker
