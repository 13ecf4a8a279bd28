import Mathlib.Algebra.Group.Nat.Defs
import SecretsBroker.Foundations.Json

/-!
# The request that the client sends to the worker

`internal/worker`: `Request`, what `Client.Run` writes for it and `decodeRequest`, with its size
limit, the rejection of unknown fields and of trailing data, and its checks. A request is decoded to
itself up to bytes that are no UTF-8, which come out as U+FFFD (`decodeRequest_encodeRequest`), so
exactly the requests whose texts are valid UTF-8 are decoded to themselves
(`decodeRequest_eq_self_iff`).
-/

namespace SecretsBroker.Worker

open Utf8

def maxRequestBytes : ℕ := 64 * 2 ^ 10

structure Request where
  project : Bytes := []
  workingDir : Bytes := []
  argv : List Bytes := []
  dryRun : Bool := false
  deriving DecidableEq

/-- What a reader delivers: some bytes, and then an error or the end. -/
structure Reader where
  data : Bytes
  err : Option Bytes := none

/-- `io.ReadAll` of an `io.LimitReader`. -/
def Reader.readLimited (r : Reader) (limit : ℕ) : Except Bytes Bytes :=
  if limit ≤ r.data.length then .ok (r.data.take limit)
  else match r.err with
    | some err => .error err
    | none => .ok r.data

/-! ## The client's side -/

/-- The members of a request; `dry_run` is left out when it is false. -/
def Request.members (req : Request) : List (Bytes × Bytes) :=
  [(str "project", Json.encodeString req.project),
    (str "working_dir", Json.encodeString req.workingDir),
    (str "argv", Json.encodeArray (req.argv.map Json.encodeString))] ++
    if req.dryRun then [(str "dry_run", str "true")] else []

/-- What `Client.Run` sends: the JSON of the request and a newline. -/
def encodeRequest (req : Request) : Bytes := Json.encodeObject req.members ++ [0x0A]

/-! ## The worker's side -/

inductive Field
  | project
  | workingDir
  | argv
  | dryRun
  deriving DecidableEq

def requestFields : List (Bytes × Field) :=
  [(str "project", .project), (str "working_dir", .workingDir), (str "argv", .argv),
    (str "dry_run", .dryRun)]

/-- Why the JSON decoder fails. -/
inductive DecodeError
  | endOfInput
  | malformed
  | unknownField (key : Bytes)
  | wrongType (key : Bytes)
  deriving DecidableEq

/-- Set a field from a value; `none` when the value has another type. -/
def Request.set (req : Request) (value : Json) : Field → Option Request
  | .project => (Json.decodeString req.project value).map fun s => { req with project := s }
  | .workingDir =>
    (Json.decodeString req.workingDir value).map fun s => { req with workingDir := s }
  | .argv => (Json.decodeStrings req.argv value).map fun ss => { req with argv := ss }
  | .dryRun => (Json.decodeBool req.dryRun value).map fun b => { req with dryRun := b }

/-- One member of the object. The first error is kept, and decoding goes on. -/
def decodeMember (st : Request × Option DecodeError) (m : Bytes × Json) :
    Request × Option DecodeError :=
  match Json.lookupField requestFields m.1 with
  | none => (st.1, st.2.or (some (.unknownField m.1)))
  | some field =>
    match st.1.set m.2 field with
    | none => (st.1, st.2.or (some (.wrongType m.1)))
    | some req => (req, st.2)

def decodeValue : Json → Except DecodeError Request
  | .null => .ok {}
  | .object members =>
    match members.foldl decodeMember ({}, none) with
    | (_, some err) => .error err
    | (req, none) => .ok req
  | _ => .error (.wrongType [])

/-- The errors of `decodeRequest`. -/
inductive RequestError
  | reading (err : Bytes)
  | tooLarge
  | decoding (err : DecodeError)
  | trailingData
  | noProject
  | noWorkingDir
  | noArgv
  deriving DecidableEq

/-- The text of an error, up to what the decoder itself reports. -/
def RequestError.text : RequestError → Bytes
  | .reading err => str "reading request: " ++ err
  | .tooLarge => str "request exceeds 64 KiB"
  | .decoding _ => str "decoding request: "
  | .trailingData => str "request must contain exactly one JSON object"
  | .noProject => str "project is required"
  | .noWorkingDir => str "working_dir is required"
  | .noArgv => str "argv is required"

/-- The checks of `decodeRequest` on the decoded request. -/
def Request.check (req : Request) : Except RequestError Request :=
  if req.project = [] then .error .noProject
  else if req.workingDir = [] then .error .noWorkingDir
  else if req.argv = [] then .error .noArgv
  else .ok req

def decodeRequest (r : Reader) : Except RequestError Request :=
  match r.readLimited (maxRequestBytes + 1) with
  | .error err => .error (.reading err)
  | .ok data =>
    if maxRequestBytes < data.length then .error .tooLarge
    else
      match Json.parse data with
      | none =>
        .error (.decoding (if Json.skipSpace data = [] then .endOfInput else .malformed))
      | some (value, rest) =>
        match decodeValue value with
        | .error err => .error (.decoding err)
        | .ok req => if Json.skipSpace rest ≠ [] then .error .trailingData else req.check

/-! ## The round trip -/

/-- A request whose texts are reported as a reader of UTF-8 reports them. -/
def Request.toValid (req : Request) : Request where
  project := Utf8.toValid req.project
  workingDir := Utf8.toValid req.workingDir
  argv := req.argv.map Utf8.toValid
  dryRun := req.dryRun

/-- All texts of the request are valid UTF-8. -/
def Request.Valid (req : Request) : Prop :=
  Utf8.Valid req.project ∧ Utf8.Valid req.workingDir ∧ ∀ arg ∈ req.argv, Utf8.Valid arg

/-- What the CLI checks before it builds a request. -/
structure Request.Complete (req : Request) : Prop where
  project : req.project ≠ []
  workingDir : req.workingDir ≠ []
  argv : req.argv ≠ []

theorem toValid_ne_nil {s : Bytes} (h : s ≠ []) : Utf8.toValid s ≠ [] := by
  have := length_le_toValid s
  intro he
  rw [he] at this
  exact h (List.eq_nil_of_length_eq_zero (Nat.le_zero.1 this))

theorem Request.toValid_eq_self_iff (req : Request) : req.toValid = req ↔ req.Valid := by
  obtain ⟨project, workingDir, argv, dryRun⟩ := req
  simp only [Request.toValid, Request.Valid, Request.mk.injEq, Utf8.toValid_eq_self_iff, and_true]
  refine and_congr_right fun _ => and_congr_right fun _ => ?_
  have hid : argv.map Utf8.toValid = argv ↔ argv.map Utf8.toValid = argv.map id := by simp
  rw [hid, List.map_inj_left]
  simp only [id_eq, Utf8.toValid_eq_self_iff]

theorem Request.Complete.toValid {req : Request} (h : req.Complete) : req.toValid.Complete :=
  ⟨toValid_ne_nil h.project, toValid_ne_nil h.workingDir, by simpa [Request.toValid] using h.argv⟩

theorem Request.Complete.check {req : Request} (h : req.Complete) : req.check = .ok req := by
  simp [Request.check, h.project, h.workingDir, h.argv]

/-- The members of a request as they are parsed. -/
def Request.items (req : Request) : List (Bytes × Bytes × Json) :=
  [(str "project", Json.encodeString req.project, .string (Utf8.toValid req.project)),
    (str "working_dir", Json.encodeString req.workingDir, .string (Utf8.toValid req.workingDir)),
    (str "argv", Json.encodeArray (req.argv.map Json.encodeString),
      .array (req.argv.map fun arg => .string (Utf8.toValid arg)))] ++
    if req.dryRun then [(str "dry_run", str "true", .bool true)] else []

theorem Request.items_members (req : Request) :
    (req.items.map fun p => (p.1, p.2.1)) = req.members := by
  unfold Request.items Request.members
  cases req.dryRun <;> rfl

theorem Request.items_reads {req : Request} (h : req.argv ≠ []) :
    ∀ p ∈ req.items, Json.ReadsInside p.2.1 p.2.2 (req.argv.length + 2) := by
  have hle : 1 ≤ req.argv.length + 2 := by omega
  intro p hp
  rcases List.mem_append.1 hp with hp | hp
  · simp only [List.mem_cons, List.not_mem_nil, or_false] at hp
    rcases hp with rfl | rfl | rfl
    · exact ((Json.reads_encodeString _).mono hle).inside
    · exact ((Json.reads_encodeString _).mono hle).inside
    · exact (Json.reads_strings h).inside
  · split at hp
    · obtain rfl := List.mem_singleton.1 hp
      exact (Json.reads_true.mono hle).inside
    · exact absurd hp (by simp)

theorem length_le_members (req : Request) :
    req.argv.length + 7 ≤ (Json.encodeObject req.members).length := by
  have hne : ∀ t ∈ req.argv.map Json.encodeString, t ≠ [] := by
    intro t ht
    obtain ⟨arg, -, rfl⟩ := List.mem_map.1 ht
    simp [Json.encodeString]
  have hargv := @Json.length_le_intercalate 0x2C _ hne
  have hkey : (Json.encodeString (str "project")).length = 9 := by decide
  unfold Request.members
  cases req.dryRun <;>
    simp [Json.encodeObject, Json.encodeMember, Json.encodeArray, List.intercalate, hkey]
      at hargv ⊢ <;>
    omega

theorem parse_encodeRequest {req : Request} (h : req.argv ≠ []) :
    Json.parse (encodeRequest req) =
      some (.object (req.items.map fun p => (Utf8.toValid p.1, p.2.2)), [0x0A]) := by
  have hne : req.items ≠ [] := by simp [Request.items]
  have hlen : req.items.length ≤ 4 := by
    unfold Request.items
    cases req.dryRun <;> simp
  have hsize := length_le_members req
  have hreads := Json.reads_object hne (Request.items_reads h)
  rw [Request.items_members] at hreads
  refine hreads _ ?_ [0x0A]
  rw [encodeRequest, List.length_append]
  omega

/-- The parsed members give the request back, as UTF-8 reports it. -/
theorem decodeValue_items (req : Request) :
    decodeValue (.object (req.items.map fun p => (Utf8.toValid p.1, p.2.2))) = .ok req.toValid := by
  have hkey : ∀ key, Utf8.toValid (str key) = str key :=
    fun key => (Utf8.toValid_eq_self_iff _).2 (valid_str key)
  have hargv : ∀ old, Json.decodeElements old
      (req.argv.map fun arg => .string (Utf8.toValid arg)) = some (req.argv.map Utf8.toValid) := by
    intro old
    have := Json.decodeElements_strings old (req.argv.map Utf8.toValid)
    rwa [List.map_map] at this
  have h₁ : Json.lookupField requestFields (str "project") = some .project := by decide +kernel
  have h₂ : Json.lookupField requestFields (str "working_dir") =
      some .workingDir := by decide +kernel
  have h₃ : Json.lookupField requestFields (str "argv") = some .argv := by decide +kernel
  have h₄ : Json.lookupField requestFields (str "dry_run") = some .dryRun := by decide +kernel
  unfold Request.items Request.toValid
  cases req.dryRun <;>
    simp [decodeValue, decodeMember, hkey, h₁, h₂, h₃, h₄, Request.set, Json.decodeString,
      Json.decodeStrings, Json.decodeBool, hargv]

/-- **A request is decoded to itself up to invalid UTF-8.** -/
theorem decodeRequest_encodeRequest {req : Request} (h : req.Complete)
    (hsize : (encodeRequest req).length ≤ maxRequestBytes) :
    decodeRequest ⟨encodeRequest req, none⟩ = .ok req.toValid := by
  have hread : (Reader.mk (encodeRequest req) none).readLimited (maxRequestBytes + 1) =
      .ok (encodeRequest req) := by
    simp [Reader.readLimited]
    omega
  have hsp : Json.skipSpace [0x0A] = [] := by decide
  simp only [decodeRequest, hread, Nat.not_lt.2 hsize, if_false, parse_encodeRequest h.argv,
    decodeValue_items, hsp, ne_eq, not_true_eq_false, h.toValid.check]

/-- **Exactly the requests in valid UTF-8 reach the worker as they were sent.** For every request
that the CLI can build and whose encoding is within the limit, the worker decodes the request that
was sent if and only if its project, its directory and all its arguments are valid UTF-8; and no two
different requests of this kind are decoded to the same one. -/
theorem decodeRequest_eq_self_iff {req : Request} (h : req.Complete)
    (hsize : (encodeRequest req).length ≤ maxRequestBytes) :
    (decodeRequest ⟨encodeRequest req, none⟩ = .ok req ↔ req.Valid) ∧
      ∀ req' : Request, req'.Complete → (encodeRequest req').length ≤ maxRequestBytes →
        req.Valid → req'.Valid →
        decodeRequest ⟨encodeRequest req, none⟩ = decodeRequest ⟨encodeRequest req', none⟩ →
        req = req' := by
  constructor
  · rw [decodeRequest_encodeRequest h hsize, Except.ok.injEq, Request.toValid_eq_self_iff]
  · intro req' h' hsize' hv hv' heq
    rw [decodeRequest_encodeRequest h hsize, decodeRequest_encodeRequest h' hsize',
      (Request.toValid_eq_self_iff req).2 hv, (Request.toValid_eq_self_iff req').2 hv'] at heq
    exact Except.ok.inj heq

/-- A request with a byte that is no UTF-8 in an argument. -/
def rawRequest : Request where
  project := str "app"
  workingDir := str "/srv/app"
  argv := [str "deploy", [0x61, 0xFF]]

/-- The same request with U+FFFD in the place of that byte. -/
def replacedRequest : Request :=
  { rawRequest with argv := [str "deploy", 0x61 :: encodeRune runeError] }

theorem decodeRequest_replaced :
    decodeRequest ⟨encodeRequest replacedRequest, none⟩ = .ok replacedRequest := by
  have h : replacedRequest.Complete := ⟨by decide, by decide, by decide⟩
  have hv : replacedRequest.Valid := by
    refine ⟨valid_str _, valid_str _, ?_⟩
    decide +kernel
  exact (decodeRequest_eq_self_iff h (by decide +kernel)).1.2 hv

/-- An argument that is no UTF-8 reaches the worker as another argument: the worker matches, shows
and runs a command that the caller did not type, the same as for a different request. -/
theorem invalid_argument_is_replaced :
    rawRequest ≠ replacedRequest ∧
      decodeRequest ⟨encodeRequest rawRequest, none⟩ = .ok replacedRequest ∧
      decodeRequest ⟨encodeRequest rawRequest, none⟩ =
        decodeRequest ⟨encodeRequest replacedRequest, none⟩ ∧
      rawRequest.Complete ∧ (encodeRequest rawRequest).length ≤ maxRequestBytes := by
  refine ⟨by decide, by decide +kernel, by decide +kernel, ⟨by decide, by decide, by decide⟩,
    by decide +kernel⟩

end SecretsBroker.Worker
