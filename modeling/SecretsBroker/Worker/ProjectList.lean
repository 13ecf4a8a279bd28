import Mathlib.Data.List.Forall2
import SecretsBroker.Worker.Access

/-!
# The project list

The worker's command `projects-list` asks the BWS client for its projects, keeps their ids and names
(`fromBWS`) and prints them as JSON; the administrator's side decodes the output strictly and
validates it again (`WorkerAccessChecker.listAvailable`). Here both sides share one validation, and
`project_list_pipeline` says that they agree: whatever `fromBWS` accepts is within the
administrator's limit, even when every byte is escaped, and is decoded to the same result.
-/

namespace SecretsBroker

namespace ProjectList

open Utf8

/-! ## `internal/projectlist` -/

def Version : Int64 := 1

def MaxProjects : ℕ := 256

structure Project where
  id : Bytes
  name : Bytes
  deriving DecidableEq

structure Result where
  version : Int64
  projects : Slice Project
  deriving DecidableEq

def safeText [Unicode] (s : Bytes) (limit : ℕ) : Bool :=
  !(s == [] || limit < s.length || !decide (Valid s)) &&
    (scan s).all fun x => Quote.isPrint x.toRune

/-- The loop of `Validate` over the projects. -/
def validateProjects [Unicode] (seen : List Bytes) : List Project → Except Bytes Unit
  | [] => .ok ()
  | p :: ps =>
    if !safeText p.id 128 || !safeText p.name 256 then
      .error (str "invalid project identifier or name")
    else if p.id ∈ seen then .error (str "duplicate project ID")
    else validateProjects (p.id :: seen) ps

def Result.validate [Unicode] (r : Result) : Except Bytes Unit :=
  match r.projects with
  | none => .error (str "invalid project list envelope")
  | some ps =>
    if r.version ≠ Version ∨ MaxProjects < ps.length then
      .error (str "invalid project list envelope")
    else validateProjects [] ps

/-- A project as the BWS client prints it. `object` is a `json.RawMessage`: nil when there is no
such member. -/
structure Item where
  object : Option Json
  id : Bytes
  name : Bytes

def Item.zero : Item := ⟨none, [], []⟩

/-- The values of `json.RawMessage`, of which the last one stays. They are not written. -/
def rawMessage : Json.Kind (Option Json) := ⟨fun _ => none, fun _ j => some (some j)⟩

def itemFields : List (Json.Field Item) :=
  [.of (str "object") Item.object (fun x v => { x with object := v }) rawMessage,
    .of (str "id") Item.id (fun x v => { x with id := v }) .string,
    .of (str "name") Item.name (fun x v => { x with name := v }) .string]

/-- `json.Unmarshal` into a slice of items. -/
def unmarshalItems (data : Bytes) : Option (Slice Item) :=
  match Json.parse data with
  | none => none
  | some (j, rest) =>
    if Json.skipSpace rest = [] then
      ((Json.Kind.struct false itemFields).slice .zero).read none j
    else none

/-- An item without an object type, or with the type `project`. -/
def Item.isProject (x : Item) : Bool :=
  match x.object with
  | none => true
  | some j => Json.decodeString [] j == some (str "project")

def fromBWS [Unicode] (data : Bytes) : Except Bytes Result :=
  match unmarshalItems data with
  | none | some none => .error (str "invalid BWS project list")
  | some (some source) =>
    if source.all Item.isProject then
      let result : Result := ⟨Version, some (source.map fun x => ⟨x.id, x.name⟩)⟩
      match result.validate with
      | .error _ => .error (str "invalid BWS project list")
      | .ok () => .ok result
    else .error (str "invalid BWS project list")

/-! ### JSON -/

def Project.zero : Project := ⟨[], []⟩

def Result.zero : Result := ⟨0, none⟩

def projectFields : List (Json.Field Project) :=
  [.of (str "id") Project.id (fun p v => { p with id := v }) .string,
    .of (str "name") Project.name (fun p v => { p with name := v }) .string]

def resultFields : List (Json.Field Result) :=
  [.of (str "version") Result.version (fun r v => { r with version := v }) .int,
    .of (str "projects") Result.projects (fun r v => { r with projects := v })
      ((Json.Kind.struct true projectFields).slice .zero)]

/-- `json.NewEncoder(out).Encode(result)` -/
def Result.encode (r : Result) : Bytes := Json.encodeStruct resultFields r ++ [0x0A]

end ProjectList

/-! ## The two sides -/

/-- `projectListOutputLimit` -/
def projectListOutputLimit : ℕ := 2 <<< 20

namespace Server

variable [Platform]

def listProjects (s : Server) : Except Bytes ProjectList.Result :=
  match s.prepare with
  | .error err => .error err
  | .ok cfg =>
    match s.resolveToken cfg with
    | .error err => .error err
    | .ok token =>
      let child := s.run 0 (bwsCommand cfg.runtime token
        [str "project", str "list", str "--output", str "json", str "--color", str "no"])
      let stdout := capture projectListOutputLimit child.stdout
      let stderr := capture accessStderrLimit child.stderr
      if child.err.isSome || child.exitCode != 0 || stdout.exceeded || stderr.exceeded ||
          stderr.buf != [] then
        .error (str "BWS project list failed")
      else
        match ProjectList.fromBWS stdout.buf with
        | .error _ => .error (str "BWS project list returned invalid data")
        | .ok result => .ok result

/-- The command `projects-list` of the worker. `writeErr` says that the output could not be
written. -/
def projectsList (s : Server) (writeErr : Bool) : Finished :=
  match s.listProjects with
  | .error _ => ⟨2, [], str "secrets-broker-worker: project list failed\n"⟩
  | .ok result =>
    if writeErr then ⟨2, [], str "secrets-broker-worker: project list output failed\n"⟩
    else ⟨0, result.encode, []⟩

theorem listProjects_ok {s : Server} {r : ProjectList.Result} (h : s.listProjects = .ok r) :
    (∃ data, ProjectList.fromBWS data = .ok r) ∧ s.projectsList false = ⟨0, r.encode, []⟩ := by
  refine ⟨?_, by simp [projectsList, h]⟩
  unfold listProjects at h
  split at h
  · cases h
  · split at h
    · cases h
    · next token htoken =>
      simp only at h
      split_ifs at h
      split at h
      · cases h
      · next result hdata =>
        obtain rfl := Except.ok.inj h
        exact ⟨_, hdata⟩

end Server

namespace WorkerAccessChecker

/-- The command that is run as the worker's user. -/
def projectsCommand : Command where
  path := str "/usr/sbin/runuser"
  args := [str "-u", str "secrets-broker", str "--",
    str "/usr/local/libexec/secrets-broker-worker", str "projects-list"]
  env := []
  dir := str "/"

def listAvailable [Unicode] (run : Command → Captured) : Except Bytes ProjectList.Result :=
  let child := run projectsCommand
  let stdout := capture accessOutputLimit child.stdout
  let stderr := capture accessOutputLimit child.stderr
  if child.err.isSome || child.exitCode != 0 || stdout.exceeded || stderr.exceeded ||
      stderr.buf != [] then
    .error (str "worker project list failed")
  else
    match Json.decodeSole true ProjectList.resultFields .zero stdout.buf with
    | none => .error (str "worker project list returned an invalid result")
    | some result =>
      match result.validate with
      | .error _ => .error (str "worker project list returned an invalid result")
      | .ok () => .ok result

end WorkerAccessChecker

/-! ## What `Validate` accepts -/

namespace ProjectList

open Utf8

theorem safeText_iff [Unicode] {s : Bytes} {limit : ℕ} :
    safeText s limit = true ↔ s ≠ [] ∧ s.length ≤ limit ∧ Printable s := by
  simp only [safeText, Bool.and_eq_true, Bool.not_eq_true', Bool.or_eq_false_iff,
    beq_eq_false_iff_ne,
    decide_eq_false_iff_not, Bool.not_eq_false', decide_eq_true_eq, List.all_eq_true, Printable,
    Nat.not_lt, and_assoc]

/-- The projects of a valid result. -/
structure Listed [Unicode] (ps : List Project) : Prop where
  length_le : ps.length ≤ MaxProjects
  id : ∀ p ∈ ps, p.id ≠ [] ∧ p.id.length ≤ 128 ∧ Printable p.id
  name : ∀ p ∈ ps, p.name ≠ [] ∧ p.name.length ≤ 256 ∧ Printable p.name
  nodup : (ps.map Project.id).Nodup

theorem validateProjects_ok_iff [Unicode] {seen : List Bytes} {ps : List Project} :
    validateProjects seen ps = .ok () ↔
      (ps.map Project.id).Nodup ∧ (∀ p ∈ ps, p.id ∉ seen) ∧
        ∀ p ∈ ps, safeText p.id 128 = true ∧ safeText p.name 256 = true := by
  refine Fallible.seen_eq_ok_iff (fun _ => rfl) fun seen p ps => ?_
  rw [validateProjects]
  cases safeText p.id 128 <;> cases safeText p.name 256 <;> by_cases hseen : p.id ∈ seen <;>
    simp [hseen]

theorem Result.listed_of_validate [Unicode] {r : Result} (h : r.validate = .ok ()) :
    ∃ ps, r = ⟨Version, some ps⟩ ∧ Listed ps := by
  obtain ⟨v, projects⟩ := r
  unfold Result.validate at h
  split at h
  · cases h
  · next ps hps =>
    split_ifs at h with henv
    obtain rfl : projects = some ps := hps
    obtain ⟨hversion, hlen⟩ := not_or.1 henv
    obtain rfl : v = Version := not_not.1 hversion
    obtain ⟨hnodup, -, hsafe⟩ := validateProjects_ok_iff.1 h
    refine ⟨ps, rfl, Nat.not_lt.1 hlen, ?_, ?_, hnodup⟩
    · exact fun p hp => safeText_iff.1 (hsafe p hp).1
    · exact fun p hp => safeText_iff.1 (hsafe p hp).2

theorem fromBWS_ok [Unicode] {data : Bytes} {r : Result} (h : fromBWS data = .ok r) :
    r.validate = .ok () ∧ ∃ source, unmarshalItems data = some (some source) ∧
      r = ⟨Version, some (source.map fun x => ⟨x.id, x.name⟩)⟩ := by
  unfold fromBWS at h
  split at h
  · cases h
  · cases h
  · next source hsource =>
    split_ifs at h
    simp only at h
    split at h
    · cases h
    · next hval =>
      obtain rfl := Except.ok.inj h
      exact ⟨hval, source, hsource, rfl⟩

/-- The list that the client has printed, element by element. -/
theorem unmarshalItems_ok {data : Bytes} {source : List Item}
    (h : unmarshalItems data = some (some source)) :
    ∃ js rest, Json.parse data = some (.array js, rest) ∧ Json.skipSpace rest = [] ∧
      List.Forall₂ (fun j x => Json.decodeStruct false itemFields .zero j = some x) js source := by
  unfold unmarshalItems at h
  split at h
  · cases h
  · next j rest hparse =>
    split_ifs at h with hrest
    cases j with
    | array js =>
      simp only [Json.Kind.slice, Option.getD_none, Option.map_eq_some_iff, Option.some.injEq] at h
      obtain ⟨xs, hxs, rfl⟩ := h
      exact ⟨js, rest, hparse, hrest, Json.Kind.forall₂_of_readElements hxs⟩
    | _ => simp [Json.Kind.slice] at h

/-! ## The encoded result -/

theorem carries_project {p : Project} (hid : Valid p.id) (hname : Valid p.name) :
    (Json.Kind.struct true projectFields).Carries .zero p p := by
  have hi := Json.Kind.carries_string [] p.id
  have hn := Json.Kind.carries_string [] p.name
  rw [(toValid_eq_self_iff _).2 hid] at hi
  rw [(toValid_eq_self_iff _).2 hname] at hn
  exact Json.Kind.carries_struct (.of hi rfl (.of hn rfl (.nil _))) (by decide +kernel) true

theorem Listed.decode_encode [Unicode] {ps : List Project} (h : Listed ps) :
    Json.decodeSole true resultFields .zero (Result.encode ⟨Version, some ps⟩) =
      some ⟨Version, some ps⟩ := by
  have hps : ((Json.Kind.struct true projectFields).slice .zero).Carries none (some ps)
      (some (ps.map fun p => p)) :=
    Json.Kind.carries_slice rfl fun p hp =>
      ⟨by simp [Json.Kind.struct], carries_project (h.id p hp).2.2.1 (h.name p hp).2.2.1⟩
  rw [List.map_id'] at hps
  refine Json.Carried.decodeSole ?_ (by decide +kernel) true
  exact .of (Json.Kind.carries_int _ _) rfl (.of hps rfl (.nil _))

/-- The longest project in JSON: every byte is written as six. -/
theorem length_encodeProject_le {p : Project} (hid : p.id.length ≤ 128)
    (hname : p.name.length ≤ 256) : (Json.encodeStruct projectFields p).length ≤ 2323 := by
  have hi := Json.length_encodeString_le p.id
  have hn := Json.length_encodeString_le p.name
  have hkeys : (Json.encodeString (str "id")).length = 4 ∧
      (Json.encodeString (str "name")).length = 6 := by decide +kernel
  have htext : Json.encodeStruct projectFields p =
      Json.encodeObject [(str "id", Json.encodeString p.id),
        (str "name", Json.encodeString p.name)] :=
    rfl
  rw [htext]
  simp only [Json.encodeObject, Json.encodeMember, List.intercalate, List.map_cons, List.map_nil,
    List.intersperse_cons_cons, List.intersperse_singleton, List.flatten_cons, List.flatten_nil,
    List.length_append, List.length_cons, List.length_nil, List.cons_append, hkeys.1, hkeys.2]
  omega

theorem Listed.length_encode [Unicode] {ps : List Project} (h : Listed ps) :
    (Result.encode ⟨Version, some ps⟩).length < WorkerAccessChecker.accessOutputLimit := by
  have hlimit : WorkerAccessChecker.accessOutputLimit = 2097152 := rfl
  have hitems : ∀ t ∈ ps.map fun p => (Json.encodeStruct projectFields p), t.length ≤ 2323 := by
    intro t ht
    obtain ⟨p, hp, rfl⟩ := List.mem_map.1 ht
    exact length_encodeProject_le (h.id p hp).2.1 (h.name p hp).2.1
  have harray := Json.length_encodeArray_le hitems
  have hmax : ps.length ≤ 256 := h.length_le
  have hkeys : (Json.encodeString (str "version")).length = 9 ∧
      (Json.encodeString (str "projects")).length = 10 ∧ (Json.encodeInt Version).length = 1 := by
    decide +kernel
  have htext : Result.encode ⟨Version, some ps⟩ =
      Json.encodeObject [(str "version", Json.encodeInt Version), (str "projects",
        Json.encodeArray (ps.map fun p => Json.encodeStruct projectFields p))] ++ [0x0A] := rfl
  rw [htext, hlimit]
  simp only [Json.encodeObject, Json.encodeMember, List.intercalate, List.map_cons, List.map_nil,
    List.intersperse_cons_cons, List.intersperse_singleton, List.flatten_cons, List.flatten_nil,
    List.length_append, List.length_cons, List.length_nil, List.cons_append, hkeys.1, hkeys.2.1,
    hkeys.2.2, List.length_map] at harray ⊢
  omega

end ProjectList

/-! ## The pipeline -/

theorem WorkerAccessChecker.listAvailable_ok [Unicode] {run : Command → Captured}
    {r : ProjectList.Result} (h : listAvailable run = .ok r) : r.validate = .ok () := by
  simp only [listAvailable] at h
  split_ifs at h
  split at h
  · cases h
  · split at h
    · cases h
    · next hval =>
      obtain rfl := Except.ok.inj h
      exact hval

theorem WorkerAccessChecker.listAvailable_of_delivers [Unicode] {run : Command → Captured}
    {r : ProjectList.Result} (hval : r.validate = .ok ())
    (hrun : (run projectsCommand).Delivers ⟨0, r.encode, []⟩) : listAvailable run = .ok r := by
  obtain ⟨ps, rfl, hps⟩ := ProjectList.Result.listed_of_validate hval
  have hstdout := hrun.capture_stdout (Nat.le_of_lt hps.length_encode)
  have hstderr := hrun.capture_stderr (Nat.zero_le accessOutputLimit)
  simp only [listAvailable, hstdout, hstderr, hrun.err, hrun.exitCode, hps.decode_encode, hval,
    Option.isSome_none, Bool.or_self, bne_self_eq_false, Bool.false_eq_true, if_false]

/-- **The project list comes through.** What `fromBWS` accepts is a JSON list; its result has the id
and the name of each element, in order, and the ids are distinct. The worker prints that result in
less than the administrator's limit, and the administrator's side decodes it to the same result,
however the output is split. The worker's command reports nothing else, and the administrator's side
accepts valid results only. -/
theorem project_list_pipeline [Platform] :
    (∀ data r, ProjectList.fromBWS data = .ok r →
      (∃ js rest ps, Json.parse data = some (.array js, rest) ∧ Json.skipSpace rest = [] ∧
        r.projects = some ps ∧ (ps.map ProjectList.Project.id).Nodup ∧
        List.Forall₂ (fun j p => ∃ x,
          Json.decodeStruct false ProjectList.itemFields .zero j = some x ∧
            p = ⟨x.id, x.name⟩) js ps) ∧
      r.encode.length < WorkerAccessChecker.accessOutputLimit ∧
      ∀ run : Command → Captured,
        (run WorkerAccessChecker.projectsCommand).Delivers ⟨0, r.encode, []⟩ →
          WorkerAccessChecker.listAvailable run = .ok r) ∧
    (∀ (s : Server) r, s.listProjects = .ok r →
      (∃ data, ProjectList.fromBWS data = .ok r) ∧ s.projectsList false = ⟨0, r.encode, []⟩) ∧
    ∀ (run : Command → Captured) r, WorkerAccessChecker.listAvailable run = .ok r →
      r.validate = .ok () := by
  refine ⟨?_, fun s r => Server.listProjects_ok, fun run r => WorkerAccessChecker.listAvailable_ok⟩
  intro data r hdata
  obtain ⟨hval, source, hsource, rfl⟩ := ProjectList.fromBWS_ok hdata
  obtain ⟨js, rest, hparse, hrest, hitems⟩ := ProjectList.unmarshalItems_ok hsource
  obtain ⟨ps, hps, hlisted⟩ := ProjectList.Result.listed_of_validate hval
  obtain rfl := Option.some.inj (congrArg ProjectList.Result.projects hps)
  refine ⟨⟨js, rest, _, hparse, hrest, rfl, hlisted.nodup, ?_⟩, hlisted.length_encode,
    fun run => WorkerAccessChecker.listAvailable_of_delivers hval⟩
  rw [List.forall₂_map_right_iff]
  exact hitems.imp fun j x hx => ⟨x, hx, rfl⟩

/-- A list with an escaped name and members that are passed over. -/
example : @ProjectList.fromBWS aliasPlatform.toUnicode
    (str "[\x7b\"object\":\"project\",\"id\":\"1\",\"name\":\"a\\u0026b\",\"n\":0\x7d]") =
      .ok ⟨1, some [⟨str "1", str "a&b"⟩]⟩ := by decide +kernel

/-- The empty list is a list, `null` is not. -/
example : @ProjectList.fromBWS aliasPlatform.toUnicode (str "[]") = .ok ⟨1, some []⟩ ∧
    @ProjectList.fromBWS aliasPlatform.toUnicode (str "null") =
      .error (str "invalid BWS project list") := by decide +kernel

end SecretsBroker
