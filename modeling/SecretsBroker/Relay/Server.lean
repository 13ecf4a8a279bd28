import SecretsBroker.Config
import SecretsBroker.Foundations.Timestamp
import SecretsBroker.Relay.Store

/-!
# The relay's two handlers

`internal/relay/server.go`. The control handler registers a request and reports its status; the
decision handler takes a decision. A handler reads its body through a limit, so a JSON body has to
be complete within that many bytes (`decodeWithin`).
-/

namespace SecretsBroker.Json

/-- The first value of a body, when it is complete within `limit` bytes. -/
def decodeWithin (limit : ℕ) (body : Bytes) : Option Json :=
  match parse body with
  | none => none
  | some (j, rest) => if body.length - rest.length ≤ limit then some j else none

/-- One member of an object for a structure with a single field, of type string. Other members are
ignored; `none` is a value of another type. -/
def singleMember (field : Bytes) (old : Option Bytes) (m : Bytes × Json) : Option Bytes :=
  match lookupField [(field, ())] m.1 with
  | none => old
  | some () => old.bind fun s => decodeString s m.2

/-- A structure with a single field, of type string. -/
def decodeSingle (field : Bytes) : Json → Option Bytes
  | .null => some []
  | .object members => members.foldl (singleMember field) (some [])
  | _ => none

end SecretsBroker.Json

namespace SecretsBroker.Relay

structure Response where
  code : ℕ
  body : Bytes
  deriving DecidableEq

/-- `http.Error`. -/
def httpError (text : Bytes) (code : ℕ) : Response := ⟨code, text ++ str "\n"⟩

def isIDByte (b : UInt8) : Bool :=
  (0x61 ≤ b.toNat && b.toNat ≤ 0x7A) || (0x41 ≤ b.toNat && b.toNat ≤ 0x5A) ||
    (0x30 ≤ b.toNat && b.toNat ≤ 0x39) || b == 0x2D || b == 0x5F

/-- `validID`. Every byte of a rune above ASCII fails the test as the rune does. -/
def validID (id : Bytes) : Bool := id != [] && id.length ≤ 64 && id.all isIDByte

/-! ## Times -/

open Timestamp

/-- A time in UTC, in the format `time.RFC3339`. -/
def rfc3339 (time : ℤ) : Bytes :=
  let seconds := time / 1000000000
  let (year, month, day) := civil (seconds / 86400)
  let second := (seconds % 86400).toNat
  padded 4 year.toNat ++ str "-" ++ padded 2 month ++ str "-" ++ padded 2 day ++ str "T" ++
    padded 2 (second / 3600) ++ str ":" ++ padded 2 (second / 60 % 60) ++ str ":" ++
    padded 2 (second % 60) ++ str "Z"

example : rfc3339 1000000000000000000 = str "2001-09-09T01:46:40Z" := by decide +kernel

/-! ## The control handler -/

/-- The JSON of `viewOf`, with the newline of the encoder. Without a request it is the zero view. -/
def encodeView (r : Option Request) : Bytes :=
  Json.encodeObject
    [(str "id", Json.encodeString ((r.map Request.id).getD [])),
      (str "status", Json.encodeString ((r.map fun r => r.status.text).getD [])),
      (str "deadline", Json.encodeString (rfc3339 ((r.map Request.deadline).getD
        (-62135596800000000000))))] ++ [0x0A]

/-- The prompt of a registration, when the body is accepted. -/
def registrationPrompt (body : Bytes) : Option Bytes :=
  match (Json.decodeWithin (16 * 2 ^ 10) body).bind (Json.decodeSingle (str "prompt")) with
  | none => none
  | some prompt => if prompt = [] ∨ 8 * 2 ^ 10 < prompt.length then none else some prompt

/-- `POST /requests/{id}` of the control handler, up to the creation of the request. -/
def register [Unicode] (s : Store) (ttl now : ℤ) (id body : Bytes) : Except Response Store :=
  if !validID id then .error (httpError (str "invalid request id") 400)
  else
    match registrationPrompt body with
    | none => .error (httpError (str "invalid request body: prompt is required") 400)
    | some prompt =>
      match s.create now id prompt ttl with
      | .error err => .error (httpError err.text 409)
      | .ok s' => .ok s'

/-- The answer to a registration that created its request. Other requests may have been served
since, and the request may be gone. -/
def registered (s : Store) (now : ℤ) (id : Bytes) : Response :=
  ⟨201, encodeView (s.get now id).toOption⟩

/-- `GET /requests/{id}` of the control handler. -/
def poll [Unicode] (s : Store) (now : ℤ) (id : Bytes) : Response :=
  if !validID id then httpError (str "invalid request id") 400
  else
    match s.get now id with
    | .error err => httpError err.text 404
    | .ok r => ⟨200, encodeView (some r)⟩

/-! ## The decision handler -/

/-- A request to the decision port: its headers (empty when absent), its host and its body. -/
structure DecideRequest where
  id : Bytes
  origin : Bytes
  referer : Bytes
  host : Bytes
  tls : Bool
  contentType : Bytes
  body : Bytes

/-- How `net/http` reads a form: the first value of a key in the body, for a content type. -/
class Forms where
  postFormValue : Bytes → Bytes → Bytes → Option Bytes

/-- `sameOrigin`. -/
def sameOrigin [Platform] (r : DecideRequest) : Bool :=
  let origin := if r.origin = [] then r.referer else r.origin
  if origin = [] then true
  else
    match Platform.parseURL origin with
    | none => false
    | some u => u.scheme == (if r.tls then str "https" else str "http") && u.host == r.host

/-- `isBrowserForm`. -/
def isBrowserForm (r : DecideRequest) : Bool :=
  (str "application/x-www-form-urlencoded").isPrefixOf r.contentType

/-- `readDecision`. -/
def readDecision [Forms] (r : DecideRequest) : Except Bytes Bytes :=
  if isBrowserForm r then
    match Forms.postFormValue r.contentType (str "decision") r.body with
    | none => .error (str "invalid form body")
    | some decision => .ok decision
  else
    match (Json.decodeWithin (4 * 2 ^ 10) r.body).bind (Json.decodeSingle (str "decision")) with
    | none => .error (str "invalid request body")
    | some decision => .ok decision

/-- What a request to the decision port asks for, or the answer that refuses it. -/
def readApprove [Platform] [Forms] (r : DecideRequest) : Except Response Bool :=
  if !sameOrigin r then .error (httpError (str "cross-origin request rejected") 403)
  else if !validID r.id then .error (httpError (str "invalid request id") 400)
  else
    match readDecision r with
    | .error err => .error (httpError err 400)
    | .ok decision =>
      if decision = str "approve" then .ok true
      else if decision = str "deny" then .ok false
      else .error (httpError (str "decision must be \"approve\" or \"deny\"") 400)

/-- `POST /requests/{id}/decide`. The page that answers a browser is not modelled. -/
def decide [Platform] [Forms] (s : Store) (now : ℤ) (r : DecideRequest) : Except Response Store :=
  match readApprove r with
  | .error resp => .error resp
  | .ok approve =>
    match s.decide now r.id approve with
    | .error .notFound => .error (httpError StoreError.notFound.text 404)
    | .error err => .error (httpError err.text 409)
    | .ok s' => .ok s'

end SecretsBroker.Relay
