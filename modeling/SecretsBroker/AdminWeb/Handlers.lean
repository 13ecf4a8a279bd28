import SecretsBroker.AdminWeb.Forms
import SecretsBroker.Foundations.Interaction

/-!
# The handlers of the administrator web page

`internal/adminweb` as programs over the calls they make: `protectPost`, which stands before every
handler of a posted form, the handlers, and the pages. Calls are

* the sections under the server's lock that work on form tokens (`take`, `issue`, `attach`),
* the reads and mutations of the policy (`PolicyCall`),
* the call of a handler by `protectPost` (`next`), which is a call here so that it is seen in a
  trace,
* and the sections and diagnostics that touch neither, whose answers stay open.

Of a page only what a later request can send back is kept: its tokens. The lock section of
`renderProject` that looks up earlier check results works on a map of its own (`showChecks`); the
checks of `ServeHTTP` on the proxy's headers are left out.
-/

namespace SecretsBroker.AdminWeb

open Admin Interaction

/-- What a form token is issued for: a page's form, or the commit of a reviewed change. -/
inductive Action
  | review (kind : Kind)
  | commit
  | discover
  | path
  | access
  deriving DecidableEq

structure FormToken where
  /-- Nothing for the zero value, whose action is the empty text. -/
  action : Option Action
  login : Bytes
  revision : Bytes
  target : Bytes
  /-- Nanoseconds since 1970. -/
  expires : ℤ
  change : Option PolicyChange

/-- The calls that concern the policy. -/
inductive PolicyCall
  | revision
  | listProjects
  | getProject (name : Bytes)
  /-- A mutator of `s.edit(revision)`. -/
  | mutate (revision : Bytes) (m : Mutation)

abbrev PolicyCall.Answer : PolicyCall → Type
  | .revision => Except Bytes Bytes
  | .listProjects => Except Bytes (List ProjectSummary)
  | .getProject _ => Except Bytes ProjectDetail
  | .mutate _ _ => Bool × Option Bytes

abbrev PolicyProgram := Prog PolicyCall PolicyCall.Answer

inductive Call
  | take (token : Bytes) (action : Action)
  | issue (action : Action) (revision target : Bytes)
  | attach (token : Bytes) (change : PolicyChange)
  | policy (c : PolicyCall)
  | next (token : Bytes) (action : Action) (entry : FormToken)
  /-- The name under which an available project is listed; empty if there is none. -/
  | availableName (id : Bytes)
  | hasAvailable
  /-- `ListAvailable`, and whether it completed. -/
  | listAvailable
  /-- The check of `checkPath` or `checkAccess` with its audit records, and whether it completed. -/
  | check (action : Action) (name : Bytes)

abbrev Call.Answer : Call → Type
  | .take _ _ => Option FormToken
  | .issue _ _ _ => Except Bytes Bytes
  | .attach _ _ | .next _ _ _ => Unit
  | .policy c => c.Answer
  | .availableName _ => Bytes
  | .hasAvailable | .listAvailable | .check _ _ => Bool

abbrev Program := Prog Call Call.Answer

/-- A program on the policy as a part of a handler. -/
def onPolicy {α : Type} (p : PolicyProgram α) : Program α :=
  p.interp fun c => Prog.ask (Call.policy c)

/-- What a handler answers: an error text, or a page. -/
inductive Response
  | error (status : ℕ) (text : Bytes)
  | overview (status : ℕ) (message : Bytes)
  | project (status : ℕ) (name message : Bytes)
  | review (change : PolicyChange) (current : Option ProjectDetail) (commitToken : Bytes)

/-! ## Pages -/

def tooManyForms : Response :=
  .error 503 (str "Too many open forms. Wait ten minutes and reload.")

/-- `view`: what `load` reads, with the revision of the policy before and after it. -/
def view {α : Type} (load : PolicyProgram (Except Bytes α)) :
    PolicyProgram (Except Bytes (α × Bytes)) := do
  match ← Prog.ask PolicyCall.revision with
  | .error err => pure (.error err)
  | .ok before =>
    match ← load with
    | .error err => pure (.error err)
    | .ok loaded =>
      match ← Prog.ask PolicyCall.revision with
      | .error err => pure (.error err)
      | .ok after =>
        pure (if before = after then .ok (loaded, before)
          else .error (str "policy changed; reload before submitting"))

def renderOverview (status : ℕ) (message : Bytes) : Program Response := do
  match ← onPolicy (view (Prog.ask PolicyCall.listProjects)) with
  | .error _ =>
    pure (.error 503
      (str "Local policy cannot be read. Check the administrator CLI on the broker host."))
  | .ok (_, revision) =>
    match ← Prog.ask (Call.issue .discover revision []) with
    | .error _ => pure tooManyForms
    | .ok _ =>
      if ← Prog.ask Call.hasAvailable then
        match ← Prog.ask (Call.issue (.review .create) revision []) with
        | .error _ => pure tooManyForms
        | .ok _ => pure (.overview status message)
      else pure (.overview status message)

/-- Tokens for the forms of a page, one after another. -/
def issueAll (revision target : Bytes) : List Action → Program Bool
  | [] => pure true
  | action :: actions => do
    match ← Prog.ask (Call.issue action revision target) with
    | .error _ => pure false
    | .ok _ => issueAll revision target actions

/-- The forms of a project's page whose tokens are issued in a loop over a map. -/
def projectForms : List Kind := [.metadata, .mode, .add, .remove]

/-- `renderProject`; the loop over the map takes its entries in the given order. -/
def renderProject (order : List Kind) (status : ℕ) (name message : Bytes) : Program Response := do
  match ← onPolicy (view (Prog.ask (PolicyCall.getProject name))) with
  | .error _ => pure (.error 503 (str "Local project cannot be read. Reload the project list."))
  | .ok (_, revision) =>
    if ← issueAll revision name ([.path, .access] ++ order.map Action.review) then
      pure (.project status name message)
    else pure tooManyForms

def home : Program Response := renderOverview 200 []

def projectPage (order : List Kind) (index : Bytes) : Program Response := do
  match ← Prog.ask (Call.policy .listProjects) with
  | .error _ => pure (.error 503 (str "Local policy cannot be read."))
  | .ok projects =>
    match (atoi index).bind fun i => if i < 0 then none else projects[i.toNat]? with
    | none => pure (.error 404 (str "404 page not found"))
    | some project => renderProject order 200 project.projectAlias []

/-- `projectIndex`, of which only the error matters here. -/
def projectIndex (name : Bytes) : Program (Option Unit) := do
  match ← Prog.ask (Call.policy .listProjects) with
  | .error _ => pure none
  | .ok projects => pure (if projects.any fun p => p.projectAlias == name then some () else none)

/-! ## Handlers -/

def discover : Program Response := do
  if ← Prog.ask Call.listAvailable then
    renderOverview 200
      (str "Bitwarden project list refreshed. This list expires after ten minutes.")
  else
    renderOverview 503
      (str "Bitwarden discovery did not complete. Check the worker and administrator audit with the root CLI, then retry.")

/-- `checkPath` and `checkAccess`. -/
def checkProject (action : Action) (order : List Kind) (form : Form) : Program Response := do
  let name := form.get fieldAlias
  match ← projectIndex name with
  | none => pure (.error 409 (str "Project changed. Reload the project list."))
  | some _ =>
    let completed ← Prog.ask (Call.check action name)
    renderProject order (if completed then 200 else 503) name []

variable [Platform]

/-- The end of `review`: a token for the commit of the change, which is attached to it
afterwards. -/
def offerCommit (revision : Bytes) (current : Option ProjectDetail) (change : PolicyChange) :
    Program Response := do
  match ← Prog.ask (Call.policy .revision) with
  | .error _ => pure (.error 503 (str "Local policy cannot be read."))
  | .ok latest =>
    if latest ≠ revision then
      pure (.error 409 (str "Policy changed. Reload before reviewing."))
    else
      match ← Prog.ask (Call.issue .commit revision change.projectAlias) with
      | .error _ => pure tooManyForms
      | .ok token =>
        Prog.ask (Call.attach token change)
        pure (.review change current token)

/-- The part of `review` for `create` that looks at the other projects and the available ones. -/
def reviewCreate (revision : Bytes) (change : PolicyChange) : Program Response := do
  match ← Prog.ask (Call.policy .listProjects) with
  | .error _ => pure (.error 503 (str "Local policy cannot be read."))
  | .ok projects =>
    if projects.any fun p => p.projectAlias == change.projectAlias then
      pure (.error 400 (str "Alias already exists. Reload the page to try again."))
    else
      let name ← Prog.ask (Call.availableName change.input.bwsProjectID)
      if name = [] then
        pure (.error 409
          (str "Project discovery expired or the project is unavailable. Refresh Bitwarden projects and start again."))
      else offerCommit revision none { change with projectName := name }

/-- The current project of a form, which `create` does not read. -/
def readCurrent (kind : Kind) (name : Bytes) :
    PolicyProgram (Except Bytes (Option ProjectDetail)) :=
  match kind with
  | .create => pure (.ok none)
  | _ => do
    match ← Prog.ask (PolicyCall.getProject name) with
    | .error err => pure (.error err)
    | .ok detail => pure (.ok (some detail))

def review (kind : Kind) (form : Form) (revision : Bytes) : Program Response := do
  match ← onPolicy (readCurrent kind (form.get fieldAlias)) with
  | .error _ => pure (.error 503 (str "Project cannot be read. Reload the project list."))
  | .ok current =>
    match reviewChange kind form current with
    | .error message => pure (.error 400 (message ++ str " Reload the page to try again."))
    | .ok change =>
      if kind = .create then reviewCreate revision change
      else offerCommit revision current change

/-- `errors.Is`, on the texts of errors: the error itself, or one that was joined to it later. -/
def errorsIs (err target : Bytes) : Bool := err == target || (target ++ [0x0A]).isPrefixOf err

omit [Platform] in
/-- What `commit` answers to an error of the editor. -/
def commitError (changed : Bool) (err : Bytes) : Response :=
  if errorsIs err (str "another administrator is updating policy") then
    .error 409 (str "Another administrator is updating policy. Reload and retry.")
  else if errorsIs err (str "policy changed; reload before submitting") then
    .error 409 (str "Policy changed. Reload before submitting.")
  else if changed then
    .error 503
      (str "Policy changed, but audit completion failed. Inspect the current policy and administrator audit with the root CLI before retrying.")
  else
    .error 503
      (str "Change did not complete. Inspect the current policy and administrator audit with the root CLI before retrying.")

omit [Platform] in
/-- The project that `commit` compares a `metadata` change with. -/
def readForCommit (change : PolicyChange) : PolicyProgram (Except Bytes ProjectDetail) :=
  if change.kind = .metadata then Prog.ask (PolicyCall.getProject change.projectAlias)
  else pure (.ok .zero)

omit [Platform] in
/-- The first check of `commit`. -/
def confirmed (form : Form) (change : PolicyChange) : Bool :=
  validFields form [str "confirm"] && !(change.widen && form.get (str "confirm") != str "yes")

def notConfirmed : Response :=
  .error 400 (str "Confirm the reviewed change before saving. Reload to review it again.")

omit [Platform] in
/-- `commit` from the reviewed change to the end of the editor's work: whether the policy changed,
or an error page. -/
def applyChange (revision : Bytes) (change : PolicyChange) :
    PolicyProgram (Except Response Bool) := do
  match ← readForCommit change with
  | .error _ => pure (.error (.error 503 (str "Project cannot be read. Reload the project list.")))
  | .ok current =>
    match ← Prog.ask (PolicyCall.mutate revision (change.mutation current)) with
    | (changed, some err) => pure (.error (commitError changed err))
    | (changed, none) => pure (.ok changed)

omit [Platform] in
/-- The text on the page after a commit. -/
def savedMessage (change : PolicyChange) (changed : Bool) : Bytes :=
  if change.kind = .create then
    str "Local project created in confirm mode with no allowed commands. Check its working directory and Bitwarden access, then add an exact command."
  else if changed then str "Policy saved."
  else str "No change needed. The policy already has these values."

omit [Platform] in
def commit (order : List Kind) (form : Form) (revision : Bytes) (change : Option PolicyChange) :
    Program Response :=
  match change with
  | none => pure notConfirmed
  | some change =>
    if !confirmed form change then pure notConfirmed
    else do
      match ← onPolicy (applyChange revision change) with
      | .error response => pure response
      | .ok changed =>
        match ← projectIndex change.projectAlias with
        | none => pure (.error 503 (str "Reload the project list to inspect the saved policy."))
        | some _ => renderProject order 200 change.projectAlias (savedMessage change changed)

/-! ## `protectPost` -/

structure Post where
  method : Bytes
  origins : List Bytes
  /-- The type that `mime.ParseMediaType` finds in the header. -/
  contentType : Option Bytes
  /-- What `ParseForm` makes of the body, if it is not too large. -/
  form : Option Form
  rawQuery : Bytes
  /-- The order in which a loop over a map takes its entries while this request is served. -/
  order : List Kind
  perm : order.Perm projectForms

omit [Platform] in
/-- The checks of `protectPost` before it takes the token. -/
def checkPost (host : Bytes) (r : Post) : Except Response Form :=
  if r.method ≠ str "POST" then .error (.error 405 (str "Method not allowed."))
  else if r.origins ≠ [str "https://" ++ host] then .error (.error 403 (str "Form origin denied."))
  else if r.contentType ≠ some (str "application/x-www-form-urlencoded") then
    .error (.error 415 (str "Unsupported form type."))
  else
    match r.form with
    | none => .error (.error 400 (str "Invalid or oversized form."))
    | some form =>
      if r.rawQuery ≠ [] ∨ (form.values fieldCSRF).length ≠ 1 then
        .error (.error 403 (str "Invalid form token."))
      else .ok form

omit [Platform] in
/-- The form names the project that the token was issued for. -/
def matchesTarget (form : Form) (target : Bytes) : Bool :=
  target == [] || form.values fieldAlias == [target]

omit [Platform] in
/-- The comparison of the policy with the token's revision. -/
def checkRevision (revision : Bytes) : PolicyProgram (Option Response) :=
  if revision = [] then pure none
  else do
    match ← Prog.ask PolicyCall.revision with
    | .error _ => pure (some (.error 503 (str "Policy cannot be read.")))
    | .ok current =>
      if current ≠ revision then
        pure (some (.error 409 (str "Policy changed. Reload the page before submitting.")))
      else pure none

omit [Platform] in
def protectPost (host : Bytes) (action : Action) (r : Post)
    (next : Form → Bytes → Option PolicyChange → Program Response) : Program Response :=
  match checkPost host r with
  | .error response => pure response
  | .ok form => do
    let token := form.get fieldCSRF
    match ← Prog.ask (Call.take token action) with
    | none =>
      pure (.error 403 (str "Form expired or already submitted. Reload the page."))
    | some entry =>
      if !matchesTarget form entry.target then
        pure (.error 403 (str "Form target changed. Reload the page."))
      else
        match ← onPolicy (checkRevision entry.revision) with
        | some response => pure response
        | none =>
          Prog.ask (Call.next token action entry)
          next form entry.revision entry.change

/-- The handler of an action. -/
def handler (action : Action) (order : List Kind) (form : Form) (revision : Bytes)
    (change : Option PolicyChange) : Program Response :=
  match action with
  | .review kind => review kind form revision
  | .commit => commit order form revision change
  | .discover => discover
  | .path => checkProject .path order form
  | .access => checkProject .access order form

/-- The requests that the server answers with a page. -/
inductive Request
  | home
  | projectPage (index : Bytes) (order : List Kind) (perm : order.Perm projectForms)
  | post (action : Action) (r : Post)

def serve (host : Bytes) : Request → Program Response
  | .home => home
  | .projectPage index order _ => projectPage order index
  | .post action r => protectPost host action r (handler action r.order)

end SecretsBroker.AdminWeb
