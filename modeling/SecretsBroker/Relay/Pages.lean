import SecretsBroker.Foundations.Html
import SecretsBroker.Relay.Server

/-!
# The pages of the decision port

`writePendingPage` lists the live pending requests, `writeApprovalPage` shows one; both carry, for a
request that can be decided, its prompt and two forms. The model has the bytes of the pages and
their headers.

Whatever the prompts are, these bytes are those of documents in which only texts and addresses
depend on the requests (`write_pendingNodes`, `write_approvalNodes`). The documents are well formed
when the prompts are texts that a browser shows as they are (`pendingDocument`,
`approvalDocument`).
-/

namespace SecretsBroker.Relay

open Html (text)

/-! ## The pages -/

/-- An answer with a page: its headers and its text. -/
structure Page where
  headers : List (Bytes × Bytes)
  body : Bytes

/-- `setHTMLHeaders`. -/
def setHTMLHeaders : List (Bytes × Bytes) :=
  [(str "Content-Type", str "text/html; charset=utf-8"),
    (str "Cache-Control", str "no-store"),
    (str "Content-Security-Policy",
      str "default-src 'none'; style-src 'unsafe-inline'; form-action 'self'; " ++
        str "frame-ancestors 'none'; base-uri 'none'"),
    (str "Referrer-Policy", str "same-origin"),
    (str "X-Content-Type-Options", str "nosniff"),
    (str "X-Frame-Options", str "DENY")]

/-- What a form sends for a decision. -/
def decision (approve : Bool) : Bytes := if approve then str "approve" else str "deny"

/-- What the button of a decision says. -/
def buttonLabel (approve : Bool) : Bytes := if approve then str "Approve" else str "Deny"

/-- How the forms are set: on the page of one request, or in the list. -/
inductive Layout
  | single
  | listed

def Layout.indent : Layout → Bytes
  | .single => str "\n\t\t\t"
  | .listed => str "\n\t\t\t\t"

def Layout.fontSize : Layout → Bytes
  | .single => str "1.5em"
  | .listed => str "1.25em"

/-- The form of a decision. Both pages have it twice, in their own layout. -/
def writeForm (l : Layout) (id : Bytes) (approve : Bool) : Bytes :=
  str "<form method=\"POST\" action=\"/requests/" ++ Html.escape id ++
    str "/decide\" style=\"display:inline\">" ++
    l.indent ++ str "\t<input type=\"hidden\" name=\"decision\" value=\"" ++ decision approve ++
    str "\">" ++
    l.indent ++ str "\t<button type=\"submit\" style=\"font-size:" ++ l.fontSize ++
    str ";padding:0.5em 1em;\">" ++ buttonLabel approve ++ str "</button>" ++
    l.indent ++ str "</form>"

/-- `writeApprovalPage`. -/
def writeApprovalPage (id prompt status : Bytes) (showButtons : Bool) : Page where
  headers := setHTMLHeaders
  body :=
    str "<!DOCTYPE html><html><head><meta name=\"viewport\" " ++
    str "content=\"width=device-width, initial-scale=1\"><title>secrets-broker</title></head>" ++
    str "<body style=\"font-family:sans-serif;max-width:32em;margin:2em auto;padding:0 1em;\">" ++
    (if showButtons then
      str "\n\t\t\t<p>secrets-broker is asking to run:</p>\n\t\t\t<pre>" ++ Html.escape prompt ++
      str "</pre>\n\t\t\t" ++ writeForm .single id true ++
      str "\n\t\t\t" ++ writeForm .single id false
    else if status = str "approve" then str "<p>Approved.</p>"
    else if status = str "deny" then str "<p>Denied.</p>"
    else str "<p>This request is no longer pending (status: " ++ Html.escape status ++
      str ").</p>") ++
    str "</body></html>"

/-- One request in the list. -/
def writeSection (r : Request) : Bytes :=
  str "<section style=\"border:1px solid #999;padding:1em;margin:1em 0;\">\n\t\t\t\t" ++
    str "<pre style=\"white-space:pre-wrap;overflow-wrap:anywhere;\">" ++ Html.escape r.prompt ++
    str "</pre>\n\t\t\t\t" ++ writeForm .listed r.id true ++
    str "\n\t\t\t\t" ++ writeForm .listed r.id false ++ str "\n\t\t\t</section>"

/-- `writePendingPage`. -/
def writePendingPage (pending : List Request) : Page where
  headers := setHTMLHeaders
  body :=
    str "<!DOCTYPE html><html><head><meta name=\"viewport\" " ++
    str "content=\"width=device-width, initial-scale=1\"><meta http-equiv=\"refresh\" " ++
    str "content=\"2\"><title>secrets-broker approvals</title></head>" ++
    str "<body style=\"font-family:sans-serif;max-width:40em;margin:2em auto;padding:0 1em;\">" ++
    (str "<h1>Pending approvals</h1>" ++
      (if pending = [] then str "<p>No pending approval requests.</p>"
      else pending.flatMap writeSection) ++
      str "<p>This page refreshes every two seconds.</p>") ++
    str "</body></html>"

/-- `GET /` of the decision handler. -/
def viewPending (s : Store) (now : ℤ) : Page := writePendingPage (s.pending now)

/-- `GET /requests/{id}` of the decision handler. -/
def viewRequest [Unicode] (s : Store) (now : ℤ) (id : Bytes) : Except Response Page :=
  if !validID id then .error (httpError (str "invalid request id") 400)
  else
    match s.get now id with
    | .error err => .error (httpError err.text 404)
    | .ok r =>
      if r.status ≠ .pending then .ok (writeApprovalPage id [] r.status.text false)
      else .ok (writeApprovalPage id r.prompt [] true)

/-! ## The documents that are written -/

/-- What is in a form, between its tags. -/
def formNodes (l : Layout) (approve : Bool) : List Html.Node :=
  text (l.indent ++ str "\t") ++
    [.element (str "input") [(str "type", str "hidden"), (str "name", str "decision"),
      (str "value", decision approve)] []] ++
    text (l.indent ++ str "\t") ++
    [.element (str "button") [(str "type", str "submit"),
      (str "style", str "font-size:" ++ l.fontSize ++ str ";padding:0.5em 1em;")]
      (text (buttonLabel approve))] ++
    text l.indent

def action (id : Bytes) : Bytes := str "/requests/" ++ id ++ str "/decide"

def formNode (l : Layout) (id : Bytes) (approve : Bool) : Html.Node :=
  .element (str "form") [(str "method", str "POST"), (str "action", action id),
    (str "style", str "display:inline")] (formNodes l approve)

theorem write_formNodes (l : Layout) (approve : Bool) :
    Html.write (formNodes l approve) ++ (Html.Token.endTag (str "form")).write =
      l.indent ++ str "\t<input type=\"hidden\" name=\"decision\" value=\"" ++
        decision approve ++ str "\">" ++
        l.indent ++ str "\t<button type=\"submit\" style=\"font-size:" ++ l.fontSize ++
        str ";padding:0.5em 1em;\">" ++ buttonLabel approve ++ str "</button>" ++
        l.indent ++ str "</form>" := by
  cases l <;> cases approve <;> decide +kernel

theorem write_formNode (l : Layout) (id : Bytes) (approve : Bool) :
    Html.write [formNode l id approve] = writeForm l id approve := by
  -- the text before the id, and the text between it and what is in the form
  have hopen : str "<" ++ str "form" ++ Html.Attr.write (str "method", str "POST") ++ str " " ++
      str "action" ++ str "=\"" ++ Html.escape (str "/requests/") =
        str "<form method=\"POST\" action=\"/requests/" := by decide +kernel
  have hclose : Html.escape (str "/decide") ++ str "\"" ++
      Html.Attr.write (str "style", str "display:inline") ++ str ">" =
        str "/decide\" style=\"display:inline\">" := by decide +kernel
  rw [formNode, Html.write_element _ (by decide +kernel), List.append_assoc, write_formNodes,
    writeForm, ← hopen, ← hclose]
  simp only [Html.Token.write, Html.Attr.write, action, Html.escape_append, List.flatMap_cons,
    List.flatMap_nil, List.append_assoc, List.append_nil]

/-- The element of a request in the list. -/
def sectionNode (r : Request) : Html.Node :=
  .element (str "section")
    [(str "style", str "border:1px solid #999;padding:1em;margin:1em 0;")]
    (text (str "\n\t\t\t\t") ++
      [.element (str "pre") [(str "style", str "white-space:pre-wrap;overflow-wrap:anywhere;")]
        (text r.prompt)] ++
      text (str "\n\t\t\t\t") ++ [formNode .listed r.id true] ++
      text (str "\n\t\t\t\t") ++ [formNode .listed r.id false] ++ text (str "\n\t\t\t"))

theorem write_sectionNode (r : Request) : Html.write [sectionNode r] = writeSection r := by
  have hspace : Html.escape (str "\n\t\t\t\t") = str "\n\t\t\t\t" := by decide +kernel
  have hopen : (Html.Token.startTag (str "section")
        [(str "style", str "border:1px solid #999;padding:1em;margin:1em 0;")]).write ++
      str "\n\t\t\t\t" ++ (Html.Token.startTag (str "pre")
        [(str "style", str "white-space:pre-wrap;overflow-wrap:anywhere;")]).write =
      str "<section style=\"border:1px solid #999;padding:1em;margin:1em 0;\">\n\t\t\t\t" ++
        str "<pre style=\"white-space:pre-wrap;overflow-wrap:anywhere;\">" := by decide +kernel
  have hpre : (Html.Token.endTag (str "pre")).write ++ str "\n\t\t\t\t" =
      str "</pre>\n\t\t\t\t" := by decide +kernel
  have hclose : Html.escape (str "\n\t\t\t") ++ (Html.Token.endTag (str "section")).write =
      str "\n\t\t\t</section>" := by decide +kernel
  rw [writeSection, ← hopen, ← hpre, ← hclose, sectionNode,
    Html.write_element _ (by decide +kernel)]
  simp only [Html.write_element (str "pre") (by decide +kernel), Html.write_append,
    Html.write_text, write_formNode, hspace, List.append_assoc]

/-- A document with the head and the body of a page. -/
def shell (head : List Html.Node) (style : Bytes) (body : List Html.Node) : List Html.Node :=
  [.element (str "html") [] [.element (str "head") [] head,
    .element (str "body") [(str "style", style)] body]]

theorem write_shell (head : List Html.Node) (style : Bytes) (body : List Html.Node) :
    Html.Token.doctype.write ++ Html.write (shell head style body) =
      Html.Token.doctype.write ++ (Html.Token.startTag (str "html") []).write ++
        Html.write [.element (str "head") [] head] ++
        (Html.Token.startTag (str "body") [(str "style", style)]).write ++ Html.write body ++
        ((Html.Token.endTag (str "body")).write ++ (Html.Token.endTag (str "html")).write) := by
  have hsplit : ([.element (str "head") [] head, .element (str "body") [(str "style", style)] body]
      : List Html.Node) = [.element (str "head") [] head] ++
        [.element (str "body") [(str "style", style)] body] := rfl
  rw [shell, Html.write_element _ (by decide +kernel), hsplit, Html.write_append,
    Html.write_element (str "body") (by decide +kernel)]
  simp only [List.append_assoc]

def viewport : Html.Node :=
  .element (str "meta") [(str "name", str "viewport"),
    (str "content", str "width=device-width, initial-scale=1")] []

def pendingHead : List Html.Node :=
  [viewport, .element (str "meta") [(str "http-equiv", str "refresh"), (str "content", str "2")] [],
    .element (str "title") [] (text (str "secrets-broker approvals"))]

def approvalHead : List Html.Node :=
  [viewport, .element (str "title") [] (text (str "secrets-broker"))]

/-- The tree of the list. -/
def pendingNodes (pending : List Request) : List Html.Node :=
  shell pendingHead (str "font-family:sans-serif;max-width:40em;margin:2em auto;padding:0 1em;")
    ([.element (str "h1") [] (text (str "Pending approvals"))] ++
      (if pending = [] then [.element (str "p") [] (text (str "No pending approval requests."))]
      else pending.flatMap fun r => [sectionNode r]) ++
      [.element (str "p") [] (text (str "This page refreshes every two seconds."))])

/-- The tree of the page of a request that can be decided. -/
def approvalNodes (id prompt : Bytes) : List Html.Node :=
  shell approvalHead (str "font-family:sans-serif;max-width:32em;margin:2em auto;padding:0 1em;")
    (text (str "\n\t\t\t") ++
      [.element (str "p") [] (text (str "secrets-broker is asking to run:"))] ++
      text (str "\n\t\t\t") ++ [.element (str "pre") [] (text prompt)] ++
      text (str "\n\t\t\t") ++ [formNode .single id true] ++
      text (str "\n\t\t\t") ++ [formNode .single id false])

theorem write_pendingNodes (pending : List Request) :
    Html.Token.doctype.write ++ Html.write (pendingNodes pending) =
      (writePendingPage pending).body := by
  have hopen : Html.Token.doctype.write ++ (Html.Token.startTag (str "html") []).write ++
      Html.write [.element (str "head") [] pendingHead] ++
      (Html.Token.startTag (str "body") [(str "style",
        str "font-family:sans-serif;max-width:40em;margin:2em auto;padding:0 1em;")]).write =
      str "<!DOCTYPE html><html><head><meta name=\"viewport\" " ++
      str "content=\"width=device-width, initial-scale=1\"><meta http-equiv=\"refresh\" " ++
      str "content=\"2\"><title>secrets-broker approvals</title></head>" ++
      str "<body style=\"font-family:sans-serif;max-width:40em;margin:2em auto;padding:0 1em;\">" :=
    by decide +kernel
  have hh1 : Html.write [.element (str "h1") [] (text (str "Pending approvals"))] =
      str "<h1>Pending approvals</h1>" := by decide +kernel
  have hnone : Html.write [.element (str "p") [] (text (str "No pending approval requests."))] =
      str "<p>No pending approval requests.</p>" := by decide +kernel
  have hp : Html.write [.element (str "p") []
      (text (str "This page refreshes every two seconds."))] =
      str "<p>This page refreshes every two seconds.</p>" := by decide +kernel
  have hclose : (Html.Token.endTag (str "body")).write ++ (Html.Token.endTag (str "html")).write =
      str "</body></html>" := by decide +kernel
  have hlist : Html.write (if pending = [] then
        [.element (str "p") [] (text (str "No pending approval requests."))]
      else pending.flatMap fun r => [sectionNode r]) =
      if pending = [] then str "<p>No pending approval requests.</p>"
      else pending.flatMap writeSection := by
    split_ifs
    · exact hnone
    · rw [Html.write_flatMap]
      simp only [write_sectionNode]
  rw [pendingNodes, write_shell, hopen, Html.write_append, Html.write_append, hh1, hlist, hp,
    hclose]
  rfl

theorem write_approvalNodes (id prompt status : Bytes) :
    Html.Token.doctype.write ++ Html.write (approvalNodes id prompt) =
      (writeApprovalPage id prompt status true).body := by
  have hopen : Html.Token.doctype.write ++ (Html.Token.startTag (str "html") []).write ++
      Html.write [.element (str "head") [] approvalHead] ++
      (Html.Token.startTag (str "body") [(str "style",
        str "font-family:sans-serif;max-width:32em;margin:2em auto;padding:0 1em;")]).write =
      str "<!DOCTYPE html><html><head><meta name=\"viewport\" " ++
      str "content=\"width=device-width, initial-scale=1\"><title>secrets-broker</title></head>" ++
      str "<body style=\"font-family:sans-serif;max-width:32em;margin:2em auto;padding:0 1em;\">" :=
    by decide +kernel
  have hspace : Html.escape (str "\n\t\t\t") = str "\n\t\t\t" := by decide +kernel
  have hp : str "\n\t\t\t" ++ Html.write [.element (str "p") []
      (text (str "secrets-broker is asking to run:"))] ++ str "\n\t\t\t" ++
      (Html.Token.startTag (str "pre") []).write =
      str "\n\t\t\t<p>secrets-broker is asking to run:</p>\n\t\t\t<pre>" := by decide +kernel
  have hpre : (Html.Token.endTag (str "pre")).write ++ str "\n\t\t\t" =
      str "</pre>\n\t\t\t" := by decide +kernel
  have hclose : (Html.Token.endTag (str "body")).write ++ (Html.Token.endTag (str "html")).write =
      str "</body></html>" := by decide +kernel
  rw [approvalNodes, write_shell, hopen, hclose, writeApprovalPage]
  simp only [if_true, ← hp, ← hpre, Html.write_element (str "pre") (by decide +kernel),
    Html.write_append, Html.write_text, write_formNode, hspace, List.append_assoc]

/-! ## The documents are well formed -/

/-- A text that a browser shows as it is: without the characters that it changes, and not starting
with the newline that it drops. -/
structure Readable (s : Bytes) : Prop where
  plain : s.all Html.isPlain = true
  head : s.head? ≠ some 0x0A

theorem startsWithNewline_text {s : Bytes} (h : s.head? ≠ some 0x0A) :
    Html.startsWithNewline (text s) = false := by
  cases s with
  | nil => rfl
  | cons b s => simpa [text, Html.startsWithNewline] using h

theorem isIDByte_bounds {b : UInt8} (h : isIDByte b = true) : 0x20 < b.toNat := by
  simp only [isIDByte, Bool.or_eq_true, Bool.and_eq_true, decide_eq_true_eq, beq_iff_eq] at h
  rcases h with (((h | h) | h) | rfl) | rfl
  · omega
  · omega
  · omega
  · decide
  · decide

/-- Bytes that are not control characters are taken as they are. -/
theorem isPlain_of_lt {b : UInt8} (h : 0x0D < b.toNat) : Html.isPlain b = true := by
  have hne : ∀ c : UInt8, c.toNat ≤ 0x0D → b ≠ c := by
    rintro c hc rfl
    omega
  simp [Html.isPlain, hne 0 (by decide), hne 0x0D (by decide)]

theorem all_isIDByte {id : Bytes} (h : validID id = true) : id.all isIDByte = true := by
  simp only [validID, Bool.and_eq_true] at h
  exact h.2

theorem isPlain_action {id : Bytes} (h : validID id = true) :
    (action id).all Html.isPlain = true := by
  have hid : id.all Html.isPlain = true := by
    rw [List.all_eq_true]
    intro b hb
    have := isIDByte_bounds (List.all_eq_true.1 (all_isIDByte h) b hb)
    exact isPlain_of_lt (by omega)
  have hfixed : (str "/requests/").all Html.isPlain = true ∧
      (str "/decide").all Html.isPlain = true := by decide +kernel
  simp [action, List.all_append, hid, hfixed.1, hfixed.2]

/-- The elements around the forms. -/
def Layout.parents : Layout → List Bytes
  | .single => [str "body", str "html"]
  | .listed => [str "section", str "body", str "html"]

theorem fits_formNode (l : Layout) {id : Bytes} (hid : validID id = true) (approve : Bool) :
    Html.fits l.parents [formNode l id approve] = true := by
  have hattrs : Html.Attr.isPlain (str "method", str "POST") = true ∧
      Html.Attr.isPlain (str "style", str "display:inline") = true ∧
      Html.isName (str "action") = true := by decide +kernel
  refine Html.fits_element ?_ ?_ ?_ ?_
  · cases l <;> decide +kernel
  · have haction : Html.Attr.isPlain (str "action", action id) = true := by
      simp only [Html.Attr.isPlain, hattrs.2.2, isPlain_action hid, Bool.and_true]
    simp only [List.all_cons, List.all_nil, hattrs.1, hattrs.2.1, haction, Bool.and_true]
  · cases l <;> cases approve <;> decide +kernel
  · cases l <;> cases approve <;> decide +kernel

/-- The element with the prompt. -/
theorem fits_pre (l : Layout) {attrs : List Html.Attr} (hattrs : attrs.all Html.Attr.isPlain = true)
    {prompt : Bytes} (h : Readable prompt) :
    Html.fits l.parents [.element (str "pre") attrs (text prompt)] = true := by
  refine Html.fits_element ?_ hattrs (Html.fits_text ?_ h.plain) ?_
  · cases l <;> decide +kernel
  · cases l <;> decide +kernel
  · rw [startsWithNewline_text h.head, Bool.and_false]

theorem fits_sectionNode {r : Request} (hid : validID r.id = true) (h : Readable r.prompt) :
    Html.fits Layout.single.parents [sectionNode r] = true := by
  have hspace : Html.fits Layout.listed.parents (text (str "\n\t\t\t\t")) = true ∧
      Html.fits Layout.listed.parents (text (str "\n\t\t\t")) = true := by decide +kernel
  have hattrs : [(str "style", str "white-space:pre-wrap;overflow-wrap:anywhere;")].all
      Html.Attr.isPlain = true := by decide +kernel
  have hpre := fits_pre .listed hattrs h
  refine Html.fits_element (by decide +kernel) (by decide +kernel) ?_ ?_
  · change Html.fits Layout.listed.parents _ = true
    simp only [Html.fits_append, hspace.1, hspace.2, hpre, fits_formNode .listed hid, Bool.and_true]
  · have hname : (str "section" == str "pre") = false := by decide +kernel
    rw [hname, Bool.false_and]

theorem fits_shell {head body : List Html.Node} {style : Bytes}
    (hhead : Html.fits [str "head", str "html"] head = true)
    (hstyle : style.all Html.isPlain = true)
    (hbody : Html.fits Layout.single.parents body = true) :
    Html.fits [] (shell head style body) = true := by
  have hnames : (str "head" == str "pre") = false ∧ (str "body" == str "pre") = false ∧
      Html.isName (str "style") = true := by decide +kernel
  have hsplit : ([.element (str "head") [] head, .element (str "body") [(str "style", style)] body]
      : List Html.Node) = [.element (str "head") [] head] ++
        [.element (str "body") [(str "style", style)] body] := rfl
  refine Html.fits_element (by decide +kernel) rfl ?_ rfl
  rw [hsplit, Html.fits_append, Bool.and_eq_true]
  constructor
  · refine Html.fits_element (by decide +kernel) rfl hhead ?_
    rw [hnames.1, Bool.false_and]
  · refine Html.fits_element (by decide +kernel) ?_ hbody ?_
    · simp [Html.Attr.isPlain, hnames.2.2, hstyle]
    · rw [hnames.2.1, Bool.false_and]

/-- The list as a document. -/
def pendingDocument (pending : List Request)
    (h : ∀ r ∈ pending, validID r.id = true ∧ Readable r.prompt) : Html.Document where
  nodes := pendingNodes pending
  fits := by
    have hfixed : Html.fits Layout.single.parents
        [.element (str "h1") [] (text (str "Pending approvals"))] = true ∧
      Html.fits Layout.single.parents
        [.element (str "p") [] (text (str "No pending approval requests."))] = true ∧
      Html.fits Layout.single.parents
        [.element (str "p") [] (text (str "This page refreshes every two seconds."))] = true := by
      decide +kernel
    refine fits_shell (by decide +kernel) (by decide +kernel) ?_
    simp only [Html.fits_append, hfixed.1, hfixed.2.2, Bool.and_true, Bool.true_and]
    split_ifs
    · exact hfixed.2.1
    · exact Html.fits_flatMap fun r hr => fits_sectionNode (h r hr).1 (h r hr).2

/-- The page of one request as a document. -/
def approvalDocument (id prompt : Bytes) (hid : validID id = true) (h : Readable prompt) :
    Html.Document where
  nodes := approvalNodes id prompt
  fits := by
    have hfixed : Html.fits Layout.single.parents (text (str "\n\t\t\t")) = true ∧
      Html.fits Layout.single.parents
        [.element (str "p") [] (text (str "secrets-broker is asking to run:"))] = true := by
      decide +kernel
    have hnil : ([] : List Html.Attr).all Html.Attr.isPlain = true := rfl
    have hpre := fits_pre .single hnil h
    refine fits_shell (by decide +kernel) (by decide +kernel) ?_
    simp only [Html.fits_append, hfixed.1, hfixed.2, hpre, fits_formNode .single hid, Bool.and_true]

end SecretsBroker.Relay
