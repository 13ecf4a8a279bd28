import Mathlib.Data.List.DropRight
import SecretsBroker.Relay.Pages

/-!
# A browser at the decision port

What a browser makes of a page of the decision port: the tree (`Page.document`), what it shows of a
request (`Card`), and the request that it sends when a form is submitted (`submit`).

`cards_writePendingPage` and `card_writeApprovalPage` say what the pages show, and
`readApprove_decisionRequest` what the port makes of a form that is sent back: the decision on the
button, for the request that stands above it.
-/

namespace SecretsBroker.Relay

open Html (text)

/-! ## A browser -/

/-- The tree of a page, when it is sent as HTML. -/
def Page.document (p : Page) : Option (List Html.Node) :=
  if p.headers.lookup (str "Content-Type") = some (str "text/html; charset=utf-8") then
    Html.parse p.body
  else none

/-- What a page shows of a request: the text that is set as it is, and the forms. -/
structure Card where
  shown : Bytes
  forms : List Html.Form

def cardOf (ns : List Html.Node) : Card where
  shown := (Html.elements (str "pre") ns).flatMap fun e => Html.textContent e.2
  forms := Html.forms ns

/-- The page of one request. -/
def Page.card (p : Page) : Option Card := p.document.map cardOf

/-- The list: a card for each section. -/
def Page.cards (p : Page) : Option (List Card) :=
  p.document.map fun ns => (Html.elements (str "section") ns).map fun e => cardOf e.2

/-- How the browser reaches the port: whether over TLS, the host it dials, and the address of the
page that it shows. -/
structure Visit where
  tls : Bool
  host : Bytes
  address : Bytes

def Visit.scheme (v : Visit) : Bytes := if v.tls then str "https" else str "http"

/-- The `Origin` header of a form that a page sends to where it comes from. It is `null` when the
page asks for no referrer. -/
def Page.origin (p : Page) (v : Visit) : Bytes :=
  if p.headers.lookup (str "Referrer-Policy") = some (str "no-referrer") then str "null"
  else v.scheme ++ str "://" ++ v.host

/-- Bytes that stand for themselves in a segment of a path. A dot is not among them: the server
resolves segments that are dots. -/
def isSegmentByte (b : UInt8) : Bool := isIDByte b || b == 0x7E

/-- The id in a path that the pattern `/requests/{id}/decide` matches. A segment that would have to
be decoded is left out. -/
def decidePath (path : Bytes) : Option Bytes :=
  if str "/requests/" <+: path ∧ str "/decide" <:+ path then
    let id := (path.drop (str "/requests/").length).rdrop (str "/decide").length
    if id ≠ [] ∧ id.all isSegmentByte then some id else none
  else none

/-- The request that a browser sends for a form of the page. -/
def submit (p : Page) (v : Visit) (f : Html.Form) : Option DecideRequest :=
  if f.method = str "POST" then
    (decidePath f.action).map fun id =>
      { id := id
        origin := p.origin v
        referer := v.address
        host := v.host
        tls := v.tls
        contentType := str "application/x-www-form-urlencoded"
        body := Html.formBody f.hidden }
  else none

/-! ## What a browser reads -/

theorem document_writePendingPage {pending : List Request}
    (h : ∀ r ∈ pending, validID r.id = true ∧ Readable r.prompt) :
    (writePendingPage pending).document = some (pendingNodes pending) := by
  have hheader : (writePendingPage pending).headers.lookup (str "Content-Type") =
      some (str "text/html; charset=utf-8") := by
    change setHTMLHeaders.lookup _ = _
    decide +kernel
  rw [Page.document, if_pos hheader, ← write_pendingNodes]
  exact Html.parse_write (pendingDocument pending h)

theorem document_writeApprovalPage {id prompt : Bytes} (status : Bytes) (hid : validID id = true)
    (h : Readable prompt) :
    (writeApprovalPage id prompt status true).document = some (approvalNodes id prompt) := by
  have hheader : (writeApprovalPage id prompt status true).headers.lookup (str "Content-Type") =
      some (str "text/html; charset=utf-8") := by
    change setHTMLHeaders.lookup _ = _
    decide +kernel
  rw [Page.document, if_pos hheader, ← write_approvalNodes]
  exact Html.parse_write (approvalDocument id prompt hid h)

/-- The form of a decision, as a browser has it. -/
def decisionForm (id : Bytes) (approve : Bool) : Html.Form :=
  ⟨str "POST", action id, [(str "decision", decision approve)], buttonLabel approve⟩

theorem forms_formNode (l : Layout) (id : Bytes) (approve : Bool) :
    Html.forms [formNode l id approve] = [decisionForm id approve] := by
  have hkeys : (str "action" == str "method") = false ∧ (str "method" == str "method") = true ∧
      (str "action" == str "action") = true := by decide +kernel
  have hhidden : (Html.elements (str "input") (formNodes l approve)).filterMap Html.hiddenField =
      [(str "decision", decision approve)] := by
    cases l <;> cases approve <;> decide +kernel
  have hlabel : ((Html.elements (str "button") (formNodes l approve)).flatMap fun b =>
      Html.textContent b.2) = buttonLabel approve := by
    cases l <;> cases approve <;> decide +kernel
  simp [Html.forms, formNode, Html.elements, Html.Node.elements, Html.formOf, Html.attr,
    List.lookup_cons, hkeys, hhidden, hlabel, decisionForm]

theorem elements_pre_formNode (l : Layout) (id : Bytes) (approve : Bool) :
    Html.elements (str "pre") [formNode l id approve] = [] := by
  have hname : str "form" ≠ str "pre" := by decide +kernel
  have hempty : (Html.elements (str "pre") (formNodes l approve)).isEmpty = true := by
    cases l <;> cases approve <;> decide +kernel
  simpa [formNode, Html.elements, Html.Node.elements, hname] using hempty

theorem cardOf_append (ns ms : List Html.Node) :
    cardOf (ns ++ ms) = ⟨(cardOf ns).shown ++ (cardOf ms).shown,
      (cardOf ns).forms ++ (cardOf ms).forms⟩ := by
  simp [cardOf, Html.forms]

theorem cardOf_text (s : Bytes) : cardOf (text s) = ⟨[], []⟩ := by
  simp [cardOf, Html.forms]

theorem cardOf_formNode (l : Layout) (id : Bytes) (approve : Bool) :
    cardOf [formNode l id approve] = ⟨[], [decisionForm id approve]⟩ := by
  rw [cardOf, elements_pre_formNode, forms_formNode]
  rfl

theorem cardOf_pre (attrs : List Html.Attr) (prompt : Bytes) :
    cardOf [.element (str "pre") attrs (text prompt)] = ⟨prompt, []⟩ := by
  have hname : str "pre" ≠ str "form" := by decide +kernel
  simp [cardOf, Html.forms, Html.elements, Html.Node.elements, hname]

/-- The card of a request: its prompt, a form to approve it and one to deny it. -/
def decisionCard (id prompt : Bytes) : Card :=
  ⟨prompt, [decisionForm id true, decisionForm id false]⟩

theorem elements_shell {name : Bytes}
    (hname : name ≠ str "html" ∧ name ≠ str "head" ∧ name ≠ str "body") (head : List Html.Node)
    (style : Bytes) (body : List Html.Node) :
    Html.elements name (shell head style body) = Html.elements name head ++
      Html.elements name body := by
  simp [shell, Html.elements, Html.Node.elements, hname.1.symm, hname.2.1.symm, hname.2.2.symm]

/-- The card of a section. -/
theorem cards_sectionNode (r : Request) :
    (Html.elements (str "section") [sectionNode r]).map (fun e => cardOf e.2) =
      [decisionCard r.id r.prompt] := by
  simp only [sectionNode, Html.elements, Html.Node.elements, if_true, List.append_nil,
    List.map_cons, List.map_nil, cardOf_append, cardOf_text, cardOf_pre, cardOf_formNode,
    List.nil_append, List.cons_append]
  rfl

/-- **The list shows each request with its own forms.** -/
theorem cards_writePendingPage {pending : List Request}
    (h : ∀ r ∈ pending, validID r.id = true ∧ Readable r.prompt) :
    (writePendingPage pending).cards =
      some (pending.map fun r => decisionCard r.id r.prompt) := by
  -- the sections are those of the list, and no others
  have hsections : ∀ (pre post : List Html.Node),
      (Html.elements (str "section") pre).isEmpty = true →
      (Html.elements (str "section") post).isEmpty = true → ∀ ns : List Html.Node,
      Html.elements (str "section") (pre ++ ns ++ post) = Html.elements (str "section") ns := by
    intro pre post hpre hpost ns
    rw [List.isEmpty_iff] at hpre hpost
    rw [Html.elements_append, Html.elements_append, hpre, hpost, List.nil_append, List.append_nil]
  have hhead : (Html.elements (str "section") pendingHead).isEmpty = true := by decide +kernel
  rw [Page.cards, document_writePendingPage h, Option.map_some, pendingNodes,
    elements_shell (by decide +kernel), List.isEmpty_iff.1 hhead, List.nil_append,
    hsections _ _ (by decide +kernel) (by decide +kernel)]
  refine congrArg some ?_
  split_ifs with hnil
  · have hnone : (Html.elements (str "section") [.element (str "p") []
        (text (str "No pending approval requests."))]).isEmpty = true := by decide +kernel
    rw [List.isEmpty_iff.1 hnone, hnil]
    rfl
  · rw [Html.elements_flatMap, List.map_flatMap]
    simp only [cards_sectionNode]
    exact List.map_eq_flatMap.symm

/-- **The page of a request shows it with its forms.** -/
theorem card_writeApprovalPage {id prompt : Bytes} (status : Bytes) (hid : validID id = true)
    (h : Readable prompt) :
    (writeApprovalPage id prompt status true).card = some (decisionCard id prompt) := by
  have hshell : ∀ (style : Bytes) (body : List Html.Node),
      cardOf (shell approvalHead style body) = cardOf body := by
    intro style body
    have hpre : (Html.elements (str "pre") approvalHead).isEmpty = true := by decide +kernel
    have hform : (Html.elements (str "form") approvalHead).isEmpty = true := by decide +kernel
    rw [cardOf, elements_shell (by decide +kernel), List.isEmpty_iff.1 hpre, Html.forms,
      elements_shell (by decide +kernel), List.isEmpty_iff.1 hform]
    rfl
  have hp : cardOf [.element (str "p") [] (text (str "secrets-broker is asking to run:"))] =
      ⟨[], []⟩ := by
    have hnames : str "p" ≠ str "pre" ∧ str "p" ≠ str "form" := by decide +kernel
    simp [cardOf, Html.forms, Html.elements, Html.Node.elements, hnames.1, hnames.2]
  rw [Page.card, document_writeApprovalPage status hid h, Option.map_some, approvalNodes, hshell]
  simp only [cardOf_append, cardOf_text, cardOf_pre, cardOf_formNode, hp, List.nil_append,
    List.append_nil, List.cons_append]
  rfl

/-! ## What the forms do -/

theorem decidePath_action {id : Bytes} (h : validID id = true) :
    decidePath (action id) = some id := by
  have hne : id ≠ [] := by
    rintro rfl
    cases h
  have hseg : id.all isSegmentByte = true := by
    rw [List.all_eq_true]
    intro b hb
    simp [isSegmentByte, List.all_eq_true.1 (all_isIDByte h) b hb]
  have hid : ((action id).drop (str "/requests/").length).rdrop (str "/decide").length = id := by
    rw [action, List.append_assoc, List.drop_left, List.rdrop]
    simp
  rw [decidePath, if_pos ⟨⟨id ++ str "/decide", by rw [action, List.append_assoc]⟩,
    ⟨str "/requests/" ++ id, rfl⟩⟩, hid, if_pos ⟨hne, hseg⟩]

/-- The server reads what the browser sends: the URL parser the origin of the visit, and the form
decoder the two bodies of the forms. -/
structure Understood [Platform] [Forms] (v : Visit) : Prop where
  origin : ∃ u, Platform.parseURL (v.scheme ++ str "://" ++ v.host) = some u ∧
    u.scheme = v.scheme ∧ u.host = v.host
  form : ∀ approve, Forms.postFormValue (str "application/x-www-form-urlencoded")
    (str "decision") (Html.formBody [(str "decision", decision approve)]) = some (decision approve)

/-- The request that the form of a decision sends. -/
def decisionRequest (v : Visit) (id : Bytes) (approve : Bool) : DecideRequest where
  id := id
  origin := v.scheme ++ str "://" ++ v.host
  referer := v.address
  host := v.host
  tls := v.tls
  contentType := str "application/x-www-form-urlencoded"
  body := Html.formBody [(str "decision", decision approve)]

theorem submit_decisionForm {p : Page} (hp : p.headers = setHTMLHeaders) (v : Visit) {id : Bytes}
    (hid : validID id = true) (approve : Bool) :
    submit p v (decisionForm id approve) = some (decisionRequest v id approve) := by
  have hpolicy : setHTMLHeaders.lookup (str "Referrer-Policy") ≠ some (str "no-referrer") := by
    decide +kernel
  have horigin : p.origin v = v.scheme ++ str "://" ++ v.host := by
    rw [Page.origin, hp, if_neg hpolicy]
  simp only [submit, decisionForm, if_true, decidePath_action hid, Option.map_some, horigin,
    decisionRequest]

/-- **The port takes the decision that a form sends.** -/
theorem readApprove_decisionRequest [Platform] [Forms] {v : Visit} (hv : Understood v) {id : Bytes}
    (hid : validID id = true) (approve : Bool) :
    readApprove (decisionRequest v id approve) = .ok approve := by
  obtain ⟨u, hu, hscheme, hhost⟩ := hv.origin
  have hne : v.scheme ++ str "://" ++ v.host ≠ [] := by
    have : str "://" ≠ [] := by decide +kernel
    simp [this]
  have hsame : sameOrigin (decisionRequest v id approve) = true := by
    simp only [sameOrigin, decisionRequest, hne, if_false, hu, hscheme, hhost, beq_self_eq_true,
      Bool.and_true]
    exact beq_self_eq_true v.scheme
  have hform : isBrowserForm (decisionRequest v id approve) = true := by
    change (str "application/x-www-form-urlencoded").isPrefixOf
      (str "application/x-www-form-urlencoded") = true
    decide +kernel
  have hread : readDecision (decisionRequest v id approve) = .ok (decision approve) := by
    rw [readDecision, if_pos hform]
    simp only [decisionRequest, hv.form approve]
  have hdeny : str "deny" ≠ str "approve" := by decide +kernel
  have hvalid : validID (decisionRequest v id approve).id = true := hid
  rw [readApprove, hsame, hvalid, hread]
  cases approve
  · simp [decision, hdeny]
  · simp [decision]

end SecretsBroker.Relay
