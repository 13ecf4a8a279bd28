import SecretsBroker.Approval.Safety
import SecretsBroker.Broker.Prompt
import SecretsBroker.Relay.Browser
import SecretsBroker.Relay.Snapshot

/-!
# What is shown is what is decided

The relay's pages are the only thing that a person sees of a call of `Approve`. In any reachable
state of the calls and the relay, the list shows one card for each live pending request, and the
page of a request shows that request (`Relay.Browser`). A card belongs to one call: it shows the
prompt of that call, byte for byte, and its buttons decide the request of that call, now or at any
later time, whatever the other calls do in between and whatever their prompts contain
(`tap_decides_shown`).
-/

namespace SecretsBroker

/-- A prompt of the broker is shown as it is: its lines are free of control characters, and it does
not start with a newline. -/
theorem readable_formatPrompt [Unicode] (project workingDir : Bytes) (argv : List Bytes) :
    Relay.Readable (formatPrompt project workingDir argv) where
  plain := by
    rw [List.all_eq_true]
    intro b hb
    rw [formatPrompt_eq] at hb
    rcases Json.mem_intercalate hb with rfl | ⟨l, hl, hb⟩
    · rfl
    · have := shown_promptLines project workingDir argv l hl b hb
      exact Relay.isPlain_of_lt (by omega)
  head := by
    have hhead : (str "secrets-broker: allow project ").head? = some 0x73 := by decide +kernel
    simp [formatPrompt, List.head?_append, hhead]

namespace Approval

open Relation

namespace System

variable {ι : Type} [DecidableEq ι] [Platform] [Relay.Forms] {calls : ι → ApproveCall} {ttl : ℤ}

/-! ## The stored requests -/

omit [Relay.Forms] in
/-- A registration that is accepted has a valid id. -/
theorem validID_of_register {store store' : Relay.Store} {now : ℤ} {id body : Bytes}
    (h : Relay.register store ttl now id body = .ok store') : Relay.validID id = true := by
  unfold Relay.register at h
  split_ifs at h with hid
  simpa using hid

theorem Step.stored_valid {s s' : System ι} (h : Step calls ttl s s')
    (hs : ∀ r ∈ s.relay.store.requests, Relay.validID r.id = true) :
    ∀ r ∈ s'.relay.store.requests, Relay.validID r.id = true := by
  cases h with
  | create hm hr hentry =>
    intro r hmem
    obtain ⟨prompt, -, hc⟩ := register_ok hr
    rcases ((Relay.Store.create_ok hc).2 r).1 hmem with hmem | rfl
    · exact hs r hmem
    · exact validID_of_register hr
  | decide ha hd =>
    intro r hmem
    obtain ⟨-, -, -, -, rfl⟩ := Relay.Store.decide_ok (decide_ok ha hd)
    rcases Relay.Store.mem_setStatus.1 hmem with ⟨hold, -⟩ | ⟨r₀, hold, -, rfl⟩
    · exact hs r hold
    · exact hs r₀ hold
  | sweep => exact fun r hmem => hs r (Relay.Store.mem_of_mem_sweep hmem)
  | restart => simp [Relay.Store.new, Relay.Store.newWithLimit]
  | start | idFailed | refuse | confirm | registered | tick | answer | polled | timeout => exact hs

theorem Steps.stored_valid {s : System ι} (h : Steps calls ttl init s) :
    ∀ r ∈ s.relay.store.requests, Relay.validID r.id = true := by
  induction h with
  | refl => simp [init, Ledger.init, Relay.Store.new, Relay.Store.newWithLimit]
  | tail _ hstep ih => exact hstep.stored_valid ih

/-- The calls are calls of the broker. -/
def Prompted (calls : ι → ApproveCall) : Prop :=
  ∀ i, ∃ project workingDir argv, (calls i).prompt = formatPrompt project workingDir argv

omit [DecidableEq ι] [Relay.Forms] in
/-- A stored request is the request of a call, with its prompt. -/
theorem Inv.request_of_stored {s : System ι} (h : s.Inv calls) (hprompts : Prompted calls)
    {r : Relay.Request} (hr : r ∈ s.relay.store.requests) :
    ∃ i, r.id = (calls i).id ∧ r.prompt = (calls i).prompt := by
  obtain ⟨i, hid, hreg⟩ := h.created _ _ _ _ (h.relay.stored r hr)
  obtain ⟨project, workingDir, argv, hprompt⟩ := hprompts i
  have hvalid : Utf8.Valid (calls i).prompt := hprompt ▸ valid_formatPrompt _ _ _
  exact ⟨i, hid, registrationPrompt_registerBody hvalid hreg⟩

/-! ## Cards -/

/-- The card shows the prompt of a call, and its buttons decide the request of that call: each sends
a request that the port accepts, in any later state, exactly while the relay has that call's request
with that prompt, pending and in time, and then records there what the button says. -/
structure Faithful (calls : ι → ApproveCall) (ttl : ℤ) (v : Relay.Visit) (s : System ι)
    (page : Relay.Page) (i : ι) (card : Relay.Card) : Prop where
  shown : card.shown = (calls i).prompt
  labels : card.forms.map Html.Form.label = [str "Approve", str "Deny"]
  decides : ∀ f ∈ card.forms, ∃ req, Relay.submit page v f = some req ∧
    ∀ s', Steps calls ttl s s' → ∀ now store,
      Relay.decide s'.relay.store now req = .ok store ↔
        (∃ r, s'.relay.store.lookup (calls i).id = some r ∧ r.prompt = (calls i).prompt ∧
          r.status = .pending ∧ now ≤ r.deadline) ∧
        store = s'.relay.store.setStatus (calls i).id
          (if f.label = str "Approve" then .approved else .denied)

omit [DecidableEq ι] in
/-- What the port does with a decision on the request of a call. -/
theorem decide_iff {s : System ι} (h : s.Inv calls) (hprompts : Prompted calls)
    (hids : Function.Injective fun i => (calls i).id) {i : ι} {req : Relay.DecideRequest}
    (hreq : req.id = (calls i).id) {approve : Bool} (ha : Relay.readApprove req = .ok approve)
    (now : ℤ) (store : Relay.Store) :
    Relay.decide s.relay.store now req = .ok store ↔
      (∃ r, s.relay.store.lookup (calls i).id = some r ∧ r.prompt = (calls i).prompt ∧
        r.status = .pending ∧ now ≤ r.deadline) ∧
      store = s.relay.store.setStatus (calls i).id
        (if approve = true then .approved else .denied) := by
  constructor
  · intro hd
    obtain ⟨r, hr, hstatus, htime, hstore⟩ := Relay.Store.decide_ok (decide_ok ha hd)
    rw [hreq] at hr hstore
    obtain ⟨j, hj, hprompt⟩ := h.request_of_stored hprompts (Relay.Store.lookup_mem hr)
    -- ids are those of one call each
    obtain rfl : j = i := hids (hj.symm.trans (Relay.Store.lookup_id hr))
    exact ⟨⟨r, hr, hprompt, hstatus, htime⟩, hstore⟩
  · rintro ⟨⟨r, hr, -, hstatus, htime⟩, rfl⟩
    have hd : s.relay.store.decide now req.id approve =
        .ok (s.relay.store.setStatus (calls i).id
          (if approve = true then .approved else .denied)) := by
      simp only [Relay.Store.decide, hreq, hr, if_neg (Int.not_lt.2 htime), hstatus, ne_eq,
        not_true_eq_false, if_false]
    simp only [Relay.decide, ha, hd]

/-- The card of a stored request is that of its call. -/
theorem faithful_decisionCard (hids : Function.Injective fun i => (calls i).id)
    (hprompts : Prompted calls) {v : Relay.Visit} (hv : Relay.Understood v) {s : System ι}
    (hreach : Steps calls ttl init s) {r : Relay.Request} (hr : r ∈ s.relay.store.requests)
    {page : Relay.Page} (hpage : page.headers = Relay.setHTMLHeaders) :
    ∃ i, r.id = (calls i).id ∧
      Faithful calls ttl v s page i (Relay.decisionCard r.id r.prompt) := by
  have hinv := Steps.inv hreach inv_init
  have hvalid := Steps.stored_valid hreach r hr
  obtain ⟨i, hid, hprompt⟩ := hinv.request_of_stored hprompts hr
  refine ⟨i, hid, hprompt, rfl, fun f hf => ?_⟩
  obtain ⟨approve, rfl⟩ : ∃ approve, f = Relay.decisionForm r.id approve := by
    simp only [Relay.decisionCard, List.mem_cons, List.not_mem_nil, or_false] at hf
    rcases hf with rfl | rfl
    · exact ⟨true, rfl⟩
    · exact ⟨false, rfl⟩
  have hlabel : (Relay.decisionForm r.id approve).label = str "Approve" ↔ approve = true := by
    have hdeny : str "Deny" ≠ str "Approve" := by decide +kernel
    cases approve <;> simp [Relay.decisionForm, Relay.buttonLabel, hdeny]
  refine ⟨_, Relay.submit_decisionForm hpage v hvalid approve, fun s' hs' now store => ?_⟩
  simp only [hlabel]
  exact decide_iff (Steps.inv hs' hinv) hprompts hids hid
    (Relay.readApprove_decisionRequest hv hvalid approve) now store

/-- **What is shown is what is decided.** For any number of calls of the broker with pairwise
distinct ids, in any reachable state and at any time: the list has one card for each live pending
request, in its order, and the page of a live pending request has its card; each of these cards
shows the prompt of one call and decides the request of that call. -/
theorem tap_decides_shown (hids : Function.Injective fun i => (calls i).id)
    (hprompts : Prompted calls) {v : Relay.Visit} (hv : Relay.Understood v) {s : System ι}
    (hreach : Steps calls ttl init s) (now : ℤ) :
    (∃ cards, (Relay.viewPending s.relay.store now).cards = some cards ∧
      List.Forall₂ (fun r card => ∃ i, r.id = (calls i).id ∧
          Faithful calls ttl v s (Relay.viewPending s.relay.store now) i card)
        (s.relay.store.pending now) cards) ∧
    ∀ id, s.relay.store.Live now id → ∃ page card i,
      Relay.viewRequest s.relay.store now id = .ok page ∧ page.card = some card ∧
        id = (calls i).id ∧ Faithful calls ttl v s page i card := by
  have hinv := Steps.inv hreach inv_init
  have hvalid := Steps.stored_valid hreach
  have hreadable : ∀ r ∈ s.relay.store.requests, Relay.Readable r.prompt := by
    intro r hr
    obtain ⟨i, -, hprompt⟩ := hinv.request_of_stored hprompts hr
    obtain ⟨project, workingDir, argv, hformat⟩ := hprompts i
    rw [hprompt, hformat]
    exact readable_formatPrompt project workingDir argv
  constructor
  · have hmem : ∀ r ∈ s.relay.store.pending now, r ∈ s.relay.store.requests := fun r hr =>
      ((Relay.Store.lists_pending s.relay.store now).mem_iff.1 hr).1
    refine ⟨_, Relay.cards_writePendingPage fun r hr =>
      ⟨hvalid r (hmem r hr), hreadable r (hmem r hr)⟩, ?_⟩
    rw [List.forall₂_map_right_iff, List.forall₂_same]
    exact fun r hr => faithful_decisionCard hids hprompts hv hreach (hmem r hr) rfl
  · rintro id ⟨r, hr, hstatus, htime⟩
    have hmem := Relay.Store.lookup_mem hr
    obtain rfl := Relay.Store.lookup_id hr
    have hheaders : (Relay.writeApprovalPage r.id r.prompt [] true).headers =
        Relay.setHTMLHeaders := rfl
    obtain ⟨i, hid, hcard⟩ := faithful_decisionCard hids hprompts hv hreach hmem hheaders
    refine ⟨_, _, i, ?_, Relay.card_writeApprovalPage [] (hvalid r hmem) (hreadable r hmem), hid,
      hcard⟩
    have hlate : ¬ (r.status = .pending ∧ r.deadline < now) := fun h => Int.not_lt.2 htime h.2
    have hget : s.relay.store.get now r.id = .ok r := by
      simp only [Relay.Store.get, hr, if_neg hlate]
    simp [Relay.viewRequest, hvalid r hmem, hget, hstatus]

end System

/-! A call that is registered and shown, with an argument that looks like markup. -/

section Witness

local instance tapPlatform : Platform where
  isPrint _ := false
  unmarshal _ := .error []
  parseURL _ := some ⟨str "http", str "relay:7621", false, [], [], []⟩

local instance tapForms : Relay.Forms :=
  ⟨fun _ _ body => some (if body = str "decision=approve" then str "approve" else str "deny")⟩

def tapVisit : Relay.Visit := ⟨false, str "relay:7621", str "http://relay:7621/"⟩

def tapPrompt : Bytes := formatPrompt (str "app") (str "/srv") [str "deploy", str "</pre><form>"]

def tapCalls (_ : Unit) : ApproveCall := ⟨str "0a1b", tapPrompt⟩

def tapRequest : Relay.Request := ⟨str "0a1b", tapPrompt, .pending, 0, 300⟩

def tapStore : Relay.Store := ⟨[tapRequest], 1024, by simp⟩

def tapRegistering : System Unit :=
  (System.init.setPhase () .registering).send (.register () (str "0a1b") (registerBody tapPrompt))

def tapCreated : System Unit :=
  { tapRegistering with relay := tapRegistering.relay.afterCreate tapStore tapRequest }.send
    (.created () (str "0a1b"))

theorem steps_tapCreated : System.Steps tapCalls 300 System.init tapCreated := by
  have h₁ : System.Step tapCalls 300 System.init tapRegistering := .start rfl
  have hr : Relay.register tapRegistering.relay.store 300 0 (str "0a1b")
      (registerBody tapPrompt) = .ok tapStore := by decide +kernel
  have h₂ : System.Step tapCalls 300 tapRegistering tapCreated :=
    .create (by simp [tapRegistering, System.send]) hr (by decide +kernel)
  exact (Relation.ReflTransGen.single h₁).tail h₂

theorem understood_tapVisit : Relay.Understood tapVisit where
  origin := ⟨⟨str "http", str "relay:7621", false, [], [], []⟩, rfl, rfl, rfl⟩
  form approve := by cases approve <;> decide +kernel

theorem tap_decides_shown_markup : tapCreated.relay.store.Live 7 (str "0a1b") ∧
    ∃ page card, Relay.viewRequest tapCreated.relay.store 7 (str "0a1b") = .ok page ∧
      page.card = some card ∧ System.Faithful tapCalls 300 tapVisit tapCreated page () card := by
  have hlive : tapCreated.relay.store.Live 7 (str "0a1b") :=
    ⟨tapRequest, by decide +kernel, rfl, by decide⟩
  have hids : Function.Injective fun i => (tapCalls i).id := fun _ _ _ => rfl
  obtain ⟨page, card, i, hpage, hcard, -, hfaithful⟩ :=
    (System.tap_decides_shown hids (fun _ => ⟨_, _, _, rfl⟩) understood_tapVisit steps_tapCreated
      7).2 _ hlive
  exact ⟨hlive, page, card, hpage, hcard, hfaithful⟩

end Witness

end Approval

end SecretsBroker
