import Mathlib.Data.List.AList
import Mathlib.Logic.Relation
import SecretsBroker.Admin.Concurrent
import SecretsBroker.AdminWeb.Conduct
import SecretsBroker.Foundations.Digest

/-!
# Form tokens

The map of form tokens of the administrator web server and its three sections under the lock
(`issueTargetToken`, `takeToken` and the end of `review`), and any number of requests whose calls
are interleaved in any order over it, while the clock moves on. `Site.Lawful` says what holds of
every reachable site; `Site.single_use` draws from it what tokens are for: a token runs at most one
handler, the one it was issued for, before it expires, and `commit` applies the change that was
reviewed by the request that issued its token.

The log of a site has the most recent call first, so `h :: past <:+ log` says that `h` happened and
that `past` is all that happened before it.
-/

namespace SecretsBroker.AdminWeb

open Admin Interaction

/-! ## Positions in a log -/

/-- Two calls of a log are the same, or one is before the other. -/
theorem suffix_trichotomy {α : Type} {log past past' : List α} {h h' : α} (hs : h :: past <:+ log)
    (hs' : h' :: past' <:+ log) :
    h :: past = h' :: past' ∨ h :: past <:+ past' ∨ h' :: past' <:+ past := by
  rcases List.suffix_or_suffix_of_suffix hs hs' with hle | hle
  · rcases List.suffix_cons_iff.1 hle with heq | hlt
    · exact .inl heq
    · exact .inr (.inl hlt)
  · rcases List.suffix_cons_iff.1 hle with heq | hlt
    · exact .inl heq.symm
    · exact .inr (.inr hlt)

theorem countP_le_one {α : Type} {p : α → Bool} {l : List α}
    (h : ∀ a past, a :: past <:+ l → p a = true → ∀ b ∈ past, p b = false) : l.countP p ≤ 1 := by
  induction l with
  | nil => simp
  | cons a l ih =>
    have hrest := ih fun b past hs => h b past (hs.trans (List.suffix_cons a l))
    by_cases hp : p a = true
    · have hnone : l.countP p = 0 := by
        refine List.countP_eq_zero.2 fun b hb => ?_
        simpa using h a l (List.suffix_refl _) hp b hb
      rw [List.countP_cons_of_pos hp, hnone]
    · rwa [List.countP_cons_of_neg hp]

/-! ## The map -/

/-- `s.tokens` -/
abbrev Tokens := AList fun _ : Bytes => FormToken

/-- Ten minutes, in nanoseconds. -/
def formLifetime : ℤ := 10 * 60 * 10 ^ 9

/-- `formToken{}`, whose time is the first day of the year 1. -/
def FormToken.zero : FormToken := ⟨none, [], [], [], -62135596800 * 10 ^ 9, none⟩

/-- `pruneTokens`, which reads the clock for each token. -/
def pruneTokens (now : Bytes → ℤ) (tokens : Tokens) : Tokens :=
  ⟨tokens.entries.filter fun t => decide (now t.1 < t.2.expires),
    tokens.nodupKeys.sublist List.filter_sublist⟩

/-- `takeToken` -/
def takeToken (login : Bytes) (now : Bytes → ℤ) (token : Bytes) (action : Action)
    (tokens : Tokens) : Option FormToken × Tokens :=
  let tokens := pruneTokens now tokens
  (match tokens.lookup token with
    | none => none
    | some entry =>
      if entry.action = some action ∧ entry.login = login then some entry else none,
    tokens.erase token)

/-- `issueTargetToken`; `rand.Read` gives bytes or fails. -/
def issueTargetToken (login : Bytes) (now : Bytes → ℤ) (random : Except Bytes Bytes) (issuedAt : ℤ)
    (action : Action) (revision target : Bytes) (tokens : Tokens) : Except Bytes Bytes × Tokens :=
  let tokens := pruneTokens now tokens
  if 128 ≤ tokens.keys.length then (.error (str "too many open administrator forms"), tokens)
  else
    match random with
    | .error err => (.error err, tokens)
    | .ok bytes => (.ok (hexEncode bytes), tokens.insert (hexEncode bytes)
        ⟨some action, login, revision, target, issuedAt + formLifetime, none⟩)

/-- The last section of `review`, which writes back the entry that it finds or the zero value. -/
def attachChange (token : Bytes) (change : PolicyChange) (tokens : Tokens) : Tokens :=
  tokens.insert token { (tokens.lookup token).getD .zero with change := some change }

theorem lookup_filter {β : Type} {m m' : AList fun _ : Bytes => β}
    {p : (Σ _ : Bytes, β) → Bool} (h : m'.entries = m.entries.filter p) {key : Bytes} {b : β} :
    m'.lookup key = some b ↔ m.lookup key = some b ∧ p ⟨key, b⟩ = true := by
  have hm' := @AList.mem_lookup_iff _ _ _ key b m'
  have hm := @AList.mem_lookup_iff _ _ _ key b m
  simp only [Option.mem_def] at hm' hm
  rw [hm', hm, h, List.mem_filter]

theorem lookup_pruneTokens {now : Bytes → ℤ} {tokens : Tokens} {token : Bytes} {entry : FormToken} :
    (pruneTokens now tokens).lookup token = some entry ↔
      tokens.lookup token = some entry ∧ now token < entry.expires := by
  rw [@lookup_filter _ tokens (pruneTokens now tokens) _ rfl, decide_eq_true_eq]

/-! ## A section under the lock -/

/-- The call is a section that works on the map. -/
def OnTokens : Call → Prop
  | .take _ _ | .issue _ _ _ | .attach _ _ => True
  | _ => False

/-- One call against the map and the clock: the call with its answer, the reading of the clock that
decides about the token, and the map and the clock afterwards. Tokens are never drawn twice. -/
inductive Acts (login : Bytes) (used : Bytes → Prop) (tokens : Tokens) (clock : ℤ) :
    (c : Call) → c.Answer → ℤ → Tokens → ℤ → Prop
  | take (token : Bytes) (action : Action) (now : Bytes → ℤ) {clock' : ℤ}
    (hnow : ∀ key, clock ≤ now key ∧ now key ≤ clock') :
    Acts login used tokens clock (.take token action) (takeToken login now token action tokens).1
      (now token) (takeToken login now token action tokens).2 clock'
  | issue (action : Action) (revision target : Bytes) (now : Bytes → ℤ)
    (random : Except Bytes Bytes)
    {issuedAt clock' : ℤ} (hnow : ∀ key, clock ≤ now key ∧ now key ≤ issuedAt)
    (hclock : issuedAt ≤ clock') (hfresh : ∀ bytes, random = .ok bytes → ¬ used (hexEncode bytes)) :
    Acts login used tokens clock (.issue action revision target)
      (issueTargetToken login now random issuedAt action revision target tokens).1 issuedAt
      (issueTargetToken login now random issuedAt action revision target tokens).2 clock'
  | attach (token : Bytes) (change : PolicyChange) {clock' : ℤ} (hclock : clock ≤ clock') :
    Acts login used tokens clock (.attach token change) () clock' (attachChange token change tokens)
      clock'
  | other {c : Call} (hc : ¬ OnTokens c) (r : c.Answer) {clock' : ℤ} (hclock : clock ≤ clock') :
    Acts login used tokens clock c r clock' tokens clock'

/-- No entry of the map can run a handler with this token. -/
def Dead (tokens : Tokens) (token : Bytes) : Prop :=
  ∀ entry, tokens.lookup token = some entry → entry.action = none

section Acts

variable {login : Bytes} {used : Bytes → Prop} {tokens tokens' : Tokens} {clock clock' time : ℤ}

/-- What `takeToken` hands out was in the map, for the same action, and had not expired. -/
theorem takeToken_eq_some {now : Bytes → ℤ} {token : Bytes} {action : Action} {entry : FormToken}
    (h : (takeToken login now token action tokens).1 = some entry) :
    tokens.lookup token = some entry ∧ entry.action = some action ∧ now token < entry.expires := by
  simp only [takeToken] at h
  split at h
  · simp at h
  · next found hfound =>
    split_ifs at h with hmatch
    obtain rfl := Option.some.inj h
    obtain ⟨hlookup, htime⟩ := lookup_pruneTokens.1 hfound
    exact ⟨hlookup, hmatch.1, htime⟩

/-- A token is gone once it was presented, whatever for. -/
theorem lookup_takeToken_self (now : Bytes → ℤ) (token : Bytes) (action : Action) :
    (takeToken login now token action tokens).2.lookup token = none := AList.lookup_erase _ _

theorem lookup_takeToken {now : Bytes → ℤ} {presented token : Bytes} {action : Action}
    {entry : FormToken}
    (h : (takeToken login now presented action tokens).2.lookup token = some entry) :
    token ≠ presented ∧ tokens.lookup token = some entry := by
  have hne : token ≠ presented := by
    rintro rfl
    rw [lookup_takeToken_self] at h
    simp at h
  rw [takeToken, AList.lookup_erase_ne hne] at h
  exact ⟨hne, (lookup_pruneTokens.1 h).1⟩

/-- What is in the map after `issueTargetToken` is the new entry, or was there before. -/
theorem lookup_issueTargetToken {now : Bytes → ℤ} {random : Except Bytes Bytes} {issuedAt : ℤ}
    {action : Action} {revision target token : Bytes} {entry : FormToken}
    (h : (issueTargetToken login now random issuedAt action revision target tokens).2.lookup token =
      some entry) :
    ((issueTargetToken login now random issuedAt action revision target tokens).1 = .ok token ∧
        (∃ bytes, random = .ok bytes ∧ token = hexEncode bytes) ∧
        entry = ⟨some action, login, revision, target, issuedAt + formLifetime, none⟩) ∨
      tokens.lookup token = some entry := by
  simp only [issueTargetToken] at h ⊢
  split_ifs at h ⊢ with hfull
  · exact .inr (lookup_pruneTokens.1 h).1
  cases random with
  | error err => exact .inr (lookup_pruneTokens.1 h).1
  | ok bytes =>
    dsimp only at h ⊢
    by_cases heq : token = hexEncode bytes
    · subst heq
      rw [AList.lookup_insert] at h
      exact .inl ⟨rfl, ⟨bytes, rfl, rfl⟩, (Option.some.inj h).symm⟩
    · rw [AList.lookup_insert_ne heq] at h
      exact .inr (lookup_pruneTokens.1 h).1

theorem issueTargetToken_eq_ok {now : Bytes → ℤ} {random : Except Bytes Bytes} {issuedAt : ℤ}
    {action : Action} {revision target token : Bytes}
    (h : (issueTargetToken login now random issuedAt action revision target tokens).1 = .ok token) :
    ∃ bytes, random = .ok bytes ∧ token = hexEncode bytes := by
  simp only [issueTargetToken] at h
  split_ifs at h with hfull
  cases random with
  | error err => simp at h
  | ok bytes => exact ⟨bytes, rfl, (Except.ok.inj h).symm⟩

/-- An entry of the map after a call is the one that the call issued, or it stood there before but
for a change that the call attached to it, and the call did not take it. -/
theorem Acts.lookup {c : Call} {r : c.Answer}
    (h : Acts login used tokens clock c r time tokens' clock')
    {token : Bytes} {entry : FormToken} {action : Action}
    (he : tokens'.lookup token = some entry) (ha : entry.action = some action) :
    ((⟨c, r⟩ : Event Call.Answer) = ⟨.issue action entry.revision entry.target, .ok token⟩ ∧
        entry.expires = time + formLifetime ∧ entry.change = none) ∨
      ∃ before, tokens.lookup token = some before ∧
        entry = { before with change := entry.change } ∧
        (entry.change = before.change ∨ ∃ change, entry.change = some change ∧
          (⟨c, r⟩ : Event Call.Answer) = ⟨.attach token change, ()⟩) := by
  cases h with
  | take presented action' now hnow =>
    exact .inr ⟨entry, (lookup_takeToken he).2, rfl, .inl rfl⟩
  | issue action' revision target now random hnow hclock hfresh =>
    rcases lookup_issueTargetToken he with ⟨hok, -, rfl⟩ | hbefore
    · obtain rfl : action' = action := Option.some.inj ha
      exact .inl ⟨by rw [hok], rfl, rfl⟩
    · exact .inr ⟨entry, hbefore, rfl, .inl rfl⟩
  | attach token' change hclock =>
    by_cases heq : token = token'
    · subst heq
      rw [attachChange, AList.lookup_insert] at he
      obtain rfl := Option.some.inj he
      cases hb : tokens.lookup token with
      | none =>
        -- the zero value has no action
        rw [hb] at ha
        exact absurd ha (by simp [FormToken.zero])
      | some before => exact .inr ⟨before, rfl, by simp, .inr ⟨change, rfl, rfl⟩⟩
    · rw [attachChange, AList.lookup_insert_ne heq] at he
      exact .inr ⟨entry, he, rfl, .inl rfl⟩
  | other hc r hclock => exact .inr ⟨entry, he, rfl, .inl rfl⟩

/-- **A dead token stays dead**: what `review` writes back for it has no action. -/
theorem Acts.dead {c : Call} {r : c.Answer}
    (h : Acts login used tokens clock c r time tokens' clock') {token : Bytes}
    (hused : used token) (hd : Dead tokens token) : Dead tokens' token := by
  intro entry he
  cases h with
  | take presented action' now hnow => exact hd entry (lookup_takeToken he).2
  | issue action' revision target now random hnow hclock hfresh =>
    rcases lookup_issueTargetToken he with ⟨-, ⟨bytes, hb, rfl⟩, -⟩ | hbefore
    · exact absurd hused (hfresh bytes hb)
    · exact hd entry hbefore
  | attach token' change hclock =>
    by_cases heq : token = token'
    · subst heq
      rw [attachChange, AList.lookup_insert] at he
      obtain rfl := Option.some.inj he
      cases hb : tokens.lookup token with
      | none => rfl
      | some before => exact hd before hb
    · rw [attachChange, AList.lookup_insert_ne heq] at he
      exact hd entry he
  | other hc r hclock => exact hd entry he

theorem Acts.taken {token : Bytes} {action : Action} {entry : FormToken}
    (h : Acts login used tokens clock (.take token action) (some entry) time tokens' clock') :
    tokens.lookup token = some entry ∧ entry.action = some action ∧ time < entry.expires := by
  obtain ⟨r, hr⟩ : ∃ r : (Call.take token action).Answer, r = some entry := ⟨_, rfl⟩
  rw [← hr] at h
  cases h with
  | take _ _ now hnow => exact takeToken_eq_some hr
  | other hc => exact absurd trivial hc

theorem Acts.dead_of_take {token : Bytes} {action : Action} {r : (Call.take token action).Answer}
    (h : Acts login used tokens clock (.take token action) r time tokens' clock') :
    Dead tokens' token := by
  intro entry he
  cases h with
  | take _ _ now hnow =>
    rw [lookup_takeToken_self] at he
    simp at he
  | other hc => exact absurd trivial hc

theorem Acts.fresh {action : Action} {revision target token : Bytes}
    (h : Acts login used tokens clock (.issue action revision target) (.ok token) time tokens'
      clock') :
    ¬ used token := by
  obtain ⟨r, hr⟩ : ∃ r : (Call.issue action revision target).Answer, r = .ok token := ⟨_, rfl⟩
  rw [← hr] at h
  cases h with
  | issue _ _ _ now random hnow hclock hfresh =>
    obtain ⟨bytes, hb, rfl⟩ := issueTargetToken_eq_ok hr
    exact hfresh bytes hb
  | other hc => exact absurd trivial hc

end Acts

/-! ## Requests side by side -/

/-- A call of a request, with the reading of the clock that goes with it. -/
structure Happening (ι : Type) where
  who : ι
  time : ℤ
  event : Event Call.Answer

/-- The tokens, the clock, what has happened, and what is left of each request. -/
structure Site (ι : Type) where
  tokens : Tokens
  clock : ℤ
  log : List (Happening ι)
  left : ι → Program Response

/-- The token that a call has issued. -/
def issuedToken : Event Call.Answer → Option Bytes
  | ⟨.issue _ _ _, .ok token⟩ => some token
  | _ => none

section Site

variable {ι : Type} [DecidableEq ι]

/-- The token was issued. -/
def Issued (log : List (Happening ι)) (token : Bytes) : Prop :=
  ∃ h ∈ log, issuedToken h.event = some token

/-- The calls of one request, the first one first. -/
def ownPast (log : List (Happening ι)) (i : ι) : Trace Call.Answer :=
  ((log.filter fun h => decide (h.who = i)).map Happening.event).reverse

/-- One call of one request. -/
inductive Site.Step (login : Bytes) (s : Site ι) : Site ι → Prop
  | call {i : ι} {c : Call} {k : c.Answer → Program Response} {r : c.Answer} {time clock' : ℤ}
    {tokens' : Tokens} (hp : s.left i = .call c k)
    (ha : Acts login (Issued s.log) s.tokens s.clock c r time tokens' clock') :
    Site.Step login s
      ⟨tokens', clock', ⟨i, time, ⟨c, r⟩⟩ :: s.log, Function.update s.left i (k r)⟩

/-- The sites that some interleaving reaches. -/
abbrev Site.Reaches (login : Bytes) : Site ι → Site ι → Prop :=
  Relation.ReflTransGen (Site.Step login)

omit [DecidableEq ι] in
theorem Issued.mono {log log' : List (Happening ι)} {token : Bytes} (h : Issued log token)
    (hsub : log ⊆ log') : Issued log' token := by
  obtain ⟨x, hx, he⟩ := h
  exact ⟨x, hsub hx, he⟩

theorem mem_ownPast {log : List (Happening ι)} {i : ι} {ev : Event Call.Answer} :
    ev ∈ ownPast log i ↔ ∃ h ∈ log, h.who = i ∧ h.event = ev := by
  simp [ownPast, and_assoc]

theorem ownPast_subset {log log' : List (Happening ι)} (h : log ⊆ log') (i : ι) :
    ownPast log i ⊆ ownPast log' i := by
  intro ev hev
  obtain ⟨x, hx, hwho, he⟩ := mem_ownPast.1 hev
  exact mem_ownPast.2 ⟨x, h hx, hwho, he⟩

theorem ownPast_cons_self (log : List (Happening ι)) (h : Happening ι) :
    ownPast (h :: log) h.who = ownPast log h.who ++ [h.event] := by
  simp [ownPast]

theorem ownPast_cons_ne {log : List (Happening ι)} {h : Happening ι} {i : ι} (hne : h.who ≠ i) :
    ownPast (h :: log) i = ownPast log i := by
  simp [ownPast, hne]

/-- What stands behind an entry of the map: the call that issued it, and the one that attached its
change. -/
def Backed (log : List (Happening ι)) (token : Bytes) (action : Action) (entry : FormToken) :
    Prop :=
  (∃ h ∈ log, h.event = ⟨.issue action entry.revision entry.target, .ok token⟩ ∧
    entry.expires = h.time + formLifetime) ∧
  ∀ change, entry.change = some change → ∃ h ∈ log, h.event = ⟨.attach token change, ()⟩

omit [DecidableEq ι] in
theorem Backed.mono {log log' : List (Happening ι)} {token : Bytes} {action : Action}
    {entry : FormToken} (h : Backed log token action entry) (hsub : log ⊆ log') :
    Backed log' token action entry := by
  obtain ⟨⟨x, hx, hissue⟩, hchange⟩ := h
  refine ⟨⟨x, hsub hx, hissue⟩, fun change hc => ?_⟩
  obtain ⟨y, hy, hattach⟩ := hchange change hc
  exact ⟨y, hsub hy, hattach⟩

omit [DecidableEq ι] in
theorem Backed.issued {log : List (Happening ι)} {token : Bytes} {action : Action}
    {entry : FormToken} (h : Backed log token action entry) : Issued log token := by
  obtain ⟨⟨x, hx, hissue, -⟩, -⟩ := h
  exact ⟨x, hx, by rw [hissue]; rfl⟩

/-! ## What holds of every site -/

variable [Platform]

/-- What a call may be, given the calls before it. -/
structure Justified (host : Bytes) (requests : ι → Request) (past : List (Happening ι))
    (h : Happening ι) : Prop where
  allowed : Allowed host (requests h.who) (ownPast past h.who) h.event
  fresh : ∀ token, issuedToken h.event = some token → ¬ Issued past token
  taken : ∀ token action entry, h.event = ⟨.take token action, some entry⟩ →
    Backed past token action entry ∧ h.time < entry.expires ∧
      ∀ h' past' action', h' :: past' <:+ past → h'.event.1 = .take token action' →
        ¬ Issued past' token

structure Site.Lawful (host : Bytes) (requests : ι → Request) (s : Site ι) : Prop where
  /-- What is left of each request goes with what it has done. -/
  keeps : ∀ i, Keeps host (requests i) (ownPast s.log i) (s.left i)
  justified : ∀ h past, h :: past <:+ s.log → Justified host requests past h
  live : ∀ token entry action, s.tokens.lookup token = some entry → entry.action = some action →
    Backed s.log token action entry
  /-- An issued token that was presented is dead. -/
  spent : ∀ h past token action, h :: past <:+ s.log → h.event.1 = .take token action →
    Issued past token → Dead s.tokens token

/-- The site before the first request. -/
def Site.start (host : Bytes) (requests : ι → Request) (clock : ℤ) : Site ι :=
  ⟨∅, clock, [], fun i => serve host (requests i)⟩

variable {login host : Bytes} {requests : ι → Request}

theorem Site.lawful_start (clock : ℤ) : (Site.start host requests clock).Lawful host requests where
  keeps i := serve_conforms host (requests i)
  justified h past hs := by simp [Site.start] at hs
  live token entry action h := by simp [Site.start] at h
  spent h past token action hs := by simp [Site.start] at hs

/-- The call that a step makes is justified. -/
theorem Site.Lawful.justify {s : Site ι} (hl : s.Lawful host requests) {i : ι} {c : Call}
    {k : c.Answer → Program Response} {r : c.Answer} {time clock' : ℤ} {tokens' : Tokens}
    (hp : s.left i = .call c k)
    (ha : Acts login (Issued s.log) s.tokens s.clock c r time tokens' clock') :
    Justified host requests s.log ⟨i, time, ⟨c, r⟩⟩ where
  allowed := by
    have hk := hl.keeps i
    rw [hp] at hk
    obtain ⟨_, ⟨-, hallowed⟩, -⟩ := hk r
    exact hallowed
  fresh token hissued := by
    cases c with
    | issue action revision target =>
      rcases r with err | token'
      · simp [issuedToken] at hissued
      · obtain rfl : token' = token := by simpa [issuedToken] using hissued
        exact ha.fresh
    | _ => simp [issuedToken] at hissued
  taken token action entry he := by
    cases he
    obtain ⟨hlookup, haction, htime⟩ := ha.taken
    refine ⟨hl.live token entry action hlookup haction, htime, ?_⟩
    -- an earlier presentation after the issue would have left the token dead
    intro h' past' action' hs htake hissued
    have hdead := hl.spent h' past' token action' hs htake hissued entry hlookup
    rw [haction] at hdead
    simp at hdead

/-- **One call of any request keeps a site lawful.** -/
theorem Site.Step.lawful {s s' : Site ι} (h : s.Step login s') (hl : s.Lawful host requests) :
    s'.Lawful host requests := by
  obtain ⟨hp, ha⟩ := h
  rename_i i c k r time clock' tokens'
  have hnew := hl.justify hp ha
  refine ⟨fun j => ?_, fun h past hs => ?_, fun token entry action he haction => ?_,
    fun h past token action hs htake hissued => ?_⟩
  · -- what is left of the requests
    by_cases hj : i = j
    · subst hj
      have hk := hl.keeps i
      rw [hp] at hk
      obtain ⟨_, ⟨rfl, -⟩, hrest⟩ := hk r
      have hown := ownPast_cons_self s.log ⟨i, time, ⟨c, r⟩⟩
      dsimp only at hown ⊢
      rw [hown, Function.update_self]
      exact hrest
    · dsimp only
      rw [ownPast_cons_ne hj, Function.update_of_ne (Ne.symm hj)]
      exact hl.keeps j
  · rcases List.suffix_cons_iff.1 hs with heq | hs
    · obtain ⟨rfl, rfl⟩ := List.cons.inj heq
      exact hnew
    · exact hl.justified h past hs
  · -- the entries of the map
    rcases ha.lookup he haction with ⟨hevent, hexpires, hchange⟩ | ⟨before, hb, hentry, hchange⟩
    · refine ⟨⟨_, List.mem_cons_self, hevent, hexpires⟩, fun change hc => ?_⟩
      rw [hchange] at hc
      simp at hc
    · have haction' : before.action = some action := by rw [hentry] at haction; exact haction
      obtain ⟨⟨x, hx, hissue, hexpires⟩, hattached⟩ := hl.live token before action hb haction'
      rw [hentry]
      refine ⟨⟨x, List.mem_cons_of_mem _ hx, hissue, hexpires⟩, fun change hc => ?_⟩
      rcases hchange with hsame | ⟨change', hc', hevent⟩
      · obtain ⟨y, hy, hattach⟩ := hattached change (hsame ▸ hc)
        exact ⟨y, List.mem_cons_of_mem _ hy, hattach⟩
      · obtain rfl : change' = change := Option.some.inj (hc'.symm.trans hc)
        exact ⟨_, List.mem_cons_self, hevent⟩
  · rcases List.suffix_cons_iff.1 hs with heq | hs
    · obtain ⟨rfl, rfl⟩ := List.cons.inj heq
      cases htake
      exact ha.dead_of_take
    · have hsub : past ⊆ s.log := ((List.suffix_cons h past).trans hs).subset
      exact ha.dead (hissued.mono hsub) (hl.spent h past token action hs htake hissued)

theorem Site.Reaches.lawful {s s' : Site ι} (h : s.Reaches login s') (hl : s.Lawful host requests) :
    s'.Lawful host requests := by
  induction h with
  | refl => exact hl
  | tail _ hs ih => exact hs.lawful ih

/-! ## What tokens are for -/

/-- The call of a handler with this token. -/
def runsHandler (token : Bytes) (h : Happening ι) : Bool :=
  match h.event with
  | ⟨.next t _ _, _⟩ => t == token
  | _ => false

structure Site.SingleUse (login host : Bytes) (requests : ι → Request) (s : Site ι) : Prop where
  /-- A token runs at most one handler. -/
  once : ∀ token, s.log.countP (runsHandler token) ≤ 1
  /-- The handler is the one of the action that the token was issued for; its request took the token
  less than ten minutes after that, and its form names the project of the token. -/
  bound : ∀ h past token action entry, h :: past <:+ s.log →
    h.event = ⟨.next token action entry, ()⟩ →
    ∃ issue ∈ past, ∃ take ∈ past,
      issue.event = ⟨.issue action entry.revision entry.target, .ok token⟩ ∧
      take.who = h.who ∧ take.event = ⟨.take token action, some entry⟩ ∧
      take.time < issue.time + formLifetime ∧
      ∃ form, Posts host (requests h.who) action form ∧ token = form.get fieldCSRF ∧
        (entry.target ≠ [] → form.values fieldAlias = [entry.target])
  /-- What is committed was reviewed by the request that issued the token of the commit, for the
  same project and the same revision. -/
  reviewed : ∀ h past revision m answer, h :: past <:+ s.log →
    h.event = ⟨.policy (.mutate revision m), answer⟩ →
    ∃ token entry change current, ⟨.next token .commit entry, ()⟩ ∈ ownPast past h.who ∧
      entry.change = some change ∧ m = change.mutation current ∧ m.target = change.projectAlias ∧
      ∃ issue ∈ past, issue.event = ⟨.issue .commit revision change.projectAlias, .ok token⟩ ∧
        ∃ kind form first start, Posts host (requests issue.who) (.review kind) form ∧
          change.projectAlias = form.get fieldAlias ∧
          Reviewed (ownPast past issue.who) kind form change ∧
          ⟨.next first (.review kind) start, ()⟩ ∈ ownPast past issue.who ∧
          start.revision = revision ∧
          ⟨.attach token change, ()⟩ ∈ ownPast past issue.who
  /-- Once an issued token was presented, to whatever action, it is never accepted again. -/
  consumed : ∀ h past token action, h :: past <:+ s.log → h.event.1 = .take token action →
    Issued past token → ∀ h' later action' entry, h' :: later <:+ s.log → h :: past <:+ later →
      h'.event ≠ ⟨.take token action', some entry⟩
  /-- Once an issued token has left the map it is never accepted again, also if `review` writes an
  entry back for it. -/
  gone : ∀ token, Issued s.log token → s.tokens.lookup token = none → ∀ s', s.Reaches login s' →
    ∀ h past action entry, h :: past <:+ s'.log → s.log <:+ past →
      h.event ≠ ⟨.take token action, some entry⟩

omit [DecidableEq ι] [Platform] in
theorem exists_suffix_of_mem {log : List (Happening ι)} {h : Happening ι} (hm : h ∈ log) :
    ∃ past, h :: past <:+ log := by
  obtain ⟨later, past, rfl⟩ := List.append_of_mem hm
  exact ⟨past, List.suffix_append _ _⟩

variable {s : Site ι}

/-- A token is issued once. -/
theorem Site.Lawful.issue_unique (hl : s.Lawful host requests) {h h' : Happening ι} {token : Bytes}
    (hm : h ∈ s.log) (hm' : h' ∈ s.log) (hi : issuedToken h.event = some token)
    (hi' : issuedToken h'.event = some token) : h = h' := by
  obtain ⟨past, hs⟩ := exists_suffix_of_mem hm
  obtain ⟨past', hs'⟩ := exists_suffix_of_mem hm'
  rcases suffix_trichotomy hs hs' with heq | hlt | hlt
  · exact (List.cons.inj heq).1
  · exact absurd ⟨h, hlt.subset List.mem_cons_self, hi⟩
      ((hl.justified h' past' hs').fresh token hi')
  · exact absurd ⟨h', hlt.subset List.mem_cons_self, hi'⟩ ((hl.justified h past hs).fresh token hi)

/-- A token is accepted once. -/
theorem Site.Lawful.take_unique (hl : s.Lawful host requests) {h h' : Happening ι} {token : Bytes}
    {action action' : Action} {entry entry' : FormToken} (hm : h ∈ s.log) (hm' : h' ∈ s.log)
    (ht : h.event = ⟨.take token action, some entry⟩)
    (ht' : h'.event = ⟨.take token action', some entry'⟩) : h = h' := by
  obtain ⟨past, hs⟩ := exists_suffix_of_mem hm
  obtain ⟨past', hs'⟩ := exists_suffix_of_mem hm'
  obtain ⟨hbacked, -, hfirst⟩ := (hl.justified h past hs).taken token action entry ht
  obtain ⟨hbacked', -, hfirst'⟩ := (hl.justified h' past' hs').taken token action' entry' ht'
  rcases suffix_trichotomy hs hs' with heq | hlt | hlt
  · exact (List.cons.inj heq).1
  · exact absurd hbacked.issued (hfirst' h past action hlt (by rw [ht]))
  · exact absurd hbacked'.issued (hfirst h' past' action' hlt (by rw [ht']))

/-- The call of a handler, with the presentation that it rests on. -/
theorem Site.Lawful.next_cases (hl : s.Lawful host requests) {h : Happening ι}
    {past : List (Happening ι)} {token : Bytes} {action : Action} {entry : FormToken}
    (hs : h :: past <:+ s.log) (he : h.event = ⟨.next token action entry, ()⟩) :
    (∃ take ∈ past, take.who = h.who ∧ take.event = ⟨.take token action, some entry⟩) ∧
      (∀ ev ∈ ownPast past h.who, ¬ IsNext ev) ∧
      ∃ form, Posts host (requests h.who) action form ∧ matchesTarget form entry.target = true := by
  have ha := (hl.justified h past hs).allowed
  rw [he] at ha
  obtain ⟨htake, hnone, hform⟩ := ha
  obtain ⟨take, hm, hwho, hev⟩ := mem_ownPast.1 htake
  exact ⟨⟨take, hm, hwho, hev⟩, hnone, hform⟩

omit [DecidableEq ι] [Platform] in
theorem runsHandler_iff {token : Bytes} {h : Happening ι} :
    runsHandler token h = true ↔ ∃ action entry, h.event = ⟨.next token action entry, ()⟩ := by
  obtain ⟨who, time, ⟨c, r⟩⟩ := h
  cases c <;> simp [runsHandler]

/-- A token runs at most one handler: both calls would rest on the one time that it is accepted, and
a request calls one handler. -/
theorem Site.Lawful.once (hl : s.Lawful host requests) (token : Bytes) :
    s.log.countP (runsHandler token) ≤ 1 := by
  refine countP_le_one fun h past hs hrun h' hm' => Bool.eq_false_iff.2 fun hrun' => ?_
  obtain ⟨action, entry, he⟩ := runsHandler_iff.1 hrun
  obtain ⟨action', entry', he'⟩ := runsHandler_iff.1 hrun'
  obtain ⟨past', hs'⟩ := exists_suffix_of_mem hm'
  have hpast : past <:+ s.log := (List.suffix_cons h past).trans hs
  obtain ⟨⟨take, hm, hwho, ht⟩, hnone, -⟩ := hl.next_cases hs he
  obtain ⟨⟨take', htm', hwho', ht'⟩, -⟩ := hl.next_cases (hs'.trans hpast) he'
  have hlater : take' ∈ s.log :=
    hpast.subset (hs'.subset (List.mem_cons_of_mem _ htm'))
  obtain rfl := hl.take_unique (hpast.subset hm) hlater ht ht'
  exact hnone h'.event (mem_ownPast.2 ⟨h', hm', hwho'.symm.trans hwho, rfl⟩) (by rw [he']; trivial)

theorem Site.Lawful.bound (hl : s.Lawful host requests) {h : Happening ι}
    {past : List (Happening ι)}
    {token : Bytes} {action : Action} {entry : FormToken} (hs : h :: past <:+ s.log)
    (he : h.event = ⟨.next token action entry, ()⟩) :
    ∃ issue ∈ past, ∃ take ∈ past,
      issue.event = ⟨.issue action entry.revision entry.target, .ok token⟩ ∧
      take.who = h.who ∧ take.event = ⟨.take token action, some entry⟩ ∧
      take.time < issue.time + formLifetime ∧
      ∃ form, Posts host (requests h.who) action form ∧ token = form.get fieldCSRF ∧
        (entry.target ≠ [] → form.values fieldAlias = [entry.target]) := by
  obtain ⟨⟨take, hm, hwho, ht⟩, -, form, hposts, htarget⟩ := hl.next_cases hs he
  obtain ⟨past', hs'⟩ := exists_suffix_of_mem hm
  have hj := hl.justified take past' (hs'.trans ((List.suffix_cons h past).trans hs))
  obtain ⟨⟨⟨issue, hissue, hev, hexpires⟩, -⟩, htime, -⟩ := hj.taken token action entry ht
  have ha := hj.allowed
  rw [ht] at ha
  obtain ⟨-, form', hposts', htoken⟩ := ha
  rw [hwho] at hposts'
  obtain rfl := hposts.unique hposts'
  refine ⟨issue, hs'.subset (List.mem_cons_of_mem _ hissue), take, hm, hev, hwho, ht, ?_, form,
    hposts, htoken, fun hne => ?_⟩
  · rwa [hexpires] at htime
  · simpa [matchesTarget, hne] using htarget

/-- The change in an accepted entry was attached by the request that issued the token. -/
theorem Site.Lawful.attached (hl : s.Lawful host requests) {take : Happening ι}
    {past : List (Happening ι)} {token : Bytes} {entry : FormToken} {change : PolicyChange}
    (hs : take :: past <:+ s.log) (ht : take.event = ⟨.take token .commit, some entry⟩)
    (hc : entry.change = some change) :
    ∃ issue ∈ past, issue.event = ⟨.issue .commit entry.revision change.projectAlias, .ok token⟩ ∧
      ∃ kind form first start, Posts host (requests issue.who) (.review kind) form ∧
        Reviewed (ownPast past issue.who) kind form change ∧
        ⟨.next first (.review kind) start, ()⟩ ∈ ownPast past issue.who ∧
        start.revision = entry.revision ∧ ⟨.attach token change, ()⟩ ∈ ownPast past issue.who := by
  obtain ⟨⟨⟨issue, hissue, hev, -⟩, hattached⟩, -, -⟩ :=
    (hl.justified take past hs).taken token .commit entry ht
  obtain ⟨attach, hattach, hav⟩ := hattached change hc
  obtain ⟨past', hs'⟩ := exists_suffix_of_mem hattach
  have hpast : past <:+ s.log := (List.suffix_cons take past).trans hs
  have hpast' : past' <:+ past := (List.suffix_cons attach past').trans hs'
  have ha := (hl.justified attach past' (hs'.trans hpast)).allowed
  rw [hav] at ha
  obtain ⟨kind, first, start, form, hnext, hposts, hown, hreviewed⟩ := ha
  -- the issue that `attach` rests on is the one behind the entry
  obtain ⟨issue', hissue', hwho, hev'⟩ := mem_ownPast.1 hown
  obtain rfl := hl.issue_unique (hpast.subset hissue) (hpast.subset (hpast'.subset hissue'))
    (by rw [hev]; rfl) (by rw [hev']; rfl)
  have hsame := hev.symm.trans hev'
  simp only [Sigma.mk.injEq, Call.issue.injEq, true_and] at hsame
  obtain ⟨⟨hrev, htarget⟩, -⟩ := hsame
  have hsub := ownPast_subset hpast'.subset attach.who
  rw [htarget] at hev
  refine ⟨issue, hissue, hev, kind, form, first, start, ?_⟩
  rw [hwho]
  exact ⟨hposts, hreviewed.mono hsub, hsub hnext, hrev.symm,
    mem_ownPast.2 ⟨attach, hattach, rfl, hav⟩⟩

theorem Site.Lawful.reviewed (hl : s.Lawful host requests) {h : Happening ι}
    {past : List (Happening ι)} {revision : Bytes} {m : Mutation} {answer : Bool × Option Bytes}
    (hs : h :: past <:+ s.log) (he : h.event = ⟨.policy (.mutate revision m), answer⟩) :
    ∃ token entry change current, ⟨.next token .commit entry, ()⟩ ∈ ownPast past h.who ∧
      entry.change = some change ∧ m = change.mutation current ∧ m.target = change.projectAlias ∧
      ∃ issue ∈ past, issue.event = ⟨.issue .commit revision change.projectAlias, .ok token⟩ ∧
        ∃ kind form first start, Posts host (requests issue.who) (.review kind) form ∧
          change.projectAlias = form.get fieldAlias ∧
          Reviewed (ownPast past issue.who) kind form change ∧
          ⟨.next first (.review kind) start, ()⟩ ∈ ownPast past issue.who ∧
          start.revision = revision ∧
          ⟨.attach token change, ()⟩ ∈ ownPast past issue.who := by
  have ha := (hl.justified h past hs).allowed
  rw [he] at ha
  obtain ⟨token, entry, -, hnext, -, change, current, hc, rfl, -, rfl, -⟩ := ha
  -- back from the handler to the presentation of its token
  obtain ⟨next, hm, hwho, hev⟩ := mem_ownPast.1 hnext
  obtain ⟨past₁, hs₁⟩ := exists_suffix_of_mem hm
  have hpast : past <:+ s.log := (List.suffix_cons h past).trans hs
  obtain ⟨⟨take, htm, -, ht⟩, -⟩ := hl.next_cases (hs₁.trans hpast) hev
  have hin : take ∈ past := hs₁.subset (List.mem_cons_of_mem _ htm)
  obtain ⟨past₂, hs₂⟩ := exists_suffix_of_mem hin
  obtain ⟨issue, hissue, hiv, kind, form, first, start, hposts, hreviewed, hfirst, hrev, hattach⟩ :=
    hl.attached (hs₂.trans hpast) ht hc
  have hearlier : past₂ <:+ past := (List.suffix_cons take past₂).trans hs₂
  have hsub := ownPast_subset hearlier.subset issue.who
  exact ⟨token, entry, change, current, hnext, hc, rfl, hreviewed.target current, issue,
    hearlier.subset hissue, hiv, kind, form, first, start, hposts, hreviewed.alias,
    hreviewed.mono hsub, hsub hfirst, hrev, hsub hattach⟩

omit [Platform] in
/-- A dead token is not accepted from now on. -/
theorem Site.Reaches.dead {s' : Site ι} {token : Bytes} (hr : s.Reaches login s')
    (hi : Issued s.log token) (hd : Dead s.tokens token) :
    Issued s'.log token ∧ Dead s'.tokens token ∧
      ∀ h past action entry, h :: past <:+ s'.log → s.log <:+ past →
        h.event ≠ ⟨.take token action, some entry⟩ := by
  induction hr with
  | refl =>
    refine ⟨hi, hd, fun h past action entry hs hle => ?_⟩
    have := hs.length_le.trans hle.length_le
    simp at this
  | tail _ hstep ih =>
    obtain ⟨hi', hd', hnever⟩ := ih
    obtain ⟨hp, ha⟩ := hstep
    refine ⟨hi'.mono (List.subset_cons_self _ _), ha.dead hi' hd', ?_⟩
    intro h past action entry hs hle
    rcases List.suffix_cons_iff.1 hs with heq | hs
    · obtain ⟨rfl, rfl⟩ := List.cons.inj heq
      intro he
      cases he
      obtain ⟨hlookup, haction, -⟩ := ha.taken
      rw [hd' entry hlookup] at haction
      simp at haction
    · exact hnever h past action entry hs hle

/-- **Form tokens are used once, and for what they were issued for**, however the calls of the
requests are interleaved and however the clock moves on. -/
theorem Site.single_use {clock : ℤ} (hr : (Site.start host requests clock).Reaches login s) :
    s.SingleUse login host requests := by
  have hl : s.Lawful host requests := Site.Reaches.lawful hr (Site.lawful_start clock)
  refine ⟨hl.once, fun h past token action entry => hl.bound,
    fun h past revision m answer => hl.reviewed, ?_, ?_⟩
  · intro h past token action hs htake hissued h' later action' entry hs' hlt he
    obtain ⟨-, -, hfirst⟩ := (hl.justified h' later hs').taken token action' entry he
    exact hfirst h past action hlt htake hissued
  · intro token hissued hnone s' hr'
    have hdead : Dead s.tokens token := fun entry he => by rw [hnone] at he; simp at he
    exact (Site.Reaches.dead hr' hissued hdead).2.2

end Site

/-! ## A run -/

/-- One turn of a schedule: whose call is next, what the clock and the random source give, and how a
call is answered that is not a section on the map. -/
structure Turn (ι : Type) where
  who : ι
  now : ℤ
  random : Except Bytes Bytes
  answers : (c : Call) → c.Answer

section Run

variable {ι : Type} [DecidableEq ι] {login : Bytes}

instance (log : List (Happening ι)) (token : Bytes) : Decidable (Issued log token) :=
  inferInstanceAs (Decidable (∃ h ∈ log, issuedToken h.event = some token))

/-- The random bytes do not give a token that was issued before. -/
def Turn.Fresh (t : Turn ι) (s : Site ι) : Prop :=
  ∀ bytes ∈ t.random.toOption, ¬ Issued s.log (hexEncode bytes)

instance (t : Turn ι) (s : Site ι) : Decidable (t.Fresh s) :=
  inferInstanceAs (Decidable (∀ bytes ∈ t.random.toOption, _))

def Turn.answer (login : Bytes) (t : Turn ι) (tokens : Tokens) : (c : Call) → c.Answer × Tokens
  | .take token action => takeToken login (fun _ => t.now) token action tokens
  | .issue action revision target =>
    issueTargetToken login (fun _ => t.now) t.random t.now action revision target tokens
  | .attach token change => ((), attachChange token change tokens)
  | c => (t.answers c, tokens)

def Site.tick (login : Bytes) (t : Turn ι) (s : Site ι) : Option (Site ι) :=
  match s.left t.who with
  | .ret _ => none
  | .call c k =>
    let x := t.answer login s.tokens c
    if s.clock ≤ t.now ∧ t.Fresh s then
      some ⟨x.2, t.now, ⟨t.who, t.now, ⟨c, x.1⟩⟩ :: s.log, Function.update s.left t.who (k x.1)⟩
    else none

theorem Site.step_of_tick {t : Turn ι} {s s' : Site ι} (h : s.tick login t = some s') :
    s.Step login s' := by
  unfold Site.tick at h
  split at h
  · simp at h
  · next c k hp =>
    dsimp only at h
    split_ifs at h with hok
    obtain ⟨hclock, hfresh⟩ := hok
    obtain rfl := Option.some.inj h
    refine .call hp ?_
    have hnow : ∀ key : Bytes, s.clock ≤ t.now ∧ t.now ≤ t.now := fun _ => ⟨hclock, le_refl _⟩
    cases c with
    | take token action => exact .take token action (fun _ => t.now) hnow
    | issue action revision target =>
      refine .issue action revision target (fun _ => t.now) t.random hnow (le_refl _) ?_
      intro bytes hb
      exact hfresh bytes (by rw [hb]; rfl)
    | attach token change => exact .attach token change hclock
    | _ => exact .other (by simp [OnTokens]) _ hclock

def Site.run (login : Bytes) : List (Turn ι) → Site ι → Option (Site ι)
  | [], s => some s
  | t :: turns, s => (s.tick login t).bind (Site.run login turns)

theorem Site.reaches_of_run {turns : List (Turn ι)} {s s' : Site ι}
    (h : s.run login turns = some s') : s.Reaches login s' := by
  induction turns generalizing s with
  | nil =>
    obtain rfl := Option.some.inj h
    exact .refl
  | cons t turns ih =>
    obtain ⟨s₁, ht, hrest⟩ := Option.bind_eq_some_iff.1 h
    exact .head (Site.step_of_tick ht) (ih hrest)

end Run

/-- The requests of a page, of a form on it, and of the commit of the reviewed form. -/
def demoForm (token : UInt8) (field value : String)
    (hne : [fieldCSRF, fieldAlias, str field].Nodup) : Form where
  fields := [(fieldCSRF, [hexEncode [token]]), (fieldAlias, [str "app"]), (str field, [str value])]
  nodup := hne

def demoPost (form : Form) : Post :=
  ⟨str "POST", [str "https://host"], some (str "application/x-www-form-urlencoded"), some form, [],
    projectForms, List.Perm.refl _⟩

def demoRequests : Fin 3 → Request
  | 0 => .projectPage (str "0") projectForms (List.Perm.refl _)
  | 1 => .post (.review .mode) (demoPost (demoForm 7 "mode" "confirm" (by decide +kernel)))
  | 2 => .post .commit (demoPost (demoForm 15 "confirm" "no" (by decide +kernel)))

def demoAnswers : (c : Call) → c.Answer
  | .policy .revision => .ok (str "revision")
  | .policy .listProjects => .ok [⟨str "app", ModeAutomatic, []⟩]
  | .policy (.getProject _) =>
    .ok { ProjectDetail.zero with projectAlias := str "app", mode := ModeAutomatic }
  | .policy (.mutate _ _) => (true, none)
  | .take _ _ => none
  | .issue _ _ _ => .error []
  | .attach _ _ | .next _ _ _ => ()
  | .availableName _ => []
  | .hasAvailable | .listAvailable | .check _ _ => false

/-- Ten calls of the page, seven of the review and four of the commit. -/
def demoTurns : List (Turn (Fin 3)) :=
  (List.range 21).map fun n =>
    ⟨if n < 10 then 0 else if n < 17 then 1 else 2, Int.ofNat n, .ok [UInt8.ofNat n], demoAnswers⟩

def isMutation : Event Call.Answer → Bool
  | ⟨.policy (.mutate _ _), _⟩ => true
  | _ => false

/-- The reviewed change of a form on a page is committed. -/
theorem single_use_of_commit : letI := demoPlatform
    ∃ s : Site (Fin 3), (Site.start (str "host") demoRequests 0).Reaches (str "admin") s ∧
      (s.log.any fun h => isMutation h.event) = true ∧
      s.SingleUse (str "admin") (str "host") demoRequests := by
  let := demoPlatform
  have hrun : ((Site.start (str "host") demoRequests 0).run (str "admin") demoTurns).any
      (fun s => s.log.any fun h => isMutation h.event) = true := by decide +kernel
  obtain ⟨s, hs, hm⟩ := (Option.any_eq_true _ _).1 hrun
  exact ⟨_, Site.reaches_of_run hs, hm, Site.single_use (Site.reaches_of_run hs)⟩

end SecretsBroker.AdminWeb
