import Mathlib.Logic.Relation
import SecretsBroker.Admin.Disk
import SecretsBroker.Foundations.Drafts

/-!
# Programs that share the policy directory

Any programs of the administrator's side, with their calls interleaved in any order: a call on the
policy directory acts on the shared volume, every other call is answered in any way. In contrast to
`World` a program may read and replace the policy any number of times, and nothing is assumed of the
stamps of its versions. `Shared.explained` gives each program the phase of the protocol it stands
in, together with what all of them own.
-/

namespace SecretsBroker.Admin

open Files Interaction Replacement

/-- The replacement protocol for the calls on the policy directory, begun anew at any time and with
anything as the replacement. -/
def PolicyAgain (target : Bytes) (q : Phase) (c : Call) (r : c.Answer) (q' : Phase) : Prop :=
  PolicyNext target (fun _ _ => True) q c r q' ∨ PolicyNext target (fun _ _ => True) .idle c r q'

theorem PolicyNext.mono {target : Bytes} {Permits Permits' : Bytes → Bytes → Prop} {q q' : Phase}
    {c : Call} {r : c.Answer} (hp : ∀ b c, Permits b c → Permits' b c)
    (h : PolicyNext target Permits q c r q') : PolicyNext target Permits' q c r q' := by
  cases c with
  | file d op =>
    cases d with
    | policy => exact Next.mono hp h
    | recovery => exact h
  | _ => exact h

/-- A program that follows the protocol from its start may begin in any phase. -/
theorem conforms_again {α : Type} {target : Bytes} {Permits : Bytes → Bytes → Prop} {p : Program α}
    {q : Phase} {Post : α → Phase → Prop} (hp : Conforms (PolicyNext target Permits) p .idle Post)
    (hq : ∀ a, p ≠ .ret a) : Conforms (PolicyAgain target) p q Post := by
  have weak : ∀ {q c r q'}, PolicyNext target Permits q c r q' →
      PolicyNext target (fun _ _ => True) q c r q' := fun h => h.mono fun _ _ _ => trivial
  cases p with
  | ret a => exact absurd rfl (hq a)
  | call c k =>
    intro r
    obtain ⟨q', hn, hk⟩ := hp r
    exact ⟨q', .inr (weak hn), conforms_weaken hk fun _ _ _ _ h => .inl (weak h)⟩

/-- An update between its audit records. -/
theorem audited_conforms {β : Type} {zero : β} {changedOf : β → Bool} {start : MutationStart}
    {update : Program (β × Option Bytes)} {target : Bytes} {Permits : Bytes → Bytes → Prop}
    {q : Phase} {Post : β × Option Bytes → Phase → Prop}
    (h : Conforms (PolicyNext target Permits) update .idle Post) :
    Conforms (PolicyAgain target) (audited zero changedOf start update) q fun x q =>
      x.2 = none → Post x q := by
  refine @conforms_again _ target Permits _ q _ (conforms_ask_bind fun r => ⟨.idle, rfl, ?_⟩)
    fun a h => by cases h
  cases r with
  | error err => exact conforms_pure fun h => by simp at h
  | ok mutationID =>
    refine conforms_bind h fun x q hx => conforms_ask_bind fun r => ⟨q, rfl, ?_⟩
    cases r with
    | none => exact conforms_pure fun _ => hx
    | some err => exact conforms_pure fun h => by simp at h

variable [Platform] [Codec] in
/-- An audited mutation follows the protocol. -/
theorem AuditedEditor.conforms (e : AuditedEditor) (req : Request) {q : Phase} :
    Conforms (PolicyAgain e.editor.name) (e.program req) q fun _ _ => True := by
  cases req with
  | mutate m =>
    exact conforms_mono (audited_conforms (mutate_conforms e.editor m)) fun _ _ _ => trivial
  | remove name confirmation =>
    refine conforms_ask_bind fun r => ⟨q, .inl rfl, ?_⟩
    cases r with
    | error err => exact conforms_pure trivial
    | ok recoveryID =>
      exact conforms_bind (audited_conforms (remove_conforms e.editor name confirmation recoveryID))
        fun _ _ _ => conforms_pure trivial
  | restore recoveryID confirmation =>
    exact conforms_bind (audited_conforms (restore_conforms e.editor recoveryID confirmation))
      fun _ _ _ => conforms_pure trivial

/-- The policy directory, what has happened in it, and what is left of each program. -/
structure Shared (ι β : Type) where
  volume : Volume
  history : History ι
  left : ι → Program β

section Interleaving

variable {ι β : Type} [DecidableEq ι] {target : Bytes}

/-- One call of one program. -/
inductive Shared.Step (target : Bytes) (w : Shared ι β) : Shared ι β → Prop
  | policy {i : ι} {ch : Choice} {op : FileOp} {r : op.Answer} {v' : Volume}
    {k : op.Answer → Program β} (hp : w.left i = .call (.file .policy op) k)
    (hs : w.volume.step ch op = some (r, v')) :
    Shared.Step target w
      ⟨v', w.history.after target v' i op r, Function.update w.left i (k r)⟩
  | other {i : ι} {c : Call} {k : c.Answer → Program β} (r : c.Answer)
    (hp : w.left i = .call c k) (hc : ∀ op, c ≠ .file .policy op) :
    Shared.Step target w { w with left := Function.update w.left i (k r) }

/-- The states that some interleaving reaches. -/
abbrev Shared.Reaches (target : Bytes) : Shared ι β → Shared ι β → Prop :=
  Relation.ReflTransGen (Shared.Step target)

/-- Each program stands in a phase that explains what is left of it. -/
def Shared.Explained (target : Bytes) (Post : ι → β → Phase → Prop) (w : Shared ι β) : Prop :=
  ∃ phase : ι → Phase, Owned target w.volume w.history phase ∧
    ∀ i, Conforms (PolicyAgain target) (w.left i) (phase i) (Post i)

variable {Post : ι → β → Phase → Prop}

theorem Shared.Step.explained {w w' : Shared ι β} (hs : Shared.Step target w w')
    (he : w.Explained target Post) : w'.Explained target Post := by
  obtain ⟨phase, ho, hc⟩ := he
  have move : ∀ {i : ι} {p : Program β} {q : Phase},
      Conforms (PolicyAgain target) p q (Post i) →
      ∀ j, Conforms (PolicyAgain target) (Function.update w.left i p j)
        (Function.update phase i q j) (Post j) := by
    intro i p q hq j
    by_cases hj : j = i
    · subst hj
      rwa [Function.update_self, Function.update_self]
    · rw [Function.update_of_ne hj, Function.update_of_ne hj]
      exact hc j
  cases hs with
  | @policy i ch op r v' k hp hstep =>
    have hci := hc i
    rw [hp] at hci
    obtain ⟨q', hn, hk⟩ := hci r
    exact ⟨Function.update phase i q', ho.step hstep hn, move hk⟩
  | @other i c k r hp hother =>
    have hci := hc i
    rw [hp] at hci
    obtain ⟨q', hn, hk⟩ := hci r
    have silent : ∀ q, PolicyNext target (fun _ _ => True) q c r q' → q' = q := by
      intro q hn
      cases c with
      | file d op =>
        cases d with
        | policy => exact absurd rfl (hother op)
        | recovery => exact hn
      | _ => exact hn
    refine ⟨Function.update phase i q', ?_, move hk⟩
    rcases hn with hn | hn
    · rw [silent _ hn, Function.update_eq_self]
      exact ho
    · rw [silent _ hn]
      exact ho.restart

/-- **In every reachable state each program stands in a phase of the protocol.** -/
theorem Shared.explained {w w' : Shared ι β} (h : Shared.Reaches target w w')
    (he : w.Explained target Post) : w'.Explained target Post := by
  induction h with
  | refl => exact he
  | tail _ hs ih => exact hs.explained ih

/-- The policy that a program has read last and the one it has installed, which is the same where it
has changed nothing. -/
def Shared.settled (w : Shared ι β) (i : ι) (changed : Bool) : Bytes × Bytes :=
  match changed, w.history.lastEntry i with
  | true, some entry => (entry.read, entry.written)
  | _, _ => ((w.history.read i).2, (w.history.read i).2)

/-- The next call of one program, if it can be answered by a choice. -/
def Shared.tick (target : Bytes) (w : Shared ι β) (i : ι) (ch : DiskChoice) : Option (Shared ι β) :=
  match w.left i with
  | .ret _ => none
  | .call (.file .policy op) k =>
    (w.volume.step ch.file op).map fun x =>
      ⟨x.2, w.history.after target x.2 i op x.1, Function.update w.left i (k x.1)⟩
  | .call (.file .recovery _) _ => none
  | .call .now k => some { w with left := Function.update w.left i (k ch.now) }
  | .call .newRecoveryID k => some { w with left := Function.update w.left i (k ch.recoveryID) }
  | .call (.auditStart _) k => some { w with left := Function.update w.left i (k ch.start) }
  | .call (.auditFinish _ _) k => some { w with left := Function.update w.left i (k ch.finish) }

theorem Shared.step_of_tick {w w' : Shared ι β} {i : ι} {ch : DiskChoice}
    (h : w.tick target i ch = some w') : Shared.Step target w w' := by
  unfold Shared.tick at h
  split at h
  · simp at h
  · next op k hp =>
    obtain ⟨⟨r, v'⟩, hs, rfl⟩ := Option.map_eq_some_iff.1 h
    exact .policy hp hs
  · simp at h
  all_goals
    next hp =>
      obtain rfl := Option.some.inj h
      exact .other _ hp (by simp)

/-- The state after a schedule: which program makes the next call, and how it is answered. -/
def Shared.run (target : Bytes) : List (ι × DiskChoice) → Shared ι β → Option (Shared ι β)
  | [], w => some w
  | (i, ch) :: schedule, w => (w.tick target i ch).bind (Shared.run target schedule)

theorem Shared.reaches_of_run {schedule : List (ι × DiskChoice)} {w w' : Shared ι β}
    (h : Shared.run target schedule w = some w') : Shared.Reaches target w w' := by
  induction schedule generalizing w with
  | nil =>
    obtain rfl := Option.some.inj h
    exact .refl
  | cons x schedule ih =>
    obtain ⟨w₁, htick, hrest⟩ := Option.bind_eq_some_iff.1 h
    exact .head (Shared.step_of_tick htick) (ih hrest)

end Interleaving

end SecretsBroker.Admin
