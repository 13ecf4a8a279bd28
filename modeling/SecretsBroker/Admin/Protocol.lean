import SecretsBroker.Admin.Audit
import SecretsBroker.Foundations.Replacement

/-!
# The editor follows the replacement protocol

Whatever its calls are answered, the calls of an editor on the policy directory are the ones that
`Replacement.Next` allows: it reads the policy between two looks, locks, looks again and replaces.
`readPolicy` ends in the phase `observed` with the bytes it returns, and `writeAtomic` takes it from
there; the phase it ends in tells whether the policy was replaced, and whether a call on the
directory failed after that.
-/

namespace SecretsBroker.Admin

open Files Interaction Replacement

/-- The replacement protocol for the calls on the policy directory; the other calls do not count. -/
def PolicyNext (target : Bytes) (Permits : Bytes → Bytes → Prop) :
    Phase → (c : Call) → c.Answer → Phase → Prop
  | q, .file .policy op, r, q' => Next target Permits q op r q'
  | q, .file .recovery _, _, q' => q' = q
  | q, .now, _, q' | q, .newRecoveryID, _, q' | q, .auditStart _, _, q'
  | q, .auditFinish _ _, _, q' => q' = q

theorem sameFile_iff (a b : Stamp) : sameFile a b = true ↔ a = b := by
  cases a
  cases b
  simp only [sameFile, Bool.and_eq_true, beq_iff_eq, Stamp.mk.injEq]
  tauto

/-- What a process in a phase has done: the bytes it read and replaced, the bytes it installed, and
whether a call on the directory failed since. -/
def replaced : Phase → Option (Bytes × Bytes × Bool)
  | .renamed b c _ fault | .finished b c fault => some (b, c, fault)
  | _ => none

section Reading

variable {e : Editor} {Permits : Bytes → Bytes → Prop}

/-- A call that the protocol allows everywhere. -/
theorem conforms_inert {target : Bytes} {op : FileOp} {β : Type} {q : Phase}
    {f : op.Answer → Program β} {Post : β → Phase → Prop} (hr : ∀ r, Volume.Inert op r)
    (h : ∀ r, Conforms (PolicyNext target Permits) (f r) q Post) :
    Conforms (PolicyNext target Permits) (onFile .policy op >>= f) q Post :=
  fun r => ⟨q, .stay (hr r), h r⟩

theorem checkMetadata_ok {info : FileInfo} {m : Stamp} (h : e.checkMetadata info = .ok m) :
    m = info.stamp := by
  unfold Editor.checkMetadata at h
  split_ifs at h
  exact (Except.ok.inj h).symm

/-- `metadata` as the first look. -/
theorem metadata_look : Conforms (PolicyNext e.name Permits) e.metadata .idle fun res q =>
    (∀ m, res = .ok m → q = .looked m) ∧ replaced q = none := by
  refine conforms_ask_bind fun r => ?_
  cases r with
  | error err => exact ⟨.idle, .stay trivial, fun m h => by simp at h, rfl⟩
  | ok info =>
    refine ⟨.looked info.stamp, .look, fun m h => ?_, rfl⟩
    rw [checkMetadata_ok h]

/-- `metadata` as the second look, after the bytes were read. -/
theorem metadata_observe {m : Stamp} {b : Bytes} :
    Conforms (PolicyNext e.name Permits) e.metadata (.got m b) fun res q =>
      (res = .ok m → q = .observed m b) ∧ replaced q = none := by
  refine conforms_ask_bind fun r => ?_
  cases r with
  | error err => exact ⟨.got m b, .stay trivial, fun h => by simp at h, rfl⟩
  | ok info =>
    by_cases hm : info.stamp = m
    · exact ⟨.observed m b, .observe hm, fun _ => rfl, rfl⟩
    · refine ⟨.got m b, .stay trivial, fun h => absurd (checkMetadata_ok h).symm hm, rfl⟩

variable [Platform]

/-- Where the open file stands after it was read. -/
def readPhase (m : Stamp) (fd : ℕ) : Except Bytes Bytes → Phase
  | .ok b => .fetched m b fd
  | .error _ => .opened m fd

/-- Reading the open file and closing it. -/
theorem secureRead_conforms {m : Stamp} {path : Bytes} {maxBytes : ℕ} {forbidden euid : UInt32}
    {allowRoot : Bool} :
    Conforms (PolicyNext e.name Permits)
      (secureRead .policy path e.name maxBytes forbidden allowRoot euid) (.looked m) fun res q =>
        (∀ b, res = .ok b → q = .got m b) ∧ replaced q = none := by
  refine conforms_ask_bind fun r => ?_
  cases r with
  | error err => exact ⟨.looked m, .stay ⟨err, rfl⟩, fun b h => by simp at h, rfl⟩
  | ok fd =>
    refine ⟨.opened m fd, .openRead, ?_⟩
    have hread : Conforms (PolicyNext e.name Permits)
        (readOpen .policy path fd maxBytes forbidden allowRoot euid) (.opened m fd) fun res q =>
          q = readPhase m fd res := by
      refine conforms_inert (fun _ => trivial) fun r => ?_
      cases r with
      | error err => exact conforms_pure rfl
      | ok info =>
        dsimp only
        split
        · exact conforms_pure rfl
        · refine conforms_ask_bind fun r => ?_
          cases r with
          | error err => exact ⟨.opened m fd, .stay ⟨err, rfl⟩, rfl⟩
          | ok b =>
            by_cases hlen : b.length > maxBytes
            · refine ⟨.opened m fd, .overlong, ?_⟩
              simp only [hlen, if_true]
              exact conforms_pure rfl
            · refine ⟨.fetched m b fd, .fetch (by omega), ?_⟩
              simp only [hlen, if_false]
              exact conforms_pure rfl
    refine conforms_bind hread fun res q hq => ?_
    cases res with
    | error err =>
      obtain rfl := hq
      exact conforms_ask_bind fun r => ⟨.idle, .abandon, fun b h => by simp at h, rfl⟩
    | ok b =>
      obtain rfl := hq
      refine conforms_ask_bind fun r => ⟨.got m b, .closeRead, fun b' h => ?_, rfl⟩
      rw [Except.ok.inj h]

/-- **`readPolicy` returns bytes it has observed between two looks**, and what they mean. -/
theorem readPolicy_conforms :
    Conforms (PolicyNext e.name Permits) e.readPolicy .idle fun res q =>
      (∀ data cfg m, res = .ok (data, cfg, m) → q = .observed m data ∧
        e.interpret data = .ok cfg) ∧ replaced q = none := by
  have hfail : ∀ (err : Bytes) (q : Phase), replaced q = none →
      Conforms (PolicyNext e.name Permits)
        (pure (.error err) : Program (Except Bytes (Bytes × Config × Stamp))) q fun res q =>
          (∀ data cfg m, res = .ok (data, cfg, m) → q = .observed m data ∧
            e.interpret data = .ok cfg) ∧ replaced q = none :=
    fun err q hq => conforms_pure ⟨fun _ _ _ h => by simp at h, hq⟩
  have hdir : Conforms (PolicyNext e.name Permits) (validateTrustedDir .policy e.dir e.euid) .idle
      fun _ q => q = .idle := by
    refine conforms_inert (fun _ => trivial) fun r => ?_
    cases r <;> exact conforms_pure rfl
  refine conforms_bind hdir fun res q hq => ?_
  subst hq
  cases res with
  | error err => exact hfail _ _ rfl
  | ok u =>
    refine conforms_bind metadata_look fun res q hpost => ?_
    obtain ⟨hq, hr⟩ := hpost
    cases res with
    | error err => exact hfail _ _ hr
    | ok before =>
      obtain rfl := hq before rfl
      refine conforms_bind secureRead_conforms fun res q hpost => ?_
      obtain ⟨hq, hr⟩ := hpost
      cases res with
      | error err => exact hfail _ _ hr
      | ok data =>
        obtain rfl := hq data rfl
        refine conforms_bind metadata_observe fun res q hpost => ?_
        obtain ⟨hq, hr⟩ := hpost
        cases res with
        | error err => exact hfail _ _ hr
        | ok after =>
          cases hsame : sameFile before after with
          | false =>
            simp only [hsame, Bool.not_false, if_true]
            exact hfail _ _ hr
          | true =>
            obtain rfl := (sameFile_iff before after).1 hsame
            simp only [hsame, Bool.not_true, Bool.false_eq_true, if_false]
            cases hi : e.interpret data with
            | error err => exact hfail _ _ hr
            | ok cfg =>
              refine conforms_pure ⟨fun d c m h => ?_, hr⟩
              simp only [Except.ok.injEq, Prod.mk.injEq] at h
              obtain ⟨rfl, rfl, rfl⟩ := h
              exact ⟨hq rfl, hi⟩

end Reading

section Writing

variable {e : Editor} {Permits : Bytes → Bytes → Prop} {m : Stamp} {b c : Bytes} {fd : ℕ}

/-- The phases in which an editor that holds the lock gives up. -/
def GivesUp (m : Stamp) (b : Bytes) (fd : ℕ) (q : Phase) : Prop :=
  q = .locked m b fd ∨ q = .confirmed m b fd ∨ ∃ name c, q = .drafted m b fd name c

/-- A look that the protocol ignores. -/
theorem metadata_ignored {q : Phase} :
    Conforms (PolicyNext e.name Permits) e.metadata q fun _ q' => q' = q := by
  refine conforms_inert (fun _ => trivial) fun r => ?_
  cases r <;> exact conforms_pure rfl

/-- `metadata` as the look under the lock. -/
theorem metadata_confirm : Conforms (PolicyNext e.name Permits) e.metadata (.locked m b fd)
    fun res q => (res = .ok m → q = .confirmed m b fd) ∧
      (q = .locked m b fd ∨ q = .confirmed m b fd) := by
  refine conforms_ask_bind fun r => ?_
  cases r with
  | error err => exact ⟨.locked m b fd, .stay trivial, fun h => by simp at h, .inl rfl⟩
  | ok info =>
    by_cases hm : info.stamp = m
    · exact ⟨.confirmed m b fd, .confirm hm, fun _ => rfl, .inr rfl⟩
    · exact ⟨.locked m b fd, .stay trivial, fun h => absurd (checkMetadata_ok h).symm hm, .inl rfl⟩

theorem requireSame_confirm {message : Bytes} :
    Conforms (PolicyNext e.name Permits) (e.requireSame m message) (.locked m b fd) fun res q =>
      (res = none → q = .confirmed m b fd) ∧ (q = .locked m b fd ∨ q = .confirmed m b fd) := by
  refine conforms_bind metadata_confirm fun res q hpost => ?_
  obtain ⟨hq, hr⟩ := hpost
  cases res with
  | error err => exact conforms_pure ⟨fun h => by simp at h, hr⟩
  | ok current =>
    refine conforms_pure ⟨fun h => hq ?_, hr⟩
    split_ifs at h with hs
    rw [(sameFile_iff _ _).1 hs]

theorem lockPolicy_conforms :
    Conforms (PolicyNext e.name Permits) e.lockPolicy (.observed m b) fun res q =>
      (∀ fd, res = .ok fd → q = .locked m b fd) ∧ replaced q = none := by
  refine conforms_ask_bind fun r => ?_
  cases r with
  | error err => exact ⟨.observed m b, .stay ⟨err, rfl⟩, fun fd h => by simp at h, rfl⟩
  | ok fd =>
    refine ⟨.contending m b fd, .openLock, conforms_ask_bind fun r => ?_⟩
    cases r with
    | none => exact ⟨.locked m b fd, .lock, fun fd' h => by rw [Except.ok.inj h], rfl⟩
    | some err =>
      refine ⟨.contending m b fd, .stay (by simp [Volume.Inert]), conforms_ask_bind fun r => ?_⟩
      refine ⟨.idle, .unlock (.inl rfl), ?_⟩
      cases err with
      | wouldBlock =>
        change Conforms _ (if _ then _ else _) _ _
        split <;> exact conforms_pure ⟨fun fd h => by simp at h, rfl⟩
      | other text => exact conforms_pure ⟨fun fd h => by simp at h, rfl⟩

theorem fillTemp_conforms {tmp : ℕ} {name : Bytes} {original : Stamp} :
    Conforms (PolicyNext e.name Permits) (Editor.fillTemp tmp c original)
      (.drafting m b fd tmp name (some [])) fun res q =>
        (res = none → q = .drafting m b fd tmp name (some c)) ∧
          ∃ c', q = .drafting m b fd tmp name c' := by
  have hfail : ∀ (err : Bytes) (c' : Option Bytes),
      Conforms (PolicyNext e.name Permits) (pure (some err) : Program (Option Bytes))
        (.drafting m b fd tmp name c') fun res q =>
          (res = none → q = .drafting m b fd tmp name (some c)) ∧
            ∃ c', q = .drafting m b fd tmp name c' :=
    fun err c' => conforms_pure ⟨fun h => by simp at h, c', rfl⟩
  refine conforms_inert (fun _ => trivial) fun r => ?_
  cases r with
  | error err => exact hfail _ _
  | ok info =>
    have howned : Conforms (PolicyNext e.name Permits)
        (Editor.preserveOwner tmp info original) (.drafting m b fd tmp name (some [])) fun _ q =>
          q = .drafting m b fd tmp name (some []) := by
      unfold Editor.preserveOwner
      split
      · intro r
        cases r with
        | none => exact ⟨_, .chown, rfl⟩
        | some err => exact ⟨_, .stay (by simp [Volume.Inert]), rfl⟩
      · exact conforms_pure rfl
    refine conforms_bind howned fun owned q hq => ?_
    subst hq
    cases owned with
    | some err => exact hfail _ _
    | none =>
      refine conforms_ask_bind fun r => ?_
      cases r with
      | some err => exact ⟨_, .stay (by simp [Volume.Inert]), hfail _ _⟩
      | none =>
        refine ⟨_, .chmod, conforms_ask_bind fun r => ?_⟩
        obtain ⟨n, err⟩ := r
        cases err with
        | some err => exact ⟨_, .spoil, hfail _ _⟩
        | none =>
          refine ⟨_, .write, conforms_inert (fun _ => trivial) fun r => ?_⟩
          cases r with
          | some err => exact hfail _ _
          | none => exact conforms_pure ⟨fun _ => rfl, _, rfl⟩

theorem discardTemp_conforms {name err : Bytes} {c' : Option Bytes} :
    Conforms (PolicyNext e.name Permits) (Editor.discardTemp name err) (.drafted m b fd name c')
      fun res q => res = some err ∧ GivesUp m b fd q := by
  refine conforms_ask_bind fun r => ?_
  cases r with
  | none => exact ⟨.confirmed m b fd, .discard, rfl, .inr (.inl rfl)⟩
  | some text =>
    exact ⟨.drafted m b fd name c', .stay (by simp [Volume.Inert]), rfl, .inr (.inr ⟨_, _, rfl⟩)⟩

/-- After the rename: an error means that a call on the directory has failed. -/
theorem syncParent_conforms :
    Conforms (PolicyNext e.name Permits) Editor.syncParent (.renamed b c fd false) fun res q =>
      q = .renamed b c fd res.isSome := by
  refine conforms_ask_bind fun r => ?_
  cases r with
  | some err => exact ⟨.renamed b c fd true, .openDirFailed, rfl⟩
  | none =>
    refine ⟨.renamed b c fd false, .stay rfl, conforms_ask_bind fun r => ?_⟩
    cases r with
    | some err =>
      refine ⟨.renamed b c fd true, .syncDirFailed, conforms_inert (fun _ => trivial) fun _ => ?_⟩
      exact conforms_pure rfl
    | none =>
      refine ⟨.renamed b c fd false, .stay rfl, conforms_inert (fun _ => trivial) fun _ => ?_⟩
      exact conforms_pure rfl

/-- How `writeAtomic` leaves an editor that holds the lock: it has given up with an error, or the
policy is replaced, and the result is an error if a call on the directory failed after that. -/
def Settles (m : Stamp) (b c : Bytes) (fd : ℕ) (res : Option Bytes) (q : Phase) : Prop :=
  (res.isSome ∧ GivesUp m b fd q) ∨ q = .renamed b c fd res.isSome

theorem discardTemp_settles {name err : Bytes} {c' : Option Bytes} :
    Conforms (PolicyNext e.name Permits) (Editor.discardTemp name err) (.drafted m b fd name c')
      (Settles m b c fd) := by
  refine conforms_mono discardTemp_conforms fun res q hpost => ?_
  obtain ⟨hres, hq⟩ := hpost
  exact .inl ⟨by simp [hres], hq⟩

theorem install_conforms (hp : Permits b c) {name : Bytes} {original : Stamp} :
    Conforms (PolicyNext e.name Permits) (e.install name original)
      (.drafted m b fd name (some c)) (Settles m b c fd) := by
  have hsame : Conforms (PolicyNext e.name Permits)
      (e.requireSame original (str "policy changed before atomic replacement"))
      (.drafted m b fd name (some c)) fun _ q => q = .drafted m b fd name (some c) := by
    refine conforms_bind metadata_ignored fun res q hq => ?_
    subst hq
    cases res <;> exact conforms_pure rfl
  refine conforms_bind hsame fun res q hq => ?_
  subst hq
  cases res with
  | some err => exact discardTemp_settles
  | none =>
    refine conforms_ask_bind fun r => ?_
    cases r with
    | some err => exact ⟨_, .stay (by simp [Volume.Inert]), discardTemp_settles⟩
    | none =>
      refine ⟨.renamed b c fd false, .replace hp, ?_⟩
      exact conforms_mono syncParent_conforms fun res q hq => .inr hq

theorem replaceLocked_conforms (hp : Permits b c) :
    Conforms (PolicyNext e.name Permits) (e.replaceLocked c m) (.locked m b fd)
      (Settles m b c fd) := by
  refine conforms_bind requireSame_confirm fun res q hpost => ?_
  obtain ⟨hq, hr⟩ := hpost
  cases res with
  | some err => exact conforms_pure (.inl ⟨rfl, hr.imp_right .inl⟩)
  | none =>
    obtain rfl := hq rfl
    refine conforms_ask_bind fun r => ?_
    cases r with
    | error err =>
      exact ⟨.confirmed m b fd, .stay ⟨err, rfl⟩, .inl ⟨rfl, .inr (.inl rfl)⟩⟩
    | ok r =>
      obtain ⟨tmp, name⟩ := r
      refine ⟨.drafting m b fd tmp name (some []), .create, ?_⟩
      refine conforms_bind fillTemp_conforms fun res q hpost => ?_
      obtain ⟨hq, hr⟩ := hpost
      cases res with
      | some err =>
        obtain ⟨c', rfl⟩ := hr
        exact conforms_ask_bind fun r => ⟨.drafted m b fd name c', .closeDraft, discardTemp_settles⟩
      | none =>
        obtain rfl := hq rfl
        refine conforms_ask_bind fun r => ⟨.drafted m b fd name (some c), .closeDraft, ?_⟩
        cases r with
        | some err => exact discardTemp_settles
        | none => exact install_conforms hp

/-- **How `writeAtomic` ends**: with an error and the policy not replaced, or with the policy
replaced, and then with an error exactly if a call on the directory failed. -/
theorem writeAtomic_conforms (hp : c.length ≤ maxPolicyBytes → Permits b c) :
    Conforms (PolicyNext e.name Permits) (e.writeAtomic c m) (.observed m b) fun res q =>
      (res.isSome ∧ replaced q = none) ∨
        (q = .finished b c res.isSome ∧ c.length ≤ maxPolicyBytes) := by
  unfold Editor.writeAtomic
  split
  · exact conforms_pure (.inl ⟨rfl, rfl⟩)
  · next hsize =>
    have hle := Nat.not_lt.1 hsize
    refine conforms_bind lockPolicy_conforms fun res q hpost => ?_
    obtain ⟨hq, hr⟩ := hpost
    cases res with
    | error err => exact conforms_pure (.inl ⟨rfl, hr⟩)
    | ok fd =>
      obtain rfl := hq fd rfl
      refine conforms_bind (replaceLocked_conforms (hp hle)) fun res q hq => ?_
      rcases hq with ⟨hres, hq⟩ | rfl
      · rw [GivesUp] at hq
        exact conforms_ask_bind fun r => ⟨.idle, .unlock (.inr hq), .inl ⟨hres, rfl⟩⟩
      · exact conforms_ask_bind fun r => ⟨.finished b c res.isSome, .finish, .inr ⟨rfl, hle⟩⟩

end Writing

/-! ## The mutators -/

/-- The program makes no call on the policy directory. -/
def Avoids {β : Type} : Program β → Prop
  | .ret _ => True
  | .call c k => (∀ op, c ≠ .file .policy op) ∧ ∀ r, Avoids (k r)

section Avoids

variable {β γ : Type}

theorem avoids_ask_bind {c : Call} {f : c.Answer → Program γ} (hc : ∀ op, c ≠ .file .policy op)
    (h : ∀ r, Avoids (f r)) : Avoids (Prog.ask c >>= f) := ⟨hc, h⟩

theorem avoids_onFile_bind {op : FileOp} {f : op.Answer → Program γ} (h : ∀ r, Avoids (f r)) :
    Avoids (onFile .recovery op >>= f) := avoids_ask_bind (by simp) h

theorem avoids_bind {p : Program β} {f : β → Program γ} (hp : Avoids p) (hf : ∀ a, Avoids (f a)) :
    Avoids (p >>= f) := by
  induction p with
  | ret a => exact hf a
  | call c k ih => exact ⟨hp.1, fun r => ih r (hp.2 r)⟩

theorem Avoids.conforms {target : Bytes} {Permits : Bytes → Bytes → Prop} {p : Program β}
    (hp : Avoids p) {q : Phase} :
    Conforms (PolicyNext target Permits) p q fun _ q' => q' = q := by
  induction p with
  | ret a => rfl
  | call c k ih =>
    intro r
    refine ⟨q, ?_, ih r (hp.2 r)⟩
    cases c with
    | file d op =>
      cases d with
      | policy => exact absurd rfl (hp.1 op)
      | recovery => rfl
    | _ => rfl

end Avoids

namespace RecoveryStore

variable (s : RecoveryStore)

theorem avoids_validateRecoveryDir : Avoids s.validateRecoveryDir :=
  avoids_onFile_bind fun r => by cases r <;> trivial

theorem avoids_validateRecoveryFile (name : Bytes) : Avoids (s.validateRecoveryFile name) :=
  avoids_onFile_bind fun r => by cases r <;> trivial

theorem avoids_syncDirectory : Avoids syncDirectory := by
  refine avoids_onFile_bind fun r => ?_
  cases r with
  | some err => trivial
  | none => exact avoids_onFile_bind fun _ => avoids_onFile_bind fun _ => trivial

theorem avoids_failRemoving (err : Bytes) (names : List Bytes) :
    Avoids (failRemoving err names) := by
  induction names with
  | nil => trivial
  | cons name names ih => exact avoids_onFile_bind fun _ => ih

theorem avoids_fillArtifact (temp : ℕ) (tempName encoded : Bytes) :
    Avoids (s.fillArtifact temp tempName encoded) := by
  refine avoids_onFile_bind fun r => ?_
  cases r with
  | some err => trivial
  | none =>
    refine avoids_bind (s.avoids_validateRecoveryFile tempName) fun r => ?_
    cases r with
    | error err => trivial
    | ok u =>
      have hwrite : Avoids (writeAll temp encoded) := by
        refine avoids_onFile_bind fun r => ?_
        obtain ⟨n, err⟩ := r
        cases err <;> trivial
      refine avoids_bind hwrite fun r => ?_
      cases r with
      | some err => trivial
      | none => exact avoids_onFile_bind fun r => by cases r <;> trivial

variable [Platform]

theorem avoids_linkArtifact (tempName recoveryID : Bytes) :
    Avoids (linkArtifact tempName recoveryID) := by
  refine avoids_onFile_bind fun r => ?_
  cases r with
  | some err => cases err <;> exact avoids_failRemoving _ _
  | none =>
    refine avoids_onFile_bind fun r => ?_
    cases r with
    | some err => exact avoids_failRemoving _ _
    | none =>
      refine avoids_bind avoids_syncDirectory fun r => ?_
      cases r with
      | none => trivial
      | some err =>
        exact avoids_onFile_bind fun _ => avoids_bind avoids_syncDirectory fun _ =>
          avoids_failRemoving _ _

theorem avoids_publishEncoded (recoveryID encoded : Bytes) :
    Avoids (s.publishEncoded recoveryID encoded) := by
  unfold publishEncoded
  split
  · trivial
  · refine avoids_onFile_bind fun r => ?_
    cases r with
    | error err => trivial
    | ok r =>
      refine avoids_bind (s.avoids_fillArtifact r.1 r.2 encoded) fun filled => ?_
      cases filled with
      | some err => exact avoids_onFile_bind fun _ => avoids_failRemoving _ _
      | none =>
        refine avoids_onFile_bind fun closed => ?_
        cases closed with
        | some err => exact avoids_failRemoving _ _
        | none => exact avoids_linkArtifact _ _

variable [Codec]

theorem avoids_publish (input : RecoveryArtifactInput) : Avoids (s.publish input) := by
  unfold publish
  split
  · trivial
  · split
    · trivial
    · refine avoids_bind s.avoids_validateRecoveryDir fun r => ?_
      cases r with
      | error err => trivial
      | ok u =>
        refine avoids_ask_bind (by simp) fun now => ?_
        split
        · trivial
        · exact s.avoids_publishEncoded _ _

theorem avoids_readArtifact (recoveryID : Bytes) : Avoids (s.readArtifact recoveryID) := by
  unfold readArtifact
  split
  · trivial
  · refine avoids_bind s.avoids_validateRecoveryDir fun r => ?_
    cases r with
    | error err => trivial
    | ok u =>
      refine avoids_bind (s.avoids_validateRecoveryFile recoveryID) fun r => ?_
      cases r with
      | error err => trivial
      | ok u =>
        refine avoids_bind ?_ fun r => by cases r <;> trivial
        refine avoids_onFile_bind fun r => ?_
        cases r with
        | error err => trivial
        | ok fd =>
          refine avoids_bind ?_ fun _ => avoids_onFile_bind fun _ => trivial
          refine avoids_onFile_bind fun r => ?_
          cases r with
          | error err => trivial
          | ok info =>
            dsimp only
            split
            · trivial
            · refine avoids_onFile_bind fun r => ?_
              cases r with
              | error err => trivial
              | ok data =>
                change Avoids (if _ then _ else _)
                split <;> trivial

end RecoveryStore

/-- A mutation of the policy by an editor. -/
inductive Action
  | mutate (m : Mutation)
  | remove (name confirmation recoveryID : Bytes)
  | restore (recoveryID confirmation : Bytes)

variable [Platform]

/-- `c` is what the action makes of the policy `b`, which the editor accepts. -/
def Action.Permits (e : Editor) : Action → Bytes → Bytes → Prop
  | .mutate m, b, c => ∃ cfg, e.interpret b = .ok cfg ∧ m.edit b cfg = .ok (some c)
  | .remove name _ _, b, c => ∃ cfg, e.interpret b = .ok cfg ∧ removeProject name b cfg = .ok c
  | .restore _ confirmation, b, c => ∃ cfg artifact, e.interpret b = .ok cfg ∧
      artifact.project = confirmation ∧ restoreProject artifact b cfg = .ok c

/-- How a mutation ends: the flag, the error and the phase. -/
def Ends (Permits : Bytes → Bytes → Prop) (changed : Bool) (err : Option Bytes) (q : Phase) :
    Prop :=
  (changed = false ∧ replaced q = none) ∨
    ∃ b c, Permits b c ∧ q = .finished b c err.isSome ∧ changed = err.isNone

omit [Platform] in
/-- The end that all mutators share: `writeAtomic`, then the flag and the error. -/
theorem writeAtomic_ends {e : Editor} {Permits : Bytes → Bytes → Prop} {m : Stamp} {b c : Bytes}
    (hp : c.length ≤ maxPolicyBytes → Permits b c) {β : Type} (changedOf : β → Bool)
    (errOf : β → Option Bytes)
    {f : Option Bytes → Program β}
    (hf : ∀ res, ∃ x, f res = pure x ∧ changedOf x = res.isNone ∧ errOf x = res) :
    Conforms (PolicyNext e.name Permits) (e.writeAtomic c m >>= f) (.observed m b) fun x q =>
      Ends Permits (changedOf x) (errOf x) q := by
  refine conforms_bind (writeAtomic_conforms hp) fun res q hq => ?_
  obtain ⟨x, hx, hc, he⟩ := hf res
  rw [hx]
  refine conforms_pure ?_
  rw [hc, he]
  rcases hq with ⟨hres, hq⟩ | ⟨rfl, hle⟩
  · refine .inl ⟨?_, hq⟩
    cases res with
    | none => simp at hres
    | some err => rfl
  · exact .inr ⟨b, c, hp hle, rfl, rfl⟩

/-- **How a mutator ends**, for whatever is true of the results of its edit that are not too large.
If it reports no change and no error, the last it did to the policy was to read a text that the edit
leaves as it is. -/
theorem mutate_finishes (e : Editor) (m : Mutation) {Permits : Bytes → Bytes → Prop}
    (hp : ∀ b c cfg, e.interpret b = .ok cfg → m.edit b cfg = .ok (some c) →
      c.length ≤ maxPolicyBytes → Permits b c) :
    Conforms (PolicyNext e.name Permits) (e.mutate m) .idle fun x q => Ends Permits x.1 x.2 q ∧
      (x = (false, none) → ∃ stamp b cfg, q = .observed stamp b ∧ e.interpret b = .ok cfg ∧
        m.edit b cfg = .ok none) := by
  have hfail : ∀ (err : Bytes) (q : Phase), replaced q = none →
      Conforms (PolicyNext e.name Permits) (pure (false, some err) : Program (Bool × Option Bytes))
        q fun x q => Ends Permits x.1 x.2 q ∧ (x = (false, none) → ∃ stamp b cfg,
          q = .observed stamp b ∧ e.interpret b = .ok cfg ∧ m.edit b cfg = .ok none) :=
    fun err q hq => conforms_pure ⟨.inl ⟨rfl, hq⟩, fun h => by simp at h⟩
  unfold Editor.mutate
  split
  · exact hfail _ _ rfl
  · refine conforms_bind readPolicy_conforms fun res q hpost => ?_
    obtain ⟨hq, hr⟩ := hpost
    cases res with
    | error err => exact hfail _ _ hr
    | ok r =>
      obtain ⟨data, cfg, stamp⟩ := r
      obtain ⟨rfl, hcfg⟩ := hq data cfg stamp rfl
      dsimp only
      split
      · exact hfail _ _ rfl
      · next hedit =>
        exact conforms_pure ⟨.inl ⟨rfl, rfl⟩, fun _ => ⟨stamp, data, cfg, rfl, hcfg, hedit⟩⟩
      · next updated hedit =>
        have hwrite := writeAtomic_conforms (e := e) (m := stamp) (hp _ _ _ hcfg hedit)
        refine conforms_bind hwrite fun res q hq => ?_
        cases res with
        | some err =>
          rcases hq with ⟨-, hq⟩ | ⟨rfl, hle⟩
          · exact hfail _ _ hq
          · exact conforms_pure ⟨.inr ⟨data, updated, hp _ _ _ hcfg hedit hle, rfl, rfl⟩,
              fun h => by simp at h⟩
        | none =>
          rcases hq with ⟨hres, -⟩ | ⟨rfl, hle⟩
          · simp at hres
          · exact conforms_pure ⟨.inr ⟨data, updated, hp _ _ _ hcfg hedit hle, rfl, rfl⟩,
              fun h => by simp at h⟩

theorem mutate_conforms_of (e : Editor) (m : Mutation) {Permits : Bytes → Bytes → Prop}
    (hp : ∀ b c cfg, e.interpret b = .ok cfg → m.edit b cfg = .ok (some c) →
      c.length ≤ maxPolicyBytes → Permits b c) :
    Conforms (PolicyNext e.name Permits) (e.mutate m) .idle fun x q => Ends Permits x.1 x.2 q :=
  conforms_mono (mutate_finishes e m hp) fun _ _ h => h.1

theorem mutate_conforms (e : Editor) (m : Mutation) :
    Conforms (PolicyNext e.name ((Action.mutate m).Permits e)) (e.mutate m) .idle fun x q =>
      Ends ((Action.mutate m).Permits e) x.1 x.2 q :=
  mutate_conforms_of e m fun _ _ cfg hcfg hedit _ => ⟨cfg, hcfg, hedit⟩

variable [Codec]

theorem remove_conforms_of (e : Editor) (name confirmation recoveryID : Bytes)
    {Permits : Bytes → Bytes → Prop}
    (hp : ∀ b c cfg, e.interpret b = .ok cfg → removeProject name b cfg = .ok c →
      c.length ≤ maxPolicyBytes → Permits b c) :
    Conforms (PolicyNext e.name Permits) (e.removeProject name confirmation recoveryID) .idle
      fun x q => Ends Permits x.1.changed x.2 q := by
  unfold Editor.removeProject
  split
  · exact conforms_pure (.inl ⟨rfl, rfl⟩)
  · next store _ =>
    split
    · exact conforms_pure (.inl ⟨rfl, rfl⟩)
    · refine conforms_bind readPolicy_conforms fun res q hpost => ?_
      obtain ⟨hq, hr⟩ := hpost
      cases res with
      | error err => exact conforms_pure (.inl ⟨rfl, hr⟩)
      | ok r =>
        obtain ⟨data, cfg, stamp⟩ := r
        obtain ⟨rfl, hcfg⟩ := hq data cfg stamp rfl
        dsimp only
        split
        · exact conforms_pure (.inl ⟨rfl, rfl⟩)
        · next updated hedit =>
          refine conforms_bind (store.avoids_publish _).conforms fun res q hq => ?_
          subst hq
          cases res with
          | some err => exact conforms_pure (.inl ⟨rfl, rfl⟩)
          | none =>
            refine writeAtomic_ends (hp _ _ _ hcfg hedit) (fun x => RecoveryResult.changed x.1)
              Prod.snd fun res => ?_
            cases res <;> exact ⟨_, rfl, rfl, rfl⟩

theorem remove_conforms (e : Editor) (name confirmation recoveryID : Bytes) :
    Conforms (PolicyNext e.name ((Action.remove name confirmation recoveryID).Permits e))
      (e.removeProject name confirmation recoveryID) .idle fun x q =>
        Ends ((Action.remove name confirmation recoveryID).Permits e) x.1.changed x.2 q :=
  remove_conforms_of e name confirmation recoveryID fun _ _ cfg hcfg hedit _ => ⟨cfg, hcfg, hedit⟩

omit [Codec] in
theorem restoreFrom_conforms (e : Editor) (artifact : RecoveryArtifact)
    (recoveryID confirmation : Bytes) {Permits : Bytes → Bytes → Prop}
    (hp : ∀ b c cfg, e.interpret b = .ok cfg → artifact.project = confirmation →
      restoreProject artifact b cfg = .ok c → Permits b c) :
    Conforms (PolicyNext e.name Permits) (e.restoreFrom artifact recoveryID confirmation) .idle
      fun x q => Ends Permits x.1.changed x.2 q := by
  unfold Editor.restoreFrom
  split
  · exact conforms_pure (.inl ⟨rfl, rfl⟩)
  · next hconf =>
    refine conforms_bind readPolicy_conforms fun res q hpost => ?_
    obtain ⟨hq, hr⟩ := hpost
    cases res with
    | error err => exact conforms_pure (.inl ⟨rfl, hr⟩)
    | ok r =>
      obtain ⟨data, cfg, stamp⟩ := r
      obtain ⟨rfl, hcfg⟩ := hq data cfg stamp rfl
      dsimp only
      split
      · exact conforms_pure (.inl ⟨rfl, rfl⟩)
      · next updated hedit =>
        have hpermits := hp _ _ _ hcfg (not_not.1 hconf).symm hedit
        refine writeAtomic_ends (fun _ => hpermits) (fun x => RecoveryResult.changed x.1) Prod.snd
          fun res => ?_
        cases res <;> exact ⟨_, rfl, rfl, rfl⟩

theorem restore_conforms (e : Editor) (recoveryID confirmation : Bytes) :
    Conforms (PolicyNext e.name ((Action.restore recoveryID confirmation).Permits e))
      (e.restoreProject recoveryID confirmation) .idle fun x q =>
        Ends ((Action.restore recoveryID confirmation).Permits e) x.1.changed x.2 q := by
  unfold Editor.restoreProject
  split
  · exact conforms_pure (.inl ⟨rfl, rfl⟩)
  · next store _ =>
    split
    · exact conforms_pure (.inl ⟨rfl, rfl⟩)
    · refine conforms_bind (store.avoids_readArtifact recoveryID).conforms fun res q hq => ?_
      subst hq
      cases res with
      | error err => exact conforms_pure (.inl ⟨rfl, rfl⟩)
      | ok artifact =>
        exact restoreFrom_conforms e artifact recoveryID confirmation
          fun b c cfg hcfg hconf hedit => ⟨cfg, artifact, hcfg, hconf, hedit⟩

end SecretsBroker.Admin
