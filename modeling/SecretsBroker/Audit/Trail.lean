import SecretsBroker.Audit.Log
import SecretsBroker.Foundations.Interaction

/-!
# What a log holds of its writers

`Start` and `Finish` of the two loggers: what they answer and what they leave in the file come from
the same append. A log is shared by any number of writers, each of them a program that is somewhere
in its run; `Leaves` says which appends a writer has made, and `entries` which records are in the
file by whom. As long as no append has left a part of its line, these are the records that are read
from the file (`read_file`).
-/

namespace SecretsBroker.Audit

open Interaction

/-- `newRandomHexID`, from the random bytes it reads. -/
def newRandomHexID : Except Bytes Bytes → Except Bytes Bytes
  | .error err => .error err
  | .ok random => .ok (hexEncode random)

theorem valid_newRandomHexID {random : Except Bytes Bytes} {id : Bytes}
    (h : newRandomHexID random = .ok id) : Utf8.Valid id := by
  cases random with
  | error err => cases h
  | ok random =>
    obtain rfl := Except.ok.inj h
    refine Utf8.valid_of_ascii fun c hc => ?_
    have := mem_hexEncode hc
    simp only [isLowerHex, Bool.or_eq_true, Bool.and_eq_true, decide_eq_true_eq,
      UInt8.le_iff_toNat_le] at this
    change (0x30 ≤ c.toNat ∧ c.toNat ≤ 0x39) ∨ (0x61 ≤ c.toNat ∧ c.toNat ≤ 0x66) at this
    omega

namespace Logger

variable {ρ : Type} {F : LineFormat ρ} (L : Logger F)

/-- What a `Start` returns, and its append: the record gets a new identifier. -/
def appendStart (what : Bytes) (record : Bytes → ρ) (random : Except Bytes Bytes) (calls : Calls) :
    Except Bytes Bytes × List (Calls × ρ) :=
  match newRandomHexID random with
  | .error err => (.error (str "generating " ++ what ++ str " ID: " ++ err), [])
  | .ok id =>
    match (L.append calls (record id)).1 with
    | some err => (.error err, [(calls, record id)])
    | none => (.ok id, [(calls, record id)])

/-- What a `Finish` returns, and its append. -/
def appendFinish (record : ρ) (calls : Calls) : Option Bytes × List (Calls × ρ) :=
  ((L.append calls record).1, [(calls, record)])

end Logger

/-- `JSONLLogger.Start`. -/
def JSONLLogger.start (now : Timestamp) (rec : StartRecord) :
    Except Bytes Bytes → Calls → Except Bytes Bytes × List (Calls × Record) :=
  JSONLLogger.appendStart (str "run") (Record.start · now rec)

/-- `JSONLLogger.Finish`. -/
def JSONLLogger.finish (now : Timestamp) (runID : Bytes) (rec : FinishRecord) :
    Calls → Option Bytes × List (Calls × Record) :=
  JSONLLogger.appendFinish (Record.finish runID now rec)

/-- `MutationJSONLLogger.Start`. -/
def MutationJSONLLogger.start (now : Timestamp) (actorLogin : Bytes) (rec : Admin.MutationStart) :
    Except Bytes Bytes → Calls → Except Bytes Bytes × List (Calls × MutationRecord) :=
  MutationJSONLLogger.appendStart (str "mutation") (MutationRecord.start · now actorLogin rec)

/-- `MutationJSONLLogger.Finish`. -/
def MutationJSONLLogger.finish (now : Timestamp) (mutationID outcome actorLogin : Bytes) :
    Calls → Option Bytes × List (Calls × MutationRecord) :=
  MutationJSONLLogger.appendFinish (MutationRecord.finish mutationID now outcome actorLogin)

/-! ## The records in the file -/

namespace Logger

variable {ρ : Type} {F : LineFormat ρ} (L : Logger F)

/-- The append has written its line. -/
def wrote (p : Calls × ρ) : Bool := (L.attempt p).isWhole

/-- The records whose lines were written. -/
def kept (appends : List (Calls × ρ)) : List ρ := (appends.filter L.wrote).map Prod.snd

@[simp] theorem kept_nil : L.kept [] = [] := rfl

theorem kept_append (appends appends' : List (Calls × ρ)) :
    L.kept (appends ++ appends') = L.kept appends ++ L.kept appends' := by
  simp [kept]

theorem kept_singleton (calls : Calls) (record : ρ) :
    L.kept [(calls, record)] = [] ∨ L.kept [(calls, record)] = [record] := by
  cases h : L.wrote (calls, record) with
  | true => exact .inr (by simp [kept, h])
  | false => exact .inl (by simp [kept, h])

/-- An append that returned no error has written its line. -/
theorem kept_of_none {calls : Calls} {record : ρ} (h : (L.append calls record).1 = none) :
    L.kept [(calls, record)] = [record] := by
  have hwrote : L.wrote (calls, record) = true := decide_eq_true (L.whole calls record h)
  simp [kept, hwrote]

variable {L}

theorem calls_appendStart {what : Bytes} {record : Bytes → ρ} {random : Except Bytes Bytes}
    {calls : Calls} {p : Calls × ρ} (h : p ∈ (L.appendStart what record random calls).2) :
    p.1 = calls := by
  unfold appendStart at h
  split at h
  · cases h
  · split at h <;> rw [List.mem_singleton.1 h]

/-- A start that was acknowledged is in the file. -/
theorem kept_appendStart {what : Bytes} {record : Bytes → ρ} {random : Except Bytes Bytes}
    {calls : Calls} {id : Bytes} {new : List (Calls × ρ)}
    (h : L.appendStart what record random calls = (.ok id, new)) :
    Utf8.Valid id ∧ L.kept new = [record id] := by
  unfold appendStart at h
  split at h
  · cases h
  · next hid =>
    split at h
    · cases h
    · next hnone =>
      cases h
      exact ⟨valid_newRandomHexID hid, L.kept_of_none hnone⟩

/-- A start that was not may be there. -/
theorem kept_appendStart_error {what : Bytes} {record : Bytes → ρ} {random : Except Bytes Bytes}
    {calls : Calls} {err : Bytes} {new : List (Calls × ρ)}
    (h : L.appendStart what record random calls = (.error err, new)) :
    L.kept new = [] ∨ ∃ id, Utf8.Valid id ∧ L.kept new = [record id] := by
  unfold appendStart at h
  split at h
  · cases h
    exact .inl rfl
  · next id hid =>
    split at h
    · cases h
      exact (L.kept_singleton _ _).imp_right fun hkept => ⟨id, valid_newRandomHexID hid, hkept⟩
    · cases h

theorem kept_appendFinish {record : ρ} {calls : Calls} {res : Option Bytes} {new : List (Calls × ρ)}
    (h : L.appendFinish record calls = (res, new)) :
    (L.kept new = [] ∧ res ≠ none) ∨ L.kept new = [record] := by
  cases h
  rcases L.kept_singleton calls record with hkept | hkept
  · refine .inl ⟨hkept, fun hnone => ?_⟩
    rw [L.kept_of_none hnone] at hkept
    cases hkept
  · exact .inr hkept

/-- **A log without torn lines is read as the records that were written.** -/
theorem read_file {appends : List (Calls × ρ)} (htorn : ∀ p ∈ appends, ¬ (L.attempt p).Torn) :
    F.read (L.file appends) = (L.kept appends).map F.back := by
  rw [file, LineFormat.read_file, run, List.filter_map, List.map_map, kept, List.map_map]
  · rfl
  · intro a ha
    obtain ⟨p, hp, rfl⟩ := List.mem_map.1 ha
    exact htorn p hp

/-! ## Writers -/

section Writers

variable {ι : Type} (L)

/-- The records whose lines were written, by those who wrote them. -/
def entries (log : List (ι × Calls × ρ)) : List (ι × ρ) :=
  (log.filter fun p => L.wrote p.2).map fun p => (p.1, p.2.2)

theorem kept_map_snd (log : List (ι × Calls × ρ)) :
    L.kept (log.map Prod.snd) = (L.entries log).map Prod.snd := by
  simp only [kept, entries, List.filter_map, List.map_map]
  rfl

end Writers

end Logger

section Writers

variable {ι ρ : Type} [DecidableEq ι]

/-- What belongs to one of the writers. -/
def ofWriter {α : Type} (i : ι) (xs : List (ι × α)) : List α :=
  (xs.filter fun p => p.1 = i).map Prod.snd

theorem mem_ofWriter {α : Type} {i : ι} {xs : List (ι × α)} {x : α} :
    x ∈ ofWriter i xs ↔ (i, x) ∈ xs := by
  simp [ofWriter]

/-- What a writer adds is its own. -/
theorem ofWriter_append_self {α : Type} (i : ι) (xs : List (ι × α)) (new : List α) :
    ofWriter i (xs ++ new.map fun x => (i, x)) = ofWriter i xs ++ new := by
  simp [ofWriter, List.filter_map, Function.comp_def]

theorem ofWriter_append_of_ne {α : Type} {i j : ι} (h : i ≠ j) (xs : List (ι × α))
    (new : List α) : ofWriter i (xs ++ new.map fun x => (j, x)) = ofWriter i xs := by
  simp [ofWriter, List.filter_map, Function.comp_def, Ne.symm h]

theorem Logger.ofWriter_entries {F : LineFormat ρ} (L : Logger F) (i : ι)
    (log : List (ι × Calls × ρ)) :
    ofWriter i (L.entries log) = L.kept (ofWriter i log) := by
  simp only [ofWriter, entries, kept, List.filter_map, List.map_map, List.filter_filter]
  congr 1
  refine List.filter_congr fun p _ => ?_
  simp [Bool.and_comm]

end Writers

/-! ## Programs that write -/

section Programs

variable {C : Type} {R : C → Type} {ρ : Type} {Logged : Event R → List (Calls × ρ) → Prop}

/-- The appends of a program that has made the calls, where `Logged` has those of one call. -/
inductive Leaves (Logged : Event R → List (Calls × ρ) → Prop) :
    Trace R → List (Calls × ρ) → Prop
  | nil : Leaves Logged [] []
  | cons {e : Event R} {tr : Trace R} {new appends : List (Calls × ρ)} (he : Logged e new)
    (h : Leaves Logged tr appends) : Leaves Logged (e :: tr) (new ++ appends)

/-- One more call. -/
theorem Leaves.snoc {tr : Trace R} {appends new : List (Calls × ρ)} {e : Event R}
    (h : Leaves Logged tr appends) (he : Logged e new) :
    Leaves Logged (tr ++ [e]) (appends ++ new) := by
  induction h with
  | nil => simpa using Leaves.cons he .nil
  | cons he' _ ih =>
    rw [List.append_assoc]
    exact .cons he' ih

/-- What a call has written is in the file. -/
theorem Leaves.mem_kept {F : LineFormat ρ} {L : Logger F} {tr : Trace R}
    {appends : List (Calls × ρ)} {e : Event R} (h : Leaves Logged tr appends) (hmem : e ∈ tr) :
    ∃ new, Logged e new ∧ ∀ r ∈ L.kept new, r ∈ L.kept appends := by
  induction h with
  | nil => cases hmem
  | @cons e' tr new appends he _ ih =>
    rw [Logger.kept_append]
    rcases List.mem_cons.1 hmem with rfl | hmem
    · exact ⟨new, he, fun r hr => List.mem_append_left _ hr⟩
    · obtain ⟨new', he', hnew'⟩ := ih hmem
      exact ⟨new', he', fun r hr => List.mem_append_right _ (hnew' r hr)⟩

end Programs

end SecretsBroker.Audit
