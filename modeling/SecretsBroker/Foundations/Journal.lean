import Mathlib.Data.List.Induction
import SecretsBroker.Foundations.JsonStruct

/-!
# Files of JSON lines

A file to which records are appended, each as a JSON object on a line of its own, and where an
append may fail after any part of its line has been written. `LineFormat` is a format of records
with what is used of it; `found_iff` says when the record of an append that succeeded is found
again: the file must have ended with a line, and the record must come back from its own JSON.
`recoverable_iff` says this of all records of a run, and `read_file` what is read from a file whose
appends were not torn.
-/

namespace SecretsBroker

open Json

/-! ## Lines -/

/-- The lines of a file and what follows the last newline. -/
def splitLines : Bytes → List Bytes × Bytes
  | [] => ([], [])
  | b :: tl =>
    let (ls, last) := splitLines tl
    if b = 0x0A then ([] :: ls, last)
    else match ls with
      | [] => ([], b :: last)
      | l :: ls => ((b :: l) :: ls, last)

/-- The complete lines of a file. -/
def completeLines (s : Bytes) : List Bytes := (splitLines s).1

/-- What the file ends with after its last complete line. -/
def openLine (s : Bytes) : Bytes := (splitLines s).2

theorem splitLines_newline {l : Bytes} (h : 0x0A ∉ l) (s : Bytes) :
    splitLines (l ++ 0x0A :: s) = (l :: completeLines s, openLine s) := by
  induction l with
  | nil => simp [splitLines, completeLines, openLine]
  | cons b l ih =>
    have hb : b ≠ 0x0A := fun heq => h (by simp [heq])
    have hl : 0x0A ∉ l := fun hmem => h (by simp [hmem])
    simp [splitLines, ih hl, hb]

theorem splitLines_of_notMem {l : Bytes} (h : 0x0A ∉ l) : splitLines l = ([], l) := by
  induction l with
  | nil => rfl
  | cons b l ih =>
    have hb : b ≠ 0x0A := fun heq => h (by simp [heq])
    have hl : 0x0A ∉ l := fun hmem => h (by simp [hmem])
    simp [splitLines, ih hl, hb]

/-- More text goes on with the open line. -/
theorem splitLines_append (a b : Bytes) :
    splitLines (a ++ b) =
      (completeLines a ++ completeLines (openLine a ++ b), openLine (openLine a ++ b)) := by
  induction a with
  | nil => simp [splitLines, completeLines, openLine]
  | cons x a ih =>
    simp only [completeLines, openLine] at ih ⊢
    cases hsplit : splitLines a with
    | mk ls last =>
      rw [hsplit] at ih
      by_cases hx : x = 0x0A
      · simp [splitLines, ih, hsplit, hx]
      · cases ls with
        | nil => simp [splitLines, ih, hsplit, hx]
        | cons l ls => simp [splitLines, ih, hsplit, hx]

theorem openLine_append (a b : Bytes) : openLine (a ++ b) = openLine (openLine a ++ b) := by
  rw [openLine, splitLines_append]

theorem newline_openLine (s : Bytes) : 0x0A ∉ openLine s := by
  induction s with
  | nil => simp [openLine, splitLines]
  | cons b s ih =>
    simp only [openLine] at ih ⊢
    cases hsplit : splitLines s with
    | mk ls last =>
      rw [hsplit] at ih
      by_cases hb : b = 0x0A
      · simpa [splitLines, hsplit, hb] using ih
      · cases ls with
        | nil => simpa [splitLines, hsplit, hb, Ne.symm hb] using ih
        | cons l ls => simpa [splitLines, hsplit, hb] using ih

/-- A text and a newline complete the open line. -/
theorem completeLines_append {l : Bytes} (h : 0x0A ∉ l) (a b : Bytes) :
    completeLines (a ++ (l ++ [0x0A]) ++ b) =
      completeLines a ++ (openLine a ++ l) :: completeLines b := by
  have hline : 0x0A ∉ openLine a ++ l := by simp [newline_openLine a, h]
  have htext : openLine a ++ (l ++ [0x0A] ++ b) = (openLine a ++ l) ++ 0x0A :: b := by simp
  rw [List.append_assoc, completeLines, splitLines_append, htext]
  simp only [completeLines, splitLines_newline hline]

theorem openLine_append_newline {l : Bytes} (h : 0x0A ∉ l) (a : Bytes) :
    openLine (a ++ (l ++ [0x0A])) = [] := by
  have hline : 0x0A ∉ openLine a ++ l := by simp [newline_openLine a, h]
  rw [openLine_append, ← List.append_assoc, openLine, splitLines_newline hline]
  rfl

/-! ## Records on lines -/

/-- A format of records that are written as JSON objects on one line. -/
structure LineFormat (ρ : Type) where
  fields : List (Json.Field ρ)
  zero : ρ
  /-- What a record comes back as. -/
  back : ρ → ρ
  distinct : Distinct fields
  carried : ∀ r, Carried r fields zero (back r)
  oneLine : ∀ r, 0x0A ∉ encodeStruct fields r
  /-- The first member is always there, and its name starts with a letter. -/
  start : ∀ r, ∃ x L, (0x61 ≤ x.toNat ∧ x.toNat ≤ 0x7A) ∧
    encodeStruct fields r = 0x7B :: 0x22 :: x :: L

namespace LineFormat

variable {ρ : Type} (F : LineFormat ρ)

/-- The JSON of a record and a newline. -/
def line (r : ρ) : Bytes := encodeStruct F.fields r ++ [0x0A]

/-- `json.Unmarshal` of a line. -/
def decode (l : Bytes) : Option ρ :=
  match parse l with
  | some (j, rest) => if skipSpace rest = [] then decodeStruct false F.fields F.zero j else none
  | none => none

/-- **A line is decoded to the record only if it is the line of the record**: text before it, which
starts with a brace as every line does, makes the line unreadable. -/
theorem decode_iff {before : Bytes} (hbefore : before = [] ∨ before.head? = some 0x7B) (r : ρ) :
    F.decode (before ++ encodeStruct F.fields r) = some r ↔ before = [] ∧ F.back r = r := by
  obtain ⟨ms, k, hreads, hdec⟩ := (F.carried r).decode F.distinct false
  have hself : F.decode (encodeStruct F.fields r) = some (F.back r) := by
    have hparse := hreads.parse []
    rw [List.append_nil] at hparse
    have hnil : skipSpace [] = [] := rfl
    rw [decode, hparse]
    simp only [hnil, if_true, hdec]
  constructor
  · intro h
    have hnil : before = [] := by
      obtain ⟨x, L, hx, htext⟩ := F.start r
      rw [htext] at h hreads
      rw [decode] at h
      split at h
      · next j rest hparse =>
        split_ifs at h with hrest
        have hskip := parse_before_object hx hreads hparse hrest
        refine hbefore.resolve_right fun hhead => ?_
        -- nothing of a text that starts with a brace is skipped
        obtain ⟨tl, rfl⟩ := List.head?_eq_some_iff.1 hhead
        rw [List.cons_append, skipSpace_cons (by decide)] at hskip
        have := congrArg List.length hskip
        simp only [List.length_cons, List.length_append] at this
        omega
      · exact absurd h (by simp)
    subst hnil
    rw [List.nil_append, hself] at h
    exact ⟨rfl, Option.some.inj h⟩
  · rintro ⟨rfl, hback⟩
    rw [List.nil_append, hself, hback]

/-- The record of an append to `before` is found in `file`: the line that the append has completed
is decoded to it. -/
def Found (before : Bytes) (r : ρ) (file : Bytes) : Prop :=
  ∃ l, (completeLines file)[(completeLines before).length]? = some l ∧ F.decode l = some r

/-- **When a record is found**: the file ended with a complete line, and the record comes back. -/
theorem found_iff {before : Bytes}
    (hbefore : openLine before = [] ∨ (openLine before).head? = some 0x7B) (r : ρ) (after : Bytes) :
    F.Found before r (before ++ F.line r ++ after) ↔ openLine before = [] ∧ F.back r = r := by
  have hline : (completeLines (before ++ F.line r ++ after))[(completeLines before).length]? =
      some (openLine before ++ encodeStruct F.fields r) := by
    rw [line, completeLines_append (F.oneLine r)]
    simp
  rw [← F.decode_iff hbefore r]
  constructor
  · rintro ⟨l, hl, hdec⟩
    obtain rfl := Option.some.inj (hl.symm.trans hline)
    exact hdec
  · exact fun hdec => ⟨_, hline, hdec⟩

/-! ## Runs -/

/-- An append: how much of the line has reached the file, which is all of it on success. -/
structure Append where
  record : ρ
  written : ℕ
  succeeded : Bool
  whole : succeeded = true → (F.line record).length ≤ written

variable {F}

/-- The bytes that an append has written. -/
def Append.bytes (a : F.Append) : Bytes := (F.line a.record).take a.written

/-- The append has written some of its line but not all of it. -/
def Append.Torn (a : F.Append) : Prop := 0 < a.written ∧ a.written < (F.line a.record).length

/-- The file after a run of appends. -/
def file (run : List F.Append) : Bytes := run.flatMap Append.bytes

/-- Every record whose append succeeded is found in the file. -/
def Recoverable (run : List F.Append) : Prop :=
  ∀ pre a post, run = pre ++ a :: post → a.succeeded = true →
    F.Found (file pre) a.record (file run)

theorem Append.bytes_of_succeeded {a : F.Append} (h : a.succeeded = true) :
    a.bytes = F.line a.record := List.take_of_length_le (a.whole h)

/-- What an append makes of the open line: it completes it, or adds a part of its line to it. -/
theorem openLine_bytes (s : Bytes) (a : F.Append) :
    openLine (s ++ a.bytes) = [] ∨
      (a.written < (F.line a.record).length ∧
        openLine (s ++ a.bytes) =
          openLine s ++ (encodeStruct F.fields a.record).take a.written) := by
  by_cases h : a.written < (F.line a.record).length
  · refine .inr ⟨h, ?_⟩
    have hle : a.written ≤ (encodeStruct F.fields a.record).length := by
      simp only [line, List.length_append, List.length_singleton] at h
      omega
    have hbytes : a.bytes = (encodeStruct F.fields a.record).take a.written := by
      rw [Append.bytes, line, List.take_append_of_le_length hle]
    have hnot : 0x0A ∉ openLine s ++ a.bytes := by
      rw [hbytes, List.mem_append, not_or]
      exact ⟨newline_openLine s, fun hmem => F.oneLine _ (List.mem_of_mem_take hmem)⟩
    rw [openLine_append, openLine, splitLines_of_notMem hnot, hbytes]
  · refine .inl ?_
    rw [Append.bytes, List.take_of_length_le (Nat.not_lt.1 h)]
    exact openLine_append_newline (F.oneLine _) s

/-- The open line of the file is empty or starts with a brace. -/
theorem openLine_file (run : List F.Append) :
    openLine (file run) = [] ∨ (openLine (file run)).head? = some 0x7B := by
  induction run using List.reverseRecOn with
  | nil => exact .inl rfl
  | append_singleton run a ih =>
    have hfile : file (run ++ [a]) = file run ++ a.bytes := by simp [file]
    rw [hfile]
    rcases openLine_bytes (file run) a with h | ⟨-, h⟩
    · exact .inl h
    · rw [h]
      rcases ih with hnil | hhead
      · obtain ⟨x, L, -, htext⟩ := F.start a.record
        rw [hnil, htext]
        cases a.written with
        | zero => exact .inl rfl
        | succ n => exact .inr rfl
      · obtain ⟨tl, htl⟩ := List.head?_eq_some_iff.1 hhead
        rw [htl]
        exact .inr rfl

/-- A run without a torn append leaves complete lines only. -/
theorem openLine_of_not_torn {run : List F.Append} (h : ∀ a ∈ run, ¬ a.Torn) :
    openLine (file run) = [] := by
  induction run using List.reverseRecOn with
  | nil => rfl
  | append_singleton run a ih =>
    have hfile : file (run ++ [a]) = file run ++ a.bytes := by simp [file]
    have hrun := ih fun b hb => h b (by simp [hb])
    rw [hfile]
    rcases openLine_bytes (file run) a with hnil | ⟨hlt, heq⟩
    · exact hnil
    · have hzero : a.written = 0 := by
        by_contra hne
        exact h a (by simp) ⟨Nat.pos_of_ne_zero hne, hlt⟩
      rw [heq, hrun, hzero]
      rfl

/-- **When all records are found**: every append that succeeded found the file with complete lines
only, and its record comes back. -/
theorem recoverable_iff (run : List F.Append) :
    Recoverable run ↔ ∀ pre a post, run = pre ++ a :: post → a.succeeded = true →
      openLine (file pre) = [] ∧ F.back a.record = a.record := by
  refine forall₃_congr fun pre a post => forall_congr' fun hrun => forall_congr' fun hok => ?_
  have hfile : file run = file pre ++ F.line a.record ++ file post := by
    rw [hrun, file, List.flatMap_append, List.flatMap_cons, Append.bytes_of_succeeded hok,
      ← List.append_assoc]
    rfl
  rw [hfile]
  exact F.found_iff (openLine_file pre) a.record (file post)

/-! ## Reading a file -/

variable (F) in
/-- The records of a file: what its complete lines are decoded to. -/
def read (s : Bytes) : List ρ := (completeLines s).filterMap F.decode

/-- The append has written all of its line. -/
def Append.isWhole (a : F.Append) : Bool := (F.line a.record).length ≤ a.written

/-- The line of a record is decoded to what the record comes back as. -/
theorem decode_line (r : ρ) : F.decode (encodeStruct F.fields r) = some (F.back r) := by
  obtain ⟨ms, k, hreads, hdec⟩ := (F.carried r).decode F.distinct false
  have hparse := hreads.parse []
  rw [List.append_nil] at hparse
  have hnil : skipSpace [] = [] := rfl
  rw [decode, hparse]
  simp only [hnil, if_true, hdec]

/-- **A file without torn lines is read back**: the records whose lines were written, in the order
of the appends. -/
theorem read_file {run : List F.Append} (htorn : ∀ a ∈ run, ¬ a.Torn) :
    F.read (file run) = (run.filter Append.isWhole).map fun a => F.back a.record := by
  induction run using List.reverseRecOn with
  | nil => rfl
  | append_singleton run a ih =>
    have hrun := ih fun b hb => htorn b (by simp [hb])
    have hopen := openLine_of_not_torn fun b hb => htorn b (List.mem_append_left [a] hb)
    have hfile : file (run ++ [a]) = file run ++ a.bytes := by simp [file]
    rw [hfile, List.filter_append, List.map_append, ← hrun]
    by_cases hwhole : (F.line a.record).length ≤ a.written
    · -- one more line, which is decoded
      have hlines := completeLines_append (F.oneLine a.record) (file run) []
      rw [List.append_nil, hopen, List.nil_append] at hlines
      rw [Append.bytes, List.take_of_length_le hwhole, line, read, hlines, List.filterMap_append,
        List.filterMap_cons_some (decode_line a.record)]
      simp [Append.isWhole, hwhole, read, completeLines, splitLines]
    · have hzero : a.written = 0 := by
        by_contra hne
        exact htorn a (by simp) ⟨Nat.pos_of_ne_zero hne, Nat.not_le.1 hwhole⟩
      simp [Append.bytes, hzero, Append.isWhole, line]

end LineFormat

end SecretsBroker
