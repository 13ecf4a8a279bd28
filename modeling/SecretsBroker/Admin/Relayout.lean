import SecretsBroker.Admin.Edit
import SecretsBroker.Admin.Headers
import SecretsBroker.Foundations.JsonStruct
import Mathlib.Data.List.Forall2
import Mathlib.Data.List.TakeWhile

/-!
# What the edits do to the header lines

Each byte-level edit of `internal/admin/policy.go`, seen through the header lines of the text. A
value put in the place of another one, or a line added outside of the headers, leaves them
(`replaceProjectField_marks`, `replaceApproval_marks`); an entry adds one allowlist header at the
end of its block (`insertAllowEntry_marks`); a removal of entries takes as many allowlist headers
from one block (`removeAllowEntries_marks`); the other two add or take one block
(`appendProject_marks`, `removeProjectSpan_marks`). What strings are written does not matter: an
encoded string has no newline, and the line that holds it begins with the name of its field.

A text without a final newline gets one before a line is added to it. Where the text ends its lines
with `\r\n` this puts a carriage return behind the last line; `CrBeforeNewline` is what makes that
harmless.
-/

namespace SecretsBroker.Admin

open Fallible

/-! ## Blanks and carriage returns -/

/-- A carriage return stands only before a newline. -/
def CrBeforeNewline (data : Bytes) : Prop :=
  ∀ u w, data = u ++ carriageReturn :: w → ∃ v, w = newline :: v

theorem dropBlanks_append {u : Bytes} (h : dropBlanks u ≠ []) (w : Bytes) :
    dropBlanks (u ++ w) = dropBlanks u ++ w := by
  rw [dropBlanks, List.dropWhile_append, if_neg (by simpa [dropBlanks] using h)]
  rfl

theorem dropBlanks_append_cr (s : Bytes) :
    dropBlanks (s ++ [carriageReturn]) = dropBlanks s ++ [carriageReturn] := by
  by_cases h : dropBlanks s = []
  · rw [h, dropBlanks, List.dropWhile_append, if_pos (by simpa [dropBlanks] using h)]
    rfl
  · exact dropBlanks_append h _

theorem notMem_dropBlanks {c : UInt8} {s : Bytes} (h : c ∉ s) : c ∉ dropBlanks s :=
  fun hc => h ((List.dropWhile_suffix _).subset hc)

theorem isRest_of_notMem {s : Bytes} (h : carriageReturn ∉ s) :
    isRest s = true ∧ isRest (s ++ [carriageReturn]) = true := by
  have hdrop : s.dropWhile (fun c => c != carriageReturn) = [] := by
    rw [List.dropWhile_eq_nil_iff]
    intro c hc
    simpa using ne_of_mem_of_not_mem hc h
  refine ⟨by simp [isRest, hdrop], ?_⟩
  simp [isRest, List.dropWhile_append, hdrop]

theorem isTail_append_cr {s : Bytes} (h : carriageReturn ∉ s) :
    isTail (s ++ [carriageReturn]) = isTail s := by
  unfold isTail
  rw [dropBlanks_append_cr]
  cases hd : dropBlanks s with
  | nil => rfl
  | cons c t =>
    have hmem : carriageReturn ∉ c :: t := hd ▸ notMem_dropBlanks h
    obtain ⟨hc, ht⟩ := not_or.1 (mt List.mem_cons.2 hmem)
    have hrest := isRest_of_notMem ht
    have hne : (c == carriageReturn) = false := by simpa using Ne.symm hc
    simp [hrest.1, hrest.2, hne]

theorem isHeader_append_cr {header s : Bytes} (hheader : carriageReturn ∉ header)
    (h : carriageReturn ∉ s) : isHeader header (s ++ [carriageReturn]) = isHeader header s := by
  unfold isHeader
  rw [dropBlanks_append_cr]
  cases hp : header.isPrefixOf? (dropBlanks s) with
  | some rest =>
    have heq := List.isPrefixOf?_eq_some_iff_append_eq.1 hp
    have hrest : carriageReturn ∉ rest := by
      intro hr
      exact notMem_dropBlanks h (heq ▸ List.mem_append_right _ hr)
    have hp' : header.isPrefixOf? (dropBlanks s ++ [carriageReturn]) =
        some (rest ++ [carriageReturn]) := by
      rw [List.isPrefixOf?_eq_some_iff_append_eq, ← heq, List.append_assoc]
    rw [hp']
    exact isTail_append_cr hrest
  | none =>
    cases hp' : header.isPrefixOf? (dropBlanks s ++ [carriageReturn]) with
    | none => rfl
    | some rest =>
      -- the header would end with the carriage return
      have heq := List.isPrefixOf?_eq_some_iff_append_eq.1 hp'
      rcases List.eq_nil_or_concat rest with rfl | ⟨rest, c, rfl⟩
      · rw [List.append_nil] at heq
        exact absurd (by simp [heq]) hheader
      · rw [List.concat_eq_append, ← List.append_assoc] at heq
        have hinit := (List.append_inj' heq rfl).1
        rw [List.isPrefixOf?_eq_some_iff_append_eq.2 hinit] at hp
        simp at hp

theorem mark_append_cr {l : Bytes} (h : carriageReturn ∉ l) :
    mark (l ++ [carriageReturn]) = mark l := by
  have hp := @isHeader_append_cr (str "[[projects]]") l (by decide +kernel) h
  have ha := @isHeader_append_cr (str "[[projects.allow]]") l (by decide +kernel) h
  unfold mark projectHeaderPattern allowHeaderPattern
  rw [hp, ha]

theorem marks_append_cr {data : Bytes} (h : CrBeforeNewline data) :
    marks (data ++ [carriageReturn]) = marks data := by
  obtain ⟨u, l, rfl, hu, hl⟩ := exists_last_line data
  have hcr : carriageReturn ∉ l := by
    intro hc
    obtain ⟨a, b, rfl⟩ := List.append_of_mem hc
    obtain ⟨v, rfl⟩ := h (u ++ a) b (by simp)
    simp at hl
  have hnl : newline ∉ l ++ [carriageReturn] := by
    have hne : newline ≠ carriageReturn := by decide
    simp [hl, hne]
  rw [List.append_assoc, marks_append_of_start hu, marks_append_of_start hu, marks_line hnl,
    marks_line hl, mark_append_cr hcr]

/-! ## A value in the place of another one -/

theorem scanQuoted_suffix {s rest : Bytes} (h : scanQuoted s = some rest) : rest <:+ s := by
  fun_induction scanQuoted s with
  | case1 => simp at h
  | case2 rest' => exact Option.some.inj h ▸ List.suffix_cons _ _
  | case3 => simp at h
  | case4 c rest' _ ih => exact (ih h).trans ((List.suffix_cons _ _).trans (List.suffix_cons _ _))
  | case5 => simp at h
  | case6 c rest' _ _ _ ih => exact (ih h).trans (List.suffix_cons _ _)

theorem scanLiteral_suffix {s rest : Bytes} (h : scanLiteral s = some rest) : rest <:+ s := by
  fun_induction scanLiteral s with
  | case1 => simp at h
  | case2 rest' => exact Option.some.inj h ▸ List.suffix_cons _ _
  | case3 => simp at h
  | case4 c rest' _ _ ih => exact (ih h).trans (List.suffix_cons _ _)

theorem scanValue_suffix {s rest : Bytes} (h : scanValue s = some rest) : rest <:+ s := by
  cases s with
  | nil => simp [scanValue] at h
  | cons c s =>
    unfold scanValue at h
    dsimp only at h
    split_ifs at h
    · exact (scanQuoted_suffix h).trans (List.suffix_cons _ _)
    · exact (scanLiteral_suffix h).trans (List.suffix_cons _ _)

/-- A byte that a field name may begin with: no blank and no bracket. -/
def Begins (field : Bytes) : Prop := ∃ c rest, field = c :: rest ∧ isBlank c = false ∧ c ≠ 0x5B

theorem dropBlanks_eq_self {s : Bytes} (h : Begins s) (w : Bytes) :
    dropBlanks (s ++ w) = s ++ w := by
  obtain ⟨c, rest, rfl, hc, -⟩ := h
  simp [dropBlanks, hc]

/-- A line that begins with a field is no header. -/
theorem mark_field {l field t : Bytes} (hf : Begins field) (h : dropBlanks l = field ++ t) :
    mark l = none := by
  obtain ⟨c, rest, rfl, -, hc⟩ := hf
  exact mark_eq_none h hc

/-- A line with an `argv` field is no header. -/
theorem mark_argv {l : Bytes} (h : argvPattern l = true) : mark l = none := by
  unfold argvPattern at h
  split at h
  · next rest hrest =>
    exact mark_field ⟨0x61, _, rfl, by decide, by decide⟩
      (List.isPrefixOf?_eq_some_iff_append_eq.1 hrest).symm
  · simp at h

/-- A line with a field: what stands before the value begins with the field. -/
theorem fieldPattern_ok {field l : Bytes} (hf : Begins field) {span : ℕ × ℕ}
    (h : fieldPattern field l = some span) :
    ∃ a v z t, l = a ++ v ++ z ∧ span = (a.length, a.length + v.length) ∧
      dropBlanks a = field ++ t := by
  unfold fieldPattern at h
  simp only [Option.bind_eq_bind, Option.bind_eq_some_iff] at h
  obtain ⟨r₁, h₁, h⟩ := h
  split at h
  · simp at h
  · next c r₂ h₂ =>
    split_ifs at h with hc
    obtain ⟨z, hz, h⟩ := Option.bind_eq_some_iff.1 h
    split_ifs at h with htail
    obtain rfl := Option.some.inj h
    -- from the left: blanks, the field, blanks, `=`, blanks, the value and the rest
    have hfield := List.isPrefixOf?_eq_some_iff_append_eq.1 h₁
    obtain ⟨v, hv⟩ := scanValue_suffix hz
    obtain ⟨t, ht⟩ : dropBlanks r₂ <:+ r₁ := by
      refine (List.dropWhile_suffix _).trans ((List.suffix_cons c r₂).trans ?_)
      exact h₂ ▸ List.dropWhile_suffix _
    have hl : l.takeWhile isBlank ++ (field ++ (t ++ dropBlanks r₂)) = l := by
      rw [ht, hfield]
      exact List.takeWhile_append_dropWhile
    refine ⟨l.takeWhile isBlank ++ (field ++ t), v, z, t, ?_, ?_, ?_⟩
    · rw [List.append_assoc, hv]
      simpa using hl.symm
    · have hlen := congrArg List.length hl
      have hvlen := congrArg List.length hv
      simp only [List.length_append] at hlen hvlen ⊢
      exact Prod.ext (by simp only; omega) (by simp only; omega)
    · rw [dropBlanks, List.dropWhile_append_of_pos fun c hc => List.mem_takeWhile_imp hc]
      exact dropBlanks_eq_self hf t

theorem mem_findAllValues {field data : Bytes} {span : ℕ × ℕ}
    (h : span ∈ findAllValues field data) : ∃ u l w s, data = u ++ l ++ w ∧ LineStart u ∧
      newline ∉ l ∧ LineStop w ∧ fieldPattern field l = some s ∧
      span = (u.length + s.1, u.length + s.2) := by
  obtain ⟨⟨o, l⟩, hl, hs⟩ := List.mem_filterMap.1 h
  obtain ⟨s, hfield, rfl⟩ := Option.map_eq_some_iff.1 hs
  obtain ⟨as, bs, hls⟩ := List.append_of_mem hl
  obtain ⟨hdata, ho, hnl, -, -⟩ := eq_of_linesOf hls
  exact ⟨_, l, _, s, hdata, lineStart_unlines _, hnl, lineStop_followed _, hfield,
    by rw [ho]⟩

section Block

variable {data updated : Bytes} {n i : ℕ}

/-- The line of a field in the block of a project, around the value. Whatever stands in the place of
the value, the line is no header. -/
theorem Part.exists_value (P : Part projectHeaderPattern data i) {field : Bytes} (hf : Begins field)
    {span : ℕ × ℕ} (h : span ∈ findAllValues field P.body) :
    ∃ m a v z w, P.body = m ++ [newline] ++ (a ++ v ++ z) ++ w ∧ newline ∉ a ++ v ++ z ∧
      LineStop w ∧ a ≠ [] ∧ (∀ x, mark (a ++ x ++ z) = none) ∧
      span = ((m ++ [newline] ++ a).length, (m ++ [newline] ++ a ++ v).length) := by
  obtain ⟨u, l, w, s, hbody, hu, hl, hw, hs, rfl⟩ := mem_findAllValues h
  obtain ⟨a, v, z, t, rfl, rfl, ha⟩ := fieldPattern_ok hf hs
  have hd : dropBlanks a ≠ [] := by
    obtain ⟨c, rest, rfl, -, -⟩ := hf
    simp [ha]
  have hne : a ≠ [] := by
    rintro rfl
    exact hd rfl
  obtain ⟨m, rfl⟩ := exists_newline_before (hbody ▸ P.body_stop) hu (by simp [hne]) hl
  refine ⟨m, a, v, z, w, hbody, hl, hw, hne, fun x => ?_, ?_⟩
  · refine mark_field (t := t ++ x ++ z) hf ?_
    rw [List.append_assoc, dropBlanks_append hd, ha]
    simp
  · simp only [List.length_append, Nat.add_assoc]

/-- A splice of a part of the block. -/
theorem Part.splice_body (P : Part projectHeaderPattern data i) {u v w : Bytes}
    (hbody : P.body = u ++ v ++ w) (value : Bytes) :
    splice data ((P.before ++ P.header).length + u.length)
      ((P.before ++ P.header).length + (u ++ v).length) value =
        P.before ++ P.header ++ (u ++ value ++ w) ++ P.after := by
  have hdata : P.before ++ P.header ++ u ++ v ++ (w ++ P.after) = data := by
    conv_rhs => rw [P.eq]
    rw [hbody]
    simp only [List.append_assoc]
  have hsplice := splice_append (P.before ++ P.header ++ u) v (w ++ P.after) value
  rw [hdata, List.length_append] at hsplice
  rw [@List.length_append _ u v, ← Nat.add_assoc, hsplice]
  simp only [List.append_assoc]

/-- **A value in the place of the value of a field leaves the headers.** -/
theorem marks_splice_value (P : Part projectHeaderPattern data i) {field value : Bytes}
    (hf : Begins field) (hvalue : newline ∉ value) {span : ℕ × ℕ}
    (h : span ∈ findAllValues field P.body) :
    marks (splice data ((P.before ++ P.header).length + span.1)
      ((P.before ++ P.header).length + span.2) value) = marks data := by
  obtain ⟨m, a, v, z, w, hbody, hl, hw, hne, hmark, rfl⟩ := P.exists_value hf h
  have hl' : newline ∉ a ++ value ++ z := by
    simp only [List.mem_append, not_or] at hl ⊢
    exact ⟨⟨hl.1.1, hvalue⟩, hl.2⟩
  -- the line is a line of the whole text
  have hstart : LineStart (P.before ++ P.header ++ (m ++ [newline])) := by
    rw [← List.append_assoc]
    exact lineStart_append_newline _
  have hstop : LineStop (w ++ P.after) := by
    refine lineStop_append (u := m ++ [newline]) hw (by simp [hne]) hl ?_
    rcases P.next with hafter | ⟨hend, -⟩
    · exact .inl hafter
    · exact .inr (hbody ▸ hend)
  have hmarks : ∀ x, newline ∉ a ++ x ++ z →
      marks (P.before ++ P.header ++ (m ++ [newline] ++ (a ++ x ++ z) ++ w) ++ P.after) =
        marks (P.before ++ P.header ++ (m ++ [newline])) ++ marks (w ++ P.after) := by
    intro x hx
    have hassoc : P.before ++ P.header ++ (m ++ [newline] ++ (a ++ x ++ z) ++ w) ++ P.after =
        P.before ++ P.header ++ (m ++ [newline]) ++ (a ++ x ++ z) ++ (w ++ P.after) := by
      simp only [List.append_assoc]
    rw [hassoc, marks_append_of_stop _ hstop, marks_append_of_start hstart, marks_line hx, hmark]
    simp
  have hbody' : P.body = m ++ [newline] ++ a ++ v ++ (z ++ w) := by
    rw [hbody]
    simp only [List.append_assoc]
  calc marks (splice data _ _ value)
      = marks (P.before ++ P.header ++ (m ++ [newline] ++ (a ++ value ++ z) ++ w) ++ P.after) := by
        rw [P.splice_body hbody' value]
        simp only [List.append_assoc]
    _ = marks (P.before ++ P.header ++ P.body ++ P.after) := by
        rw [hmarks value hl', hbody, hmarks v hl]
    _ = marks data := by rw [← P.eq]

theorem replaceProjectField_marks {field value : Bytes} (hf : Begins field)
    (h : replaceProjectField data n i field value = .ok updated) : marks updated = marks data := by
  unfold replaceProjectField at h
  cases hb : projectBlockBounds data n i with
  | error e => simp [hb, bind, Except.bind] at h
  | ok r =>
    obtain ⟨start, stop⟩ := r
    obtain ⟨P, rfl, -, hslice⟩ := projectBlockBounds_ok hb
    simp only [hb, bind, Except.bind, hslice] at h
    split at h
    · next span hspan =>
      obtain rfl := Except.ok.inj h
      exact marks_splice_value P hf (Json.newline_encodeString value) (by simp [hspan])
    · simp [throw, throwThe, MonadExceptOf.throw] at h

theorem metadataFields_begins (p : Project) (input : ProjectMetadataUpdate) :
    ∀ field ∈ metadataFields p input, Begins field.name := by
  intro field hfield
  simp only [metadataFields, List.mem_cons, List.not_mem_nil, or_false] at hfield
  rcases hfield with rfl | rfl | rfl
  · exact ⟨_, _, rfl, by decide, by decide⟩
  · exact ⟨_, _, rfl, by decide, by decide⟩
  · exact ⟨_, _, rfl, by decide, by decide⟩

end Block

/-! ## Lines added at the end of a line -/

/-- What a text puts before its newlines. -/
structure Ending (nl : Bytes) where
  eol : Bytes
  eq : nl = eol ++ [newline]
  cases : eol = [] ∨ eol = [carriageReturn]

theorem exists_ending (data : Bytes) : Nonempty (Ending (newlineOf data)) := by
  unfold newlineOf
  split_ifs
  · exact ⟨⟨[carriageReturn], rfl, .inr rfl⟩⟩
  · exact ⟨⟨[], rfl, .inl rfl⟩⟩

namespace Ending

variable {nl : Bytes} (e : Ending nl)

theorem newline_notMem : newline ∉ e.eol := by
  rcases e.cases with h | h <;> rw [h] <;> decide

include e in
theorem marks_append {data : Bytes} (h : CrBeforeNewline data) :
    marks (data ++ nl) = marks data := by
  have heol : marks (data ++ e.eol) = marks data := by
    rcases e.cases with he | he
    · simp [he]
    · rw [he, marks_append_cr h]
  rw [e.eq, ← List.append_assoc, marks_append_newline, heol]
  simp

/-- The lines to add, each with the ending. -/
def text (ts : List Bytes) : Bytes := unlines (ts.map fun t => t ++ e.eol)

include e in
theorem lineStart_append (data : Bytes) : LineStart (data ++ nl) := by
  rw [e.eq, ← List.append_assoc]
  exact lineStart_append_newline _

theorem text_nil : e.text [] = [] := rfl

theorem text_cons (t : Bytes) (ts : List Bytes) : e.text (t :: ts) = t ++ nl ++ e.text ts := by
  simp [text, unlines, e.eq]

theorem intercalate_append (t : Bytes) (ts : List Bytes) :
    nl.intercalate (t :: ts) ++ nl = e.text (t :: ts) := by
  induction ts generalizing t with
  | nil => simp [e.text_cons, e.text_nil, List.intercalate]
  | cons t' ts ih => rw [List.intercalate_cons_cons, List.append_assoc, ih, e.text_cons t]

theorem marks_text {ts : List Bytes} (h : ∀ t ∈ ts, newline ∉ t) :
    marks (e.text ts) = ts.filterMap fun t => mark (t ++ e.eol) := by
  have hlines : ∀ l ∈ ts.map fun t => t ++ e.eol, newline ∉ l := by
    intro l hl
    obtain ⟨t, ht, rfl⟩ := List.mem_map.1 hl
    simp [h t ht, e.newline_notMem]
  rw [text, marks_unlines hlines, List.filterMap_map]
  rfl

/-- **Lines added where a line ends, or at the end of the text.** -/
theorem marks_insert {u w : Bytes} (hcr : CrBeforeNewline (u ++ w)) (hu : w = [] ∨ LineStart u)
    {ts : List Bytes} (h : ∀ t ∈ ts, newline ∉ t) :
    marks (splice (u ++ w) u.length u.length
      (if midLine (u ++ w) u.length then nl ++ e.text ts else e.text ts)) =
        marks u ++ (ts.filterMap fun t => mark (t ++ e.eol)) ++ marks w := by
  have hsplice : ∀ v, splice (u ++ w) u.length u.length v = u ++ v ++ w := by
    intro v
    simpa using splice_append u [] w v
  have hmid : midLine (u ++ w) u.length = false ↔ LineStart u := by
    rw [midLine, List.take_left]
    rcases List.eq_nil_or_concat u with rfl | ⟨m, c, rfl⟩
    · simp [LineStart]
    · simp [LineStart]
  have htext : LineStart (e.text ts) := lineStart_unlines _
  rw [hsplice]
  split_ifs with hm
  · -- the last line gets its ending first
    have hw : w = [] := by
      refine hu.resolve_right fun hs => ?_
      rw [hmid.2 hs] at hm
      exact absurd hm (by simp)
    subst hw
    rw [List.append_nil] at hcr ⊢
    rw [← List.append_assoc, marks_append_of_start (e.lineStart_append u), e.marks_append hcr,
      e.marks_text h]
    simp
  · have hs : LineStart u := hmid.1 (by simpa using hm)
    rw [marks_append_of_start (hs.append htext), marks_append_of_start hs, e.marks_text h]

/-- The mark of a line that begins with a field. -/
theorem mark_field_append {t field rest : Bytes} (hf : Begins field)
    (h : dropBlanks t = field ++ rest) : mark (t ++ e.eol) = none := by
  refine mark_field (t := rest ++ e.eol) hf ?_
  have hd : dropBlanks t ≠ [] := by
    obtain ⟨c, f, rfl, -, -⟩ := hf
    simp [h]
  rw [dropBlanks_append hd, h, List.append_assoc]

end Ending

/-! ## The edits -/

section Edits

variable {data updated : Bytes} {n i : ℕ}

/-- An offset at the beginning of a line or at the end of the text. -/
def LineAt (data : Bytes) (offset : ℕ) : Prop :=
  ∃ u w, data = u ++ w ∧ offset = u.length ∧ (w = [] ∨ LineStart u)

theorem Part.lineAt_stop (P : Part projectHeaderPattern data i) :
    LineAt data ((P.before ++ P.header).length + P.body.length) := by
  refine ⟨P.before ++ P.header ++ P.body, P.after, P.eq, ?_, P.after_or_start⟩
  simp only [List.length_append]

/-- The line that `replaceApproval` adds. -/
theorem marks_insert_approval {approval : Bytes} {k : ℕ} (hcr : CrBeforeNewline data)
    (happroval : newline ∉ approval) (hk : LineAt data k) :
    let line := str "approval = \"" ++ approval ++ [0x22] ++ newlineOf data
    marks (splice data k k (if midLine data k then newlineOf data ++ line else line)) =
      marks data := by
  obtain ⟨e⟩ := exists_ending data
  obtain ⟨u, w, hdata, rfl, hu⟩ := hk
  intro line
  generalize hfield : str "approval = \"" = field at line
  have hbegins : Begins field := hfield ▸ ⟨0x61, _, rfl, by decide, by decide⟩
  have hnl : newline ∉ field := hfield ▸ by decide +kernel
  have hline : ∀ t ∈ [field ++ approval ++ [0x22]], newline ∉ t := by
    have hquote : newline ∉ [(0x22 : UInt8)] := by decide
    intro t ht
    rw [List.mem_singleton.1 ht, List.mem_append, List.mem_append, not_or, not_or]
    exact ⟨⟨hnl, happroval⟩, hquote⟩
  have hmark : mark (field ++ approval ++ [0x22] ++ e.eol) = none := by
    have hd := dropBlanks_eq_self hbegins (approval ++ [0x22])
    rw [← List.append_assoc] at hd
    exact e.mark_field_append hbegins (hd.trans (List.append_assoc _ _ _))
  have hmarks := e.marks_insert (hdata ▸ hcr) hu hline
  rw [List.filterMap_cons_none (f := fun t => mark (t ++ e.eol)) hmark, List.filterMap_nil,
    e.text_cons, e.text_nil, List.append_nil, List.append_nil, ← hdata] at hmarks
  have hsplit : marks data = marks u ++ marks w := by
    rw [hdata]
    rcases hu with rfl | hu
    · simp
    · exact marks_append_of_start hu w
  rw [hsplit, ← hmarks, ← hfield]

theorem replaceApproval_marks (hcr : CrBeforeNewline data) {approval : Bytes}
    (happroval : newline ∉ approval) (h : replaceApproval data n i approval = .ok updated) :
    marks updated = marks data := by
  unfold replaceApproval at h
  cases hb : projectBlockBounds data n i with
  | error e => simp [hb, bind, Except.bind] at h
  | ok r =>
    obtain ⟨start, stop⟩ := r
    obtain ⟨P, rfl, rfl, hslice⟩ := projectBlockBounds_ok hb
    simp only [hb, bind, Except.bind, hslice] at h
    split at h
    · cases h
    · next span hspan =>
      obtain rfl := Except.ok.inj h
      have hbegins : Begins (str "approval") := ⟨0x61, _, rfl, by decide, by decide⟩
      have hmem : span ∈ findAllValues (str "approval") P.body := by simp [hspan]
      refine marks_splice_value P hbegins ?_ hmem
      have hquote : newline ≠ 0x22 := by decide
      simpa [hquote] using happroval
    · obtain rfl := Except.ok.inj h
      refine marks_insert_approval hcr happroval ?_
      split
      · -- before the first allowlist header of the block
        next header rest hallow =>
        obtain ⟨Q, ha, -, -⟩ :=
          @exists_part allowHeaderPattern (by decide +kernel) P.body 0 header.1
          header.2 (by simp [hallow])
        have hstop : LineStop (Q.before ++ Q.header ++ (Q.body ++ Q.after)) := by
          rw [← List.append_assoc, ← Q.eq]
          exact P.body_stop
        obtain ⟨m, hm⟩ := exists_newline_before hstop Q.start (Q.header_ne_nil (by decide +kernel))
          Q.line
        refine ⟨P.before ++ P.header ++ Q.before, Q.header ++ Q.body ++ Q.after ++ P.after, ?_, ?_,
          .inr ?_⟩
        · have heq := P.eq
          rw [Q.eq] at heq
          simpa using heq
        · rw [ha]
          simp only [List.length_append]
        · rw [hm, ← List.append_assoc]
          exact lineStart_append_newline _
      · exact P.lineAt_stop

theorem newline_argvLine (argv : List Bytes) : newline ∉ str "  argv = " ++ encodeArgv argv := by
  have hfield : newline ∉ str "  argv = " := by decide +kernel
  have hargv : newline ∉ encodeArgv argv := by
    refine Json.newline_encodeArray fun t ht => ?_
    obtain ⟨s, -, rfl⟩ := List.mem_map.1 ht
    exact Json.newline_encodeString s
  simp only [List.mem_append, not_or]
  exact ⟨hfield, hargv⟩

namespace Ending

variable {nl : Bytes} (e : Ending nl)

theorem mark_allow : mark (str "  [[projects.allow]]" ++ e.eol) = some .allow := by
  rcases e.cases with he | he <;> rw [he] <;> decide +kernel

theorem isRest_append {s : Bytes} (h : carriageReturn ∉ s) : isRest (s ++ e.eol) = true := by
  have hdrop : (s ++ e.eol).dropWhile (fun c => c != carriageReturn) =
      e.eol.dropWhile fun c => c != carriageReturn := by
    refine List.dropWhile_append_of_pos fun c hc => ?_
    simp only [bne_iff_ne, ne_eq]
    rintro rfl
    exact h hc
  rw [isRest, hdrop]
  rcases e.cases with he | he <;> rw [he] <;> decide

/-- A control character in an argument is escaped, so the line is an `argv` field whatever the
arguments are. -/
theorem argvPattern_argvLine (argv : List Bytes) :
    argvPattern (str "  argv = " ++ encodeArgv argv ++ e.eol) = true := by
  have hcr : carriageReturn ∉ encodeArgv argv := by
    intro hmem
    have hle := Json.le_of_mem_encodeArray (fun t ht => ?_) _ hmem
    · exact absurd hle (by decide)
    · obtain ⟨s, -, rfl⟩ := List.mem_map.1 ht
      exact Json.le_of_mem_encodeString s
  have hrest : isRest (str " " ++ encodeArgv argv ++ e.eol) = true := by
    refine e.isRest_append fun hmem => ?_
    rcases List.mem_append.1 hmem with hblank | hmem
    · exact absurd hblank (by decide)
    · exact hcr hmem
  have hline : dropBlanks (str "  argv = " ++ encodeArgv argv ++ e.eol) =
      str "argv" ++ (str " = " ++ encodeArgv argv ++ e.eol) := by
    rw [List.append_assoc, dropBlanks_append (by decide +kernel)]
    rfl
  have hvalue : dropBlanks (str " = " ++ encodeArgv argv ++ e.eol) =
      0x3D :: (str " " ++ encodeArgv argv ++ e.eol) := by
    rw [List.append_assoc, dropBlanks_append (by decide +kernel)]
    rfl
  have hname : (str "argv").isPrefixOf? (str "argv" ++ (str " = " ++ encodeArgv argv ++ e.eol)) =
      some (str " = " ++ encodeArgv argv ++ e.eol) :=
    List.isPrefixOf?_eq_some_iff_append_eq.2 rfl
  simp only [argvPattern, hline, hname, hvalue, hrest]
  rfl

end Ending

theorem insertAllowEntry_marks (hcr : CrBeforeNewline data) {allowCount : ℕ} {argv : List Bytes}
    (h : insertAllowEntry data n i allowCount argv = .ok updated) :
    ∃ P : Part projectHeaderPattern data i, (marks P.body).length = allowCount ∧
      marks updated = marks P.before ++ .project :: (marks P.body ++ [.allow]) ++
        marks P.after := by
  unfold insertAllowEntry at h
  cases hb : projectBlockBounds data n i with
  | error e => simp [hb, bind, Except.bind] at h
  | ok r =>
    obtain ⟨start, stop⟩ := r
    obtain ⟨P, rfl, rfl, hslice⟩ := projectBlockBounds_ok hb
    simp only [hb, bind, Except.bind, hslice] at h
    by_cases hcount : (findAllIndex allowHeaderPattern P.body).length = allowCount
    swap
    · simp [hcount, throw, throwThe, MonadExceptOf.throw] at h
    simp only [hcount, ne_eq, not_true_eq_false, if_false] at h
    obtain rfl := Except.ok.inj h
    refine ⟨P, P.length_marks_body.trans hcount, ?_⟩
    obtain ⟨e⟩ := exists_ending data
    have hlines : ∀ t ∈ [str "  [[projects.allow]]", str "  argv = " ++ encodeArgv argv],
        newline ∉ t := by
      have h₁ : newline ∉ str "  [[projects.allow]]" := by decide +kernel
      have h₂ := newline_argvLine argv
      simp [h₁, h₂]
    have hallow := e.mark_allow
    have hargv := mark_argv (e.argvPattern_argvLine argv)
    have hmarks := e.marks_insert (P.eq ▸ hcr) P.after_or_start hlines
    rw [List.filterMap_cons_some (f := fun t => mark (t ++ e.eol)) hallow,
      List.filterMap_cons_none (f := fun t => mark (t ++ e.eol)) hargv, List.filterMap_nil,
      ← P.eq, P.marks_upto, e.text_cons, e.text_cons, e.text_nil, List.append_nil] at hmarks
    simpa [Nat.add_assoc] using hmarks

/-- What `appendProject` puts before the new block: the last line ends, and an empty line
follows. -/
theorem appendProject_padding (hcr : CrBeforeNewline data) {nl : Bytes} (e : Ending nl) :
    let ended := if data ≠ [] ∧ ¬ nl <:+ data then data ++ nl else data
    let padded := if ended ≠ [] ∧ ¬ (nl ++ nl) <:+ ended then ended ++ nl else ended
    marks padded = marks data ∧ LineStart padded := by
  intro ended padded
  have hnl : marks nl = [] := by
    rw [e.eq, ← List.nil_append (e.eol ++ _)]
    rcases e.cases with he | he <;> rw [he] <;> decide +kernel
  have hended : marks ended = marks data ∧ LineStart ended := by
    by_cases h : data ≠ [] ∧ ¬ nl <:+ data
    · simp only [ended, if_pos h]
      exact ⟨e.marks_append hcr, e.lineStart_append data⟩
    · simp only [ended, if_neg h, true_and]
      rw [not_and_or, not_not, not_not] at h
      rcases h with h | ⟨u, rfl⟩
      · exact .inl h
      · exact e.lineStart_append u
  by_cases h : ended ≠ [] ∧ ¬ (nl ++ nl) <:+ ended
  · simp only [padded, if_pos h]
    refine ⟨?_, e.lineStart_append ended⟩
    rw [marks_append_of_start hended.2, hnl, List.append_nil, hended.1]
  · simpa only [padded, if_neg h] using hended

theorem appendProject_marks (hcr : CrBeforeNewline data) (project : Project) :
    marks (appendProject data project) = marks data ++ [.project] := by
  obtain ⟨e⟩ := exists_ending data
  obtain ⟨hpadded, hstart⟩ := appendProject_padding hcr e
  unfold appendProject
  dsimp only
  rw [List.append_assoc, e.intercalate_append, marks_append_of_start hstart, hpadded]
  refine congrArg (marks data ++ ·) ?_
  -- six lines, of which the first is a header and the others begin with a field
  have hfield : ∀ {field : Bytes} (value : Bytes), Begins field →
      mark (field ++ value ++ e.eol) = none :=
    fun value hf => e.mark_field_append hf (dropBlanks_eq_self hf value)
  have hheader : mark (str "[[projects]]" ++ e.eol) = some .project := by
    rcases e.cases with he | he <;> rw [he] <;> decide +kernel
  have hnl : ∀ s, newline ∉ Json.encodeString s := Json.newline_encodeString
  have hconst : ∀ f ∈ [str "[[projects]]", str "alias = ", str "bws_project_id = ",
      str "token_entry = ", str "working_dir = ", str "approval = \"",
      Config.ApprovalAllowlistedPrompt, str "\""], newline ∉ f := by decide +kernel
  rw [e.marks_text]
  · rw [List.filterMap_cons_some (f := fun t => mark (t ++ e.eol)) hheader]
    refine congrArg (List.cons Mark.project) (List.filterMap_eq_nil_iff.2 fun t ht => ?_)
    simp only [List.mem_cons, List.not_mem_nil, or_false] at ht
    rcases ht with rfl | rfl | rfl | rfl | rfl
    · exact hfield _ ⟨_, _, rfl, by decide, by decide⟩
    · exact hfield _ ⟨_, _, rfl, by decide, by decide⟩
    · exact hfield _ ⟨_, _, rfl, by decide, by decide⟩
    · exact hfield _ ⟨_, _, rfl, by decide, by decide⟩
    · rw [List.append_assoc (str "approval = \"")]
      exact hfield _ ⟨_, _, rfl, by decide, by decide⟩
  · intro t ht
    simp only [List.mem_cons, List.not_mem_nil, or_false, forall_eq_or_imp, forall_eq] at ht hconst
    rcases ht with rfl | rfl | rfl | rfl | rfl | rfl <;> simp [hconst, hnl]

/-- **The removal of a project cuts its block with the header line.** -/
theorem removeProjectSpan_ok (h : removeProjectSpan data n i = .ok updated) :
    ∃ P : Part projectHeaderPattern data i, updated = P.before ++ P.after := by
  obtain ⟨⟨header, stop⟩, hheader, h⟩ := bind_eq_ok.1 h
  obtain ⟨P, rfl, rfl⟩ := projectHeader_ok hheader
  obtain rfl := Except.ok.inj h
  have hsplice := splice_append P.before (P.header ++ P.body) P.after []
  rw [← List.append_assoc P.before, ← P.eq, List.append_nil] at hsplice
  refine ⟨P, ?_⟩
  rw [← hsplice]
  simp [Nat.add_assoc]

theorem removeProjectSpan_marks (h : removeProjectSpan data n i = .ok updated) :
    ∃ P : Part projectHeaderPattern data i, marks updated = marks P.before ++ marks P.after := by
  obtain ⟨P, rfl⟩ := removeProjectSpan_ok h
  exact ⟨P, marks_append_of_start P.start P.after⟩

end Edits

/-! ## Lines cut out -/

/-- A span of `removeAllowEntries`: a line of the text between two offsets, with its newline. -/
structure LineSpan (data : Bytes) (lo hi : ℕ) (span : ℕ × ℕ) (l : Bytes) : Prop where
  cut : ∃ u w, data = u ++ l ++ w ∧ LineStart u ∧ LineStop w ∧ lo ≤ u.length ∧
    span = (u.length, consumeNewline data (u.length + l.length))
  ne_nil : l ≠ []
  line : newline ∉ l
  le : span.2 ≤ hi

theorem LineStart.of_append {u v : Bytes} (h : LineStart (u ++ v)) : LineStart v := by
  rcases List.eq_nil_or_concat v with rfl | ⟨v, c, rfl⟩
  · exact .inl rfl
  · rcases h with h | ⟨m, hm⟩
    · simp at h
    · obtain rfl : c = newline := by simpa using congrArg List.getLast? hm
      exact .inr ⟨v, by simp⟩

theorem consumeNewline_append (u w : Bytes) : consumeNewline (u ++ w) u.length =
    if w.head? = some newline then u.length + 1 else u.length := by
  rw [consumeNewline, List.getElem?_append_right (Nat.le_refl _), Nat.sub_self,
    List.head?_eq_getElem?]

/-- What a span cuts: the line and, unless the text ends there, its newline. -/
theorem LineSpan.exists_rest {data l : Bytes} {lo hi : ℕ} {span : ℕ × ℕ}
    (h : LineSpan data lo hi span l) : ∃ u z w, data = u ++ (l ++ z) ++ w ∧ LineStart u ∧
      lo ≤ u.length ∧ span = (u.length, (u ++ (l ++ z)).length) ∧
      (z = [newline] ∨ z = [] ∧ w = []) := by
  obtain ⟨u, w, hdata, hu, hw, hlo, rfl⟩ := h.cut
  have hstop : consumeNewline data (u.length + l.length) =
      if w.head? = some newline then (u ++ l).length + 1 else (u ++ l).length := by
    rw [hdata, ← List.length_append, consumeNewline_append]
  rcases hw with rfl | ⟨v, rfl⟩
  · refine ⟨u, [], [], by simpa using hdata, hu, hlo, ?_, .inr ⟨rfl, rfl⟩⟩
    rw [hstop]
    simp
  · refine ⟨u, [newline], v, by simpa using hdata, hu, hlo, ?_, .inl rfl⟩
    rw [hstop]
    simp [Nat.add_assoc]

/-- **The cut loop takes the marks of the lines it cuts, and no others.** The text is `c ++ r ++ a`;
the cursor stands after `c`, and all spans are in `r`. -/
theorem cutSpans_marks {data a : Bytes} {lo hi : ℕ} {spans : List (ℕ × ℕ)} {ls : List Bytes}
    (h : List.Forall₂ (LineSpan data lo hi) spans ls) {c r result : Bytes}
    (hdata : data = c ++ r ++ a) (hhi : hi = (c ++ r).length) (hc : LineStart c ∨ r = [])
    (ha : a = [] ∨ LineStart (c ++ r)) (hcut : cutSpans data c.length spans = .ok result) :
    ∃ ms, marks result = ms ++ marks a ∧ ms.Sublist (marks r) ∧
      ms.length + (ls.filterMap mark).length = (marks r).length := by
  induction h generalizing c r result with
  | nil =>
    obtain rfl : r ++ a = result := by
      have hdrop : data.drop c.length = r ++ a := by rw [hdata, List.append_assoc, List.drop_left]
      simpa [cutSpans, hdrop] using hcut
    refine ⟨marks r, ?_, List.Sublist.refl _, by simp⟩
    rcases ha with rfl | ha
    · simp
    · exact marks_append_of_start ha.of_append a
  | @cons span l spans ls hspan hrest ih =>
    obtain ⟨u, z, w, hsplit, hu, -, rfl, hz⟩ := hspan.exists_rest
    rw [cutSpans] at hcut
    split_ifs at hcut with hlt
    obtain ⟨rest, hcut', hres⟩ := bind_eq_ok.1 hcut
    obtain rfl := Except.ok.inj hres
    -- the line begins behind the cursor and ends before the end of `r`
    obtain ⟨v, rfl⟩ : c <+: u := by
      have h₁ : c <+: data := ⟨r ++ a, by simp [hdata]⟩
      have h₂ : u <+: data := ⟨l ++ z ++ w, by simp [hsplit]⟩
      exact List.prefix_of_prefix_length_le h₁ h₂ (Nat.le_of_not_lt hlt)
    obtain ⟨r', rfl⟩ : v ++ (l ++ z) <+: r := by
      have heq : r ++ a = v ++ (l ++ z) ++ w := by
        have := hdata.symm.trans hsplit
        simpa using this
      have h₁ : v ++ (l ++ z) <+: r ++ a := ⟨w, heq.symm⟩
      have h₂ : r <+: r ++ a := List.prefix_append _ _
      refine List.prefix_of_prefix_length_le h₁ h₂ ?_
      have hle := hspan.le
      rw [hhi] at hle
      simp only [List.length_append] at hle ⊢
      omega
    have hw : w = r' ++ a := by
      have := hsplit.symm.trans hdata
      simpa using this
    have hnext : LineStart (c ++ v ++ (l ++ z)) ∨ r' = [] := by
      rcases hz with rfl | ⟨-, rfl⟩
      · refine .inl ?_
        rw [← List.append_assoc]
        exact lineStart_append_newline _
      · exact .inr (List.append_eq_nil_iff.1 hw.symm).1
    obtain ⟨ms, hms, hsub, hlen⟩ := ih (c := c ++ v ++ (l ++ z)) (r := r') (by simpa using hdata)
      (by simpa using hhi) hnext (by simpa using ha) hcut'
    have hv : LineStart v := hu.of_append
    have hmarks : marks (v ++ (l ++ z) ++ r') = marks v ++ ((mark l).toList ++ marks r') := by
      rw [List.append_assoc, marks_append_of_start hv, ← marks_line hspan.line]
      rcases hz with rfl | ⟨rfl, rfl⟩
      · rw [List.append_assoc, List.singleton_append, marks_append_newline]
      · obtain rfl := (List.append_eq_nil_iff.1 hw.symm).1
        simp
    have hslice : slice data c.length (c ++ v).length = v := by
      have := slice_append c v (l ++ z ++ r' ++ a)
      rw [← List.length_append] at this
      simpa [hdata] using this
    refine ⟨marks v ++ ms, ?_, ?_, ?_⟩
    · rw [hslice, marks_append_of_start hv, hms, List.append_assoc]
    · rw [hmarks]
      exact (List.Sublist.refl _).append (hsub.trans (List.sublist_append_right _ _))
    · rw [hmarks, List.filterMap_cons]
      cases hm : mark l with
      | none =>
        simp only [Option.toList_none, List.nil_append, List.length_append]
        omega
      | some m =>
        simp only [Option.toList_some, List.length_append, List.length_cons, List.length_nil]
        omega

section Entries

variable {data : Bytes} {i : ℕ} (P : Part projectHeaderPattern data i)

/-- The offset where the block of a project begins: the end of its header line. -/
def Part.offset : ℕ := (P.before ++ P.header).length

/-- A line of the block of a project is a line of the text. -/
theorem Part.lineSpan {u l w : Bytes} (hbody : P.body = u ++ l ++ w) (hu : LineStart u)
    (hw : LineStop w) (hne : l ≠ []) (hl : newline ∉ l) :
    LineSpan data (P.offset + 1) (P.offset + P.body.length)
      (P.offset + u.length, consumeNewline data (P.offset + u.length + l.length)) l := by
  obtain ⟨m, hm⟩ := exists_newline_before (hbody ▸ P.body_stop) hu hne hl
  have hdata : data = P.before ++ P.header ++ u ++ l ++ (w ++ P.after) := by
    have heq := P.eq
    rw [hbody] at heq
    simpa using heq
  have hlen : P.offset + u.length = (P.before ++ P.header ++ u).length := by
    simp only [Part.offset, List.length_append]
  have hstop : LineStop (w ++ P.after) := by
    refine lineStop_append (u := u) hw hne hl ?_
    rcases P.next with hafter | ⟨hend, -⟩
    · exact .inl hafter
    · exact .inr (hbody ▸ hend)
  refine ⟨⟨P.before ++ P.header ++ u, w ++ P.after, hdata, ?_, hstop, ?_, ?_⟩, hne, hl, ?_⟩
  · rw [hm, ← List.append_assoc]
    exact lineStart_append_newline _
  · rw [← hlen, hm, List.length_append, List.length_singleton]
    omega
  · rw [hlen]
  · -- the newline behind the line belongs to the block: the next block does not begin with one
    have hconsume : consumeNewline data (P.offset + u.length + l.length) =
        if (w ++ P.after).head? = some newline then P.offset + u.length + l.length + 1
        else P.offset + u.length + l.length := by
      have h := consumeNewline_append (P.before ++ P.header ++ u ++ l) (w ++ P.after)
      rwa [← hdata, List.length_append, ← hlen] at h
    have hbodylen : P.body.length = u.length + l.length + w.length := by
      rw [hbody, List.length_append, List.length_append]
    rcases hw with rfl | ⟨v, rfl⟩
    · have hhead : P.after.head? ≠ some newline := by
        rcases P.next with hafter | ⟨-, h, w, hafter, hh, hmatch, -⟩
        · simp [hafter]
        · cases h with
          | nil => exact absurd hmatch (by decide +kernel)
          | cons c h =>
            rw [hafter]
            simpa using (List.ne_of_not_mem_cons hh).symm
      rw [hconsume, if_neg (by simpa using hhead)]
      omega
    · rw [List.length_cons] at hbodylen
      rw [hconsume]
      split_ifs <;> omega

/-- The two spans of an entry: the line of the header with this index in the block, and the only
`argv` line up to the next header, each with its newline. -/
def EntryLines (index : ℕ) (e : (ℕ × ℕ) × (ℕ × ℕ)) : Prop :=
  ∃ (Q : Part allowHeaderPattern P.body index) (R : Part argvPattern Q.body 0),
    LineSpan data (P.offset + 1) (P.offset + P.body.length) e.1 Q.header ∧
    LineSpan data (P.offset + 1) (P.offset + P.body.length) e.2 R.header ∧
    e.1.1 = P.offset + Q.before.length ∧
    e.2.1 = P.offset + (Q.before ++ Q.header).length + R.before.length ∧
    (findAllIndex argvPattern Q.body).length = 1

theorem allowEntrySpans_ok {index : ℕ} {spans : List (ℕ × ℕ)}
    (h : allowEntrySpans data P.body P.offset (findAllIndex allowHeaderPattern P.body) index =
      .ok spans) : ∃ e, spans = [e.1, e.2] ∧ EntryLines P index e := by
  unfold allowEntrySpans at h
  split at h
  · simp at h
  · next header hheader =>
    obtain ⟨Q, hfst, hsnd, hend⟩ := exists_part (by decide +kernel) hheader
    have hslice : slice P.body header.2
        (((findAllIndex allowHeaderPattern P.body)[index + 1]?.map Prod.fst).getD P.body.length) =
          Q.body := by
      have hs := slice_append (Q.before ++ Q.header) Q.body Q.after
      rw [← Q.eq, List.length_append] at hs
      rwa [hend, hsnd]
    simp only [hslice] at h
    split at h
    · next argv hargv =>
      obtain rfl := Except.ok.inj h
      obtain ⟨R, hfst', hsnd', -⟩ := @exists_part argvPattern (by decide +kernel) Q.body 0 argv.1
        argv.2 (by simp [hargv])
      have hQne := Q.header_ne_nil (by decide +kernel)
      have hRne := R.header_ne_nil (by decide +kernel)
      refine ⟨(_, _), rfl, Q, R, ?_, ?_, by simp only [hfst], ?_, by rw [hargv]; rfl⟩
      · have hbody : P.body = Q.before ++ Q.header ++ (Q.body ++ Q.after) := by
          rw [← List.append_assoc, ← Q.eq]
        have hspan := P.lineSpan hbody Q.start Q.rest_stop hQne Q.line
        rwa [hfst, hsnd, ← Nat.add_assoc]
      · have hQbody : Q.body = R.before ++ R.header ++ (R.body ++ R.after) := by
          rw [← List.append_assoc, ← R.eq]
        obtain ⟨m, hm⟩ := exists_newline_before (hQbody ▸ Q.body_stop) R.start hRne R.line
        have hbody : P.body =
            Q.before ++ Q.header ++ R.before ++ R.header ++ (R.body ++ R.after ++ Q.after) := by
          have heq := Q.eq
          rw [hQbody] at heq
          simpa using heq
        have hstart : LineStart (Q.before ++ Q.header ++ R.before) := by
          rw [hm, ← List.append_assoc]
          exact lineStart_append_newline _
        have hstop : LineStop (R.body ++ R.after ++ Q.after) := by
          refine lineStop_append (u := R.before) R.rest_stop hRne R.line ?_
          rcases Q.next with hafter | ⟨hlast, -⟩
          · exact .inl hafter
          · exact .inr (hQbody ▸ hlast)
        have hspan := P.lineSpan hbody hstart hstop hRne R.line
        rw [hsnd, hfst', hsnd']
        simpa [Nat.add_assoc] using hspan
      · rw [hsnd, hfst', List.length_append]
    · simp at h

/-- The entries of `removeAllowEntries`, one for each index. -/
theorem mapM_allowEntrySpans_eq {remove : List ℕ} {spans : List (List (ℕ × ℕ))}
    (h : remove.mapM (allowEntrySpans data P.body P.offset
      (findAllIndex allowHeaderPattern P.body)) = .ok spans) :
    ∃ entries, spans.flatten = (entries.flatMap fun e => [e.1, e.2]) ∧
      List.Forall₂ (EntryLines P) remove entries := by
  have hspans := forall₂_of_mapM h
  clear h
  induction hspans with
  | nil => exact ⟨[], rfl, .nil⟩
  | cons hfirst _ ih =>
    obtain ⟨e, rfl, he⟩ := allowEntrySpans_ok P hfirst
    obtain ⟨entries, hflat, hentries⟩ := ih
    exact ⟨e :: entries, by simp [hflat], .cons he hentries⟩

theorem mapM_allowEntrySpans_ok {remove : List ℕ} {spans : List (List (ℕ × ℕ))}
    (h : remove.mapM (allowEntrySpans data P.body P.offset
      (findAllIndex allowHeaderPattern P.body)) = .ok spans) :
    ∃ ls, List.Forall₂ (LineSpan data (P.offset + 1) (P.offset + P.body.length)) spans.flatten ls ∧
      (ls.filterMap mark).length = remove.length := by
  obtain ⟨entries, hflat, hentries⟩ := mapM_allowEntrySpans_eq P h
  rw [hflat]
  clear h hflat
  induction hentries with
  | nil => exact ⟨[], .nil, rfl⟩
  | cons he _ ih =>
    obtain ⟨Q, R, hheader, hargv, -⟩ := he
    obtain ⟨ls, hls, hlen⟩ := ih
    refine ⟨[Q.header, R.header] ++ ls, List.rel_append (.cons hheader (.cons hargv .nil)) hls, ?_⟩
    simp [mark_eq_allow.2 Q.matched, mark_argv R.matched, hlen]

/-- The cut from the beginning is the cut from a cursor before the first span. -/
theorem cutSpans_zero {c : ℕ} {span : ℕ × ℕ} {spans : List (ℕ × ℕ)} (hc : c ≤ span.1)
    {result : Bytes} (h : cutSpans data 0 (span :: spans) = .ok result) :
    ∃ r, cutSpans data c (span :: spans) = .ok r ∧ result = data.take c ++ r := by
  rw [cutSpans, if_neg (Nat.not_lt_zero _)] at h
  obtain ⟨rest, hrest, h⟩ := bind_eq_ok.1 h
  obtain rfl := Except.ok.inj h
  refine ⟨slice data c span.1 ++ rest, ?_, ?_⟩
  · rw [cutSpans, if_neg (Nat.not_lt.2 hc), hrest]
    rfl
  · have htake : data.take c = (data.take span.1).take c := by
      rw [List.take_take, Nat.min_eq_left hc]
    rw [← List.append_assoc, htake, slice, slice, List.drop_zero, List.take_append_drop]

theorem removeAllowEntries_marks {updated : Bytes} {n allowCount : ℕ} {remove : List ℕ}
    (hne : remove ≠ []) (h : removeAllowEntries data n i allowCount remove = .ok updated) :
    ∃ (P : Part projectHeaderPattern data i) (ms : List Mark), (marks P.body).length = allowCount ∧
      marks updated = marks P.before ++ .project :: ms ++ marks P.after ∧ Mark.project ∉ ms ∧
      ms.length + remove.length = allowCount := by
  obtain ⟨⟨start, stop⟩, hb, h⟩ := bind_eq_ok.1 h
  obtain ⟨P, rfl, rfl, hslice⟩ := projectBlockBounds_ok hb
  simp only [hslice] at h
  by_cases hcount : (findAllIndex allowHeaderPattern P.body).length = allowCount
  swap
  · simp [hcount, throw, throwThe, MonadExceptOf.throw, bind, Except.bind] at h
  rw [if_neg (not_not.2 hcount)] at h
  obtain ⟨spans, hspans, h⟩ := bind_eq_ok.1 h
  have hallow : (marks P.body).length = allowCount := P.length_marks_body.trans hcount
  obtain ⟨ls, hls, hlen⟩ := mapM_allowEntrySpans_ok P hspans
  cases hflat : spans.flatten with
  | nil =>
    rw [hflat] at hls
    cases hls
    exact absurd (List.length_eq_zero_iff.1 hlen.symm) hne
  | cons span rest =>
    rw [hflat] at h hls
    have hspan : P.offset + 1 ≤ span.1 ∧ span.1 < span.2 ∧ span.2 ≤ P.offset + P.body.length := by
      cases hls with
      | cons hspan _ =>
        obtain ⟨u, z, w, -, -, hlo, rfl, -⟩ := hspan.exists_rest
        refine ⟨hlo, ?_, hspan.le⟩
        have := List.length_pos_iff.2 hspan.ne_nil
        simp only [List.length_append]
        omega
    -- so the block is not empty, and the cut begins behind its header line
    obtain ⟨b, hbody⟩ : ∃ b, P.body = newline :: b := by
      rcases P.body_stop with hnil | hb
      · rw [hnil] at hspan
        simp only [List.length_nil] at hspan
        omega
      · exact hb
    have hdata : data = P.before ++ P.header ++ [newline] ++ b ++ P.after := by
      have heq := P.eq
      rw [hbody] at heq
      simpa using heq
    have hc : (P.before ++ P.header ++ [newline]).length = P.offset + 1 := by
      simp only [Part.offset, List.length_append, List.length_singleton]
    obtain ⟨r, hcut, rfl⟩ := cutSpans_zero hspan.1 h
    have hstart : LineStart (P.before ++ P.header ++ [newline]) := lineStart_append_newline _
    have hafter : P.after = [] ∨ LineStart (P.before ++ P.header ++ [newline] ++ b) := by
      have := P.after_or_start
      rw [hbody] at this
      simpa using this
    have htake : data.take (P.offset + 1) = P.before ++ P.header ++ [newline] := by
      have hpre : P.before ++ P.header ++ [newline] <+: data :=
        ⟨b ++ P.after, by rw [← List.append_assoc, ← hdata]⟩
      rw [← hc]
      exact (List.prefix_iff_eq_take.1 hpre).symm
    have hhi : P.offset + P.body.length = (P.before ++ P.header ++ [newline] ++ b).length := by
      rw [List.length_append, hc, hbody, List.length_cons]
      omega
    obtain ⟨ms, hms, hsub, hmslen⟩ :=
      cutSpans_marks hls hdata hhi (.inl hstart) hafter (hc ▸ hcut)
    have hmarks : marks P.body = marks b := by
      rw [hbody, ← List.nil_append (newline :: b), marks_append_newline]
      simp
    have hopen : marks (P.before ++ P.header ++ [newline]) = marks P.before ++ [.project] := by
      rw [marks_append_of_stop _ (.inr ⟨[], rfl⟩), marks_append_of_start P.start, P.marks_header,
        ← List.nil_append [newline], marks_append_newline]
      simp
    refine ⟨P, ms, hallow, ?_, ?_, ?_⟩
    · rw [htake, marks_append_of_start hstart, hopen, hms]
      simp
    · exact fun hm => P.project_notMem_body (hmarks ▸ hsub.subset hm)
    · rw [← hallow, hmarks, ← hlen, hmslen]

end Entries

end SecretsBroker.Admin
