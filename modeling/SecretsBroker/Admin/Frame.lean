import SecretsBroker.Admin.Relayout

/-!
# The byte frame of policy edits

What the edits of a policy text leave alone, byte by byte. `FindAllIndex` on a text that is put
together at line ends is put together as well (`findAllIndex_append_newline`), so the bounds of a
block can be computed from a `Part` (`Part.bounds`) and are found again after an edit of the block.
`edits_framed` collects the results: an edit of a project replaces its block and keeps every byte
outside; the removal of entries keeps every byte but two whole lines for each entry; the removal of
a project cuts its block with the header line; a new project is appended.
-/

namespace SecretsBroker.Admin

open Fallible

/-! ## Matches in a text that is put together -/

/-- A span, moved by an offset. -/
def shift (k : ℕ) (s : ℕ × ℕ) : ℕ × ℕ := (k + s.1, k + s.2)

@[simp] theorem shift_zero (s : ℕ × ℕ) : shift 0 s = s := by simp [shift]

theorem map_shift_shift (j k : ℕ) (l : List (ℕ × ℕ)) :
    (l.map (shift j)).map (shift k) = l.map (shift (k + j)) := by
  simp [shift, Nat.add_assoc]

theorem lines_add (k o : ℕ) (ls : List Bytes) :
    lines (k + o) ls = (lines o ls).map fun l => (k + l.1, l.2) := by
  induction ls generalizing o with
  | nil => rfl
  | cons l ls ih => simp [lines, Nat.add_assoc, ih]

theorem unlines_splitOn (v : Bytes) : unlines (v.splitOn newline) = v ++ [newline] := by
  cases hs : v.splitOn newline using List.reverseRecOn with
  | nil => exact absurd hs (List.splitOn_ne_nil newline v)
  | append_singleton as l =>
    have hv := eq_of_splitOn hs
    rw [unlines_append, unlines_cons, hv]
    simp [unlines, followed]

theorem findAllIndex_append_newline (p : Bytes → Bool) (v w : Bytes) :
    findAllIndex p (v ++ newline :: w) =
      findAllIndex p v ++ (findAllIndex p w).map (shift (v.length + 1)) := by
  have hlines : linesOf (v ++ newline :: w) =
      linesOf v ++ (linesOf w).map fun l => (v.length + 1 + l.1, l.2) := by
    have hlen : (unlines (v.splitOn newline)).length = v.length + 1 := by simp [unlines_splitOn]
    rw [linesOf, List.splitOn_append_cons_self, lines_append, hlen, Nat.zero_add,
      ← Nat.add_zero (v.length + 1), lines_add]
    rfl
  simp only [findAllIndex, hlines, List.filter_append, List.map_append, List.filter_map,
    List.map_map]
  congr 1
  simp [shift, Function.comp_def, Nat.add_assoc]

section Matches

variable {p : Bytes → Bool}

theorem findAllIndex_eq_nil_iff {s : Bytes} :
    findAllIndex p s = [] ↔ ∀ l ∈ s.splitOn newline, p l = false := by
  rw [← List.length_eq_zero_iff, length_findAllIndex, List.countP_eq_zero]
  simp

theorem findAllIndex_line {l : Bytes} (h : newline ∉ l) :
    findAllIndex p l = if p l then [(0, l.length)] else [] := by
  rw [findAllIndex, linesOf, List.splitOn_eq_singleton h]
  by_cases hp : p l = true <;> simp [lines, hp]

variable (hp : p [] = false)
include hp

theorem findAllIndex_nil : findAllIndex p [] = [] := by
  rw [findAllIndex_line (by simp), hp]
  rfl

theorem findAllIndex_of_start {u : Bytes} (hu : LineStart u) (w : Bytes) :
    findAllIndex p (u ++ w) = findAllIndex p u ++ (findAllIndex p w).map (shift u.length) := by
  rcases hu with rfl | ⟨v, rfl⟩
  · simp [findAllIndex_nil hp, show shift 0 = fun s => s from funext shift_zero]
  · rw [List.append_assoc, List.singleton_append, findAllIndex_append_newline,
      findAllIndex_append_newline p v [], findAllIndex_nil hp]
    simp

theorem findAllIndex_of_stop (u : Bytes) {w : Bytes} (hw : LineStop w) :
    findAllIndex p (u ++ w) = findAllIndex p u ++ (findAllIndex p w).map (shift u.length) := by
  rcases hw with rfl | ⟨v, rfl⟩
  · simp [findAllIndex_nil hp]
  · rw [findAllIndex_append_newline, ← List.nil_append (newline :: v),
      findAllIndex_append_newline p [] v, findAllIndex_nil hp, List.nil_append, map_shift_shift]
    rfl

/-- A line between two texts. -/
theorem findAllIndex_around {u l w : Bytes} (hu : LineStart u) (hl : newline ∉ l)
    (hw : LineStop w) : findAllIndex p (u ++ l ++ w) = findAllIndex p u ++
      (if p l then [(u.length, (u ++ l).length)] else []) ++
        (findAllIndex p w).map (shift (u ++ l).length) := by
  rw [findAllIndex_of_stop hp _ hw, findAllIndex_of_start hp hu, findAllIndex_line hl]
  congr 2
  split_ifs <;> simp [shift]

variable {data : Bytes} {i : ℕ}

/-- **The matches of a text from one of its parts.** -/
theorem Part.findAllIndex_eq (P : Part p data i) : findAllIndex p data =
    findAllIndex p P.before ++ (P.before.length, (P.before ++ P.header).length) ::
      (findAllIndex p P.after).map (shift (P.before ++ P.header ++ P.body).length) := by
  have hrest : findAllIndex p (P.body ++ P.after) =
      (findAllIndex p P.after).map (shift P.body.length) := by
    have hbody := findAllIndex_eq_nil_iff.2 P.body_free
    rcases P.next with hafter | ⟨⟨m, hm⟩, -⟩
    · rw [hafter, List.append_nil, hbody, findAllIndex_nil hp]
      rfl
    · rw [findAllIndex_of_start hp (hm ▸ lineStart_append_newline m), hbody, List.nil_append]
  conv_lhs => rw [P.eq, List.append_assoc (P.before ++ P.header)]
  rw [findAllIndex_around hp P.start P.line P.rest_stop, if_pos P.matched, hrest, map_shift_shift]
  simp [Nat.add_assoc]

theorem Part.head_after (P : Part p data i) :
    ((findAllIndex p P.after).head?).map Prod.fst = if P.after = [] then none else some 0 := by
  rcases P.next with hafter | ⟨-, h, w, hafter, hline, hmatch, hw⟩
  · simp [hafter, findAllIndex_nil hp]
  · have hne : h ≠ [] := by
      rintro rfl
      rw [hp] at hmatch
      exact absurd hmatch (by simp)
    have haround := findAllIndex_around hp (.inl rfl : LineStart []) hline hw
    rw [List.nil_append, if_pos hmatch] at haround
    rw [hafter, haround, findAllIndex_nil hp]
    simp [hne]

end Matches

/-! ## The bounds of a block -/

theorem projectHeaderPattern_nil : projectHeaderPattern [] = false := by decide +kernel

section Bounds

variable {data updated : Bytes} {n i : ℕ}

/-- The bounds that the part of a project gives. -/
theorem Part.bounds (P : Part projectHeaderPattern data i)
    (hn : (findAllIndex projectHeaderPattern data).length = n) :
    projectBlockBounds data n i = .ok (P.offset, P.offset + P.body.length) := by
  have hbefore : (findAllIndex projectHeaderPattern P.before).length = i :=
    (length_findAllIndex _ _).trans P.index
  have hall := P.findAllIndex_eq projectHeaderPattern_nil
  have hget : (findAllIndex projectHeaderPattern data)[i]? =
      some (P.before.length, (P.before ++ P.header).length) := by
    rw [hall, List.getElem?_append_right (by omega), hbefore, Nat.sub_self]
    rfl
  have hnext : ((findAllIndex projectHeaderPattern data)[i + 1]?.map Prod.fst).getD data.length =
      P.offset + P.body.length := by
    have hlen : data.length = P.offset + P.body.length + P.after.length := by
      conv_lhs => rw [P.eq]
      simp only [Part.offset, List.length_append]
    have hsucc : (findAllIndex projectHeaderPattern data)[i + 1]?.map Prod.fst =
        ((findAllIndex projectHeaderPattern P.after).head?.map Prod.fst).map
          fun k => (P.before ++ P.header ++ P.body).length + k := by
      rw [hall, List.getElem?_append_right (by omega), hbefore, Nat.add_sub_cancel_left,
        List.getElem?_cons_succ, List.getElem?_map, ← List.head?_eq_getElem?, Option.map_map,
        Option.map_map]
      rfl
    rw [hsucc, P.head_after projectHeaderPattern_nil]
    split_ifs with hafter
    · simp [hlen, hafter]
    · simp [Part.offset, Nat.add_assoc]
  simp only [projectBlockBounds, projectHeader, hn, hget, ne_eq, not_true_eq_false, if_false, hnext,
    bind, Except.bind, pure, Except.pure, Part.offset]

theorem length_of_bounds {start stop : ℕ} (h : projectBlockBounds data n i = .ok (start, stop)) :
    (findAllIndex projectHeaderPattern data).length = n := by
  obtain ⟨⟨header, stop'⟩, hheader, -⟩ := bind_eq_ok.1 h
  unfold projectHeader at hheader
  simp only at hheader
  split_ifs at hheader with hn
  exact not_not.1 hn

/-- The text before and after a block. -/
theorem Part.take_drop (P : Part projectHeaderPattern data i) :
    data.take P.offset = P.before ++ P.header ∧ data.drop (P.offset + P.body.length) = P.after := by
  have htake : (P.before ++ P.header ++ (P.body ++ P.after)).take P.offset = P.before ++ P.header :=
    List.take_left
  have hdrop : (P.before ++ P.header ++ P.body ++ P.after).drop
      (P.before ++ P.header ++ P.body).length = P.after := List.drop_left
  rw [← List.append_assoc, ← P.eq] at htake
  rw [← P.eq, List.length_append] at hdrop
  exact ⟨htake, hdrop⟩

/-- The block of a project with another text, which has no project header, in its place. -/
def Part.withBody (P : Part projectHeaderPattern data i) (body : Bytes) (hstop : LineStop body)
    (hend : P.after = [] ∨ ∃ m, body = m ++ [newline])
    (hfree : findAllIndex projectHeaderPattern body = []) :
    Part projectHeaderPattern (P.before ++ P.header ++ body ++ P.after) i where
  before := P.before
  header := P.header
  body := body
  after := P.after
  eq := rfl
  start := P.start
  line := P.line
  matched := P.matched
  body_stop := hstop
  next := by
    rcases P.next with hafter | ⟨-, hnext⟩
    · exact .inl hafter
    · rcases hend with hafter | hend
      · exact .inl hafter
      · exact .inr ⟨hend, hnext⟩
  index := P.index
  body_free := findAllIndex_eq_nil_iff.1 hfree

/-- Two parts with the same index surround the same block. -/
theorem Part.unique (P Q : Part projectHeaderPattern data i) :
    P.before ++ P.header = Q.before ++ Q.header ∧ P.after = Q.after := by
  have hbounds := (P.bounds rfl).symm.trans (Q.bounds rfl)
  obtain ⟨hoffset, hstop⟩ := Prod.mk.inj (Except.ok.inj hbounds)
  rw [← P.take_drop.1, ← P.take_drop.2, ← Q.take_drop.1, ← Q.take_drop.2, hstop, hoffset]
  exact ⟨rfl, rfl⟩

/-- **The frame of an edit**: the text is changed between the bounds of the selected block only. -/
def Framed (data : Bytes) (n i : ℕ) (updated : Bytes) : Prop :=
  ∃ (P : Part projectHeaderPattern data i) (block : Bytes),
    projectBlockBounds data n i = .ok (P.offset, P.offset + P.body.length) ∧
    updated = data.take P.offset ++ block ++ data.drop (P.offset + P.body.length)

/-- A splice inside the block. -/
theorem Part.framed_splice (P : Part projectHeaderPattern data i) {a b : ℕ} (value : Bytes)
    (hn : (findAllIndex projectHeaderPattern data).length = n) (ha : a ≤ b)
    (hb : b ≤ P.body.length) :
    Framed data n i (splice data (P.offset + a) (P.offset + b) value) := by
  refine ⟨P, P.body.take a ++ value ++ P.body.drop b, P.bounds hn, ?_⟩
  obtain ⟨htake, hdrop⟩ := P.take_drop
  have hdata : data = P.before ++ P.header ++ P.body.take a ++
      (P.body.drop a).take (b - a) ++ (P.body.drop b ++ P.after) := by
    have hmid : (P.body.drop a).take (b - a) ++ P.body.drop b = P.body.drop a := by
      have hb' : P.body.drop b = (P.body.drop a).drop (b - a) := by
        rw [List.drop_drop, Nat.add_sub_cancel' ha]
      rw [hb', List.take_append_drop]
    have heq := P.eq
    rw [← List.take_append_drop a P.body, ← hmid] at heq
    simpa using heq
  have hsplice := splice_append (P.before ++ P.header ++ P.body.take a)
    ((P.body.drop a).take (b - a)) (P.body.drop b ++ P.after) value
  have hla : (P.before ++ P.header ++ P.body.take a).length = P.offset + a := by
    rw [List.length_append, List.length_take, Nat.min_eq_left (by omega), Part.offset]
  have hlb : P.offset + a + ((P.body.drop a).take (b - a)).length = P.offset + b := by
    rw [List.length_take, List.length_drop]
    omega
  rw [← hdata, hla, hlb] at hsplice
  rw [hsplice, htake, hdrop]
  simp

theorem mem_findAllIndex_le {p : Bytes → Bool} {s : Bytes} {span : ℕ × ℕ}
    (h : span ∈ findAllIndex p s) : span.1 ≤ span.2 ∧ span.2 ≤ s.length := by
  obtain ⟨⟨o, l⟩, hl, rfl⟩ := List.mem_map.1 h
  obtain ⟨as, bs, hls⟩ := List.append_of_mem (List.mem_filter.1 hl).1
  obtain ⟨hs, ho, -⟩ := eq_of_linesOf hls
  have hlen := congrArg List.length hs
  simp only [List.length_append] at hlen
  simp only
  omega

theorem fieldPattern_le {field l : Bytes} {span : ℕ × ℕ} (h : fieldPattern field l = some span) :
    span.1 ≤ span.2 ∧ span.2 ≤ l.length := by
  unfold fieldPattern at h
  simp only [Option.bind_eq_bind, Option.bind_eq_some_iff] at h
  obtain ⟨r₁, -, h⟩ := h
  split at h
  · simp at h
  · split_ifs at h
    obtain ⟨z, hz, h⟩ := Option.bind_eq_some_iff.1 h
    split_ifs at h
    obtain rfl := Option.some.inj h
    have hsuffix := (scanValue_suffix hz).length_le
    simp only
    omega

theorem mem_findAllValues_le {field s : Bytes} {span : ℕ × ℕ} (h : span ∈ findAllValues field s) :
    span.1 ≤ span.2 ∧ span.2 ≤ s.length := by
  obtain ⟨u, l, w, sp, rfl, -, -, -, hfield, rfl⟩ := mem_findAllValues h
  obtain ⟨hle, hlen⟩ := fieldPattern_le hfield
  simp only [List.length_append]
  omega

/-! ## One edit -/

theorem replaceApproval_framed {approval : Bytes}
    (h : replaceApproval data n i approval = .ok updated) : Framed data n i updated := by
  obtain ⟨⟨start, stop⟩, hb, h⟩ := bind_eq_ok.1 h
  have hn := length_of_bounds hb
  obtain ⟨P, rfl, rfl, hslice⟩ := projectBlockBounds_ok hb
  simp only [hslice] at h
  split at h
  · simp [throw, throwThe, MonadExceptOf.throw] at h
  · next value hvalue =>
    obtain rfl := Except.ok.inj h
    have hmem : value ∈ findAllValues (str "approval") P.body := by simp [hvalue]
    obtain ⟨hle, hlen⟩ := mem_findAllValues_le hmem
    exact P.framed_splice _ hn hle hlen
  · obtain rfl := Except.ok.inj h
    split
    · next header rest hheaders =>
      have hmem : header ∈ findAllIndex allowHeaderPattern P.body := by simp [hheaders]
      obtain ⟨hle, hlen⟩ := mem_findAllIndex_le hmem
      exact P.framed_splice _ hn (Nat.le_refl _) (hle.trans hlen)
    · exact P.framed_splice _ hn (Nat.le_refl _) (Nat.le_refl _)

theorem replaceProjectField_framed {field value : Bytes}
    (h : replaceProjectField data n i field value = .ok updated) : Framed data n i updated := by
  obtain ⟨⟨start, stop⟩, hb, h⟩ := bind_eq_ok.1 h
  have hn := length_of_bounds hb
  obtain ⟨P, rfl, rfl, hslice⟩ := projectBlockBounds_ok hb
  simp only [hslice] at h
  split at h
  · next span hspan =>
    obtain rfl := Except.ok.inj h
    have hmem : span ∈ findAllValues field P.body := by simp [hspan]
    obtain ⟨hle, hlen⟩ := mem_findAllValues_le hmem
    exact P.framed_splice _ hn hle hlen
  · simp [throw, throwThe, MonadExceptOf.throw] at h

/-- The text of a new entry. -/
def entryText (data : Bytes) (argv : List Bytes) : Bytes :=
  str "  [[projects.allow]]" ++ newlineOf data ++ str "  argv = " ++ encodeArgv argv ++
    newlineOf data

theorem insertAllowEntry_ok {allowCount : ℕ} {argv : List Bytes}
    (h : insertAllowEntry data n i allowCount argv = .ok updated) :
    ∃ P : Part projectHeaderPattern data i, (findAllIndex projectHeaderPattern data).length = n ∧
      (findAllIndex allowHeaderPattern P.body).length = allowCount ∧
      updated = splice data (P.offset + P.body.length) (P.offset + P.body.length)
        (if midLine data (P.offset + P.body.length) then newlineOf data ++ entryText data argv
          else entryText data argv) := by
  obtain ⟨⟨start, stop⟩, hb, h⟩ := bind_eq_ok.1 h
  have hn := length_of_bounds hb
  obtain ⟨P, rfl, rfl, hslice⟩ := projectBlockBounds_ok hb
  simp only [hslice] at h
  by_cases hcount : (findAllIndex allowHeaderPattern P.body).length = allowCount
  · rw [if_neg (not_not.2 hcount)] at h
    exact ⟨P, hn, hcount, (Except.ok.inj h).symm⟩
  · simp [hcount, throw, throwThe, MonadExceptOf.throw, bind, Except.bind] at h

theorem insertAllowEntry_framed {allowCount : ℕ} {argv : List Bytes}
    (h : insertAllowEntry data n i allowCount argv = .ok updated) : Framed data n i updated := by
  obtain ⟨P, hn, -, rfl⟩ := insertAllowEntry_ok h
  exact P.framed_splice _ hn (Nat.le_refl _) (Nat.le_refl _)

/-! ## A sequence of fields -/

/-- The same text stands before and after the block. -/
def Part.SameFrame (P : Part projectHeaderPattern data i)
    (Q : Part projectHeaderPattern updated i) :
    Prop := Q.before ++ Q.header = P.before ++ P.header ∧ Q.after = P.after

theorem Part.SameFrame.framed {P : Part projectHeaderPattern data i}
    {Q : Part projectHeaderPattern updated i} (h : P.SameFrame Q)
    (hn : (findAllIndex projectHeaderPattern data).length = n) : Framed data n i updated := by
  refine ⟨P, Q.body, P.bounds hn, ?_⟩
  rw [P.take_drop.1, P.take_drop.2, ← h.1, ← h.2, ← Q.eq]

/-- A line of the block in place of another, which is no project header: the block is found where it
was. -/
theorem Part.exists_sameFrame (P : Part projectHeaderPattern data i) {m l l' w : Bytes}
    (hbody : P.body = m ++ [newline] ++ l ++ w) (hne : l ≠ []) (hl : newline ∉ l)
    (hw : LineStop w) (hl' : newline ∉ l') (hmark : projectHeaderPattern l' = false) :
    ∃ Q : Part projectHeaderPattern
      (P.before ++ P.header ++ (m ++ [newline] ++ l' ++ w) ++ P.after) i, P.SameFrame Q := by
  have hstop : LineStop (m ++ [newline] ++ l' ++ w) := by
    have hold := P.body_stop
    rw [hbody] at hold
    rcases m with _ | ⟨c, m⟩
    · exact .inr ⟨_, rfl⟩
    · rcases hold with hnil | ⟨b, hb⟩
      · cases hnil
      · obtain rfl : c = newline := (List.cons.inj hb).1
        exact .inr ⟨_, rfl⟩
  have hend : P.after = [] ∨ ∃ e, m ++ [newline] ++ l' ++ w = e ++ [newline] := by
    rcases P.next with hafter | ⟨⟨e, he⟩, -⟩
    · exact .inl hafter
    · have hlast := congrArg List.getLast? (hbody.symm.trans he)
      rw [List.getLast?_concat] at hlast
      rcases List.eq_nil_or_concat w with rfl | ⟨w, c, rfl⟩
      · -- the line does not end in a newline
        rw [List.append_nil, List.getLast?_append_of_ne_nil _ hne] at hlast
        exact absurd (List.mem_of_getLast? hlast) hl
      · rw [List.concat_eq_append, ← List.append_assoc, List.getLast?_concat] at hlast
        obtain rfl := Option.some.inj hlast
        exact .inr ⟨m ++ [newline] ++ l' ++ w, by simp⟩
  have hfree : findAllIndex projectHeaderPattern (m ++ [newline] ++ l' ++ w) = [] := by
    have hstart : LineStart (m ++ [newline]) := lineStart_append_newline m
    have hold := findAllIndex_eq_nil_iff.2 P.body_free
    rw [hbody, findAllIndex_around projectHeaderPattern_nil hstart hl hw] at hold
    simp only [List.append_eq_nil_iff, List.map_eq_nil_iff] at hold
    rw [findAllIndex_around projectHeaderPattern_nil hstart hl' hw, hold.1.1, hold.2, hmark]
    rfl
  exact ⟨P.withBody _ hstop hend hfree, rfl, rfl⟩

/-- After the value of a field is replaced, the block is found where it was. -/
theorem replaceProjectField_sameFrame {field value : Bytes} (hf : Begins field)
    (h : replaceProjectField data n i field value = .ok updated) :
    (findAllIndex projectHeaderPattern data).length = n ∧
      ∃ (P : Part projectHeaderPattern data i) (Q : Part projectHeaderPattern updated i),
        P.SameFrame Q := by
  obtain ⟨⟨start, stop⟩, hb, h⟩ := bind_eq_ok.1 h
  refine ⟨length_of_bounds hb, ?_⟩
  obtain ⟨P, rfl, rfl, hslice⟩ := projectBlockBounds_ok hb
  simp only [hslice] at h
  split at h
  · next span hspan =>
    obtain rfl := Except.ok.inj h
    have hmem : span ∈ findAllValues field P.body := by simp [hspan]
    obtain ⟨m, a, v, z, w, hbody, hl, hw, hne, hmark, rfl⟩ := P.exists_value hf hmem
    have hl' : newline ∉ a ++ Json.encodeString value ++ z := by
      simp only [List.mem_append, not_or] at hl ⊢
      exact ⟨⟨hl.1.1, Json.newline_encodeString value⟩, hl.2⟩
    have hheader : projectHeaderPattern (a ++ Json.encodeString value ++ z) = false :=
      projectHeaderPattern_eq_false (by rw [hmark]; simp)
    obtain ⟨Q, hQ⟩ := P.exists_sameFrame hbody (by simp [hne]) hl hw hl' hheader
    have hbody' : P.body = m ++ [newline] ++ a ++ v ++ (z ++ w) := by
      rw [hbody]
      simp only [List.append_assoc]
    have htext : P.before ++ P.header ++
        (m ++ [newline] ++ (a ++ Json.encodeString value ++ z) ++ w) ++ P.after =
          P.before ++ P.header ++
            (m ++ [newline] ++ a ++ Json.encodeString value ++ (z ++ w)) ++ P.after := by
      simp only [List.append_assoc]
    rw [P.splice_body hbody', ← htext]
    exact ⟨P, Q, hQ⟩
  · simp [throw, throwThe, MonadExceptOf.throw] at h

theorem applyFields_sameFrame {fields : List MetadataField}
    (hf : ∀ field ∈ fields, Begins field.name) {p p' : Project} {c c' : Bool}
    (P : Part projectHeaderPattern data i)
    (h : applyFields n i fields (data, p, c) = .ok (updated, p', c')) :
    ∃ Q : Part projectHeaderPattern updated i, P.SameFrame Q := by
  induction fields generalizing data p c with
  | nil =>
    obtain ⟨rfl, -, -⟩ : data = updated ∧ p = p' ∧ c = c' := by simpa [applyFields] using h
    exact ⟨P, rfl, rfl⟩
  | cons field fields ih =>
    have hrest : ∀ field ∈ fields, Begins field.name :=
      fun f hmem => hf f (List.mem_cons_of_mem _ hmem)
    rw [applyFields] at h
    cases hc : field.change with
    | none =>
      rw [hc] at h
      exact ih hrest P h
    | some value =>
      simp only [hc] at h
      split at h
      · simp at h
      · next text htext =>
        obtain ⟨-, P', Q, hPQ⟩ := replaceProjectField_sameFrame (hf field List.mem_cons_self) htext
        obtain ⟨hstart, hafter⟩ := P.unique P'
        obtain ⟨R, hQR⟩ := ih hrest Q h
        exact ⟨R, (hQR.1.trans hPQ.1).trans hstart.symm, (hQR.2.trans hPQ.2).trans hafter.symm⟩

theorem applyFields_framed {fields : List MetadataField}
    (hf : ∀ field ∈ fields, Begins field.name) {p p' : Project}
    (h : applyFields n i fields (data, p, false) = .ok (updated, p', true)) :
    Framed data n i updated := by
  induction fields generalizing p with
  | nil => simp [applyFields] at h
  | cons field fields ih =>
    have hrest : ∀ field ∈ fields, Begins field.name :=
      fun f hmem => hf f (List.mem_cons_of_mem _ hmem)
    rw [applyFields] at h
    cases hc : field.change with
    | none =>
      rw [hc] at h
      exact ih hrest h
    | some value =>
      simp only [hc] at h
      split at h
      · simp at h
      · next text htext =>
        obtain ⟨hn, P, Q, hPQ⟩ := replaceProjectField_sameFrame (hf field List.mem_cons_self) htext
        obtain ⟨R, hQR⟩ := applyFields_sameFrame hrest Q h
        have hPR : P.SameFrame R := ⟨hQR.1.trans hPQ.1, hQR.2.trans hPQ.2⟩
        exact hPR.framed hn

end Bounds

/-! ## What a removal keeps -/

theorem length_slice (data : Bytes) (a b : ℕ) :
    (slice data a b).length = min b data.length - a := by
  rw [slice, List.length_drop, List.length_take]

theorem slice_append_drop (data : Bytes) {a b : ℕ} (h : a ≤ b) :
    slice data a b ++ data.drop b = data.drop a := by
  rw [slice, List.drop_take, ← Nat.add_sub_cancel' h, ← List.drop_drop, Nat.add_sub_cancel_left,
    List.take_append_drop]

/-- The text without the bytes that stand in a span. The text begins at offset `k`. -/
def kept (spans : List (ℕ × ℕ)) (k : ℕ) (text : Bytes) : Bytes :=
  ((text.zipIdx k).filter fun x => spans.all fun s => decide (x.2 < s.1 ∨ s.2 ≤ x.2)).map Prod.fst

theorem kept_append (spans : List (ℕ × ℕ)) (k : ℕ) (u v : Bytes) :
    kept spans k (u ++ v) = kept spans k u ++ kept spans (k + u.length) v := by
  simp only [kept, List.zipIdx_append, List.filter_append, List.map_append]

theorem kept_eq_self {spans : List (ℕ × ℕ)} {k : ℕ} {u : Bytes}
    (h : ∀ s ∈ spans, k + u.length ≤ s.1 ∨ s.2 ≤ k) : kept spans k u = u := by
  have hall : ∀ x ∈ u.zipIdx k, (spans.all fun s => decide (x.2 < s.1 ∨ s.2 ≤ x.2)) = true := by
    intro x hx
    have hlo := List.le_snd_of_mem_zipIdx hx
    have hhi := List.snd_lt_add_of_mem_zipIdx hx
    refine List.all_eq_true.2 fun s hs => decide_eq_true ?_
    have := h s hs
    omega
  rw [kept, List.filter_eq_self.2 hall, List.zipIdx_map_fst]

theorem kept_cons_inside {s : ℕ × ℕ} {spans : List (ℕ × ℕ)} {k : ℕ} {u : Bytes}
    (hlo : s.1 ≤ k) (hhi : k + u.length ≤ s.2) : kept (s :: spans) k u = [] := by
  rw [kept, List.map_eq_nil_iff, List.filter_eq_nil_iff]
  intro x hx hkept
  have h₁ := List.le_snd_of_mem_zipIdx hx
  have h₂ := List.snd_lt_add_of_mem_zipIdx hx
  have h₃ := of_decide_eq_true (List.all_eq_true.1 hkept s List.mem_cons_self)
  omega

theorem kept_cons_behind {s : ℕ × ℕ} {spans : List (ℕ × ℕ)} {k : ℕ} (u : Bytes) (h : s.2 ≤ k) :
    kept (s :: spans) k u = kept spans k u := by
  have hfilter : ∀ x ∈ u.zipIdx k,
      ((s :: spans).all fun s => decide (x.2 < s.1 ∨ s.2 ≤ x.2)) =
        (spans.all fun s => decide (x.2 < s.1 ∨ s.2 ≤ x.2)) := by
    intro x hx
    have hle := List.le_snd_of_mem_zipIdx hx
    rw [List.all_cons, decide_eq_true (.inr (h.trans hle)), Bool.true_and]
  rw [kept, kept, List.filter_congr hfilter]

/-- **The cut loop takes the bytes in the spans**, which it finds in order and without overlap. -/
theorem cutSpans_ok {data result : Bytes} {c : ℕ} {spans : List (ℕ × ℕ)}
    (hspans : ∀ s ∈ spans, s.1 ≤ s.2 ∧ s.2 ≤ data.length)
    (h : cutSpans data c spans = .ok result) :
    (∀ s ∈ spans, c ≤ s.1) ∧ spans.Pairwise (fun s t => s.2 ≤ t.1) ∧
      result = kept spans c (data.drop c) := by
  induction spans generalizing c result with
  | nil =>
    obtain rfl := Except.ok.inj h
    exact ⟨by simp, .nil, (kept_eq_self (by simp)).symm⟩
  | cons span spans ih =>
    rw [cutSpans] at h
    split_ifs at h with hlt
    obtain ⟨rest, hrest, hres⟩ := bind_eq_ok.1 h
    obtain rfl := Except.ok.inj hres
    obtain ⟨hle, hlen⟩ := hspans span List.mem_cons_self
    obtain ⟨hstart, hpair, rfl⟩ := ih (fun s hs => hspans s (List.mem_cons_of_mem _ hs)) hrest
    have hc : ∀ s ∈ span :: spans, span.1 ≤ s.1 := by
      intro s hs
      rcases List.mem_cons.1 hs with rfl | hs
      · exact Nat.le_refl _
      · exact hle.trans (hstart s hs)
    refine ⟨fun s hs => (Nat.le_of_not_lt hlt).trans (hc s hs),
      List.pairwise_cons.2 ⟨hstart, hpair⟩, ?_⟩
    -- the text from the cursor on: up to the span, the span, and the rest
    have hsplit : data.drop c =
        slice data c span.1 ++ (slice data span.1 span.2 ++ data.drop span.2) := by
      rw [slice_append_drop data hle, slice_append_drop data (Nat.le_of_not_lt hlt)]
    have hlen₁ : c + (slice data c span.1).length = span.1 := by
      rw [length_slice]
      omega
    have hlen₂ : span.1 + (slice data span.1 span.2).length = span.2 := by
      rw [length_slice]
      omega
    have hfirst : kept (span :: spans) c (slice data c span.1) = slice data c span.1 :=
      kept_eq_self fun s hs => .inl (hlen₁.symm ▸ hc s hs)
    have hinside : kept (span :: spans) span.1 (slice data span.1 span.2) = [] :=
      kept_cons_inside (Nat.le_refl _) (Nat.le_of_eq hlen₂)
    rw [hsplit, kept_append, kept_append, hlen₁, hlen₂, hfirst, hinside,
      kept_cons_behind _ (Nat.le_refl _), List.nil_append]

section Removal

variable {data updated : Bytes} {n i : ℕ}

/-- **The removal of entries keeps every byte but two whole lines for each entry**: the lines are
cut in order and do not overlap. -/
theorem removeAllowEntries_ok {allowCount : ℕ} {remove : List ℕ}
    (h : removeAllowEntries data n i allowCount remove = .ok updated) :
    ∃ (P : Part projectHeaderPattern data i) (entries : List ((ℕ × ℕ) × (ℕ × ℕ))),
      projectBlockBounds data n i = .ok (P.offset, P.offset + P.body.length) ∧
      (findAllIndex allowHeaderPattern P.body).length = allowCount ∧
      List.Forall₂ (EntryLines P) remove entries ∧
      (entries.flatMap fun e => [e.1, e.2]).Pairwise (fun s t => s.2 ≤ t.1) ∧
      updated = data.take P.offset ++
        kept (entries.flatMap fun e => [e.1, e.2]) P.offset P.body ++
          data.drop (P.offset + P.body.length) := by
  obtain ⟨⟨start, stop⟩, hb, h⟩ := bind_eq_ok.1 h
  have hn := length_of_bounds hb
  obtain ⟨P, rfl, rfl, hslice⟩ := projectBlockBounds_ok hb
  simp only [hslice] at h
  by_cases hcount : (findAllIndex allowHeaderPattern P.body).length = allowCount
  swap
  · simp [hcount, throw, throwThe, MonadExceptOf.throw, bind, Except.bind] at h
  rw [if_neg (not_not.2 hcount)] at h
  obtain ⟨spans, hspans, h⟩ := bind_eq_ok.1 h
  obtain ⟨entries, hflat, hentries⟩ := mapM_allowEntrySpans_eq P hspans
  rw [hflat] at h
  -- every span is in the block
  have hinside : ∀ s ∈ entries.flatMap fun e => [e.1, e.2],
      P.offset ≤ s.1 ∧ s.1 ≤ s.2 ∧ s.2 ≤ P.offset + P.body.length := by
    have hline : ∀ {s l}, LineSpan data (P.offset + 1) (P.offset + P.body.length) s l →
        P.offset ≤ s.1 ∧ s.1 ≤ s.2 ∧ s.2 ≤ P.offset + P.body.length := by
      intro s l hs
      obtain ⟨u, z, w, -, -, hlo, rfl, -⟩ := hs.exists_rest
      refine ⟨by simp only; omega, ?_, hs.le⟩
      simp only [List.length_append]
      omega
    intro s hs
    obtain ⟨e, he, hs⟩ := List.mem_flatMap.1 hs
    obtain ⟨k, hk, rfl⟩ := List.mem_iff_getElem.1 he
    obtain ⟨Q, R, hheader, hargv, -⟩ := hentries.get (hentries.length_eq ▸ hk) hk
    rcases List.mem_pair.1 hs with rfl | rfl
    · exact hline hheader
    · exact hline hargv
  have hlen : data.length = P.offset + P.body.length + P.after.length := by
    conv_lhs => rw [P.eq]
    simp only [Part.offset, List.length_append]
  obtain ⟨-, hpair, rfl⟩ := cutSpans_ok (fun s hs => by have := hinside s hs; omega) h
  refine ⟨P, entries, P.bounds hn, hcount, hentries, hpair, ?_⟩
  obtain ⟨htake, hdrop⟩ := P.take_drop
  have hbefore : kept (entries.flatMap fun e => [e.1, e.2]) 0 (P.before ++ P.header) =
      P.before ++ P.header :=
    kept_eq_self fun s hs => .inl (by have := hinside s hs; simp only [Part.offset] at this; omega)
  have hafter : kept (entries.flatMap fun e => [e.1, e.2]) (P.offset + P.body.length) P.after =
      P.after := kept_eq_self fun s hs => .inr (hinside s hs).2.2
  have hkept := kept_append (entries.flatMap fun e => [e.1, e.2]) 0 (P.before ++ P.header ++ P.body)
    P.after
  have hoffset : 0 + (P.before ++ P.header).length = P.offset := Nat.zero_add _
  have hstop : 0 + (P.before ++ P.header ++ P.body).length = P.offset + P.body.length := by
    rw [Nat.zero_add, List.length_append, Part.offset]
  rw [← P.eq, kept_append, hbefore, hoffset, hstop, hafter] at hkept
  rw [List.drop_zero, hkept, htake, hdrop]

theorem prefix_appendProject (data : Bytes) (project : Project) :
    data <+: appendProject data project := by
  unfold appendProject
  -- each newline of the padding is appended or left out
  have hstep : ∀ u v : Bytes, ∀ c : Prop, ∀ _ : Decidable c, u <+: if c then u ++ v else u := by
    intro u v c _
    split_ifs
    · exact List.prefix_append u v
    · exact List.prefix_rfl
  simp only [List.append_assoc]
  refine List.IsPrefix.trans ?_ (List.prefix_append _ _)
  exact (hstep _ _ _ _).trans (hstep _ _ _ _)

/-- **The byte frame of the edits.** An edit of a project, or the sequence of field edits of
`UpdateProjectMetadata`, changes the text between the bounds of the selected block only. The removal
of entries takes the header line and the `argv` line of each, in order and without overlap, and
keeps the other bytes of the block. The removal of a project takes its header line and its block,
and a new project is appended. -/
theorem edits_framed (data : Bytes) (n i : ℕ) :
    (∀ approval updated, replaceApproval data n i approval = .ok updated →
      Framed data n i updated) ∧
    (∀ field value updated, replaceProjectField data n i field value = .ok updated →
      Framed data n i updated) ∧
    (∀ cfg input p p' updated, metadataEdit input data cfg i p = .ok (some (updated, p')) →
      Framed data cfg.projects.length i updated) ∧
    (∀ allowCount argv updated, insertAllowEntry data n i allowCount argv = .ok updated →
      Framed data n i updated) ∧
    (∀ allowCount remove updated, removeAllowEntries data n i allowCount remove = .ok updated →
      ∃ (P : Part projectHeaderPattern data i) (entries : List ((ℕ × ℕ) × (ℕ × ℕ))),
        projectBlockBounds data n i = .ok (P.offset, P.offset + P.body.length) ∧
        List.Forall₂ (EntryLines P) remove entries ∧
        (entries.flatMap fun e => [e.1, e.2]).Pairwise (fun s t => s.2 ≤ t.1) ∧
        updated = data.take P.offset ++
          kept (entries.flatMap fun e => [e.1, e.2]) P.offset P.body ++
            data.drop (P.offset + P.body.length)) ∧
    (∀ updated, removeProjectSpan data n i = .ok updated →
      ∃ P : Part projectHeaderPattern data i, updated = P.before ++ P.after) ∧
    ∀ project, data <+: appendProject data project := by
  refine ⟨fun _ _ h => replaceApproval_framed h, fun _ _ _ h => replaceProjectField_framed h,
    fun cfg input p p' updated h => ?_, fun _ _ _ h => insertAllowEntry_framed h,
    fun allowCount remove updated h => ?_, fun _ h => removeProjectSpan_ok h,
    prefix_appendProject data⟩
  · unfold metadataEdit at h
    split at h
    · simp at h
    · next text q changed hfields =>
      cases changed with
      | false => simp at h
      | true =>
        obtain ⟨rfl, rfl⟩ : text = updated ∧ q = p' := by simpa using h
        exact applyFields_framed (metadataFields_begins p input) hfields
  · obtain ⟨P, entries, hbounds, -, hrest⟩ := removeAllowEntries_ok h
    exact ⟨P, entries, hbounds, hrest⟩

end Removal

end SecretsBroker.Admin
