import SecretsBroker.Admin.Layout
import Mathlib.Data.List.Induction

/-!
# The header lines of a policy text

The editor relates the text of a policy to its meaning through header lines: the `i`-th line that
reads `[[projects]]` opens the block of the `i`-th project, and the lines that read
`[[projects.allow]]` in this block its allowlist. This module is about texts only.

* `marks` lists the header lines of a text in order; it is additive where a text is cut at the end
  of a line (`marks_append_of_start`, `marks_append_of_stop`).
* `exists_part`: a match of `FindAllIndex` with the text up to the next one, as a decomposition of
  the bytes (`Part`).
* `counts` gives the number of allowlist headers of each block, and `Part.counts_eq` splits it at a
  block. So what an edit does to the layout is a fact about lists.
-/

namespace SecretsBroker.Admin

/-! ## Lines of a text -/

/-- A text that ends where a line begins. -/
def LineStart (u : Bytes) : Prop := u = [] ∨ ∃ v, u = v ++ [newline]

/-- A text that begins where a line ends. -/
def LineStop (w : Bytes) : Prop := w = [] ∨ ∃ v, w = newline :: v

/-- Lines, each with the newline after it. -/
def unlines (ls : List Bytes) : Bytes := ls.flatMap fun l => l ++ [newline]

/-- Lines, each with the newline before it. -/
def followed (ls : List Bytes) : Bytes := ls.flatMap fun l => newline :: l

theorem unlines_cons (l : Bytes) (ls : List Bytes) :
    unlines (l :: ls) = l ++ newline :: unlines ls := by
  simp [unlines]

theorem unlines_append (as bs : List Bytes) : unlines (as ++ bs) = unlines as ++ unlines bs := by
  simp [unlines]

theorem lineStart_append_newline (v : Bytes) : LineStart (v ++ [newline]) := .inr ⟨v, rfl⟩

theorem LineStart.append {u v : Bytes} (hu : LineStart u) (hv : LineStart v) :
    LineStart (u ++ v) := by
  rcases hv with rfl | ⟨v, rfl⟩
  · simpa using hu
  · exact .inr ⟨u ++ v, by simp⟩

theorem lineStart_unlines (ls : List Bytes) : LineStart (unlines ls) := by
  induction ls with
  | nil => exact .inl rfl
  | cons l ls ih =>
    rw [unlines_cons, List.append_cons]
    exact (lineStart_append_newline l).append ih

theorem lineStop_followed (ls : List Bytes) : LineStop (followed ls) := by
  cases ls with
  | nil => exact .inl rfl
  | cons l ls => exact .inr ⟨l ++ followed ls, rfl⟩

theorem splitOn_unlines {ls : List Bytes} (h : ∀ l ∈ ls, newline ∉ l) :
    (unlines ls).splitOn newline = ls ++ [[]] := by
  induction ls with
  | nil => rfl
  | cons l ls ih =>
    rw [unlines_cons, List.splitOn_append_cons_self_of_not_mem (h l List.mem_cons_self),
      ih fun l' hl' => h l' (List.mem_cons_of_mem _ hl')]
    rfl

theorem intercalate_newline (l : Bytes) (ls : List Bytes) :
    [newline].intercalate (l :: ls) = l ++ followed ls := by
  induction ls generalizing l with
  | nil => simp [followed, List.intercalate]
  | cons l' ls ih => simp [List.intercalate_cons_cons, ih, followed]

theorem splitOn_followed {ls : List Bytes} (h : ∀ l ∈ ls, newline ∉ l) :
    (followed ls).splitOn newline = [] :: ls := by
  have hint : [newline].intercalate ([] :: ls) = followed ls := by
    rw [intercalate_newline, List.nil_append]
  rw [← hint]
  refine List.splitOn_intercalate newline ?_ (by simp)
  simpa using h

theorem followed_append_cons (as : List Bytes) (l : Bytes) (bs : List Bytes) :
    followed (as ++ l :: bs) = newline :: (unlines as ++ l ++ followed bs) := by
  induction as with
  | nil => simp [followed, unlines]
  | cons a as ih => simpa [followed, unlines] using ih

theorem newline_notMem_of_mem_splitOn {s l : Bytes} (h : l ∈ s.splitOn newline) : newline ∉ l := by
  induction s generalizing l with
  | nil =>
    obtain rfl : l = [] := by simpa [List.splitOn] using h
    simp
  | cons c s ih =>
    rw [List.splitOn_cons_eq_if_modifyHead] at h
    split_ifs at h with hc
    · rcases List.mem_cons.1 h with rfl | h
      · simp
      · exact ih h
    · cases hs : s.splitOn newline with
      | nil => exact absurd hs (List.splitOn_ne_nil newline s)
      | cons a as =>
        rw [hs, List.modifyHead_cons] at h
        rcases List.mem_cons.1 h with rfl | h
        · have ha : newline ∉ a := ih (hs ▸ List.mem_cons_self)
          have hne : c ≠ newline := by simpa using hc
          simpa [ha] using hne.symm
        · exact ih (hs ▸ List.mem_cons_of_mem _ h)

/-- A text around one of its lines. -/
theorem eq_of_splitOn {data l : Bytes} {as bs : List Bytes}
    (h : data.splitOn newline = as ++ l :: bs) : data = unlines as ++ l ++ followed bs := by
  have hdata : [newline].intercalate (data.splitOn newline) = data :=
    List.intercalate_splitOn newline
  rw [← hdata, h]
  cases as with
  | nil => simpa [unlines] using intercalate_newline l bs
  | cons a as =>
    rw [List.cons_append, intercalate_newline, followed_append_cons, unlines_cons]
    simp

/-- In a text that begins where a line ends, only an empty line is the first one. -/
theorem exists_newline_before {u l w : Bytes} (h : LineStop (u ++ l ++ w)) (hu : LineStart u)
    (hne : l ≠ []) (hl : newline ∉ l) : ∃ m, u = m ++ [newline] := by
  rcases hu with rfl | hu
  · cases l with
    | nil => exact absurd rfl hne
    | cons c t =>
      rcases h with h | ⟨v, h⟩
      · simp at h
      · obtain rfl : c = newline := by simpa using congrArg List.head? h
        simp at hl
  · exact hu

/-- After a line of a text a line ends, also if the text goes on. -/
theorem lineStop_append {u l w t : Bytes} (hw : LineStop w) (hne : l ≠ []) (hl : newline ∉ l)
    (ht : t = [] ∨ ∃ m, u ++ l ++ w = m ++ [newline]) : LineStop (w ++ t) := by
  rcases hw with rfl | ⟨v, rfl⟩
  · rcases ht with rfl | ⟨m, hm⟩
    · exact .inl rfl
    · have hlast := congrArg List.getLast? hm
      rcases List.eq_nil_or_concat l with rfl | ⟨l, c, rfl⟩
      · exact absurd rfl hne
      · obtain rfl : c = newline := by simpa using hlast
        simp at hl
  · exact .inr ⟨v ++ t, rfl⟩

/-- The last line of a text. -/
theorem exists_last_line (s : Bytes) : ∃ u l, s = u ++ l ∧ LineStart u ∧ newline ∉ l := by
  cases hs : s.splitOn newline using List.reverseRecOn with
  | nil => exact absurd hs (List.splitOn_ne_nil newline s)
  | append_singleton as l =>
    refine ⟨unlines as, l, ?_, lineStart_unlines as, ?_⟩
    · simpa [followed] using eq_of_splitOn hs
    · exact newline_notMem_of_mem_splitOn (hs ▸ List.mem_append_right _ List.mem_cons_self)

/-! ## Matches -/

theorem lines_append (o : ℕ) (as bs : List Bytes) :
    lines o (as ++ bs) = lines o as ++ lines (o + (unlines as).length) bs := by
  induction as generalizing o with
  | nil => simp [lines, unlines]
  | cons a as ih =>
    have hlen : o + (unlines (a :: as)).length = o + a.length + 1 + (unlines as).length := by
      rw [unlines_cons, List.length_append, List.length_cons]
      omega
    rw [List.cons_append, lines, lines, ih, hlen, List.cons_append]

@[simp]
theorem map_snd_lines (o : ℕ) (ls : List Bytes) : (lines o ls).map Prod.snd = ls := by
  induction ls generalizing o with
  | nil => rfl
  | cons l ls ih => simp [lines, ih]

@[simp]
theorem length_lines (o : ℕ) (ls : List Bytes) : (lines o ls).length = ls.length := by
  rw [← List.length_map, map_snd_lines]

/-- A line of `linesOf`, with what stands before it. -/
theorem eq_of_linesOf {data l : Bytes} {o : ℕ} {as bs : List (ℕ × Bytes)}
    (h : linesOf data = as ++ (o, l) :: bs) :
    data = unlines (as.map Prod.snd) ++ l ++ followed (bs.map Prod.snd) ∧
      o = (unlines (as.map Prod.snd)).length ∧ newline ∉ l ∧
      (∀ x ∈ as.map Prod.snd, newline ∉ x) ∧ ∀ x ∈ bs.map Prod.snd, newline ∉ x := by
  have hsplit : data.splitOn newline = as.map Prod.snd ++ l :: bs.map Prod.snd := by
    simpa [linesOf] using congrArg (List.map Prod.snd) h
  have hfree : ∀ x ∈ as.map Prod.snd ++ l :: bs.map Prod.snd, newline ∉ x := by
    intro x hx
    exact newline_notMem_of_mem_splitOn (hsplit ▸ hx)
  have ho : linesOf data = lines 0 (as.map Prod.snd) ++
      lines (unlines (as.map Prod.snd)).length (l :: bs.map Prod.snd) := by
    rw [linesOf, hsplit, lines_append, Nat.zero_add]
  refine ⟨eq_of_splitOn hsplit, ?_, hfree l (by simp), fun x hx => hfree x ?_,
    fun x hx => hfree x ?_⟩
  · have heq := List.append_inj (h.symm.trans ho) (by simp)
    exact congrArg Prod.fst (List.cons.inj heq.2).1
  · exact List.mem_append_left _ hx
  · exact List.mem_append_right _ (List.mem_cons_of_mem _ hx)

/-- A matching line of a text, with the text up to the next one. -/
structure Part (p : Bytes → Bool) (data : Bytes) (i : ℕ) where
  before : Bytes
  header : Bytes
  body : Bytes
  after : Bytes
  eq : data = before ++ header ++ body ++ after
  start : LineStart before
  line : newline ∉ header
  matched : p header = true
  body_stop : LineStop body
  /-- The next match, where there is one, begins a line. -/
  next : after = [] ∨ (∃ m, body = m ++ [newline]) ∧
    ∃ h w, after = h ++ w ∧ newline ∉ h ∧ p h = true ∧ LineStop w
  index : (before.splitOn newline).countP p = i
  body_free : ∀ l ∈ body.splitOn newline, p l = false

theorem length_findAllIndex (p : Bytes → Bool) (data : Bytes) :
    (findAllIndex p data).length = (data.splitOn newline).countP p := by
  rw [findAllIndex, List.length_map, ← List.countP_eq_length_filter]
  have h := List.countP_map (p := p) (f := Prod.snd) (l := linesOf data)
  rw [linesOf, map_snd_lines] at h
  exact h.symm

theorem countP_unlines {p : Bytes → Bool} (hp : p [] = false) {ls : List Bytes}
    (h : ∀ l ∈ ls, newline ∉ l) : ((unlines ls).splitOn newline).countP p = ls.countP p := by
  simp [splitOn_unlines h, hp]

/-- The matches around the `i`-th one: the lines before it and the lines up to the next one. -/
theorem filter_around {p : Bytes → Bool} {ls : List (ℕ × Bytes)} {i : ℕ} {x : ℕ × Bytes}
    (h : (ls.filter fun l => p l.2)[i]? = some x) :
    p x.2 = true ∧ ∃ as bs, ls = as ++ x :: bs ∧ (as.map Prod.snd).countP p = i ∧
      (((ls.filter fun l => p l.2)[i + 1]? = none ∧ ∀ y ∈ bs, p y.2 = false) ∨
        ∃ ms z cs, bs = ms ++ z :: cs ∧ (ls.filter fun l => p l.2)[i + 1]? = some z ∧
          p z.2 = true ∧ ∀ y ∈ ms, p y.2 = false) := by
  generalize hF : (ls.filter fun l => p l.2) = F at h ⊢
  obtain ⟨hlt, hget⟩ := List.getElem?_eq_some_iff.1 h
  have hsplit : F = F.take i ++ x :: F.drop (i + 1) := by
    rw [← hget, List.getElem_cons_drop, List.take_append_drop]
  obtain ⟨l₁, l₂, rfl, h₁, h₂⟩ := List.filter_eq_append_iff.1 (hF.trans hsplit)
  obtain ⟨c₁, bs, rfl, hc, hx, hbs⟩ := List.filter_eq_cons_iff.1 h₂
  have hcount : ((l₁ ++ c₁).map Prod.snd).countP p = i := by
    have hc₁ : c₁.filter (fun l => p l.2) = [] := List.filter_eq_nil_iff.2 hc
    rw [List.countP_map, List.countP_eq_length_filter, List.filter_append]
    change (l₁.filter (fun l => p l.2) ++ c₁.filter fun l => p l.2).length = i
    rw [h₁, hc₁, List.append_nil, List.length_take]
    omega
  have hnext : F[i + 1]? = (F.drop (i + 1))[0]? := by simp
  refine ⟨hx, l₁ ++ c₁, bs, by simp, hcount, ?_⟩
  rw [hnext]
  cases hrest : F.drop (i + 1) with
  | nil =>
    rw [hrest, List.filter_eq_nil_iff] at hbs
    exact .inl ⟨rfl, fun y hy => by simpa using hbs y hy⟩
  | cons z zs =>
    obtain ⟨ms, cs, rfl, hms, hz, -⟩ := List.filter_eq_cons_iff.1 (hbs.trans hrest)
    exact .inr ⟨ms, z, cs, rfl, rfl, hz, fun y hy => by simpa using hms y hy⟩

/-- **The matches of `FindAllIndex` cut the text into parts.** -/
theorem exists_part {p : Bytes → Bool} (hp : p [] = false) {data : Bytes} {i a b : ℕ}
    (h : (findAllIndex p data)[i]? = some (a, b)) :
    ∃ P : Part p data i, a = P.before.length ∧ b = P.before.length + P.header.length ∧
      (((findAllIndex p data)[i + 1]?).map Prod.fst).getD data.length =
        P.before.length + P.header.length + P.body.length := by
  simp only [findAllIndex, List.getElem?_map] at h ⊢
  obtain ⟨⟨o, hd⟩, hF, he⟩ := Option.map_eq_some_iff.1 h
  obtain ⟨rfl, rfl⟩ := Prod.mk.inj he
  obtain ⟨hhd, as, bs, hls, hcount, hnext⟩ := filter_around hF
  obtain ⟨hdata, ho, hline, has, hbs⟩ := eq_of_linesOf hls
  have hfree : ∀ {ls : List (ℕ × Bytes)}, (∀ y ∈ ls, p y.2 = false) →
      ∀ l ∈ ls.map Prod.snd, p l = false := by
    intro ls hls l hl
    obtain ⟨y, hy, rfl⟩ := List.mem_map.1 hl
    exact hls y hy
  rcases hnext with ⟨hnone, hlast⟩ | ⟨ms, ⟨o', hd'⟩, cs, rfl, hsome, hhd', hms⟩
  · -- the last match: its part is the rest of the text
    refine ⟨⟨unlines (as.map Prod.snd), hd, followed (bs.map Prod.snd), [], by simpa using hdata,
      lineStart_unlines _, hline, hhd, lineStop_followed _, .inl rfl, ?_, ?_⟩, ho, by rw [ho], ?_⟩
    · rw [countP_unlines hp has, hcount]
    · rw [splitOn_followed hbs]
      exact List.forall_mem_cons.2 ⟨hp, hfree hlast⟩
    · rw [hnone]
      simpa [Nat.add_assoc] using congrArg List.length hdata
  · -- another match follows, on a line of its own
    have hls' : linesOf data = (as ++ (o, hd) :: ms) ++ (o', hd') :: cs := by simpa using hls
    obtain ⟨hdata', ho', hline', has', -⟩ := eq_of_linesOf hls'
    simp only [List.map_append, List.map_cons, unlines_append, unlines_cons] at hdata' ho' has'
    refine ⟨⟨unlines (as.map Prod.snd), hd, newline :: unlines (ms.map Prod.snd),
      hd' ++ followed (cs.map Prod.snd), by simpa using hdata', lineStart_unlines _, hline, hhd,
      .inr ⟨_, rfl⟩, .inr ⟨?_, hd', _, rfl, hline', hhd', lineStop_followed _⟩, ?_, ?_⟩, ho,
      by rw [ho], ?_⟩
    · rcases lineStart_unlines (ms.map Prod.snd) with hu | ⟨m, hm⟩
      · exact ⟨[], by rw [hu]; rfl⟩
      · exact ⟨newline :: m, by rw [hm]; rfl⟩
    · rw [countP_unlines hp has, hcount]
    · have hfree' : ∀ x ∈ ms.map Prod.snd, newline ∉ x := by
        intro x hx
        exact has' x (by simp [hx])
      rw [← List.nil_append (newline :: _), List.splitOn_append_cons_self, splitOn_unlines hfree']
      intro l hl
      have hmem : l = [] ∨ l ∈ ms.map Prod.snd := by
        simpa [List.splitOn, or_comm, or_left_comm] using hl
      rcases hmem with rfl | hl
      · exact hp
      · exact hfree hms l hl
    · rw [hsome]
      simpa [Nat.add_assoc] using ho'

/-! ## Marks -/

/-- A header line. -/
inductive Mark
  | project
  | allow
  deriving DecidableEq

def mark (line : Bytes) : Option Mark :=
  if projectHeaderPattern line then some .project
  else if allowHeaderPattern line then some .allow else none

/-- The header lines of a text. -/
def marks (data : Bytes) : List Mark := (data.splitOn newline).filterMap mark

@[simp]
theorem marks_nil : marks [] = [] := by decide +kernel

theorem marks_append_newline (u w : Bytes) : marks (u ++ newline :: w) = marks u ++ marks w := by
  rw [marks, List.splitOn_append_cons_self, List.filterMap_append]
  rfl

theorem marks_append_of_start {u : Bytes} (h : LineStart u) (w : Bytes) :
    marks (u ++ w) = marks u ++ marks w := by
  rcases h with rfl | ⟨v, rfl⟩
  · simp
  · rw [List.append_assoc, List.singleton_append, marks_append_newline, marks_append_newline v []]
    simp

theorem marks_append_of_stop (u : Bytes) {w : Bytes} (h : LineStop w) :
    marks (u ++ w) = marks u ++ marks w := by
  rcases h with rfl | ⟨v, rfl⟩
  · simp
  · rw [marks_append_newline, ← List.nil_append (newline :: v), marks_append_newline [] v]
    simp

theorem marks_line {l : Bytes} (h : newline ∉ l) : marks l = (mark l).toList := by
  rw [marks, List.splitOn_eq_singleton h]
  cases hm : mark l <;> simp [hm]

theorem marks_unlines {ls : List Bytes} (h : ∀ l ∈ ls, newline ∉ l) :
    marks (unlines ls) = ls.filterMap mark := by
  have hnil : mark [] = none := by decide +kernel
  simp [marks, splitOn_unlines h, hnil]

theorem isHeader_eq_true {header line : Bytes} (h : isHeader header line = true) :
    ∃ rest, dropBlanks line = header ++ rest ∧ isTail rest = true := by
  unfold isHeader at h
  split at h
  · next rest hrest => exact ⟨rest, (List.isPrefixOf?_eq_some_iff_append_eq.1 hrest).symm, h⟩
  · simp at h

/-- A line that begins, after blanks, with another byte than a bracket is not a header. -/
theorem mark_eq_none {l t : Bytes} {c : UInt8} (h : dropBlanks l = c :: t) (hc : c ≠ 0x5B) :
    mark l = none := by
  have hno : ∀ header, isHeader (0x5B :: header) l ≠ true := by
    intro header hl
    obtain ⟨rest, hrest, -⟩ := isHeader_eq_true hl
    exact hc (List.cons.inj (h.symm.trans hrest)).1
  unfold mark
  rw [if_neg, if_neg]
  · exact hno _
  · exact hno _

theorem mark_eq_project {l : Bytes} : mark l = some .project ↔ projectHeaderPattern l = true := by
  unfold mark
  split_ifs with h₁ h₂ <;> simp [h₁]

/-- No line is a header of both kinds. -/
theorem mark_eq_allow {l : Bytes} : mark l = some .allow ↔ allowHeaderPattern l = true := by
  unfold mark
  split_ifs with h₁ h₂
  · simp only [Option.some.injEq, reduceCtorEq, false_iff]
    intro h₂
    obtain ⟨r₁, hr₁, -⟩ := isHeader_eq_true h₁
    obtain ⟨r₂, hr₂, -⟩ := isHeader_eq_true h₂
    have h := congrArg (List.take 12) (hr₁.symm.trans hr₂)
    rw [List.take_append_of_le_length (by decide +kernel),
      List.take_append_of_le_length (by decide +kernel)] at h
    exact absurd h (by decide +kernel)
  · simp [h₂]
  · simp [h₂]

theorem projectHeaderPattern_eq_false {l : Bytes} (h : mark l ≠ some .project) :
    projectHeaderPattern l = false := by
  by_contra hne
  exact h (mark_eq_project.2 (by simpa using hne))

theorem allowHeaderPattern_eq_false {l : Bytes} (h : mark l ≠ some .allow) :
    allowHeaderPattern l = false := by
  by_contra hne
  exact h (mark_eq_allow.2 (by simpa using hne))

theorem count_marks {m : Mark} {pattern : Bytes → Bool}
    (h : ∀ l, mark l = some m ↔ pattern l = true) (s : Bytes) :
    (marks s).count m = (s.splitOn newline).countP pattern := by
  rw [marks, List.count_eq_countP, List.countP_filterMap]
  refine List.countP_congr fun l _ => ?_
  rw [← h]
  cases hm : mark l with
  | none => simp
  | some m' => simp

theorem count_project_marks (s : Bytes) :
    (marks s).count .project = (s.splitOn newline).countP projectHeaderPattern :=
  count_marks (fun _ => mark_eq_project) s

theorem count_allow_marks (s : Bytes) :
    (marks s).count .allow = (s.splitOn newline).countP allowHeaderPattern :=
  count_marks (fun _ => mark_eq_allow) s

/-! ## Blocks and their sizes -/

/-- The allowlist headers before the first block, and those of each block. -/
def tally : List Mark → ℕ × List ℕ
  | [] => (0, [])
  | .project :: ms => (0, (tally ms).1 :: (tally ms).2)
  | .allow :: ms => ((tally ms).1 + 1, (tally ms).2)

/-- The number of allowlist headers of each block. -/
def counts (ms : List Mark) : List ℕ := (tally ms).2

/-- The marks of a text that is empty or begins with a project header. -/
def Opens (ms : List Mark) : Prop := ms = [] ∨ ∃ rest, ms = .project :: rest

theorem tally_append (as : List Mark) {bs : List Mark} (h : Opens bs) :
    tally (as ++ bs) = ((tally as).1, (tally as).2 ++ counts bs) := by
  induction as with
  | nil =>
    rcases h with rfl | ⟨rest, rfl⟩ <;> rfl
  | cons m as ih => cases m <;> simp [tally, ih]

theorem tally_of_notMem {ms : List Mark} (h : Mark.project ∉ ms) : tally ms = (ms.length, []) := by
  induction ms with
  | nil => rfl
  | cons m ms ih =>
    obtain ⟨hm, hms⟩ := not_or.1 (mt List.mem_cons.2 h)
    cases m with
    | project => exact absurd rfl hm
    | allow => simp [tally, ih hms]

/-- A block in the middle of a text. -/
theorem counts_block (as : List Mark) {ms bs : List Mark} (hms : Mark.project ∉ ms)
    (hbs : Opens bs) :
    counts (as ++ .project :: ms ++ bs) = counts as ++ ms.length :: counts bs := by
  have hblock : tally (.project :: ms ++ bs) = (0, ms.length :: counts bs) := by
    rw [List.cons_append, tally, tally_append ms hbs, tally_of_notMem hms]
    rfl
  have hopens : Opens (.project :: ms ++ bs) := .inr ⟨ms ++ bs, rfl⟩
  rw [List.append_assoc, counts, tally_append as hopens, counts, counts, hblock]

theorem length_counts (ms : List Mark) : (counts ms).length = ms.count .project := by
  induction ms with
  | nil => rfl
  | cons m ms ih => cases m <;> simp_all [counts, tally]

namespace Part

variable {p : Bytes → Bool} {data : Bytes} {i : ℕ}

theorem header_ne_nil (P : Part p data i) (hp : p [] = false) : P.header ≠ [] := by
  intro h
  have hm := P.matched
  rw [h, hp] at hm
  exact absurd hm (by simp)

theorem rest_stop (P : Part p data i) : LineStop (P.body ++ P.after) := by
  rcases P.body_stop with hb | ⟨v, hv⟩
  · rcases P.next with ha | ⟨⟨m, hm⟩, -⟩
    · exact .inl (by simp [hb, ha])
    · simp [hb] at hm
  · exact .inr ⟨v ++ P.after, by simp [hv]⟩

variable (P : Part projectHeaderPattern data i)

theorem marks_header : marks P.header = [.project] := by
  rw [marks_line P.line, mark_eq_project.2 P.matched]
  rfl

theorem opens_after : Opens (marks P.after) := by
  rcases P.next with ha | ⟨-, h, w, ha, hh, hm, hw⟩
  · exact .inl (by simp [ha])
  · refine .inr ⟨marks w, ?_⟩
    rw [ha, marks_append_of_stop h hw, marks_line hh, mark_eq_project.2 hm]
    rfl

theorem project_notMem_body : Mark.project ∉ marks P.body := by
  intro h
  obtain ⟨l, hl, hm⟩ := List.mem_filterMap.1 h
  simpa [mark_eq_project.1 hm] using P.body_free l hl

theorem length_counts_before : (counts (marks P.before)).length = i := by
  rw [length_counts, count_project_marks, P.index]

theorem marks_upto : marks (P.before ++ P.header ++ P.body) =
    marks P.before ++ .project :: marks P.body := by
  rw [marks_append_of_stop _ P.body_stop, marks_append_of_start P.start, P.marks_header]
  simp

/-- The text up to the next block ends a line, or the text ends there. -/
theorem after_or_start : P.after = [] ∨ LineStart (P.before ++ P.header ++ P.body) := by
  rcases P.next with ha | ⟨⟨m, hm⟩, -⟩
  · exact .inl ha
  · exact .inr (.inr ⟨P.before ++ P.header ++ m, by simp [hm]⟩)

theorem marks_eq : marks data = marks P.before ++ .project :: marks P.body ++ marks P.after := by
  have h : marks (P.before ++ P.header ++ P.body ++ P.after) =
      marks (P.before ++ P.header ++ P.body) ++ marks P.after := by
    rcases P.after_or_start with ha | hs
    · simp [ha]
    · exact marks_append_of_start hs _
  rw [← P.marks_upto, ← h, ← P.eq]

theorem counts_eq : counts (marks data) =
    counts (marks P.before) ++ (marks P.body).length :: counts (marks P.after) := by
  rw [P.marks_eq, counts_block _ P.project_notMem_body P.opens_after]

theorem length_marks_body : (marks P.body).length =
    (findAllIndex allowHeaderPattern P.body).length := by
  rw [length_findAllIndex, ← count_allow_marks, eq_comm, List.count_eq_length]
  intro m hm
  cases m with
  | project => exact absurd hm P.project_notMem_body
  | allow => rfl

end Part

theorem slice_append (u x w : Bytes) : slice (u ++ x ++ w) u.length (u.length + x.length) = x := by
  rw [slice, ← List.length_append, List.take_left, List.drop_left]

theorem splice_append (u x w v : Bytes) :
    splice (u ++ x ++ w) u.length (u.length + x.length) v = u ++ v ++ w := by
  rw [splice, ← List.length_append, List.drop_left, List.append_assoc u, List.take_left]

/-- The selected project header and its block. -/
theorem projectHeader_ok {data : Bytes} {n i : ℕ} {header : ℕ × ℕ} {stop : ℕ}
    (h : projectHeader data n i = .ok (header, stop)) :
    ∃ P : Part projectHeaderPattern data i,
      header = (P.before.length, (P.before ++ P.header).length) ∧
      stop = (P.before ++ P.header).length + P.body.length := by
  unfold projectHeader at h
  dsimp only at h
  split_ifs at h
  split at h
  · simp at h
  · next hd hhd =>
    obtain ⟨rfl, rfl⟩ : hd = header ∧ _ = stop := by simpa using h
    obtain ⟨P, ha, hb, hstop⟩ := exists_part (by decide +kernel) hhd
    exact ⟨P, Prod.ext ha (by simpa using hb), by simpa using hstop⟩

theorem projectBlockBounds_ok {data : Bytes} {n i start stop : ℕ}
    (h : projectBlockBounds data n i = .ok (start, stop)) :
    ∃ P : Part projectHeaderPattern data i, start = (P.before ++ P.header).length ∧
      stop = (P.before ++ P.header).length + P.body.length ∧ slice data start stop = P.body := by
  unfold projectBlockBounds at h
  cases hp : projectHeader data n i with
  | error e => simp [hp, bind, Except.bind] at h
  | ok r =>
    obtain ⟨header, stop'⟩ := r
    obtain ⟨P, rfl, rfl⟩ := projectHeader_ok hp
    obtain ⟨rfl, rfl⟩ : (P.before ++ P.header).length = start ∧ _ = stop := by
      simpa [hp, bind, Except.bind, pure, Except.pure] using h
    refine ⟨P, rfl, by simp, ?_⟩
    have hslice := slice_append (P.before ++ P.header) P.body P.after
    rw [← P.eq] at hslice
    simpa using hslice

end SecretsBroker.Admin
