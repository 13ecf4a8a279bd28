import SecretsBroker.Foundations.Utf8

/-!
# Slash-separated paths

`clean` is the lexical cleaning of a path (`filepath.Clean` on a platform whose separator is the
slash), and `components` the list of names between the slashes it works on. A list of names that
cleaning can produce is `Canonical`; its text is clean already (`clean_render`) and determines it
(`render_injective`).
-/

namespace SecretsBroker.Path

/-- The slash. -/
def separator : UInt8 := 0x2F

def dot : Bytes := [0x2E]
def dotDot : Bytes := [0x2E, 0x2E]

/-- `filepath.IsAbs`. -/
def isAbs (path : Bytes) : Bool := path.head? == some separator

/-- The names of a path between its slashes, without the empty ones and without dots. -/
def components (path : Bytes) : List Bytes :=
  (path.splitOn separator).filter fun c => c != [] && c != dot

/-- Go up one level: drop the last name, unless there is none or it is itself a step up that had
to be kept. Above the root there is nothing to go up to. -/
def up (rooted : Bool) (dest : List Bytes) : List Bytes :=
  match dest.getLast? with
  | none => if rooted then [] else [dotDot]
  | some last => if last = dotDot then dest ++ [dotDot] else dest.dropLast

/-- The lexical effect of one name. -/
def cleanStep (rooted : Bool) (dest : List Bytes) (c : Bytes) : List Bytes :=
  if c = dotDot then up rooted dest else dest ++ [c]

/-- The text of a path from its names. -/
def render (rooted : Bool) (dest : List Bytes) : Bytes :=
  match rooted, dest with
  | true, dest => separator :: [separator].intercalate dest
  | false, [] => dot
  | false, dest => [separator].intercalate dest

/-- `filepath.Clean`. -/
def clean (path : Bytes) : Bytes :=
  render (isAbs path) ((components path).foldl (cleanStep (isAbs path)) [])

example : clean (str "/a//b/../c/.") = str "/a/c" := by decide

/-! ## Canonical lists of names -/

/-- A text that stands for itself between two slashes. -/
def IsName (c : Bytes) : Prop := c ≠ [] ∧ c ≠ dot ∧ separator ∉ c

/-- Steps up, then names that are none; no step up above the root. -/
def Canonical (rooted : Bool) (dest : List Bytes) : Prop :=
  ∃ k names, dest = List.replicate k dotDot ++ names ∧ (rooted = true → k = 0) ∧
    ∀ c ∈ names, IsName c ∧ c ≠ dotDot

theorem canonical_nil (rooted : Bool) : Canonical rooted [] :=
  ⟨0, [], rfl, fun _ => rfl, by simp⟩

theorem Canonical.isName {rooted : Bool} {dest : List Bytes} (h : Canonical rooted dest) :
    ∀ c ∈ dest, IsName c := by
  have hdd : IsName dotDot := by unfold IsName; decide
  obtain ⟨k, names, rfl, -, hn⟩ := h
  intro c hc
  rcases List.mem_append.1 hc with hc | hc
  · rwa [List.eq_of_mem_replicate hc]
  · exact (hn c hc).1

theorem Canonical.child {rooted : Bool} {dest : List Bytes} (h : Canonical rooted dest) {c : Bytes}
    (hc : IsName c) (hdd : c ≠ dotDot) : Canonical rooted (dest ++ [c]) := by
  obtain ⟨k, names, rfl, hk, hn⟩ := h
  refine ⟨k, names ++ [c], by simp, hk, fun d hd => ?_⟩
  rcases List.mem_append.1 hd with hd | hd
  · exact hn d hd
  · obtain rfl := List.mem_singleton.1 hd
    exact ⟨hc, hdd⟩

theorem Canonical.up {rooted : Bool} {dest : List Bytes} (h : Canonical rooted dest) :
    Canonical rooted (Path.up rooted dest) := by
  obtain ⟨k, names, rfl, hk, hn⟩ := h
  rcases List.eq_nil_or_concat names with rfl | ⟨names, c, rfl⟩
  · rw [List.append_nil]
    cases k with
    | zero =>
      cases rooted with
      | true => exact canonical_nil true
      | false => exact ⟨1, [], rfl, by simp, by simp⟩
    | succ k =>
      refine ⟨k + 2, [], ?_, fun hr => by simpa using hk hr, by simp⟩
      simp [Path.up, List.replicate_succ']
  · have hc : c ≠ dotDot := (hn c (by simp)).2
    refine ⟨k, names, ?_, hk, fun d hd => hn d (by simp [hd])⟩
    rw [List.concat_eq_append, ← List.append_assoc]
    simp [Path.up, hc]

theorem foldl_cleanStep_replicate (k : ℕ) (dest : List Bytes) (hd : ∀ c ∈ dest, c = dotDot) :
    (List.replicate k dotDot).foldl (cleanStep false) dest = dest ++ List.replicate k dotDot := by
  induction k generalizing dest with
  | zero => simp
  | succ k ih =>
    have hup : cleanStep false dest dotDot = dest ++ [dotDot] := by
      rcases List.eq_nil_or_concat dest with rfl | ⟨dest, c, rfl⟩
      · rfl
      · simp [cleanStep, up, hd c (by simp)]
    rw [List.replicate_succ, List.foldl_cons, hup,
      ih _ fun c hc => (List.mem_append.1 hc).elim (hd c) List.mem_singleton.1]
    simp

theorem foldl_cleanStep_names (rooted : Bool) (names dest : List Bytes)
    (hn : ∀ c ∈ names, c ≠ dotDot) :
    names.foldl (cleanStep rooted) dest = dest ++ names := by
  induction names generalizing dest with
  | nil => simp
  | cons c names ih =>
    rw [List.foldl_cons, ih _ fun d hd => hn d (by simp [hd]), cleanStep, if_neg (hn c (by simp))]
    simp

/-- Cleaning changes nothing in a canonical list of names. -/
theorem Canonical.foldl_cleanStep {rooted : Bool} {dest : List Bytes} (h : Canonical rooted dest) :
    dest.foldl (cleanStep rooted) [] = dest := by
  obtain ⟨k, names, rfl, hk, hn⟩ := h
  rw [List.foldl_append, foldl_cleanStep_names _ _ _ fun c hc => (hn c hc).2]
  cases rooted with
  | true => simp [hk rfl]
  | false => rw [foldl_cleanStep_replicate _ _ (by simp), List.nil_append]

/-! ## The text of a canonical list of names -/

theorem not_mem_of_mem_splitOn {sep : UInt8} {s part : Bytes} (h : part ∈ s.splitOn sep) :
    sep ∉ part := by
  induction s generalizing part with
  | nil =>
    obtain rfl : part = [] := by simpa [List.splitOn] using h
    simp
  | cons b s ih =>
    unfold List.splitOn at h ih
    rw [List.splitOnP_cons_eq_if_modifyHead] at h
    split_ifs at h with hb
    · rcases List.mem_cons.1 h with rfl | h
      · simp
      · exact ih h
    · obtain ⟨first, rest, hsplit⟩ := List.exists_cons_of_ne_nil (List.splitOnP_ne_nil (· == sep) s)
      rw [hsplit, List.modifyHead_cons] at h
      rcases List.mem_cons.1 h with rfl | h
      · have hfirst := ih (hsplit ▸ List.mem_cons_self)
        have hb' : sep ≠ b := fun e => hb (by simp [e])
        simp [hb', hfirst]
      · exact ih (hsplit ▸ List.mem_cons_of_mem _ h)

theorem filter_names {dest : List Bytes} (h : ∀ c ∈ dest, IsName c) :
    dest.filter (fun c => c != [] && c != dot) = dest := by
  rw [List.filter_eq_self]
  intro c hc
  simp [(h c hc).1, (h c hc).2.1]

theorem splitOn_names {dest : List Bytes} (hne : dest ≠ []) (h : ∀ c ∈ dest, IsName c) :
    ([separator].intercalate dest).splitOn separator = dest :=
  List.splitOn_intercalate separator (fun c hc => (h c hc).2.2) hne

theorem components_render (rooted : Bool) {dest : List Bytes} (h : ∀ c ∈ dest, IsName c) :
    components (render rooted dest) = dest := by
  cases dest with
  | nil => cases rooted <;> decide
  | cons c cs =>
    cases rooted with
    | false =>
      change components ([separator].intercalate (c :: cs)) = c :: cs
      rw [components, splitOn_names (by simp) h, filter_names h]
    | true =>
      have hs := List.splitOn_append_cons_self (a := separator) []
        ([separator].intercalate (c :: cs))
      rw [List.nil_append] at hs
      rw [render, components, hs, splitOn_names (by simp) h, List.filter_append, filter_names h]
      rfl

theorem isAbs_render (rooted : Bool) {dest : List Bytes} (h : ∀ c ∈ dest, IsName c) :
    isAbs (render rooted dest) = rooted := by
  cases rooted with
  | true => rfl
  | false =>
    cases dest with
    | nil => rfl
    | cons c cs =>
      obtain ⟨hne, -, hsep⟩ := h c (by simp)
      obtain ⟨b, tl, rfl⟩ := List.exists_cons_of_ne_nil hne
      have hb : b ≠ separator := fun hb => hsep (by simp [hb])
      cases cs with
      | nil => simpa [render, isAbs] using hb
      | cons d ds => simpa [render, isAbs, List.intercalate] using hb

/-- **The text of a canonical list of names is clean.** -/
theorem clean_render {rooted : Bool} {dest : List Bytes} (h : Canonical rooted dest) :
    clean (render rooted dest) = render rooted dest := by
  rw [clean, isAbs_render _ h.isName, components_render _ h.isName, h.foldl_cleanStep]

/-- The text of a canonical list of names determines it. -/
theorem render_injective {r₁ r₂ : Bool} {d₁ d₂ : List Bytes} (h₁ : Canonical r₁ d₁)
    (h₂ : Canonical r₂ d₂) (h : render r₁ d₁ = render r₂ d₂) : r₁ = r₂ ∧ d₁ = d₂ := by
  have hr := congrArg isAbs h
  have hd := congrArg components h
  rw [isAbs_render _ h₁.isName, isAbs_render _ h₂.isName] at hr
  rw [components_render _ h₁.isName, components_render _ h₂.isName] at hd
  exact ⟨hr, hd⟩

end SecretsBroker.Path
