import Mathlib.Data.List.TakeDrop
import SecretsBroker.Foundations.Json

/-!
# Where a JSON value ends

The parser decides where a value ends from the text of the value alone. `value_append`: what follows
a value does not change how it is read, unless it is a number that the text ends with. Hence a text
that breaks off before the end of an object has no value (`parse_truncated`). `parse_before_object`:
a text that ends in an object and is one value is that object, up to white space before it. The fuel
of the parser is enough for every text that can be read (`Reads.parse`).
-/

namespace SecretsBroker.Json

open Utf8

/-! ## One level of the parser -/

section Inversion

variable {n : ℕ} {s rest : Bytes}

/-- Brackets with nothing between them, or with what `inner` reads. -/
theorem bracket_iff {α : Type} {close c : UInt8} {tl : Bytes} {empty j : Json} {g : α → Json}
    {inner : Option (α × Bytes)} :
    (if c = close then some (empty, tl) else inner.map fun p => (g p.1, p.2)) = some (j, rest) ↔
      (c = close ∧ j = empty ∧ rest = tl) ∨
        (c ≠ close ∧ ∃ a, inner = some (a, rest) ∧ g a = j) := by
  by_cases h : c = close
  · simp [h, eq_comm]
  · simp [h]

theorem value_succ {j : Json} : value (n + 1) s = some (j, rest) ↔
    ∃ b tl, skipSpace s = b :: tl ∧
      ((b = 0x22 ∧ ∃ t, readString tl = some (t, rest) ∧ Json.string t = j) ∨
        (b = 0x5B ∧ ∃ c tl', skipSpace tl = c :: tl' ∧
          ((c = 0x5D ∧ j = .array [] ∧ rest = tl') ∨
            (c ≠ 0x5D ∧ ∃ vs, elements n (c :: tl') = some (vs, rest) ∧ Json.array vs = j))) ∨
        (b = 0x7B ∧ ∃ c tl', skipSpace tl = c :: tl' ∧
          ((c = 0x7D ∧ j = .object [] ∧ rest = tl') ∨
            (c ≠ 0x7D ∧ ∃ ms, members n (c :: tl') = some (ms, rest) ∧ Json.object ms = j))) ∨
        (b ≠ 0x22 ∧ b ≠ 0x5B ∧ b ≠ 0x7B ∧ readScalar (b :: tl) = some (j, rest))) := by
  rw [value]
  cases hs : skipSpace s with
  | nil => simp
  | cons b tl =>
    simp only [List.cons.injEq]
    by_cases h₁ : b = 0x22
    · subst h₁
      simp
    by_cases h₂ : b = 0x5B
    · subst h₂
      cases ht : skipSpace tl with
      | nil => simp [ht]
      | cons c tl' => simp [ht, bracket_iff]
    by_cases h₃ : b = 0x7B
    · subst h₃
      cases ht : skipSpace tl with
      | nil => simp [ht]
      | cons c tl' => simp [ht, bracket_iff]
    · simp [h₁, h₂, h₃]

/-- The separator after an item: a comma and more items, or the closing bracket. -/
theorem separator_iff {α : Type} {close : UInt8} (hclose : close ≠ 0x2C) {b : UInt8} {tl : Bytes}
    {x : α} {xs : List α} {more : Option (List α × Bytes)} :
    (if b = 0x2C then more.map fun p => (x :: p.1, p.2)
      else if b = close then some ([x], tl) else none) = some (xs, rest) ↔
      (b = 0x2C ∧ ∃ xs', more = some (xs', rest) ∧ x :: xs' = xs) ∨
        (b = close ∧ xs = [x] ∧ rest = tl) := by
  by_cases h : b = 0x2C
  · simp [h, hclose.symm]
  · by_cases h' : b = close
    · simp [h', hclose, eq_comm]
    · simp [h, h']

theorem elements_succ {vs : List Json} : elements (n + 1) s = some (vs, rest) ↔
    ∃ v rest₁ b tl, value n s = some (v, rest₁) ∧ skipSpace rest₁ = b :: tl ∧
      ((b = 0x2C ∧ ∃ vs', elements n tl = some (vs', rest) ∧ v :: vs' = vs) ∨
        (b = 0x5D ∧ vs = [v] ∧ rest = tl)) := by
  rw [elements]
  cases hv : value n s with
  | none => simp
  | some p =>
    obtain ⟨v, rest₁⟩ := p
    cases hs : skipSpace rest₁ with
    | nil => simp [hs]
    | cons b tl => simp [hs, separator_iff]

theorem members_succ {ms : List (Bytes × Json)} : members (n + 1) s = some (ms, rest) ↔
    ∃ tl key rest₁ tl₁ v rest₂ b tl₂, skipSpace s = 0x22 :: tl ∧
      readString tl = some (key, rest₁) ∧ skipSpace rest₁ = 0x3A :: tl₁ ∧
      value n tl₁ = some (v, rest₂) ∧ skipSpace rest₂ = b :: tl₂ ∧
      ((b = 0x2C ∧ ∃ ms', members n tl₂ = some (ms', rest) ∧ (key, v) :: ms' = ms) ∨
        (b = 0x7D ∧ ms = [(key, v)] ∧ rest = tl₂)) := by
  rw [members]
  cases hs : skipSpace s with
  | nil => simp
  | cons q tl =>
    by_cases hq : q = 0x22
    swap
    · simp [hq]
    cases hr : readString tl with
    | none => simp [hq, hr]
    | some p =>
      obtain ⟨key, rest₁⟩ := p
      cases hs₁ : skipSpace rest₁ with
      | nil => simp [hq, hr, hs₁]
      | cons colon tl₁ =>
        by_cases hcolon : colon = 0x3A
        swap
        · simp [hq, hr, hs₁, hcolon]
        cases hv : value n tl₁ with
        | none => simp [hq, hr, hs₁, hcolon, hv]
        | some p =>
          obtain ⟨v, rest₂⟩ := p
          cases hs₂ : skipSpace rest₂ with
          | nil => simp [hq, hr, hs₁, hcolon, hv, hs₂]
          | cons b tl₂ => simp [hq, hr, hs₁, hcolon, hv, hs₂, separator_iff]

theorem map_fst_eq_some {α β : Type} {g : α → β} {x : Option (α × Bytes)} {b : β} :
    x.map (fun p => (g p.1, p.2)) = some (b, rest) ↔ ∃ a, x = some (a, rest) ∧ g a = b := by
  simp

theorem readDigits_iff {ds : Bytes} : readDigits s = some (ds, rest) ↔
    ds ≠ [] ∧ s.takeWhile isDigit = ds ∧ s.dropWhile isDigit = rest := by
  rw [readDigits, List.span_eq_takeWhile_dropWhile]
  cases s.takeWhile isDigit with
  | nil =>
    refine ⟨fun h => absurd h (by simp), fun h => absurd h.2.1.symm h.1⟩
  | cons d ds' =>
    simp only [Option.some.injEq, Prod.mk.injEq]
    exact ⟨fun h => ⟨by simp [← h.1], h⟩, fun h => h.2⟩

/-- An optional minus sign. -/
def readSign (s : Bytes) : Bytes × Bytes :=
  if s.head? = some 0x2D then ([0x2D], s.tail) else ([], s)

theorem readNumber_iff {t : Bytes} : readNumber s = some (t, rest) ↔
    ∃ sign s₀ int s₁ frac s₂ exp, readSign s = (sign, s₀) ∧ readInteger s₀ = some (int, s₁) ∧
      readFraction s₁ = some (frac, s₂) ∧ readExponent s₂ = some (exp, rest) ∧
      sign ++ int ++ frac ++ exp = t := by
  have heq : readNumber s = (readInteger (readSign s).2).bind fun x =>
      (readFraction x.2).bind fun y => (readExponent y.2).bind fun z =>
        some ((readSign s).1 ++ x.1 ++ y.1 ++ z.1, z.2) := rfl
  rw [heq]
  obtain ⟨sign, s₀⟩ := readSign s
  simp [Option.bind_eq_some_iff]

end Inversion

/-! ## What a reader passes over -/

/-- A reader has gone from a text to a rest of it and has passed no opening brace. -/
def Passes (s rest : Bytes) : Prop := ∃ e, s = e ++ rest ∧ 0x7B ∉ e

theorem Passes.refl (s : Bytes) : Passes s s := ⟨[], rfl, by simp⟩

theorem Passes.trans {s t u : Bytes} (h : Passes s t) (h' : Passes t u) : Passes s u := by
  obtain ⟨e, rfl, he⟩ := h
  obtain ⟨e', rfl, he'⟩ := h'
  exact ⟨e ++ e', by simp, by simp [he, he']⟩

theorem passes_cons {b : UInt8} (h : b ≠ 0x7B) (s : Bytes) : Passes (b :: s) s :=
  ⟨[b], rfl, by simpa using h.symm⟩

theorem Passes.subset {s rest : Bytes} (h : Passes s rest) : rest ⊆ s := by
  obtain ⟨e, rfl, -⟩ := h
  exact List.subset_append_right e rest

theorem skipSpace_passes (s : Bytes) : Passes s (skipSpace s) := by
  refine ⟨s.takeWhile isSpace, List.takeWhile_append_dropWhile.symm, fun h => ?_⟩
  exact absurd (List.all_eq_true.1 List.all_takeWhile _ h) (by decide)

theorem readHex4_passes {s rest : Bytes} {v : ℕ} (h : readHex4 s = some (v, rest)) :
    Passes s rest := by
  have hne : ∀ {b : UInt8} {d : ℕ}, hexValue b = some d → b ≠ 0x7B := by
    rintro b d h rfl
    have hnone : hexValue 0x7B = none := by decide
    simp [hnone] at h
  match s with
  | a :: b :: c :: d :: tl =>
    simp only [readHex4, Option.bind_eq_bind, Option.bind_eq_some_iff] at h
    obtain ⟨_, ha, _, hb, _, hc, _, hd, heq⟩ := h
    obtain ⟨-, rfl⟩ := Prod.mk.inj (Option.some.inj heq)
    exact (passes_cons (hne ha) _).trans <| (passes_cons (hne hb) _).trans <|
      (passes_cons (hne hc) _).trans (passes_cons (hne hd) _)

theorem readSurrogate_passes (hi : ℕ) (s : Bytes) : Passes s (readSurrogate hi s).2 := by
  unfold readSurrogate
  split
  · next tl =>
    split
    · next lo r hr =>
      split
      · exact (passes_cons (by decide) _).trans <| (passes_cons (by decide) _).trans
          (readHex4_passes hr)
      · exact .refl _
    · exact .refl _
  · exact .refl _

theorem readEscape_passes {s rest : Bytes} {c : Char} (h : readEscape s = some (c, rest)) :
    Passes s rest := by
  match s with
  | b :: tl =>
    rw [readEscape] at h
    by_cases hu : b = 0x75
    · rw [if_pos hu] at h
      have hb : Passes (b :: tl) tl := passes_cons (by simp [hu]) tl
      cases hr : readHex4 tl with
      | none => simp [hr] at h
      | some p =>
        obtain ⟨v, r⟩ := p
        have hhex := readHex4_passes hr
        simp only [hr] at h
        split_ifs at h with hs
        · have hsur := readSurrogate_passes v r
          rw [Option.some.inj h] at hsur
          exact hb.trans (hhex.trans hsur)
        · obtain ⟨-, rfl⟩ := Prod.mk.inj (Option.some.inj h)
          exact hb.trans hhex
    rw [if_neg hu] at h
    by_cases hslash : b = 0x2F
    · rw [if_pos hslash] at h
      obtain ⟨-, rfl⟩ := Prod.mk.inj (Option.some.inj h)
      exact passes_cons (by simp [hslash]) tl
    rw [if_neg hslash] at h
    split at h
    · next p hp =>
      obtain ⟨-, rfl⟩ := Prod.mk.inj (Option.some.inj h)
      refine passes_cons ?_ tl
      -- the brace is the letter of no escape
      rintro rfl
      have hnone : (shortEscapes.find? fun p => p.1 == 0x7B) = none := by decide
      exact absurd (hnone.symm.trans hp) (by simp)
    · exact absurd h (by simp)

/-- All bytes of a sequence but the first are above ASCII. -/
theorem encodeRune_tail (c : Char) : ∀ b ∈ (encodeRune c).tail, 0x80 ≤ b.toNat := by
  have hc := toNat_lt c
  rw [encodeRune_eq]
  split_ifs <;> simp <;> omega

/-- One symbol of a string that is no quote and no escape. -/
def readRaw (b : UInt8) (tl : Bytes) : Char × Bytes := (decodeRune (b :: tl)).getD (runeError, tl)

theorem readRaw_passes (b : UInt8) (tl : Bytes) : Passes tl (readRaw b tl).2 := by
  unfold readRaw
  cases h : decodeRune (b :: tl) with
  | none => exact .refl tl
  | some p =>
    obtain ⟨c, r⟩ := p
    have heq := eq_encodeRune_append h
    have htail := encodeRune_tail c
    obtain ⟨x, xs, hx⟩ := List.exists_cons_of_ne_nil (encodeRune_ne_nil c)
    rw [hx] at heq htail
    exact ⟨xs, (List.cons.inj heq).2, fun hmem => absurd (htail _ hmem) (by decide)⟩

/-! ## What follows a value -/

section Append

variable {s rest : Bytes} (q : Bytes)

theorem skipSpace_append {b : UInt8} {tl : Bytes} (h : skipSpace s = b :: tl) :
    skipSpace (s ++ q) = b :: (tl ++ q) := by
  unfold skipSpace at h ⊢
  rw [List.dropWhile_append, h]
  rfl

theorem readHex4_append {v : ℕ} (h : readHex4 s = some (v, rest)) :
    readHex4 (s ++ q) = some (v, rest ++ q) := by
  match s with
  | a :: b :: c :: d :: tl =>
    simp only [readHex4, Option.bind_eq_bind, Option.bind_eq_some_iff, List.cons_append] at h ⊢
    obtain ⟨a', ha, b', hb, c', hc, d', hd, heq⟩ := h
    simp only [Option.some.injEq, Prod.mk.injEq] at heq
    exact ⟨a', ha, b', hb, c', hc, d', hd, by rw [heq.1, heq.2]⟩

theorem decodeRune_append {c : Char} (h : decodeRune s = some (c, rest)) :
    decodeRune (s ++ q) = some (c, rest ++ q) := by
  rw [eq_encodeRune_append h, List.append_assoc]
  exact decodeRune_encodeRune c _

/-- A sequence that is cut short stays so when it is followed by a quote. -/
theorem decodeRune_append_none {b : UInt8} {tl : Bytes} (h : decodeRune (b :: tl) = none)
    (hquote : 0x22 ∈ tl) : decodeRune (b :: tl ++ q) = none := by
  by_contra hne
  obtain ⟨⟨c, r⟩, hc⟩ := Option.ne_none_iff_exists'.1 hne
  rcases List.append_eq_append_iff.1 (eq_encodeRune_append hc) with ⟨a, ha, -⟩ | ⟨a, ha, -⟩
  · have htail := encodeRune_tail c 0x22 (by rw [ha]; simp [hquote])
    exact absurd htail (by decide)
  · rw [ha, decodeRune_encodeRune] at h
    exact absurd h (by simp)

theorem readStringAux_succ {n : ℕ} {b : UInt8} {tl t : Bytes} :
    readStringAux (n + 1) (b :: tl) = some (t, rest) ↔
      (b = 0x22 ∧ t = [] ∧ rest = tl) ∨
      (b = 0x5C ∧ ∃ c r t', readEscape tl = some (c, r) ∧ readStringAux n r = some (t', rest) ∧
        encodeRune c ++ t' = t) ∨
      (b ≠ 0x22 ∧ b ≠ 0x5C ∧ 0x20 ≤ b.toNat ∧ ∃ t',
        readStringAux n (readRaw b tl).2 = some (t', rest) ∧
          encodeRune (readRaw b tl).1 ++ t' = t) := by
  rw [readStringAux]
  by_cases h₁ : b = 0x22
  · simp [h₁, eq_comm]
  by_cases h₂ : b = 0x5C
  · subst h₂
    cases he : readEscape tl with
    | none => simp
    | some p =>
      obtain ⟨c, r⟩ := p
      simp
  by_cases h₃ : b.toNat < 0x20
  · simp [h₁, h₂, h₃, Nat.not_le.2 h₃]
  · cases hd : decodeRune (b :: tl) with
    | none => simp [h₁, h₂, h₃, Nat.not_lt.1 h₃, readRaw, hd]
    | some p => simp [h₁, h₂, h₃, Nat.not_lt.1 h₃, readRaw, hd]

/-- A string that is read ends in a quote. -/
theorem quote_mem_of_readStringAux {n : ℕ} {t : Bytes} (h : readStringAux n s = some (t, rest)) :
    0x22 ∈ s := by
  induction n generalizing s t with
  | zero => simp [readStringAux] at h
  | succ n ih =>
    cases s with
    | nil => simp [readStringAux] at h
    | cons b tl =>
      rcases readStringAux_succ.1 h with ⟨rfl, -⟩ | ⟨-, c, r, t', he, hr, -⟩ | ⟨-, -, -, t', hr, -⟩
      · simp
      · exact List.mem_cons_of_mem _ ((readEscape_passes he).subset (ih hr))
      · exact List.mem_cons_of_mem _ ((readRaw_passes b tl).subset (ih hr))

theorem readSurrogate_append {n hi : ℕ} {p : Bytes × Bytes}
    (h : readStringAux n (readSurrogate hi s).2 = some p) :
    readSurrogate hi (s ++ q) = ((readSurrogate hi s).1, (readSurrogate hi s).2 ++ q) := by
  -- a string goes on after what was read, with an escape that is complete if there is one
  have hshort : ∀ n, readStringAux n [] ≠ some p ∧ readStringAux n [0x5C] ≠ some p := by
    intro n
    cases n <;> simp [readStringAux, readEscape]
  rcases s with _ | ⟨b, _ | ⟨c, tl⟩⟩
  · exact absurd h (hshort n).1
  · by_cases hb : b = 0x5C
    · subst hb
      exact absurd h (hshort n).2
    · simp [readSurrogate, hb]
  · by_cases hesc : b = 0x5C ∧ c = 0x75
    · obtain ⟨rfl, rfl⟩ := hesc
      cases hr : readHex4 tl with
      | some x =>
        obtain ⟨lo, r⟩ := x
        have hr' := readHex4_append q hr
        simp only [readSurrogate, List.cons_append, hr, hr']
        cases surrogatePair hi lo <;> rfl
      | none =>
        simp only [readSurrogate, hr] at h
        obtain ⟨t, rest⟩ := p
        cases n with
        | zero => simp [readStringAux] at h
        | succ n => simp [readStringAux, readEscape, hr] at h
    · have hno : ∀ tl, readSurrogate hi (b :: c :: tl) = (runeError, b :: c :: tl) := by
        intro tl
        unfold readSurrogate
        split
        · next heq =>
          simp only [List.cons.injEq] at heq
          exact absurd ⟨heq.1, heq.2.1⟩ hesc
        · rfl
      rw [List.cons_append, List.cons_append, hno, hno]
      rfl

theorem readEscape_append {n : ℕ} {c : Char} {p : Bytes × Bytes}
    (h : readEscape s = some (c, rest)) (hp : readStringAux n rest = some p) :
    readEscape (s ++ q) = some (c, rest ++ q) := by
  match s with
  | b :: tl =>
    rw [List.cons_append]
    rw [readEscape] at h ⊢
    by_cases hu : b = 0x75
    · rw [if_pos hu] at h ⊢
      cases hr : readHex4 tl with
      | none => simp [hr] at h
      | some x =>
        obtain ⟨v, r⟩ := x
        simp only [hr, readHex4_append q hr] at h ⊢
        split_ifs at h ⊢ with hs
        · have heq := Option.some.inj h
          have hsur : readStringAux n (readSurrogate v r).2 = some p := by rw [heq]; exact hp
          rw [readSurrogate_append q hsur, heq]
        · obtain ⟨rfl, rfl⟩ := Prod.mk.inj (Option.some.inj h)
          rfl
    rw [if_neg hu] at h ⊢
    by_cases hslash : b = 0x2F
    · rw [if_pos hslash] at h ⊢
      obtain ⟨rfl, rfl⟩ := Prod.mk.inj (Option.some.inj h)
      rfl
    rw [if_neg hslash] at h ⊢
    split at h
    · next hp =>
      obtain ⟨rfl, rfl⟩ := Prod.mk.inj (Option.some.inj h)
      rfl
    · exact absurd h (by simp)

theorem readRaw_append {n : ℕ} {b : UInt8} {tl : Bytes} {p : Bytes × Bytes}
    (h : readStringAux n (readRaw b tl).2 = some p) :
    readRaw b (tl ++ q) = ((readRaw b tl).1, (readRaw b tl).2 ++ q) := by
  have hquote : 0x22 ∈ tl := (readRaw_passes b tl).subset (quote_mem_of_readStringAux h)
  unfold readRaw
  cases hd : decodeRune (b :: tl) with
  | none =>
    rw [← List.cons_append, decodeRune_append_none q hd hquote]
    rfl
  | some x =>
    obtain ⟨c, r⟩ := x
    rw [← List.cons_append, decodeRune_append q hd]
    rfl

theorem readStringAux_append {n m : ℕ} {t : Bytes} (h : readStringAux n s = some (t, rest))
    (hm : n ≤ m) : readStringAux m (s ++ q) = some (t, rest ++ q) := by
  induction n generalizing s t m with
  | zero => simp [readStringAux] at h
  | succ n ih =>
    obtain ⟨m, rfl⟩ := Nat.exists_eq_add_of_lt (Nat.lt_of_succ_le hm)
    cases s with
    | nil => simp [readStringAux] at h
    | cons b tl =>
      have hle : n ≤ n + m := Nat.le_add_right n m
      rw [List.cons_append, readStringAux_succ]
      rcases readStringAux_succ.1 h with ⟨rfl, rfl, rfl⟩ | ⟨rfl, c, r, t', he, hr, rfl⟩ |
        ⟨h₁, h₂, h₃, t', hr, rfl⟩
      · exact .inl ⟨rfl, rfl, rfl⟩
      · exact .inr (.inl ⟨rfl, c, r ++ q, t', readEscape_append q he hr, ih hr hle, rfl⟩)
      · refine .inr (.inr ⟨h₁, h₂, h₃, t', ?_, ?_⟩)
        · rw [readRaw_append q hr]
          exact ih hr hle
        · rw [readRaw_append q hr]

theorem readString_append {t : Bytes} (h : readString s = some (t, rest)) :
    readString (s ++ q) = some (t, rest ++ q) :=
  readStringAux_append q h (by simp)

theorem readDigits_append {ds : Bytes} (h : readDigits s = some (ds, rest)) (hne : rest ≠ []) :
    readDigits (s ++ q) = some (ds, rest ++ q) := by
  obtain ⟨hds, htake, hdrop⟩ := readDigits_iff.1 h
  have hlen : (s.takeWhile isDigit).length ≠ s.length := by
    intro hlen
    have := congrArg List.length (@List.takeWhile_append_dropWhile _ isDigit s)
    rw [List.length_append, hdrop] at this
    exact hne (List.eq_nil_of_length_eq_zero (by omega))
  refine readDigits_iff.2 ⟨hds, ?_, ?_⟩
  · rw [List.takeWhile_append, if_neg hlen, htake]
  · rw [List.dropWhile_append, hdrop, if_neg (by simpa using hne)]

theorem readInteger_append {ds : Bytes} (h : readInteger s = some (ds, rest)) (hne : rest ≠ []) :
    readInteger (s ++ q) = some (ds, rest ++ q) := by
  match s with
  | b :: tl =>
    rw [List.cons_append]
    rw [readInteger] at h ⊢
    split_ifs at h ⊢ with hb
    · obtain ⟨rfl, rfl⟩ := Prod.mk.inj (Option.some.inj h)
      rfl
    · exact readDigits_append q h hne

theorem readFraction_append {f : Bytes} (h : readFraction s = some (f, rest)) (hne : rest ≠ []) :
    readFraction (s ++ q) = some (f, rest ++ q) := by
  cases s with
  | nil =>
    obtain ⟨-, rfl⟩ := Prod.mk.inj (Option.some.inj h)
    exact absurd rfl hne
  | cons b tl =>
    rw [List.cons_append]
    rw [readFraction] at h ⊢
    split_ifs at h ⊢ with hb
    · obtain ⟨ds, hds, rfl⟩ := (map_fst_eq_some (g := fun ds => b :: ds)).1 h
      rw [readDigits_append q hds hne]
      rfl
    · obtain ⟨rfl, rfl⟩ := Prod.mk.inj (Option.some.inj h)
      rfl

theorem readExponent_append {e : Bytes} (h : readExponent s = some (e, rest)) (hne : rest ≠ []) :
    readExponent (s ++ q) = some (e, rest ++ q) := by
  cases s with
  | nil =>
    obtain ⟨-, rfl⟩ := Prod.mk.inj (Option.some.inj h)
    exact absurd rfl hne
  | cons b tl =>
    rw [List.cons_append]
    simp only [readExponent] at h ⊢
    split_ifs at h ⊢ with hb
    · match tl with
      | sign :: tl' =>
        simp only [List.cons_append] at h ⊢
        split_ifs at h ⊢ with hsign
        · obtain ⟨ds, hds, rfl⟩ := (map_fst_eq_some (g := fun ds => b :: sign :: ds)).1 h
          rw [readDigits_append q hds hne]
          rfl
        · obtain ⟨ds, hds, rfl⟩ := (map_fst_eq_some (g := fun ds => b :: ds)).1 h
          rw [← List.cons_append, readDigits_append q hds hne]
          rfl
    · obtain ⟨rfl, rfl⟩ := Prod.mk.inj (Option.some.inj h)
      rfl

theorem readNumber_append {t : Bytes} (h : readNumber s = some (t, rest)) (hne : rest ≠ []) :
    readNumber (s ++ q) = some (t, rest ++ q) := by
  obtain ⟨sign, s₀, int, s₁, frac, s₂, exp, hsign, hint, hfrac, hexp, rfl⟩ := readNumber_iff.1 h
  -- no stage but the last has read to the end
  have hne₂ : s₂ ≠ [] := by
    rintro rfl
    obtain ⟨-, rfl⟩ := Prod.mk.inj (Option.some.inj hexp)
    exact hne rfl
  have hne₁ : s₁ ≠ [] := by
    rintro rfl
    obtain ⟨-, rfl⟩ := Prod.mk.inj (Option.some.inj hfrac)
    exact hne₂ rfl
  refine readNumber_iff.2 ⟨sign, s₀ ++ q, int, s₁ ++ q, frac, s₂ ++ q, exp, ?_,
    readInteger_append q hint hne₁, readFraction_append q hfrac hne₂,
    readExponent_append q hexp hne,
    rfl⟩
  cases s with
  | nil =>
    obtain ⟨-, rfl⟩ := Prod.mk.inj hsign
    exact absurd hint (by simp [readInteger])
  | cons b tl =>
    rw [List.cons_append]
    by_cases hb : b = 0x2D
    · simp only [readSign, hb, List.head?_cons, if_true, List.tail_cons, Prod.mk.injEq] at hsign ⊢
      exact ⟨hsign.1, by rw [hsign.2]⟩
    · simp only [readSign, List.head?_cons, Option.some.injEq, hb, if_false, Prod.mk.injEq]
        at hsign ⊢
      exact ⟨hsign.1, by rw [← hsign.2, List.cons_append]⟩

theorem head_of_readNumber {t : Bytes} (h : readNumber s = some (t, rest)) :
    ∃ b tl, s = b :: tl ∧ (b = 0x2D ∨ isDigit b = true) := by
  obtain ⟨sign, s₀, int, s₁, frac, s₂, exp, hsign, hint, -⟩ := readNumber_iff.1 h
  cases s with
  | nil =>
    obtain ⟨-, rfl⟩ := Prod.mk.inj hsign
    exact absurd hint (by simp [readInteger])
  | cons b tl =>
    refine ⟨b, tl, rfl, or_iff_not_imp_left.2 fun hb => ?_⟩
    simp only [readSign, List.head?_cons, Option.some.injEq, hb, if_false, Prod.mk.injEq] at hsign
    rw [← hsign.2, readInteger] at hint
    split_ifs at hint with hzero
    · rw [hzero]
      decide
    · obtain ⟨hne, htake, -⟩ := readDigits_iff.1 hint
      by_contra hdigit
      rw [List.takeWhile_cons_of_neg hdigit] at htake
      exact hne htake.symm

/-- The literal that a text starts with is the same when more text follows. -/
theorem find_literal_append {p : Bytes × Json}
    (h : (literals.find? fun p => p.1.isPrefixOf s) = some p) :
    p.1 <+: s ∧ (literals.find? fun p => p.1.isPrefixOf (s ++ q)) = some p := by
  have hpre := List.find?_some h
  have hmem := List.mem_of_find?_eq_some h
  obtain ⟨tl, rfl⟩ := List.isPrefixOf_iff_prefix.1 hpre
  refine ⟨⟨tl, rfl⟩, ?_⟩
  simp only [literals, List.mem_cons, List.not_mem_nil, or_false] at hmem
  rcases hmem with rfl | rfl | rfl <;> rfl

/-- No literal starts like a number. -/
theorem find_literal_of_number {b : UInt8} (hb : b = 0x2D ∨ isDigit b = true) (tl : Bytes) :
    (literals.find? fun p => p.1.isPrefixOf (b :: tl)) = none := by
  rw [List.find?_eq_none]
  intro p hp hpre
  simp only [literals, List.mem_cons, List.not_mem_nil, or_false] at hp
  obtain ⟨x, hx⟩ := List.isPrefixOf_iff_prefix.1 hpre
  rcases hp with rfl | rfl | rfl <;>
    (obtain ⟨rfl, -⟩ := List.cons.inj hx; exact absurd hb (by decide))

theorem readScalar_append {j : Json} (h : readScalar s = some (j, rest))
    (hend : rest ≠ [] ∨ ∀ t, j ≠ .number t) : readScalar (s ++ q) = some (j, rest ++ q) := by
  unfold readScalar at h ⊢
  cases hlit : literals.find? fun p => p.1.isPrefixOf s with
  | some p =>
    obtain ⟨hpre, hlit'⟩ := find_literal_append q hlit
    rw [hlit] at h
    rw [hlit']
    obtain ⟨rfl, rfl⟩ := Prod.mk.inj (Option.some.inj h)
    simp only [List.drop_append_of_le_length hpre.length_le]
  | none =>
    rw [hlit] at h
    obtain ⟨t, ht, rfl⟩ := (map_fst_eq_some (g := Json.number)).1 h
    have hne : rest ≠ [] := hend.resolve_right fun hnot => hnot t rfl
    obtain ⟨b, tl, rfl, hb⟩ := head_of_readNumber ht
    rw [List.cons_append, find_literal_of_number hb, ← List.cons_append, readNumber_append q ht hne]
    rfl

/-- **What follows a value does not change how it is read**, unless the value is a number and the
text ends with it; nor does more fuel. -/
theorem value_append (n : ℕ) : ∀ {m : ℕ}, n ≤ m →
    (∀ {s rest : Bytes} {j : Json}, value n s = some (j, rest) →
      (rest ≠ [] ∨ ∀ t, j ≠ .number t) → value m (s ++ q) = some (j, rest ++ q)) ∧
    (∀ {s rest : Bytes} {vs : List Json}, elements n s = some (vs, rest) →
      elements m (s ++ q) = some (vs, rest ++ q)) ∧
    ∀ {s rest : Bytes} {ms : List (Bytes × Json)}, members n s = some (ms, rest) →
      members m (s ++ q) = some (ms, rest ++ q) := by
  induction n with
  | zero => exact fun _ => ⟨by simp [value], by simp [elements], by simp [members]⟩
  | succ n ih =>
    intro m hm
    obtain ⟨k, rfl⟩ := Nat.exists_eq_add_of_lt (Nat.lt_of_succ_le hm)
    obtain ⟨ihv, ihe, ihm⟩ := ih (Nat.le_add_right n k)
    -- a value inside brackets is followed by something
    have hnext : ∀ {r : Bytes} {b : UInt8} {tl : Bytes}, skipSpace r = b :: tl → r ≠ [] := by
      rintro r b tl h rfl
      simp [skipSpace] at h
    refine ⟨fun {s rest j} h hend => ?_, fun {s rest vs} h => ?_, fun {s rest ms} h => ?_⟩
    · obtain ⟨b, tl, hs, hcases⟩ := value_succ.1 h
      refine value_succ.2 ⟨b, tl ++ q, skipSpace_append q hs, ?_⟩
      rcases hcases with ⟨hb, t, ht, hj⟩ | ⟨hb, c, tl', hc, hin⟩ | ⟨hb, c, tl', hc, hin⟩ |
        ⟨h₁, h₂, h₃, hsc⟩
      · exact .inl ⟨hb, t, readString_append q ht, hj⟩
      · refine .inr (.inl ⟨hb, c, tl' ++ q, skipSpace_append q hc, ?_⟩)
        rcases hin with ⟨hclose, hj, rfl⟩ | ⟨hopen, vs, hvs, hj⟩
        · exact .inl ⟨hclose, hj, rfl⟩
        · exact .inr ⟨hopen, vs, ihe hvs, hj⟩
      · refine .inr (.inr (.inl ⟨hb, c, tl' ++ q, skipSpace_append q hc, ?_⟩))
        rcases hin with ⟨hclose, hj, rfl⟩ | ⟨hopen, ms, hms, hj⟩
        · exact .inl ⟨hclose, hj, rfl⟩
        · exact .inr ⟨hopen, ms, ihm hms, hj⟩
      · exact .inr (.inr (.inr ⟨h₁, h₂, h₃, readScalar_append q hsc hend⟩))
    · obtain ⟨v, r, b, tl, hv, hb, hcases⟩ := elements_succ.1 h
      refine elements_succ.2 ⟨v, r ++ q, b, tl ++ q, ihv hv (.inl (hnext hb)),
        skipSpace_append q hb, ?_⟩
      rcases hcases with ⟨hcomma, vs', hvs', heq⟩ | ⟨hclose, heq, rfl⟩
      · exact .inl ⟨hcomma, vs', ihe hvs', heq⟩
      · exact .inr ⟨hclose, heq, rfl⟩
    · obtain ⟨tl, key, r₁, tl₁, v, r₂, b, tl₂, hq, hkey, hcolon, hv, hb, hcases⟩ := members_succ.1 h
      refine members_succ.2 ⟨tl ++ q, key, r₁ ++ q, tl₁ ++ q, v, r₂ ++ q, b, tl₂ ++ q,
        skipSpace_append q hq, readString_append q hkey, skipSpace_append q hcolon,
        ihv hv (.inl (hnext hb)), skipSpace_append q hb, ?_⟩
      rcases hcases with ⟨hcomma, ms', hms', heq⟩ | ⟨hclose, heq, rfl⟩
      · exact .inl ⟨hcomma, ms', ihm hms', heq⟩
      · exact .inr ⟨hclose, heq, rfl⟩

end Append

theorem value_of_readNumber {s rest t : Bytes} (h : readNumber s = some (t, rest)) (n : ℕ) :
    value (n + 1) s = some (.number t, rest) := by
  obtain ⟨b, tl, rfl, hb⟩ := head_of_readNumber h
  have hne : ∀ c ∈ [0x20, 0x09, 0x0A, 0x0D, 0x22, 0x5B, 0x7B], b ≠ c := by
    rintro c hc rfl
    simp only [List.mem_cons, List.not_mem_nil, or_false] at hc
    rcases hc with rfl | rfl | rfl | rfl | rfl | rfl | rfl <;> exact absurd hb (by decide)
  simp only [List.mem_cons, List.not_mem_nil, or_false, forall_eq_or_imp, forall_eq] at hne
  have hsp : isSpace b = false := by simp [isSpace, hne]
  refine value_succ.2 ⟨b, tl, skipSpace_cons hsp tl, .inr (.inr (.inr ⟨hne.2.2.2.2.1,
    hne.2.2.2.2.2.1, hne.2.2.2.2.2.2, ?_⟩))⟩
  rw [readScalar, find_literal_of_number hb, h]
  rfl

/-- What a text is read as does not depend on the fuel, unless it ends in a number. -/
theorem value_unique {n k : ℕ} {s rest : Bytes} {j : Json} {ms : List (Bytes × Json)}
    (h : Reads s (.object ms) k) (hj : value n s = some (j, rest)) (hnum : ∀ t, j ≠ .number t) :
    j = .object ms ∧ rest = [] := by
  have h₁ := (value_append [] n (Nat.le_max_left n k)).1 hj (.inr hnum)
  have h₂ := h (max n k) (Nat.le_max_right n k) []
  rw [List.append_nil] at h₁ h₂
  rw [h₁, Option.some.injEq, Prod.mk.injEq, List.append_nil] at h₂
  exact h₂

/-- The first character of an object is its brace. -/
theorem brace_of_reads {s : Bytes} {ms : List (Bytes × Json)} {k : ℕ} (h : Reads s (.object ms) k) :
    ∃ tl, skipSpace s = 0x7B :: tl := by
  have hv := h (k + 1) (Nat.le_succ k) []
  rw [List.append_nil] at hv
  obtain ⟨b, tl, hs, hcases⟩ := value_succ.1 hv
  rcases hcases with ⟨-, t, -, hj⟩ | ⟨-, c, tl', -, hin⟩ | ⟨rfl, -⟩ | ⟨-, -, -, hsc⟩
  · exact absurd hj (by simp)
  · rcases hin with ⟨-, hj, -⟩ | ⟨-, vs, -, hj⟩
    · exact absurd hj (by simp)
    · exact absurd hj (by simp)
  · exact ⟨tl, hs⟩
  · unfold readScalar at hsc
    split at hsc
    · next p hp =>
      have hmem := List.mem_of_find?_eq_some hp
      have hj := (Prod.mk.inj (Option.some.inj hsc)).1
      simp only [literals, List.mem_cons, List.not_mem_nil, or_false] at hmem
      rcases hmem with rfl | rfl | rfl <;> exact absurd hj (by simp)
    · obtain ⟨t, -, hj⟩ := (map_fst_eq_some (g := Json.number)).1 hsc
      exact absurd hj (by simp)

/-- **A text that breaks off before the end of an object has no value.** -/
theorem value_truncated {p t : Bytes} {ms : List (Bytes × Json)} {k : ℕ}
    (h : Reads t (.object ms) k) (hp : p <+: t) (hne : p ≠ t) (n : ℕ) : value n p = none := by
  obtain ⟨q, rfl⟩ := hp
  have hq : q ≠ [] := by
    rintro rfl
    exact hne (by simp)
  by_contra hsome
  obtain ⟨⟨j, rest⟩, hv⟩ := Option.ne_none_iff_exists'.1 hsome
  obtain ⟨n, rfl⟩ : ∃ m, n = m + 1 := by
    cases n with
    | zero => simp [value] at hv
    | succ n => exact ⟨n, rfl⟩
  -- it starts with the brace of the object, so its value would be one
  have hnum : ∀ t, j ≠ .number t := by
    rintro t rfl
    obtain ⟨b, tl, hs, hcases⟩ := value_succ.1 hv
    obtain ⟨tl', hs'⟩ := brace_of_reads h
    obtain ⟨rfl, -⟩ := List.cons.inj ((skipSpace_append q hs).symm.trans hs')
    rcases hcases with ⟨hb, -⟩ | ⟨hb, -⟩ | ⟨-, c, tl', -, hin⟩ | ⟨-, -, hb, -⟩
    · exact absurd hb (by decide)
    · exact absurd hb (by decide)
    · rcases hin with ⟨-, hj, -⟩ | ⟨-, vs, -, hj⟩
      · exact absurd hj (by simp)
      · exact absurd hj (by simp)
    · exact absurd rfl hb
  have happ := (value_append q (n + 1) (Nat.le_refl _)).1 hv (.inr hnum)
  have hrest := (value_unique h happ hnum).2
  exact hq (List.append_eq_nil_iff.1 hrest).2

theorem parse_truncated {p t : Bytes} {ms : List (Bytes × Json)} {k : ℕ}
    (h : Reads t (.object ms) k) (hp : p <+: t) (hne : p ≠ t) : parse p = none :=
  value_truncated h hp hne _

/-! ## What stands before an object -/

section Before

/-- A reader that starts before a brace and passes none does not go beyond it. -/
theorem Passes.suffix {s rest L : Bytes} (h : Passes s rest) (hL : 0x7B :: L <:+ s) :
    0x7B :: L <:+ rest := by
  obtain ⟨e, rfl, he⟩ := h
  obtain ⟨t, ht⟩ := hL
  rcases List.append_eq_append_iff.1 ht with ⟨a, rfl, ha⟩ | ⟨a, rfl, ha⟩
  · cases a with
    | nil => exact ha ▸ List.suffix_rfl
    | cons y a =>
      obtain ⟨rfl, -⟩ := List.cons.inj ha
      exact absurd (by simp) he
  · exact ⟨a, ha.symm⟩

theorem suffix_tail {b : UInt8} {tl L : Bytes} (hb : b ≠ 0x7B) (h : 0x7B :: L <:+ b :: tl) :
    0x7B :: L <:+ tl := (passes_cons hb tl).suffix h

theorem readDigits_passes {s rest ds : Bytes} (h : readDigits s = some (ds, rest)) :
    Passes s rest := by
  obtain ⟨-, rfl, rfl⟩ := readDigits_iff.1 h
  refine ⟨s.takeWhile isDigit, List.takeWhile_append_dropWhile.symm, fun hmem => ?_⟩
  exact absurd (List.all_eq_true.1 List.all_takeWhile _ hmem) (by decide)

theorem readInteger_passes {s rest ds : Bytes} (h : readInteger s = some (ds, rest)) :
    Passes s rest := by
  match s with
  | b :: tl =>
    rw [readInteger] at h
    split_ifs at h with hb
    · obtain ⟨-, rfl⟩ := Prod.mk.inj (Option.some.inj h)
      exact passes_cons (by simp [hb]) _
    · exact readDigits_passes h

theorem readFraction_passes {s rest f : Bytes} (h : readFraction s = some (f, rest)) :
    Passes s rest := by
  cases s with
  | nil =>
    obtain ⟨-, rfl⟩ := Prod.mk.inj (Option.some.inj h)
    exact .refl []
  | cons b tl =>
    rw [readFraction] at h
    split_ifs at h with hb
    · obtain ⟨ds, hds, -⟩ := (map_fst_eq_some (g := fun ds => b :: ds)).1 h
      exact (passes_cons (by simp [hb]) _).trans (readDigits_passes hds)
    · obtain ⟨-, rfl⟩ := Prod.mk.inj (Option.some.inj h)
      exact .refl _

theorem readExponent_passes {s rest e : Bytes} (h : readExponent s = some (e, rest)) :
    Passes s rest := by
  cases s with
  | nil =>
    obtain ⟨-, rfl⟩ := Prod.mk.inj (Option.some.inj h)
    exact .refl []
  | cons b tl =>
    simp only [readExponent] at h
    split_ifs at h with hb
    · have hb' : b ≠ 0x7B := by
        rintro rfl
        exact absurd hb (by decide)
      match tl with
      | sign :: tl' =>
        simp only at h
        split_ifs at h with hsign
        · have hsign' : sign ≠ 0x7B := by
            rintro rfl
            exact absurd hsign (by decide)
          obtain ⟨ds, hds, -⟩ := (map_fst_eq_some (g := fun ds => b :: sign :: ds)).1 h
          exact (passes_cons hb' _).trans ((passes_cons hsign' _).trans (readDigits_passes hds))
        · obtain ⟨ds, hds, -⟩ := (map_fst_eq_some (g := fun ds => b :: ds)).1 h
          exact (passes_cons hb' _).trans (readDigits_passes hds)
    · obtain ⟨-, rfl⟩ := Prod.mk.inj (Option.some.inj h)
      exact .refl _

theorem readNumber_passes {s rest t : Bytes} (h : readNumber s = some (t, rest)) :
    Passes s rest := by
  obtain ⟨sign, s₀, int, s₁, frac, s₂, exp, hsign, hint, hfrac, hexp, -⟩ := readNumber_iff.1 h
  have hsign' : Passes s s₀ := by
    unfold readSign at hsign
    split_ifs at hsign with hminus
    · obtain ⟨-, rfl⟩ := Prod.mk.inj hsign
      obtain ⟨tl, rfl⟩ := List.head?_eq_some_iff.1 hminus
      exact passes_cons (by decide) tl
    · obtain ⟨-, rfl⟩ := Prod.mk.inj hsign
      exact .refl s
  exact hsign'.trans ((readInteger_passes hint).trans
    ((readFraction_passes hfrac).trans (readExponent_passes hexp)))

theorem readScalar_passes {s rest : Bytes} {j : Json} (h : readScalar s = some (j, rest)) :
    Passes s rest := by
  unfold readScalar at h
  split at h
  · next p hp =>
    obtain ⟨-, rfl⟩ := Prod.mk.inj (Option.some.inj h)
    obtain ⟨⟨tl, rfl⟩, -⟩ := find_literal_append [] hp
    have hmem := List.mem_of_find?_eq_some hp
    have hbrace : ∀ p ∈ literals, 0x7B ∉ p.1 := by decide
    exact ⟨p.1, by simp, hbrace p hmem⟩
  · obtain ⟨t, ht, -⟩ := (map_fst_eq_some (g := Json.number)).1 h
    exact readNumber_passes ht

/-- A string that starts before an object ends before it or at the quote of its first key. -/
theorem readStringAux_before {n : ℕ} {s rest t L : Bytes} (hL : 0x7B :: 0x22 :: L <:+ s)
    (h : readStringAux n s = some (t, rest)) : 0x7B :: 0x22 :: L <:+ rest ∨ rest = L := by
  induction n generalizing s t with
  | zero => simp [readStringAux] at h
  | succ n ih =>
    cases s with
    | nil => simp [readStringAux] at h
    | cons b tl =>
      rcases List.suffix_cons_iff.1 hL with heq | htl
      · -- the string goes on with the brace, and the quote closes it
        obtain ⟨rfl, rfl⟩ := List.cons.inj heq
        have hraw : readRaw 0x7B (0x22 :: L) = (Char.ofNat 0x7B, 0x22 :: L) := rfl
        rcases readStringAux_succ.1 h with ⟨hb, -⟩ | ⟨hb, -⟩ | ⟨-, -, -, t', hr, -⟩
        · exact absurd hb (by decide)
        · exact absurd hb (by decide)
        · rw [hraw] at hr
          cases n with
          | zero => simp [readStringAux] at hr
          | succ n =>
            rcases readStringAux_succ.1 hr with ⟨-, -, rfl⟩ | ⟨hb, -⟩ | ⟨hb, -⟩
            · exact .inr rfl
            · exact absurd hb (by decide)
            · exact absurd rfl hb
      · rcases readStringAux_succ.1 h with ⟨-, -, rfl⟩ | ⟨-, c, r, t', he, hr, -⟩ |
          ⟨-, -, -, t', hr, -⟩
        · exact .inl htl
        · exact ih ((readEscape_passes he).suffix htl) hr
        · exact ih ((readRaw_passes b tl).suffix htl) hr

variable {x : UInt8} {L : Bytes} {ms : List (Bytes × Json)} {k : ℕ}

theorem skipSpace_letter (hx : 0x61 ≤ x.toNat ∧ x.toNat ≤ 0x7A) : skipSpace (x :: L) = x :: L := by
  apply skipSpace_cons
  rw [Bool.eq_false_iff]
  intro hsp
  simp only [isSpace, Bool.or_eq_true, beq_iff_eq] at hsp
  rcases hsp with ((rfl | rfl) | rfl) | rfl <;> exact absurd hx (by decide)

/-- The parser does not end inside an object that it does not start with: a value that starts before
the object ends before it, or is a string that ends at the quote of its first key. -/
theorem value_before (hx : 0x61 ≤ x.toNat ∧ x.toNat ≤ 0x7A)
    (hobj : Reads (0x7B :: 0x22 :: x :: L) (.object ms) k) (n : ℕ) :
    (∀ {s rest : Bytes} {j : Json}, 0x7B :: 0x22 :: x :: L <:+ s → value n s = some (j, rest) →
      0x7B :: 0x22 :: x :: L <:+ rest ∨ rest = x :: L ∨
        (skipSpace s = 0x7B :: 0x22 :: x :: L ∧ rest = [])) ∧
    (∀ {s rest : Bytes} {vs : List Json}, 0x7B :: 0x22 :: x :: L <:+ s →
      elements n s = some (vs, rest) → 0x7B :: 0x22 :: x :: L <:+ rest) ∧
    ∀ {s rest : Bytes} {ms : List (Bytes × Json)}, 0x7B :: 0x22 :: x :: L <:+ s →
      members n s = some (ms, rest) → 0x7B :: 0x22 :: x :: L <:+ rest := by
  -- after a value that ends at the first key, neither a separator nor a bracket follows
  have hletter : ∀ {b : UInt8} {tl : Bytes}, skipSpace (x :: L) = b :: tl →
      b ≠ 0x2C ∧ b ≠ 0x3A ∧ b ≠ 0x5D ∧ b ≠ 0x7D := by
    intro b tl h
    rw [skipSpace_letter hx] at h
    obtain ⟨rfl, -⟩ := List.cons.inj h
    refine ⟨?_, ?_, ?_, ?_⟩ <;> (rintro rfl; exact absurd hx (by decide))
  have hnil : ∀ {b : UInt8} {tl : Bytes}, skipSpace [] ≠ b :: tl := by simp [skipSpace]
  induction n with
  | zero => exact ⟨by simp [value], by simp [elements], by simp [members]⟩
  | succ n ih =>
    obtain ⟨ihv, ihe, ihm⟩ := ih
    refine ⟨fun {s rest j} hs h => ?_, fun {s rest vs} hs h => ?_, fun {s rest ms'} hs h => ?_⟩
    · obtain ⟨b, tl, hb, hcases⟩ := value_succ.1 h
      have hsuf := (skipSpace_passes s).suffix hs
      rw [hb] at hsuf
      rcases List.suffix_cons_iff.1 hsuf with heq | htl
      · -- the value is the object itself
        have hself : value (n + 1) (0x7B :: 0x22 :: x :: L) = some (j, rest) := by
          refine value_succ.2 ⟨b, tl, ?_, hcases⟩
          rw [skipSpace_cons (by decide), heq]
        have hnum : ∀ t, j ≠ .number t := by
          rintro t rfl
          have hb' := (List.cons.inj heq).1
          rcases hcases with ⟨hb, -⟩ | ⟨hb, -⟩ | ⟨-, c, tl', -, ⟨-, hj, -⟩ | ⟨-, vs, -, hj⟩⟩ |
            ⟨-, -, hb, -⟩
          · exact absurd (hb'.trans hb) (by decide)
          · exact absurd (hb'.trans hb) (by decide)
          · exact absurd hj (by simp)
          · exact absurd hj (by simp)
          · exact absurd hb'.symm hb
        exact .inr (.inr ⟨by rw [hb, heq], (value_unique hobj hself hnum).2⟩)
      · rcases hcases with ⟨-, t, ht, -⟩ | ⟨-, c, tl', hc, hin⟩ | ⟨-, c, tl', hc, hin⟩ |
          ⟨-, -, hb, hsc⟩
        · rcases readStringAux_before htl ht with hrest | hrest
          · exact .inl hrest
          · exact .inr (.inl hrest)
        · have hsuf' := (skipSpace_passes tl).suffix htl
          rw [hc] at hsuf'
          rcases hin with ⟨rfl, -, rfl⟩ | ⟨-, vs, hvs, -⟩
          · exact .inl (suffix_tail (by decide) hsuf')
          · exact .inl (ihe hsuf' hvs)
        · have hsuf' := (skipSpace_passes tl).suffix htl
          rw [hc] at hsuf'
          rcases hin with ⟨rfl, -, rfl⟩ | ⟨-, vs, hvs, -⟩
          · exact .inl (suffix_tail (by decide) hsuf')
          · exact .inl (ihm hsuf' hvs)
        · exact .inl ((readScalar_passes hsc).suffix hsuf)
    · obtain ⟨v, r, b, tl, hv, hb, hcases⟩ := elements_succ.1 h
      rcases ihv hs hv with hr | rfl | ⟨-, rfl⟩
      · have hsuf := (skipSpace_passes r).suffix hr
        rw [hb] at hsuf
        rcases hcases with ⟨rfl, vs', hvs', -⟩ | ⟨rfl, -, rfl⟩
        · exact ihe (suffix_tail (by decide) hsuf) hvs'
        · exact suffix_tail (by decide) hsuf
      · obtain ⟨hcomma, -, hclose, -⟩ := hletter hb
        rcases hcases with ⟨hb', -⟩ | ⟨hb', -⟩
        · exact absurd hb' hcomma
        · exact absurd hb' hclose
      · exact absurd hb hnil
    · obtain ⟨tl, key, r₁, tl₁, v, r₂, b, tl₂, hq, hkey, hcolon, hv, hb, hcases⟩ :=
        members_succ.1 h
      have hsuf := (skipSpace_passes s).suffix hs
      rw [hq] at hsuf
      rcases readStringAux_before (suffix_tail (by decide) hsuf) hkey with hr₁ | rfl
      swap
      · exact absurd rfl (hletter hcolon).2.1
      have hsuf₁ := (skipSpace_passes r₁).suffix hr₁
      rw [hcolon] at hsuf₁
      rcases ihv (suffix_tail (by decide) hsuf₁) hv with hr₂ | rfl | ⟨-, rfl⟩
      · have hsuf₂ := (skipSpace_passes r₂).suffix hr₂
        rw [hb] at hsuf₂
        rcases hcases with ⟨rfl, ms'', hms, -⟩ | ⟨rfl, -, rfl⟩
        · exact ihm (suffix_tail (by decide) hsuf₂) hms
        · exact suffix_tail (by decide) hsuf₂
      · obtain ⟨hcomma, -, -, hclose⟩ := hletter hb
        rcases hcases with ⟨hb', -⟩ | ⟨hb', -⟩
        · exact absurd hb' hcomma
        · exact absurd hb' hclose
      · exact absurd hb hnil

/-- **A text that ends in an object and is one value is that object**, up to white space. -/
theorem parse_before_object (hx : 0x61 ≤ x.toNat ∧ x.toNat ≤ 0x7A)
    (hobj : Reads (0x7B :: 0x22 :: x :: L) (.object ms) k) {p rest : Bytes} {j : Json}
    (h : parse (p ++ 0x7B :: 0x22 :: x :: L) = some (j, rest)) (hrest : skipSpace rest = []) :
    skipSpace (p ++ 0x7B :: 0x22 :: x :: L) = 0x7B :: 0x22 :: x :: L := by
  have hpass := skipSpace_passes rest
  rw [hrest] at hpass
  rcases (value_before hx hobj _).1 (List.suffix_append p _) h with hr | rfl | ⟨hs, -⟩
  · exact absurd (hpass.suffix hr) (by simp)
  · rw [skipSpace_letter hx] at hrest
    exact absurd hrest (by simp)
  · exact hs

end Before

/-! ## Fuel -/

section Fuel

theorem Passes.length_le {s rest : Bytes} (h : Passes s rest) : rest.length ≤ s.length := by
  obtain ⟨e, rfl, -⟩ := h
  simp

theorem length_of_skipSpace {s tl : Bytes} {b : UInt8} (h : skipSpace s = b :: tl) :
    tl.length < s.length := by
  have := (skipSpace_passes s).length_le
  rw [h, List.length_cons] at this
  omega

theorem length_of_readStringAux {n : ℕ} {s rest t : Bytes}
    (h : readStringAux n s = some (t, rest)) : rest.length ≤ s.length := by
  induction n generalizing s t with
  | zero => simp [readStringAux] at h
  | succ n ih =>
    cases s with
    | nil => simp [readStringAux] at h
    | cons b tl =>
      rw [List.length_cons]
      rcases readStringAux_succ.1 h with ⟨-, -, rfl⟩ | ⟨-, c, r, t', he, hr, -⟩ |
        ⟨-, -, -, t', hr, -⟩
      · exact Nat.le_succ _
      · have := (readEscape_passes he).length_le
        have := ih hr
        omega
      · have := (readRaw_passes b tl).length_le
        have := ih hr
        omega

theorem length_of_readInteger {s rest ds : Bytes} (h : readInteger s = some (ds, rest)) :
    rest.length < s.length := by
  cases s with
  | nil => simp [readInteger] at h
  | cons b tl =>
    rw [readInteger] at h
    split_ifs at h with hb
    · obtain ⟨-, rfl⟩ := Prod.mk.inj (Option.some.inj h)
      simp
    · obtain ⟨hne, htake, hdrop⟩ := readDigits_iff.1 h
      have hsplit := congrArg List.length (@List.takeWhile_append_dropWhile _ isDigit (b :: tl))
      rw [htake, hdrop, List.length_append] at hsplit
      have := List.length_pos_iff.2 hne
      omega

theorem length_of_readScalar {s rest : Bytes} {j : Json} (h : readScalar s = some (j, rest)) :
    rest.length < s.length := by
  unfold readScalar at h
  split at h
  · next p hp =>
    obtain ⟨-, rfl⟩ := Prod.mk.inj (Option.some.inj h)
    obtain ⟨⟨tl, rfl⟩, -⟩ := find_literal_append [] hp
    have hne : ∀ p ∈ literals, 0 < p.1.length := by decide
    have := hne p (List.mem_of_find?_eq_some hp)
    simp only [List.drop_left, List.length_append]
    omega
  · obtain ⟨t, ht, -⟩ := (map_fst_eq_some (g := Json.number)).1 h
    obtain ⟨sign, s₀, int, s₁, frac, s₂, exp, hsign, hint, hfrac, hexp, -⟩ := readNumber_iff.1 ht
    have hs₀ : s₀.length ≤ s.length := by
      unfold readSign at hsign
      split_ifs at hsign
      · obtain ⟨-, rfl⟩ := Prod.mk.inj hsign
        simp
      · obtain ⟨-, rfl⟩ := Prod.mk.inj hsign
        exact Nat.le_refl _
    have := length_of_readInteger hint
    have := (readFraction_passes hfrac).length_le
    have := (readExponent_passes hexp).length_le
    omega

/-- A text that is read with some fuel is read with as much fuel as it has bytes. -/
theorem value_fuel (n : ℕ) :
    (∀ {s rest : Bytes} {j : Json}, value n s = some (j, rest) → rest.length ≤ s.length ∧
      ∀ m, s.length < m + rest.length → value m s = some (j, rest)) ∧
    (∀ {s rest : Bytes} {vs : List Json}, elements n s = some (vs, rest) →
      rest.length ≤ s.length ∧ ∀ m, s.length < m + rest.length → elements m s = some (vs, rest)) ∧
    ∀ {s rest : Bytes} {ms : List (Bytes × Json)}, members n s = some (ms, rest) →
      rest.length ≤ s.length ∧ ∀ m, s.length < m + rest.length → members m s = some (ms, rest) := by
  induction n with
  | zero => exact ⟨by simp [value], by simp [elements], by simp [members]⟩
  | succ n ih =>
    obtain ⟨ihv, ihe, ihm⟩ := ih
    have hsucc : ∀ {a b m : ℕ}, b ≤ a → a < m + b → ∃ m', m = m' + 1 :=
      fun {a b m} _ _ => ⟨m - 1, by omega⟩
    refine ⟨fun {s rest j} h => ?_, fun {s rest vs} h => ?_, fun {s rest ms} h => ?_⟩
    · obtain ⟨b, tl, hs, hcases⟩ := value_succ.1 h
      have hlen := length_of_skipSpace hs
      -- the text of the value, inside its first character
      have key : rest.length ≤ tl.length + 1 ∧ ∀ m, s.length < m + 1 + rest.length →
          value (m + 1) s = some (j, rest) := by
        rcases hcases with ⟨hb, t, ht, hj⟩ | ⟨hb, c, tl', hc, hin⟩ | ⟨hb, c, tl', hc, hin⟩ |
          ⟨h₁, h₂, h₃, hsc⟩
        · have := length_of_readStringAux ht
          exact ⟨by omega, fun m _ => value_succ.2 ⟨b, tl, hs, .inl ⟨hb, t, ht, hj⟩⟩⟩
        · have hlen' := length_of_skipSpace hc
          rcases hin with ⟨hclose, hj, rfl⟩ | ⟨hopen, vs, hvs, hj⟩
          · exact ⟨by omega, fun m _ => value_succ.2 ⟨b, tl, hs, .inr (.inl ⟨hb, c, _, hc,
              .inl ⟨hclose, hj, rfl⟩⟩)⟩⟩
          · obtain ⟨hle, hfuel⟩ := ihe hvs
            rw [List.length_cons] at hle hfuel
            exact ⟨by omega, fun m hm => value_succ.2 ⟨b, tl, hs, .inr (.inl ⟨hb, c, tl', hc,
              .inr ⟨hopen, vs, hfuel m (by omega), hj⟩⟩)⟩⟩
        · have hlen' := length_of_skipSpace hc
          rcases hin with ⟨hclose, hj, rfl⟩ | ⟨hopen, ms, hms, hj⟩
          · exact ⟨by omega, fun m _ => value_succ.2 ⟨b, tl, hs, .inr (.inr (.inl ⟨hb, c, _, hc,
              .inl ⟨hclose, hj, rfl⟩⟩))⟩⟩
          · obtain ⟨hle, hfuel⟩ := ihm hms
            rw [List.length_cons] at hle hfuel
            exact ⟨by omega, fun m hm => value_succ.2 ⟨b, tl, hs, .inr (.inr (.inl ⟨hb, c, tl', hc,
              .inr ⟨hopen, ms, hfuel m (by omega), hj⟩⟩))⟩⟩
        · have := (readScalar_passes hsc).length_le
          exact ⟨this, fun m _ => value_succ.2 ⟨b, tl, hs, .inr (.inr (.inr ⟨h₁, h₂, h₃, hsc⟩))⟩⟩
      refine ⟨by omega, fun m hm => ?_⟩
      obtain ⟨m, rfl⟩ := hsucc (a := s.length) (b := rest.length) (by omega) hm
      exact key.2 m hm
    · obtain ⟨v, r, b, tl, hv, hb, hcases⟩ := elements_succ.1 h
      obtain ⟨hle, hfuel⟩ := ihv hv
      have hlen := length_of_skipSpace hb
      have htl : rest.length ≤ tl.length ∧ ∀ m, tl.length < m + rest.length →
          ((b = 0x2C ∧ ∃ vs', elements m tl = some (vs', rest) ∧ v :: vs' = vs) ∨
            (b = 0x5D ∧ vs = [v] ∧ rest = tl)) := by
        rcases hcases with ⟨hcomma, vs', hvs', heq⟩ | ⟨hclose, heq, rfl⟩
        · obtain ⟨hle', hfuel'⟩ := ihe hvs'
          exact ⟨hle', fun m hm => .inl ⟨hcomma, vs', hfuel' m hm, heq⟩⟩
        · exact ⟨Nat.le_refl _, fun m _ => .inr ⟨hclose, heq, rfl⟩⟩
      refine ⟨by omega, fun m hm => ?_⟩
      obtain ⟨m, rfl⟩ := hsucc (a := s.length) (b := rest.length) (by omega) hm
      exact elements_succ.2 ⟨v, r, b, tl, hfuel m (by omega), hb, htl.2 m (by omega)⟩
    · obtain ⟨tl, key, r₁, tl₁, v, r₂, b, tl₂, hq, hkey, hcolon, hv, hb, hcases⟩ :=
        members_succ.1 h
      obtain ⟨hle, hfuel⟩ := ihv hv
      have hlen := length_of_skipSpace hq
      have hlen₁ := length_of_readStringAux hkey
      have hlen₂ := length_of_skipSpace hcolon
      have hlen₃ := length_of_skipSpace hb
      have htl : rest.length ≤ tl₂.length ∧ ∀ m, tl₂.length < m + rest.length →
          ((b = 0x2C ∧ ∃ ms', members m tl₂ = some (ms', rest) ∧ (key, v) :: ms' = ms) ∨
            (b = 0x7D ∧ ms = [(key, v)] ∧ rest = tl₂)) := by
        rcases hcases with ⟨hcomma, ms', hms', heq⟩ | ⟨hclose, heq, rfl⟩
        · obtain ⟨hle', hfuel'⟩ := ihm hms'
          exact ⟨hle', fun m hm => .inl ⟨hcomma, ms', hfuel' m hm, heq⟩⟩
        · exact ⟨Nat.le_refl _, fun m _ => .inr ⟨hclose, heq, rfl⟩⟩
      refine ⟨by omega, fun m hm => ?_⟩
      obtain ⟨m, rfl⟩ := hsucc (a := s.length) (b := rest.length) (by omega) hm
      exact members_succ.2 ⟨tl, key, r₁, tl₁, v, r₂, b, tl₂, hq, hkey, hcolon,
        hfuel m (by omega), hb, htl.2 m (by omega)⟩

/-- A value has a first character. -/
theorem length_of_parse {s rest : Bytes} {j : Json} (h : parse s = some (j, rest)) :
    rest.length < s.length := by
  obtain ⟨b, tl, hs, hcases⟩ := value_succ.1 h
  have hlen := length_of_skipSpace hs
  rcases hcases with ⟨-, t, ht, -⟩ | ⟨-, c, tl', hc, hin⟩ | ⟨-, c, tl', hc, hin⟩ | ⟨-, -, -, hsc⟩
  · have := length_of_readStringAux ht
    omega
  · have hlen' := length_of_skipSpace hc
    rcases hin with ⟨-, -, rfl⟩ | ⟨-, vs, hvs, -⟩
    · omega
    · have := ((value_fuel _).2.1 hvs).1
      rw [List.length_cons] at this
      omega
  · have hlen' := length_of_skipSpace hc
    rcases hin with ⟨-, -, rfl⟩ | ⟨-, ms, hms, -⟩
    · omega
    · have := ((value_fuel _).2.2 hms).1
      rw [List.length_cons] at this
      omega
  · have := length_of_readScalar hsc
    have hle := (skipSpace_passes s).length_le
    rw [hs] at hle
    omega

/-- More fuel than bytes does not matter. -/
theorem value_of_lt {n : ℕ} {s : Bytes} (h : s.length < n) : value n s = parse s := by
  cases hn : value n s with
  | some p =>
    have hle := ((value_fuel n).1 hn).1
    exact (((value_fuel n).1 hn).2 (s.length + 1) (by omega)).symm
  | none =>
    cases hp : parse s with
    | none => rfl
    | some p =>
      have hfuel := ((value_fuel (s.length + 1)).1 hp).2 n (by omega)
      rw [hn] at hfuel
      simp at hfuel

/-- White space before a value does not count. -/
theorem parse_space {b : UInt8} (hb : isSpace b = true) (s : Bytes) : parse (b :: s) = parse s := by
  have hskip : skipSpace (b :: s) = skipSpace s := by simp [skipSpace, hb]
  calc parse (b :: s) = value (s.length + 1 + 1) (b :: s) := rfl
    _ = value (s.length + 1 + 1) s := by rw [value, value, hskip]
    _ = parse s := value_of_lt (by omega)

/-- What is read with enough fuel is parsed. -/
theorem Reads.parse {t : Bytes} {j : Json} {k : ℕ} (h : Reads t j k) (rest : Bytes) :
    parse (t ++ rest) = some (j, rest) :=
  ((value_fuel k).1 (h k (Nat.le_refl k) rest)).2 _ (by rw [List.length_append]; omega)

end Fuel

/-! ## Arrays and objects of any length -/

/-- What is read does not start with a closing bracket, and white space before it does not count. -/
theorem value_head {n : ℕ} {s rest : Bytes} {j : Json} (h : value n s = some (j, rest)) :
    ∃ c tl, skipSpace s = c :: tl ∧ c ≠ 0x5D ∧ value n (c :: tl) = some (j, rest) := by
  cases n with
  | zero => simp [value] at h
  | succ n =>
    obtain ⟨c, tl, hs, hcases⟩ := value_succ.1 h
    have hsp : isSpace c = false := by
      have := List.head?_dropWhile_not isSpace s
      rw [show s.dropWhile isSpace = c :: tl from hs] at this
      simpa using this
    refine ⟨c, tl, hs, ?_, value_succ.2 ⟨c, tl, skipSpace_cons hsp tl, hcases⟩⟩
    rintro rfl
    rcases hcases with ⟨hb, -⟩ | ⟨hb, -⟩ | ⟨hb, -⟩ | ⟨-, -, -, hsc⟩
    · exact absurd hb (by decide)
    · exact absurd hb (by decide)
    · exact absurd hb (by decide)
    · unfold readScalar at hsc
      split at hsc
      · next p hp =>
        obtain ⟨⟨x, hx⟩, -⟩ := find_literal_append [] hp
        have hmem := List.mem_of_find?_eq_some hp
        simp only [literals, List.mem_cons, List.not_mem_nil, or_false] at hmem
        rcases hmem with rfl | rfl | rfl <;> exact absurd (List.cons.inj hx).1 (by decide)
      · obtain ⟨t, ht, -⟩ := (map_fst_eq_some (g := Json.number)).1 hsc
        obtain ⟨b, tl', heq, hb⟩ := head_of_readNumber ht
        rw [← (List.cons.inj heq).1] at hb
        exact absurd hb (by decide)

theorem elements_head {n : ℕ} {s rest : Bytes} {vs : List Json}
    (h : elements n s = some (vs, rest)) :
    ∃ c tl, skipSpace s = c :: tl ∧ c ≠ 0x5D ∧ elements n (c :: tl) = some (vs, rest) := by
  cases n with
  | zero => simp [elements] at h
  | succ n =>
    obtain ⟨v, r, b, tl', hv, hb, hcases⟩ := elements_succ.1 h
    obtain ⟨c, tl, hs, hc, hv'⟩ := value_head hv
    exact ⟨c, tl, hs, hc, elements_succ.2 ⟨v, r, b, tl', hv', hb, hcases⟩⟩

/-- Items that are each read with some fuel are all read with the same fuel. -/
theorem exists_fuel {α : Type} {items : List α} {text : α → Bytes} {val : α → Json}
    (h : ∀ p ∈ items, ∃ k, ReadsInside (text p) (val p) k) :
    ∃ k, ∀ p ∈ items, ReadsInside (text p) (val p) k := by
  induction items with
  | nil => exact ⟨0, by simp⟩
  | cons p items ih =>
    obtain ⟨k₁, h₁⟩ := h p (by simp)
    obtain ⟨k₂, h₂⟩ := ih fun q hq => h q (by simp [hq])
    refine ⟨max k₁ k₂, fun q hq => ?_⟩
    rcases List.mem_cons.1 hq with rfl | hq
    · exact h₁.mono (Nat.le_max_left _ _)
    · exact (h₂ q hq).mono (Nat.le_max_right _ _)

/-- **An array of values that are read back is read back.** -/
theorem reads_array {items : List (Bytes × Json)}
    (hitems : ∀ p ∈ items, ∃ k, ReadsInside p.1 p.2 k) :
    ∃ k, Reads (encodeArray (items.map Prod.fst)) (.array (items.map Prod.snd)) k := by
  obtain ⟨k, hk⟩ := exists_fuel hitems
  refine ⟨items.length + k + 1, fun n hn rest => ?_⟩
  obtain ⟨n, rfl⟩ : ∃ m, n = m + 1 := ⟨n - 1, by omega⟩
  have htext : encodeArray (items.map Prod.fst) ++ rest =
      0x5B :: ([0x2C].intercalate (items.map Prod.fst) ++ 0x5D :: rest) := by simp [encodeArray]
  rw [htext]
  refine value_succ.2 ⟨0x5B, _, skipSpace_cons (by decide) _, .inr (.inl ⟨rfl, ?_⟩)⟩
  cases items with
  | nil => exact ⟨0x5D, rest, rfl, .inl ⟨rfl, rfl, rfl⟩⟩
  | cons p items =>
    have helems := elements_intercalate (by simp) hk rest (n := n) (by omega)
    obtain ⟨c, tl, hs, hc, helems'⟩ := elements_head helems
    exact ⟨c, tl, hs, .inr ⟨hc, _, helems', rfl⟩⟩

/-- **An object of values that are read back is read back**, also when it is empty. -/
theorem reads_members {items : List (Bytes × Bytes × Json)}
    (hitems : ∀ p ∈ items, ∃ k, ReadsInside p.2.1 p.2.2 k) :
    ∃ k, Reads (encodeObject (items.map fun p => (p.1, p.2.1)))
      (.object (items.map fun p => (toValid p.1, p.2.2))) k := by
  obtain ⟨k, hk⟩ := exists_fuel hitems
  cases items with
  | nil =>
    refine ⟨1, fun n hn rest => ?_⟩
    obtain ⟨n, rfl⟩ : ∃ m, n = m + 1 := ⟨n - 1, by omega⟩
    exact value_succ.2 ⟨0x7B, 0x7D :: rest, rfl, .inr (.inr (.inl ⟨rfl, 0x7D, rest, rfl,
      .inl ⟨rfl, rfl, rfl⟩⟩))⟩
  | cons p items => exact ⟨_, reads_object (by simp) hk⟩

end SecretsBroker.Json
