import Mathlib.Data.List.Basic
import Mathlib.Tactic.Common

/-!
# Byte strings and UTF-8

Strings of the modelled language are arbitrary byte strings, so texts are lists of bytes and
`str` turns a literal into one. `decodeRune` reads one UTF-8 sequence from the front of a text: it
refuses a sequence that is truncated, not the shortest one, a surrogate or out of range, and the
readers of a text then take the first byte for itself (width one). `toValid` is the text such a
reader reports, with U+FFFD for each byte of that kind; it changes nothing exactly on valid UTF-8
(`toValid_eq_self_iff`).
-/

namespace SecretsBroker

/-- A byte string. -/
abbrev Bytes := List UInt8

instance : LawfulBEq Bytes := inferInstance

instance : LawfulBEq (List Bytes) := inferInstance

/-- The bytes of a literal. -/
def str (s : String) : Bytes := s.toList.flatMap String.utf8EncodeChar

namespace Utf8

/-- The UTF-8 sequence of a rune. -/
abbrev encodeRune (c : Char) : Bytes := String.utf8EncodeChar c

/-- A continuation byte carries six bits. -/
def isTail (b : UInt8) : Bool := 0x80 ≤ b.toNat && b.toNat < 0xC0

/-- The rune with code point `v`, when it is one that a sequence of this length may encode. -/
def runeFrom (low v : ℕ) (rest : Bytes) : Option (Char × Bytes) :=
  if low ≤ v ∧ v.isValidChar then some (Char.ofNat v, rest) else none

/-- Read one UTF-8 sequence. Answers `none` on the empty text and when the first byte does not
start a well-formed sequence. -/
def decodeRune : Bytes → Option (Char × Bytes)
  | [] => none
  | b :: rest =>
    if b.toNat < 0x80 then runeFrom 0 b.toNat rest
    else if b.toNat < 0xC0 then none
    else if b.toNat < 0xE0 then
      match rest with
      | b₁ :: rest =>
        if isTail b₁ then runeFrom 0x80 ((b.toNat - 0xC0) * 64 + (b₁.toNat - 0x80)) rest else none
      | _ => none
    else if b.toNat < 0xF0 then
      match rest with
      | b₁ :: b₂ :: rest =>
        if isTail b₁ && isTail b₂ then
          runeFrom 0x800
            ((b.toNat - 0xE0) * 4096 + (b₁.toNat - 0x80) * 64 + (b₂.toNat - 0x80)) rest
        else none
      | _ => none
    else if b.toNat < 0xF8 then
      match rest with
      | b₁ :: b₂ :: b₃ :: rest =>
        if isTail b₁ && isTail b₂ && isTail b₃ then
          runeFrom 0x10000
            ((b.toNat - 0xF0) * 262144 + (b₁.toNat - 0x80) * 4096 + (b₂.toNat - 0x80) * 64 +
              (b₃.toNat - 0x80)) rest
        else none
      | _ => none
    else none

theorem toNat_ofNat {n : ℕ} (h : n.isValidChar) : (Char.ofNat n).toNat = n := by
  unfold Char.ofNat
  rw [dif_pos h]
  rfl

theorem runeFrom_eq_some {low v : ℕ} {rest rest' : Bytes} {c : Char} :
    runeFrom low v rest = some (c, rest') ↔ low ≤ v ∧ c.toNat = v ∧ rest' = rest := by
  unfold runeFrom
  constructor
  · intro h
    split at h
    · next hv =>
      simp only [Option.some.injEq, Prod.mk.injEq] at h
      obtain ⟨rfl, rfl⟩ := h
      exact ⟨hv.1, toNat_ofNat hv.2, rfl⟩
    · simp at h
  · rintro ⟨hlow, rfl, rfl⟩
    rw [if_pos ⟨hlow, c.valid⟩, Char.ofNat_toNat]

/-! ## One sequence -/

theorem toNat_lt (c : Char) : c.toNat < 0x110000 := by
  have h := c.valid
  simp only [UInt32.isValidChar, Nat.isValidChar] at h
  change c.val.toNat < _
  omega

theorem encodeRune_eq (c : Char) : encodeRune c =
    if c.toNat ≤ 0x7F then [UInt8.ofNat c.toNat]
    else if c.toNat ≤ 0x7FF then
      [UInt8.ofNat (c.toNat / 64 + 0xC0), UInt8.ofNat (c.toNat % 64 + 0x80)]
    else if c.toNat ≤ 0xFFFF then
      [UInt8.ofNat (c.toNat / 4096 + 0xE0), UInt8.ofNat (c.toNat / 64 % 64 + 0x80),
        UInt8.ofNat (c.toNat % 64 + 0x80)]
    else
      [UInt8.ofNat (c.toNat / 262144 + 0xF0), UInt8.ofNat (c.toNat / 4096 % 64 + 0x80),
        UInt8.ofNat (c.toNat / 64 % 64 + 0x80), UInt8.ofNat (c.toNat % 64 + 0x80)] := by
  have h := toNat_lt c
  have hv : c.val.toNat = c.toNat := rfl
  simp only [encodeRune, String.utf8EncodeChar, hv]
  split_ifs with h₁ h₂ h₃
  · rfl
  · rw [Nat.mod_eq_of_lt (show c.toNat / 64 < 32 by omega)]
  · rw [Nat.mod_eq_of_lt (show c.toNat / 4096 < 16 by omega)]
  · rw [Nat.mod_eq_of_lt (show c.toNat / 262144 < 8 by omega)]

/-- Reading back the sequence of a rune. -/
theorem decodeRune_encodeRune (c : Char) (rest : Bytes) :
    decodeRune (encodeRune c ++ rest) = some (c, rest) := by
  have h := toNat_lt c
  rw [encodeRune_eq]
  split_ifs with h₁ h₂ h₃
  · have e : (UInt8.ofNat c.toNat).toNat = c.toNat := by simp; omega
    simp only [List.cons_append, List.nil_append, decodeRune, e]
    rw [if_pos (by omega), runeFrom_eq_some]
    exact ⟨by omega, rfl, rfl⟩
  · have e : (UInt8.ofNat (c.toNat / 64 + 0xC0)).toNat = c.toNat / 64 + 0xC0 := by simp; omega
    have e₁ : (UInt8.ofNat (c.toNat % 64 + 0x80)).toNat = c.toNat % 64 + 0x80 := by simp; omega
    simp only [List.cons_append, List.nil_append, decodeRune, isTail, e, e₁]
    rw [if_neg (by omega), if_neg (by omega), if_pos (by omega), if_pos (by simp; omega),
      runeFrom_eq_some]
    exact ⟨by omega, by omega, rfl⟩
  · have e : (UInt8.ofNat (c.toNat / 4096 + 0xE0)).toNat = c.toNat / 4096 + 0xE0 := by simp; omega
    have e₁ : (UInt8.ofNat (c.toNat / 64 % 64 + 0x80)).toNat = c.toNat / 64 % 64 + 0x80 := by
      simp; omega
    have e₂ : (UInt8.ofNat (c.toNat % 64 + 0x80)).toNat = c.toNat % 64 + 0x80 := by simp; omega
    simp only [List.cons_append, List.nil_append, decodeRune, isTail, e, e₁, e₂]
    rw [if_neg (by omega), if_neg (by omega), if_neg (by omega), if_pos (by omega),
      if_pos (by simp; omega), runeFrom_eq_some]
    exact ⟨by omega, by omega, rfl⟩
  · have e : (UInt8.ofNat (c.toNat / 262144 + 0xF0)).toNat = c.toNat / 262144 + 0xF0 := by
      simp; omega
    have e₁ : (UInt8.ofNat (c.toNat / 4096 % 64 + 0x80)).toNat = c.toNat / 4096 % 64 + 0x80 := by
      simp; omega
    have e₂ : (UInt8.ofNat (c.toNat / 64 % 64 + 0x80)).toNat = c.toNat / 64 % 64 + 0x80 := by
      simp; omega
    have e₃ : (UInt8.ofNat (c.toNat % 64 + 0x80)).toNat = c.toNat % 64 + 0x80 := by simp; omega
    simp only [List.cons_append, List.nil_append, decodeRune, isTail, e, e₁, e₂, e₃]
    rw [if_neg (by omega), if_neg (by omega), if_neg (by omega), if_neg (by omega),
      if_pos (by omega), if_pos (by simp; omega), runeFrom_eq_some]
    exact ⟨by omega, by omega, rfl⟩

theorem ofNat_eq {b : UInt8} {n : ℕ} (h : n % 256 = b.toNat) : UInt8.ofNat n = b := by
  apply UInt8.toNat.inj
  rw [UInt8.toNat_ofNat', ← h]

/-- What was read as a rune is the sequence of that rune. -/
theorem eq_encodeRune_append {s rest : Bytes} {c : Char} (h : decodeRune s = some (c, rest)) :
    s = encodeRune c ++ rest := by
  rw [encodeRune_eq]
  match s with
  | [] => simp [decodeRune] at h
  | b :: tl =>
    simp only [decodeRune] at h
    split_ifs at h with h₁ h₂ h₃ h₄ h₅
    · obtain ⟨-, hc, rfl⟩ := runeFrom_eq_some.1 h
      rw [if_pos (by omega), ofNat_eq (b := b) (by omega)]
      rfl
    · split at h
      · next b₁ tl =>
        split_ifs at h with ht
        obtain ⟨hl, hc, rfl⟩ := runeFrom_eq_some.1 h
        simp [isTail] at ht
        rw [if_neg (by omega), if_pos (by omega), ofNat_eq (b := b) (by omega),
          ofNat_eq (b := b₁) (by omega)]
        rfl
      · simp at h
    · split at h
      · next b₁ b₂ tl =>
        split_ifs at h with ht
        obtain ⟨hl, hc, rfl⟩ := runeFrom_eq_some.1 h
        simp [isTail] at ht
        rw [if_neg (by omega), if_neg (by omega), if_pos (by omega), ofNat_eq (b := b) (by omega),
          ofNat_eq (b := b₁) (by omega), ofNat_eq (b := b₂) (by omega)]
        rfl
      · simp at h
    · split at h
      · next b₁ b₂ b₃ tl =>
        split_ifs at h with ht
        obtain ⟨hl, hc, rfl⟩ := runeFrom_eq_some.1 h
        simp [isTail] at ht
        rw [if_neg (by omega), if_neg (by omega), if_neg (by omega), ofNat_eq (b := b) (by omega),
          ofNat_eq (b := b₁) (by omega), ofNat_eq (b := b₂) (by omega),
          ofNat_eq (b := b₃) (by omega)]
        rfl
      · simp at h

theorem encodeRune_ne_nil (c : Char) : encodeRune c ≠ [] := by
  rw [encodeRune_eq]
  split_ifs <;> simp

theorem length_lt_of_decodeRune {s rest : Bytes} {c : Char} (h : decodeRune s = some (c, rest)) :
    rest.length < s.length := by
  have hpos := List.length_pos_of_ne_nil (encodeRune_ne_nil c)
  rw [eq_encodeRune_append h, List.length_append]
  omega

/-! ## A whole text -/

/-- What a reader of UTF-8 finds at a place of a text. -/
inductive Symbol
  | rune (c : Char)
  /-- A byte that starts no well-formed sequence. -/
  | bad (b : UInt8)
  deriving DecidableEq

/-- Read `n` symbols at most. -/
def scanAux : ℕ → Bytes → List Symbol
  | 0, _ => []
  | _ + 1, [] => []
  | n + 1, b :: tl =>
    match decodeRune (b :: tl) with
    | some (c, rest) => .rune c :: scanAux n rest
    | none => .bad b :: scanAux n tl

/-- The symbols of a text. -/
def scan (s : Bytes) : List Symbol := scanAux s.length s

theorem scanAux_of_le {n : ℕ} {s : Bytes} (h : s.length ≤ n) : scanAux n s = scan s := by
  -- the fuel decreases by one for each symbol and the text by at least one byte
  suffices ∀ m n : ℕ, ∀ s : Bytes, s.length ≤ m → s.length ≤ n → scanAux m s = scanAux n s from
    this _ _ s h (Nat.le_refl _)
  intro m
  induction m with
  | zero =>
    intro n s hm _
    obtain rfl := List.length_eq_zero_iff.1 (Nat.le_zero.1 hm)
    cases n <;> rfl
  | succ m ih =>
    intro n s hm hn
    match n, s with
    | 0, [] => rfl
    | 0, _ :: _ => simp at hn
    | n + 1, [] => rfl
    | n + 1, b :: tl =>
      simp only [List.length_cons] at hm hn
      simp only [scanAux]
      split
      · next c rest hd =>
        have := length_lt_of_decodeRune hd
        simp only [List.length_cons] at this
        rw [ih n rest (by omega) (by omega)]
      · rw [ih n tl (by omega) (by omega)]

@[simp] theorem scan_nil : scan [] = [] := rfl

theorem scan_of_rune {s rest : Bytes} {c : Char} (h : decodeRune s = some (c, rest)) :
    scan s = .rune c :: scan rest := by
  match s with
  | [] => simp [decodeRune] at h
  | b :: tl =>
    have hl := length_lt_of_decodeRune h
    simp only [List.length_cons] at hl
    simp only [scan, List.length_cons, scanAux, h]
    rw [scanAux_of_le (by omega), scan]

theorem scan_of_bad {b : UInt8} {tl : Bytes} (h : decodeRune (b :: tl) = none) :
    scan (b :: tl) = .bad b :: scan tl := by
  simp only [scan, List.length_cons, scanAux, h]

@[simp] theorem scan_encodeRune_append (c : Char) (rest : Bytes) :
    scan (encodeRune c ++ rest) = .rune c :: scan rest :=
  scan_of_rune (decodeRune_encodeRune c rest)

/-- Induction along the symbols of a text. -/
theorem scan_induction {P : Bytes → Prop} (nil : P [])
    (rune : ∀ c rest, P rest → P (encodeRune c ++ rest))
    (bad : ∀ b tl, decodeRune (b :: tl) = none → P tl → P (b :: tl)) (s : Bytes) : P s := by
  induction hn : s.length using Nat.strongRecOn generalizing s with
  | ind n ih =>
    match s with
    | [] => exact nil
    | b :: tl =>
      cases hd : decodeRune (b :: tl) with
      | none => exact bad b tl hd (ih _ (by simp [← hn]) tl rfl)
      | some p =>
        obtain ⟨c, rest⟩ := p
        have hl := length_lt_of_decodeRune hd
        rw [eq_encodeRune_append hd]
        exact rune c rest (ih _ (by omega) rest rfl)

/-- The bytes of a symbol. -/
def Symbol.bytes : Symbol → Bytes
  | .rune c => encodeRune c
  | .bad b => [b]

/-- A text is the concatenation of its symbols. -/
theorem flatMap_bytes_scan (s : Bytes) : (scan s).flatMap Symbol.bytes = s := by
  induction s using scan_induction with
  | nil => rfl
  | rune c rest ih =>
    rw [scan_encodeRune_append, List.flatMap_cons, ih]
    rfl
  | bad b tl hd ih =>
    rw [scan_of_bad hd, List.flatMap_cons, ih]
    rfl

/-- The text is well-formed UTF-8. -/
def Valid (s : Bytes) : Prop := ∀ b, Symbol.bad b ∉ scan s

instance (s : Bytes) : Decidable (Valid s) :=
  decidable_of_iff (∀ x ∈ scan s, (match x with | .rune _ => true | .bad _ => false) = true) <| by
    constructor
    · intro h b hb
      simpa using h _ hb
    · intro h x hx
      cases x with
      | rune c => rfl
      | bad b => exact absurd hx (h b)

theorem valid_encodeRune_append {c : Char} {rest : Bytes} :
    Valid (encodeRune c ++ rest) ↔ Valid rest := by
  simp [Valid]

theorem not_valid_of_bad {b : UInt8} {tl : Bytes} (h : decodeRune (b :: tl) = none) :
    ¬ Valid (b :: tl) := fun hv => hv b (by simp [scan_of_bad h])

theorem valid_flatMap_encodeRune (cs : List Char) : Valid (cs.flatMap encodeRune) := by
  induction cs with
  | nil => simp [Valid]
  | cons c cs ih =>
    rw [List.flatMap_cons, valid_encodeRune_append]
    exact ih

/-- Valid texts are the encodings of lists of runes. -/
theorem valid_iff_exists (s : Bytes) : Valid s ↔ ∃ cs : List Char, s = cs.flatMap encodeRune := by
  constructor
  · induction s using scan_induction with
    | nil => exact fun _ => ⟨[], rfl⟩
    | rune c rest ih =>
      intro h
      obtain ⟨cs, hcs⟩ := ih (valid_encodeRune_append.1 h)
      exact ⟨c :: cs, by rw [List.flatMap_cons, hcs]⟩
    | bad b tl hd _ => exact fun h => absurd h (not_valid_of_bad hd)
  · rintro ⟨cs, rfl⟩
    exact valid_flatMap_encodeRune cs

theorem valid_append {s t : Bytes} (hs : Valid s) (ht : Valid t) : Valid (s ++ t) := by
  obtain ⟨cs, rfl⟩ := (valid_iff_exists s).1 hs
  obtain ⟨ds, rfl⟩ := (valid_iff_exists t).1 ht
  rw [← List.flatMap_append]
  exact valid_flatMap_encodeRune _

theorem valid_str (s : String) : Valid (str s) := valid_flatMap_encodeRune s.toList

/-- ASCII is UTF-8. -/
theorem valid_of_ascii {s : Bytes} (h : ∀ b ∈ s, b.toNat < 0x80) : Valid s := by
  refine (valid_iff_exists s).2 ⟨s.map fun b => Char.ofNat b.toNat, ?_⟩
  induction s with
  | nil => rfl
  | cons b s ih =>
    have hb := h b (by simp)
    have hchar : (Char.ofNat b.toNat).toNat = b.toNat := toNat_ofNat (.inl (by omega))
    rw [List.map_cons, List.flatMap_cons, encodeRune_eq, hchar, if_pos (by omega),
      UInt8.ofNat_toNat, ← ih fun c hc => h c (by simp [hc])]
    rfl

theorem valid_intercalate {sep : Bytes} (hsep : Valid sep) {ss : List Bytes}
    (h : ∀ s ∈ ss, Valid s) : Valid (sep.intercalate ss) := by
  induction ss with
  | nil => simp [Valid]
  | cons s ss ih =>
    have hs := h s (by simp)
    have hss : ∀ t ∈ ss, Valid t := fun t ht => h t (by simp [ht])
    cases ss with
    | nil => simpa [List.intercalate] using hs
    | cons t ss =>
      rw [List.intercalate_cons_of_ne_nil (by simp)]
      exact valid_append (valid_append hs hsep) (ih hss)

/-- U+FFFD, reported for a byte that starts no well-formed sequence. -/
def runeError : Char := Char.ofNat 0xFFFD

/-- The rune reported for a symbol. -/
def Symbol.toRune : Symbol → Char
  | .rune c => c
  | .bad _ => runeError

/-- The text as a reader of UTF-8 reports it. -/
def toValid (s : Bytes) : Bytes := (scan s).flatMap fun x => encodeRune x.toRune

@[simp] theorem toValid_nil : toValid [] = [] := rfl

theorem toValid_encodeRune_append (c : Char) (rest : Bytes) :
    toValid (encodeRune c ++ rest) = encodeRune c ++ toValid rest := by
  simp [toValid, Symbol.toRune]

theorem toValid_of_bad {b : UInt8} {tl : Bytes} (h : decodeRune (b :: tl) = none) :
    toValid (b :: tl) = encodeRune runeError ++ toValid tl := by
  simp [toValid, scan_of_bad h, Symbol.toRune]

theorem length_le_toValid (s : Bytes) : s.length ≤ (toValid s).length := by
  induction s using scan_induction with
  | nil => simp
  | rune c rest ih =>
    rw [toValid_encodeRune_append, List.length_append, List.length_append]
    omega
  | bad b tl hd ih =>
    have h3 : (encodeRune runeError).length = 3 := by decide
    rw [toValid_of_bad hd, List.length_append, h3, List.length_cons]
    omega

/-- Reporting a text changes nothing exactly when the text is valid. -/
theorem toValid_eq_self_iff (s : Bytes) : toValid s = s ↔ Valid s := by
  induction s using scan_induction with
  | nil => simp [Valid]
  | rune c rest ih =>
    rw [toValid_encodeRune_append, List.append_cancel_left_eq, ih, valid_encodeRune_append]
  | bad b tl hd _ =>
    refine ⟨fun h => ?_, fun h => absurd h (not_valid_of_bad hd)⟩
    -- the report is longer than the text
    have h3 : (encodeRune runeError).length = 3 := by decide
    have hl := congrArg List.length h
    have := length_le_toValid tl
    rw [toValid_of_bad hd, List.length_append, h3, List.length_cons] at hl
    omega

theorem map_toValid_eq_self_iff (ss : List Bytes) :
    ss.map toValid = ss ↔ ∀ s ∈ ss, Valid s := by
  have hid : ss.map toValid = ss ↔ ss.map toValid = ss.map id := by simp
  rw [hid, List.map_inj_left]
  simp only [id_eq, toValid_eq_self_iff]

/-- The bytes of a rune that is no control character are none. -/
theorem le_of_mem_encodeRune {c : Char} (hc : 0x20 ≤ c.toNat) :
    ∀ b ∈ encodeRune c, 0x20 ≤ b.toNat := by
  have hlt := toNat_lt c
  rw [encodeRune_eq]
  split_ifs <;> simp <;> omega

end Utf8

end SecretsBroker
