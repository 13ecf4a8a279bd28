import Mathlib.Data.Bool.AllAny
import Mathlib.Tactic.Ring
import SecretsBroker.Foundations.Quote

/-!
# Reading quoted texts back

A quoted text determines the bytes it was made from, wherever it stands: `unrender` reads back one
symbol, and `quote_append_inj` and `quoteToASCII_append_inj` say that two quoted texts that start at
the same place are equal texts, whatever follows them. A byte that is no UTF-8 and the rune U+FFFD,
or a control character and a byte with the same number, are told apart.

A quoted text has no control characters (`le_of_mem_quote`), and is plain ASCII when it is made by
`quoteToASCII` (`mem_quoteToASCII`).
-/

namespace SecretsBroker

namespace Utf8

/-- Only a byte above ASCII can be no UTF-8. -/
theorem le_of_bad_mem_scan {s : Bytes} {b : UInt8} (h : Symbol.bad b ∈ scan s) :
    0x80 ≤ b.toNat := by
  induction s using scan_induction with
  | nil => simp [scan, scanAux] at h
  | rune c rest ih =>
    rw [scan_encodeRune_append] at h
    exact ih (by simpa using h)
  | bad b' tl hs ih =>
    rw [scan_of_bad hs] at h
    rcases List.mem_cons.1 h with heq | h
    · obtain rfl := Symbol.bad.inj heq
      by_contra hlt
      have hascii : b.toNat < 0x80 := Nat.lt_of_not_le hlt
      have hvalid : b.toNat.isValidChar := .inl (by omega)
      simp [decodeRune, hascii, runeFrom, hvalid] at hs
    · exact ih h

/-- A text of runes that starts with others starts with their runes. -/
theorem flatMap_encodeRune_append {cs cs' : List Char} {u : Bytes}
    (h : cs'.flatMap encodeRune = cs.flatMap encodeRune ++ u) :
    ∃ us, cs' = cs ++ us ∧ u = us.flatMap encodeRune := by
  induction cs generalizing cs' with
  | nil => exact ⟨cs', rfl, by simpa using h.symm⟩
  | cons c cs ih =>
    cases cs' with
    | nil =>
      rw [List.flatMap_nil, List.flatMap_cons, List.append_assoc] at h
      exact absurd (List.append_eq_nil_iff.1 h.symm).1 (encodeRune_ne_nil c)
    | cons c' cs' =>
      have hdec := congrArg decodeRune h
      rw [List.flatMap_cons, List.flatMap_cons, List.append_assoc, decodeRune_encodeRune,
        decodeRune_encodeRune] at hdec
      obtain ⟨rfl, hrest⟩ := Prod.mk.inj (Option.some.inj hdec)
      obtain ⟨us, rfl, rfl⟩ := ih hrest
      exact ⟨us, rfl, rfl⟩

theorem lt_of_mem_encodeRune {c : Char} (hc : c.toNat < 0x7F) :
    ∀ b ∈ encodeRune c, b.toNat < 0x7F := by
  rw [encodeRune_eq, if_pos (by omega)]
  simp
  omega

end Utf8

namespace Quote

open Utf8

/-! ## One symbol -/

/-- The value of a hexadecimal digit. -/
def digitValue (c : Char) : ℕ := if c.toNat < 0x3A then c.toNat - 0x30 else c.toNat - 0x57

/-- The number with the next `k` digits, after the digits of `acc`. -/
def readHex : ℕ → ℕ → List Char → ℕ × List Char
  | 0, acc, s => (acc, s)
  | _ + 1, acc, [] => (acc, [])
  | k + 1, acc, c :: s => readHex k (acc * 16 + digitValue c) s

/-- The control characters that are written as a letter. -/
def letters : List (Char × ℕ) :=
  [('a', 0x07), ('b', 0x08), ('f', 0x0C), ('n', 0x0A), ('r', 0x0D), ('t', 0x09), ('v', 0x0B)]

/-- Read one symbol of a quoted text. -/
def unrender : List Char → Option (Symbol × List Char)
  | '\\' :: e :: s =>
    if e = 'x' then
      let (v, rest) := readHex 2 0 s
      some (if v < 0x80 then .rune (Char.ofNat v) else .bad (UInt8.ofNat v), rest)
    else if e = 'u' then
      let (v, rest) := readHex 4 0 s
      some (.rune (Char.ofNat v), rest)
    else if e = 'U' then
      let (v, rest) := readHex 8 0 s
      some (.rune (Char.ofNat v), rest)
    else
      match letters.find? fun p => p.1 == e with
      | some p => some (.rune (Char.ofNat p.2), s)
      | none => some (.rune e, s)
  | c :: s => some (.rune c, s)
  | [] => none

theorem digitValue_hexDigit {n : ℕ} (h : n < 16) : digitValue (hexDigit n) = n := by
  have hall : ∀ m : Fin 16, digitValue (hexDigit m) = m := by decide
  exact hall ⟨n, h⟩

theorem readHex_hex (n k acc : ℕ) (rest : List Char) :
    readHex k acc (hex n k ++ rest) = (acc * 16 ^ k + n % 16 ^ k, rest) := by
  induction k generalizing acc with
  | zero => simp [readHex, hex, Nat.mod_one]
  | succ k ih =>
    rw [hex, List.cons_append, readHex, digitValue_hexDigit (Nat.mod_lt _ (by decide)), ih,
      Nat.mod_pow_succ]
    congr 1
    ring

theorem readHex_hex_of_lt {n k : ℕ} (h : n < 16 ^ k) (rest : List Char) :
    readHex k 0 (hex n k ++ rest) = (n, rest) := by
  rw [readHex_hex, Nat.mod_eq_of_lt h, Nat.zero_mul, Nat.zero_add]

theorem unrender_escape (c : Char) (rest : List Char) :
    unrender (escape c ++ rest) = some (.rune c, rest) := by
  have hc := toNat_lt c
  have hback : ∀ {v : ℕ}, c.toNat = v → Char.ofNat v = c := by
    rintro v rfl
    exact Char.ofNat_toNat c
  unfold escape
  split
  -- the letters
  iterate 7
    next hv =>
      rw [← hback hv]
      rfl
  · split_ifs with hx hu
    · have hlt : c.toNat < 16 ^ 2 := by omega
      have hascii : c.toNat < 0x80 := by omega
      simp [unrender, readHex_hex_of_lt hlt, hascii, Char.ofNat_toNat]
    · have hlt : c.toNat < 16 ^ 4 := by omega
      simp [unrender, readHex_hex_of_lt hlt, Char.ofNat_toNat]
    · have hlt : c.toNat < 16 ^ 8 := by omega
      simp [unrender, readHex_hex_of_lt hlt, Char.ofNat_toNat]

theorem unrender_of_ne {c : Char} (h : c ≠ '\\') (s : List Char) :
    unrender (c :: s) = some (.rune c, s) := by
  unfold unrender
  split
  · next heq => exact absurd (List.cons.inj heq).1 h
  · next heq =>
    obtain ⟨rfl, rfl⟩ := List.cons.inj heq
    rfl
  · next heq => cases heq

/-- The three ways to write a rune. -/
theorem render_rune [Unicode] (ascii : Bool) (c : Char) :
    (c = '"' ∨ c = '\\') ∧ render ascii (.rune c) = ['\\', c] ∨
      (c ≠ '"' ∧ c ≠ '\\' ∧ isPrint c = true ∧ (ascii = true → c.toNat < 0x80)) ∧
        render ascii (.rune c) = [c] ∨
      render ascii (.rune c) = escape c := by
  simp only [render]
  by_cases hq : c = '"' ∨ c = '\\'
  · exact .inl ⟨hq, if_pos hq⟩
  · rw [if_neg hq]
    obtain ⟨hquote, hback⟩ := not_or.1 hq
    cases ascii with
    | true =>
      by_cases hp : c.toNat < 0x80 ∧ isPrint c = true
      · exact .inr (.inl ⟨⟨hquote, hback, hp.2, fun _ => hp.1⟩, by simp [hp]⟩)
      · exact .inr (.inr (by simp [hp]))
    | false =>
      by_cases hp : isPrint c = true
      · exact .inr (.inl ⟨⟨hquote, hback, hp, fun h => by simp at h⟩, by simp [hp]⟩)
      · exact .inr (.inr (by simp [hp]))

/-- **A symbol is read back from its rendering**, for the symbols of a text. -/
theorem unrender_render [Unicode] (ascii : Bool) {x : Symbol}
    (hx : ∀ b, x = .bad b → 0x80 ≤ b.toNat)
    (rest : List Char) : unrender (render ascii x ++ rest) = some (x, rest) := by
  cases x with
  | bad b =>
    have hlt : b.toNat < 16 ^ 2 := b.toNat_lt
    have hge := hx b rfl
    simp [render, unrender, readHex_hex_of_lt hlt, Nat.not_lt.2 hge]
  | rune c =>
    rcases render_rune ascii c with ⟨hq, heq⟩ | ⟨⟨-, hback, -⟩, heq⟩ | heq
    · rw [heq]
      rcases hq with rfl | rfl <;> rfl
    · rw [heq]
      exact unrender_of_ne hback rest
    · rw [heq]
      exact unrender_escape c rest

/-! ## A whole text -/

section Whole

variable [Unicode] {ascii : Bool}

/-- No symbol is rendered with a quote in front. -/
theorem render_cons (x : Symbol) : ∃ c tl, render ascii x = c :: tl ∧ c ≠ '"' := by
  have hescape : ∀ c : Char, ∃ tl, escape c = '\\' :: tl := by
    intro c
    unfold escape
    split
    iterate 7 exact ⟨_, rfl⟩
    split_ifs <;> exact ⟨_, rfl⟩
  cases x with
  | bad b => exact ⟨_, _, rfl, by decide⟩
  | rune c =>
    rcases render_rune ascii c with ⟨-, heq⟩ | ⟨⟨hquote, -⟩, heq⟩ | heq
    · exact ⟨_, _, heq, by decide⟩
    · exact ⟨_, _, heq, hquote⟩
    · obtain ⟨tl, htl⟩ := hescape c
      exact ⟨_, _, heq.trans htl, by decide⟩

theorem flatMap_render_inj {xs ys : List Symbol} {t t' : List Char}
    (hxs : ∀ b, Symbol.bad b ∈ xs → 0x80 ≤ b.toNat) (hys : ∀ b, Symbol.bad b ∈ ys → 0x80 ≤ b.toNat)
    (h : xs.flatMap (render ascii) ++ '"' :: t = ys.flatMap (render ascii) ++ '"' :: t') :
    xs = ys ∧ t = t' := by
  induction xs generalizing ys with
  | nil =>
    cases ys with
    | nil => exact ⟨rfl, (List.cons.inj h).2⟩
    | cons y ys =>
      obtain ⟨c, tl, hy, hne⟩ := @render_cons _ ascii y
      rw [List.flatMap_nil, List.flatMap_cons, hy] at h
      exact absurd (List.cons.inj h).1.symm hne
  | cons x xs ih =>
    cases ys with
    | nil =>
      obtain ⟨c, tl, hx, hne⟩ := @render_cons _ ascii x
      rw [List.flatMap_nil, List.flatMap_cons, hx] at h
      exact absurd (List.cons.inj h).1 hne
    | cons y ys =>
      have hread := congrArg unrender h
      rw [List.flatMap_cons, List.flatMap_cons, List.append_assoc, List.append_assoc,
        unrender_render ascii fun b hb => hxs b (by simp [hb]),
        unrender_render ascii fun b hb => hys b (by simp [hb])] at hread
      obtain ⟨rfl, hrest⟩ := Prod.mk.inj (Option.some.inj hread)
      obtain ⟨rfl, rfl⟩ :=
        ih (fun b hb => hxs b (by simp [hb])) (fun b hb => hys b (by simp [hb])) hrest
      exact ⟨rfl, rfl⟩

/-- **A quoted text determines the text, whatever follows it.** -/
theorem quoteWith_append_inj {s s' : Bytes} {t t' : List Char}
    (h : quoteWith ascii s ++ t = quoteWith ascii s' ++ t') : s = s' ∧ t = t' := by
  simp only [quoteWith, List.cons_append, List.append_assoc, List.nil_append,
    List.cons.injEq, true_and] at h
  obtain ⟨hscan, ht⟩ := flatMap_render_inj (fun b => le_of_bad_mem_scan)
    (fun b => le_of_bad_mem_scan) h
  have hs := congrArg (List.flatMap Symbol.bytes) hscan
  rw [flatMap_bytes_scan, flatMap_bytes_scan] at hs
  exact ⟨hs, ht⟩

end Whole

/-! ## The runes of a quoted text -/

theorem hexDigit_range {n : ℕ} (h : n < 16) :
    0x20 ≤ (hexDigit n).toNat ∧ (hexDigit n).toNat < 0x7F := by
  have hall : ∀ m : Fin 16, 0x20 ≤ (hexDigit m).toNat ∧ (hexDigit m).toNat < 0x7F := by decide
  exact hall ⟨n, h⟩

theorem hex_range (n k : ℕ) : ∀ c ∈ hex n k, 0x20 ≤ c.toNat ∧ c.toNat < 0x7F := by
  induction k with
  | zero => simp [hex]
  | succ k ih =>
    intro c hc
    rcases List.mem_cons.1 hc with rfl | hc
    · exact hexDigit_range (Nat.mod_lt _ (by decide))
    · exact ih c hc

theorem escape_range (c : Char) : ∀ d ∈ escape c, 0x20 ≤ d.toNat ∧ d.toNat < 0x7F := by
  unfold escape
  split
  iterate 7 exact List.all_iff_forall_prop.1 (by decide)
  split_ifs
  all_goals
    simp only [List.forall_mem_cons]
    exact ⟨by decide, by decide, hex_range _ _⟩

section Range

variable [Unicode]

theorem le_of_isPrint {c : Char} (h : isPrint c = true) : 0x20 ≤ c.toNat := by
  unfold isPrint at h
  split_ifs at h with hc
  · simp only [Bool.or_eq_true, Bool.and_eq_true, decide_eq_true_eq] at h
    omega
  · omega

theorem lt_of_isPrint {c : Char} (h : isPrint c = true) (hc : c.toNat < 0x80) : c.toNat < 0x7F := by
  unfold isPrint at h
  rw [if_pos (by omega)] at h
  simp only [Bool.or_eq_true, Bool.and_eq_true, decide_eq_true_eq] at h
  omega

theorem le_of_mem_render {ascii : Bool} {x : Symbol} : ∀ d ∈ render ascii x, 0x20 ≤ d.toNat := by
  cases x with
  | bad b =>
    simp only [render, List.forall_mem_cons]
    exact ⟨by decide, by decide, fun d hd => (hex_range _ _ d hd).1⟩
  | rune c =>
    rcases render_rune ascii c with ⟨hq, heq⟩ | ⟨⟨-, -, hp, -⟩, heq⟩ | heq
    · rw [heq]
      rcases hq with rfl | rfl <;> exact List.all_iff_forall_prop.1 (by decide)
    · rw [heq]
      simpa using le_of_isPrint hp
    · rw [heq]
      exact fun d hd => (escape_range c d hd).1

theorem lt_of_mem_render {x : Symbol} : ∀ d ∈ render true x, d.toNat < 0x7F := by
  cases x with
  | bad b =>
    simp only [render, List.forall_mem_cons]
    exact ⟨by decide, by decide, fun d hd => (hex_range _ _ d hd).2⟩
  | rune c =>
    rcases render_rune true c with ⟨hq, heq⟩ | ⟨⟨-, -, hp, hascii⟩, heq⟩ | heq
    · rw [heq]
      rcases hq with rfl | rfl <;> exact List.all_iff_forall_prop.1 (by decide)
    · rw [heq]
      simpa using lt_of_isPrint hp (hascii rfl)
    · rw [heq]
      exact fun d hd => (escape_range c d hd).2

theorem mem_quoteWith {ascii : Bool} {s : Bytes} {c : Char} (h : c ∈ quoteWith ascii s) :
    c = '"' ∨ ∃ x, c ∈ render ascii x := by
  simp only [quoteWith, List.cons_append, List.mem_cons, List.mem_append, List.mem_flatMap,
    List.not_mem_nil, or_false] at h
  rcases h with rfl | ⟨x, -, hx⟩ | rfl
  · exact .inl rfl
  · exact .inr ⟨x, hx⟩
  · exact .inl rfl

/-- A quoted text has no control characters. -/
theorem le_of_mem_quoteWith {ascii : Bool} {s : Bytes} :
    ∀ c ∈ quoteWith ascii s, 0x20 ≤ c.toNat := by
  intro c hc
  rcases mem_quoteWith hc with rfl | ⟨x, hx⟩
  · decide
  · exact le_of_mem_render c hx

/-- A text quoted to ASCII is printable ASCII. -/
theorem lt_of_mem_quoteWith {s : Bytes} : ∀ c ∈ quoteWith true s, c.toNat < 0x7F := by
  intro c hc
  rcases mem_quoteWith hc with rfl | ⟨x, hx⟩
  · decide
  · exact lt_of_mem_render c hx

end Range

end Quote

/-! ## As bytes -/

section Bytes

open Utf8 Quote

variable [Unicode] {s s' t t' : Bytes}

/-- The bytes of a quoted text determine the text, whatever bytes follow. -/
theorem flatMap_quoteWith_append_inj {ascii : Bool}
    (h : (quoteWith ascii s).flatMap encodeRune ++ t =
      (quoteWith ascii s').flatMap encodeRune ++ t') :
    s = s' ∧ t = t' := by
  -- one of the two texts is the start of the other
  have key : ∀ {s s' u : Bytes}, (quoteWith ascii s').flatMap encodeRune =
      (quoteWith ascii s).flatMap encodeRune ++ u → s = s' ∧ u = [] := by
    intro s s' u hu
    obtain ⟨us, heq, rfl⟩ := flatMap_encodeRune_append hu
    rw [← List.append_nil (quoteWith ascii s')] at heq
    obtain ⟨rfl, rfl⟩ := quoteWith_append_inj heq
    exact ⟨rfl, rfl⟩
  rcases List.append_eq_append_iff.1 h with ⟨u, hs, ht⟩ | ⟨u, hs, ht⟩
  · obtain ⟨rfl, rfl⟩ := key hs
    exact ⟨rfl, ht⟩
  · obtain ⟨rfl, rfl⟩ := key hs
    exact ⟨rfl, ht.symm⟩

theorem quote_append_inj (h : quote s ++ t = quote s' ++ t') : s = s' ∧ t = t' :=
  flatMap_quoteWith_append_inj h

theorem quoteToASCII_append_inj (h : quoteToASCII s ++ t = quoteToASCII s' ++ t') :
    s = s' ∧ t = t' :=
  flatMap_quoteWith_append_inj h

theorem le_of_mem_quote : ∀ b ∈ quote s, 0x20 ≤ b.toNat := by
  intro b hb
  obtain ⟨c, hc, hbc⟩ := List.mem_flatMap.1 hb
  exact le_of_mem_encodeRune (le_of_mem_quoteWith c hc) b hbc

theorem mem_quoteToASCII : ∀ b ∈ quoteToASCII s, 0x20 ≤ b.toNat ∧ b.toNat < 0x7F := by
  intro b hb
  obtain ⟨c, hc, hbc⟩ := List.mem_flatMap.1 hb
  exact ⟨le_of_mem_encodeRune (le_of_mem_quoteWith c hc) b hbc,
    lt_of_mem_encodeRune (lt_of_mem_quoteWith c hc) b hbc⟩

end Bytes

end SecretsBroker
