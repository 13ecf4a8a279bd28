import SecretsBroker.Foundations.JsonStruct

/-!
# TOML strings

The basic strings of TOML 1.0 and the arrays of them that stand on one line, read from UTF-8. A
basic string takes raw the tab, the characters from U+0020 to U+007E without the quote and the
backslash, and every character from U+0080 on. The escapes are a letter of `escapes`, four
hexadecimal digits after `u`, or eight after `U`, and the digits must be those of a Unicode scalar
value.

A string that `encoding/json` writes is nearly such a literal. `basicString_encodeString` and
`stringArray_encodeArray` say exactly when: the character U+007F is written raw, and TOML has it
only escaped.
-/

namespace SecretsBroker.Toml

open Utf8

/-! ## The grammar -/

/-- `basic-unescaped`, for a byte of ASCII. -/
def isUnescaped (b : UInt8) : Bool :=
  b == 0x09 || (0x20 ≤ b.toNat && b.toNat ≤ 0x7E && b != 0x22 && b != 0x5C)

/-- The escapes of one letter, and the characters they stand for. -/
def escapes : List (UInt8 × Char) :=
  [(0x22, '\"'), (0x5C, '\\'), (0x62, Char.ofNat 0x08), (0x66, Char.ofNat 0x0C),
    (0x6E, Char.ofNat 0x0A), (0x72, Char.ofNat 0x0D), (0x74, Char.ofNat 0x09)]

/-- The character of a code point. -/
def scalar (v : ℕ) : Option Char := if v.isValidChar then some (Char.ofNat v) else none

/-- The character of an escape, after its backslash. -/
def readEscape : Bytes → Option (Char × Bytes)
  | [] => none
  | b :: rest =>
    if b = 0x75 then do
      let (v, rest) ← Json.readHex4 rest
      (scalar v).map fun c => (c, rest)
    else if b = 0x55 then do
      let (hi, rest) ← Json.readHex4 rest
      let (lo, rest) ← Json.readHex4 rest
      (scalar (hi * 0x10000 + lo)).map fun c => (c, rest)
    else (escapes.find? fun e => e.1 == b).map fun e => (e.2, rest)

/-- `basic-char` -/
def readChar : Bytes → Option (Char × Bytes)
  | [] => none
  | b :: rest =>
    if b = 0x5C then readEscape rest
    else if b.toNat < 0x80 then
      if isUnescaped b then some (Char.ofNat b.toNat, rest) else none
    else decodeRune (b :: rest)

/-- The characters of a basic string after its opening quote, and what follows the closing one. -/
def readChars : ℕ → Bytes → Option (Bytes × Bytes)
  | 0, _ => none
  | n + 1, s =>
    if s.head? = some 0x22 then some ([], s.tail)
    else
      match readChar s with
      | none => none
      | some (c, rest) => (readChars n rest).map fun p => (encodeRune c ++ p.1, p.2)

/-- `basic-string`, from the front of a text. -/
def readString : Bytes → Option (Bytes × Bytes)
  | [] => none
  | b :: rest => if b = 0x22 then readChars (rest.length + 1) rest else none

/-- The text is a basic string with this value. -/
def basicString (text : Bytes) : Option Bytes :=
  match readString text with
  | some (s, []) => some s
  | _ => none

def skipBlanks (s : Bytes) : Bytes := s.dropWhile fun b => b == 0x20 || b == 0x09

/-- `array-values`, where all values are basic strings, with the closing bracket. -/
def readStrings : ℕ → Bytes → Option (List Bytes × Bytes)
  | 0, _ => none
  | n + 1, s =>
    if (skipBlanks s).head? = some 0x5D then some ([], (skipBlanks s).tail)
    else
      match readString (skipBlanks s) with
      | none => none
      | some (v, rest) =>
        match skipBlanks rest with
        | [] => none
        | c :: rest =>
          if c = 0x2C then (readStrings n rest).map fun p => (v :: p.1, p.2)
          else if c = 0x5D then some ([v], rest)
          else none

/-- The text is an array of basic strings on one line with these values. -/
def stringArray : Bytes → Option (List Bytes)
  | [] => none
  | b :: rest =>
    if b = 0x5B then
      match readStrings (rest.length + 1) rest with
      | some (vs, []) => some vs
      | _ => none
    else none

/-! ## Literals of JSON -/

/-- The character that JSON writes raw and TOML has only escaped. -/
def delete : Char := Char.ofNat 0x7F

theorem find_escapes {v : ℕ} {letter : UInt8} (h : Json.shortEscape v = some letter) :
    letter ≠ 0x75 ∧ letter ≠ 0x55 ∧
      (escapes.find? fun e => e.1 == letter) = some (letter, Char.ofNat v) := by
  have hall : Json.shortEscapes.all (fun p => p.1 != 0x75 && p.1 != 0x55 &&
      (escapes.find? fun e => e.1 == p.1) == some (p.1, Char.ofNat p.2.toNat)) = true := by decide
  obtain ⟨p, hp, rfl⟩ := Option.map_eq_some_iff.1 h
  obtain rfl : p.2.toNat = v := by simpa using List.find?_some hp
  have hp' := List.all_eq_true.1 hall p (List.mem_of_find?_eq_some hp)
  simp only [Bool.and_eq_true, bne_iff_ne, beq_iff_eq] at hp'
  exact ⟨hp'.1.1, hp'.1.2, hp'.2⟩

theorem scalar_toNat (c : Char) : scalar c.toNat = some c := by
  rw [scalar, if_pos (show c.toNat.isValidChar from c.valid), Char.ofNat_toNat]

theorem readChar_unicodeEscape {c : Char} (h : c.toNat < 0x10000) (rest : Bytes) :
    readChar (Json.unicodeEscape c.toNat ++ rest) = some (c, rest) := by
  have hd : ∀ n : ℕ, Json.hexValue (Json.hexByte (n % 16)) = some (n % 16) :=
    fun n => Json.hexValue_hexByte (Nat.mod_lt _ (by decide))
  have hv : ((c.toNat / 4096 % 16 * 16 + c.toNat / 256 % 16) * 16 + c.toNat / 16 % 16) * 16 +
      c.toNat % 16 = c.toNat := by omega
  simp [Json.unicodeEscape, readChar, readEscape, Json.readHex4, hd, hv, scalar_toNat]

/-- **One character**: what JSON writes for it is read back, except for U+007F. -/
theorem readChar_encodeSymbol (c : Char) (rest : Bytes) :
    (Json.encodeSymbol (.rune c) ++ rest).head? ≠ some 0x22 ∧
      readChar (Json.encodeSymbol (.rune c) ++ rest) =
        if c = delete then none else some (c, rest) := by
  simp only [Json.encodeSymbol]
  cases hshort : Json.shortEscape c.toNat with
  | some letter =>
    obtain ⟨h₁, h₂, hfind⟩ := find_escapes hshort
    have hne : c ≠ delete := by
      rintro rfl
      cases hshort
    rw [if_neg hne]
    refine ⟨by simp, ?_⟩
    simp [readChar, readEscape, h₁, h₂, hfind]
  | none =>
    simp only
    split_ifs with hesc hdel hdel
    · subst hdel
      exact absurd hesc (by decide)
    · have hlt : c.toNat < 0x10000 := by
        rcases hesc with h | rfl | rfl | rfl | h | h
        · omega
        · decide
        · decide
        · decide
        · omega
        · omega
      exact ⟨by simp [Json.unicodeEscape], readChar_unicodeEscape hlt rest⟩
    · subst hdel
      exact ⟨fun h => absurd (Option.some.inj h) (by decide), rfl⟩
    · obtain ⟨b, tl, hbytes, hb⟩ := Json.encodeRune_cons c
      obtain ⟨hq, hbs⟩ := Json.ne_of_shortEscape_none hshort
      have hcontrol : ¬ c.toNat < 0x20 := fun h => hesc (.inl h)
      have hdel' : c.toNat ≠ 0x7F := fun h => hdel (Char.toNat_inj.1 h)
      by_cases hascii : c.toNat < 0x80
      · have hone : encodeRune c = [UInt8.ofNat c.toNat] := by
          rw [encodeRune_eq, if_pos (by omega)]
        have hnat : (UInt8.ofNat c.toNat).toNat = c.toNat := by
          simp
          omega
        have hne : ∀ b : UInt8, c.toNat ≠ b.toNat → UInt8.ofNat c.toNat ≠ b := by
          rintro b hb rfl
          exact hb hnat.symm
        have hraw : isUnescaped (UInt8.ofNat c.toNat) = true := by
          simp only [isUnescaped, hnat, Bool.or_eq_true, Bool.and_eq_true, decide_eq_true_eq,
            bne_iff_ne]
          exact .inr ⟨⟨⟨by omega, by omega⟩, hne _ hq⟩, hne _ hbs⟩
        rw [hone, List.singleton_append, List.head?_cons, readChar, if_neg (hne 0x5C hbs), hnat,
          if_pos hascii, if_pos hraw, Char.ofNat_toNat]
        exact ⟨fun h => hne 0x22 hq (Option.some.inj h), rfl⟩
      · have hdec := decodeRune_encodeRune c rest
        have hb' : 0x80 ≤ b.toNat := by omega
        have hne : ∀ d : UInt8, d.toNat < 0x80 → b ≠ d := by
          rintro d hd rfl
          omega
        rw [hbytes, List.cons_append] at hdec ⊢
        rw [readChar, if_neg (hne _ (by decide)), if_neg (by omega), hdec]
        exact ⟨fun h => hne 0x22 (by decide) (Option.some.inj h), rfl⟩

/-- **The characters of a string**, after the opening quote. -/
theorem readChars_encode (cs : List Char) (rest : Bytes) {n : ℕ} (hn : cs.length < n) :
    readChars n ((cs.map Symbol.rune).flatMap Json.encodeSymbol ++ 0x22 :: rest) =
      if delete ∈ cs then none else some (cs.flatMap encodeRune, rest) := by
  induction cs generalizing n with
  | nil =>
    obtain ⟨n, rfl⟩ := Nat.exists_eq_succ_of_ne_zero (Nat.ne_of_gt hn)
    rfl
  | cons c cs ih =>
    obtain ⟨n, rfl⟩ := Nat.exists_eq_succ_of_ne_zero (Nat.ne_of_gt (Nat.zero_lt_of_lt hn))
    rw [List.length_cons, Nat.succ_eq_add_one, Nat.add_lt_add_iff_right] at hn
    obtain ⟨hquote, hread⟩ := readChar_encodeSymbol c
      ((cs.map Symbol.rune).flatMap Json.encodeSymbol ++ 0x22 :: rest)
    rw [List.map_cons, List.flatMap_cons, List.append_assoc, readChars, if_neg hquote, hread]
    by_cases hc : c = delete
    · simp [hc]
    · have hmem : delete ∈ c :: cs ↔ delete ∈ cs := by
        rw [List.mem_cons, or_iff_right (Ne.symm hc)]
      simp only [if_neg hc, ih hn, hmem]
      split_ifs <;> rfl

/-- A character of ASCII is its byte. -/
theorem mem_flatMap_encodeRune {cs : List Char} : 0x7F ∈ cs.flatMap encodeRune ↔ delete ∈ cs := by
  rw [List.mem_flatMap]
  constructor
  · rintro ⟨c, hc, hmem⟩
    have htail := Json.encodeRune_tail c
    obtain ⟨b, tl, hbytes, hb⟩ := Json.encodeRune_cons c
    rw [hbytes] at hmem htail
    rcases List.mem_cons.1 hmem with rfl | hmem
    · have h7F : (0x7F : UInt8).toNat = 0x7F := rfl
      have hnat : c.toNat = delete.toNat := by
        rw [h7F] at hb
        rcases hb with hb | ⟨-, hb⟩
        · exact hb.symm
        · omega
      rwa [← Char.toNat_inj.1 hnat]
    · exact absurd (htail _ hmem) (by decide)
  · intro h
    exact ⟨delete, h, by decide⟩

theorem scan_flatMap_encodeRune (cs : List Char) :
    scan (cs.flatMap encodeRune) = cs.map Symbol.rune := by
  induction cs with
  | nil => rfl
  | cons c cs ih => rw [List.flatMap_cons, scan_encodeRune_append, ih, List.map_cons]

/-- A string of JSON in front of any text. -/
theorem readString_encodeString {s : Bytes} (hs : Valid s) (rest : Bytes) :
    readString (Json.encodeString s ++ rest) = if 0x7F ∈ s then none else some (s, rest) := by
  obtain ⟨cs, rfl⟩ := (valid_iff_exists s).1 hs
  have hlen := Json.length_le_flatMap_encodeSymbol (cs.map Symbol.rune)
  rw [List.length_map] at hlen
  have hread := readChars_encode cs rest (n :=
    ((cs.map Symbol.rune).flatMap Json.encodeSymbol ++ 0x22 :: rest).length + 1)
    (by rw [List.length_append]; omega)
  simp only [mem_flatMap_encodeRune]
  rw [← hread, Json.encodeString, scan_flatMap_encodeRune]
  simp [readString]

/-- **A string of JSON is the basic string with the same value**, unless it contains U+007F: then it
is no basic string. -/
theorem basicString_encodeString {s : Bytes} (hs : Valid s) :
    basicString (Json.encodeString s) = if 0x7F ∈ s then none else some s := by
  have hread := readString_encodeString hs []
  rw [List.append_nil] at hread
  rw [basicString, hread]
  split_ifs <;> rfl

theorem skipBlanks_cons {b : UInt8} (h : b ≠ 0x20 ∧ b ≠ 0x09) (rest : Bytes) :
    skipBlanks (b :: rest) = b :: rest := by
  simp [skipBlanks, h]

theorem readStrings_encode {ss : List Bytes} (hs : ∀ s ∈ ss, Valid s) (rest : Bytes) {n : ℕ}
    (hn : ss.length < n) :
    readStrings n ([0x2C].intercalate (ss.map Json.encodeString) ++ 0x5D :: rest) =
      if ∃ s ∈ ss, 0x7F ∈ s then none else some (ss, rest) := by
  induction ss generalizing n with
  | nil =>
    obtain ⟨n, rfl⟩ := Nat.exists_eq_succ_of_ne_zero (Nat.ne_of_gt hn)
    rfl
  | cons s ss ih =>
    obtain ⟨n, rfl⟩ := Nat.exists_eq_succ_of_ne_zero (Nat.ne_of_gt (Nat.zero_lt_of_lt hn))
    rw [List.length_cons, Nat.succ_eq_add_one, Nat.add_lt_add_iff_right] at hn
    have hvalid := hs s List.mem_cons_self
    -- the first string and what follows it: a comma and the others, or the bracket
    obtain ⟨c, tail, hc, htext, hnext⟩ : ∃ c tail, (c = 0x2C ∨ c = 0x5D) ∧
        [0x2C].intercalate ((s :: ss).map Json.encodeString) ++ 0x5D :: rest =
          Json.encodeString s ++ c :: tail ∧
        (if c = 0x2C then (readStrings n tail).map fun p => (s :: p.1, p.2) else
          if c = 0x5D then some ([s], tail) else none) =
            if ∃ s ∈ ss, 0x7F ∈ s then none else some (s :: ss, rest) := by
      cases ss with
      | nil => exact ⟨0x5D, rest, .inr rfl, by simp [List.intercalate], by simp⟩
      | cons s' ss =>
        refine ⟨0x2C, [0x2C].intercalate ((s' :: ss).map Json.encodeString) ++ 0x5D :: rest,
          .inl rfl, ?_, ?_⟩
        · rw [List.map_cons, List.intercalate_cons_of_ne_nil (by simp)]
          simp
        · rw [if_pos rfl, ih (fun t ht => hs t (List.mem_cons_of_mem s ht)) hn]
          split_ifs <;> rfl
    have hquote : Json.encodeString s ++ c :: tail =
        0x22 :: ((scan s).flatMap Json.encodeSymbol ++ 0x22 :: c :: tail) := by
      simp [Json.encodeString]
    have hskip : skipBlanks (Json.encodeString s ++ c :: tail) =
        Json.encodeString s ++ c :: tail := by
      rw [hquote, skipBlanks_cons (by decide)]
    have hskip' : skipBlanks (c :: tail) = c :: tail :=
      skipBlanks_cons (by rcases hc with rfl | rfl <;> decide) tail
    have hhead : (Json.encodeString s ++ c :: tail).head? ≠ some 0x5D := by
      rw [hquote]
      exact fun h => absurd (Option.some.inj h) (by decide)
    rw [htext, readStrings, hskip, if_neg hhead, readString_encodeString hvalid]
    by_cases hmem : 0x7F ∈ s
    · have hex : ∃ t ∈ s :: ss, 0x7F ∈ t := ⟨s, List.mem_cons_self, hmem⟩
      rw [if_pos hmem, if_pos hex]
    · have hex : (∃ t ∈ s :: ss, 0x7F ∈ t) ↔ ∃ t ∈ ss, 0x7F ∈ t := by simp [hmem]
      simp only [if_neg hmem, hskip', hnext, hex]

/-- **An array of strings of JSON is the array of basic strings with the same values**, unless one
of them contains U+007F. -/
theorem stringArray_encodeArray {ss : List Bytes} (hs : ∀ s ∈ ss, Valid s) :
    stringArray (Json.encodeArray (ss.map Json.encodeString)) =
      if ∃ s ∈ ss, 0x7F ∈ s then none else some ss := by
  have hlen : ss.length < ([0x2C].intercalate (ss.map Json.encodeString) ++ [0x5D]).length + 1 := by
    have hne : ∀ t ∈ ss.map Json.encodeString, t ≠ [] := by
      intro t ht
      obtain ⟨s, -, rfl⟩ := List.mem_map.1 ht
      exact List.cons_ne_nil _ _
    have hle := @Json.length_le_intercalate 0x2C _ hne
    rw [List.length_map] at hle
    rw [List.length_append]
    omega
  rw [Json.encodeArray, List.cons_append, stringArray, if_pos rfl, readStrings_encode hs [] hlen]
  split_ifs <;> rfl

end SecretsBroker.Toml
