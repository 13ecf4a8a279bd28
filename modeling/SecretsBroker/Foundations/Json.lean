import SecretsBroker.Foundations.Utf8

/-!
# JSON texts

The encoding of strings and the parser, as `encoding/json` has them. The encoder escapes the quote,
the backslash, control characters, the characters `<`, `>`, `&` and the two line separators U+2028
and U+2029, and writes the escape of U+FFFD for every byte that is no UTF-8. The parser reads one
value from the front of a text; raw bytes in a string that are no UTF-8 and lone surrogates become
U+FFFD.

`Reads text j k` says that the parser, with fuel `k` at least, reads `text` as the value `j`
whatever follows; `ReadsInside` says it of an item of an array or an object, which a separator or a
bracket follows. They are established for the texts of the encoder constructor by constructor:
`reads_encodeString`, `reads_strings`, `reads_object`.
-/

namespace SecretsBroker

/-- A JSON value. The members of an object are in the order of the text, duplicates included. -/
inductive Json
  | null
  | bool (b : Bool)
  | number (text : Bytes)
  | string (s : Bytes)
  | array (elems : List Json)
  | object (members : List (Bytes × Json))

namespace Json

open Utf8

/-! ## Encoding -/

/-- A lowercase hexadecimal digit. -/
def hexByte (n : ℕ) : UInt8 := UInt8.ofNat (if n < 10 then 0x30 + n else 0x57 + n)

/-- The escape with four hexadecimal digits. -/
def unicodeEscape (v : ℕ) : Bytes :=
  [0x5C, 0x75, hexByte (v / 4096 % 16), hexByte (v / 256 % 16), hexByte (v / 16 % 16),
    hexByte (v % 16)]

/-- The characters written as a backslash and a letter. -/
def shortEscapes : List (UInt8 × UInt8) :=
  [(0x5C, 0x5C), (0x22, 0x22), (0x62, 0x08), (0x66, 0x0C), (0x6E, 0x0A), (0x72, 0x0D), (0x74, 0x09)]

/-- The letter of a short escape. -/
def shortEscape (v : ℕ) : Option UInt8 := (shortEscapes.find? fun p => p.2.toNat == v).map Prod.fst

/-- What a symbol of a string is written as. -/
def encodeSymbol : Symbol → Bytes
  | .bad _ => unicodeEscape 0xFFFD
  | .rune c =>
    match shortEscape c.toNat with
    | some letter => [0x5C, letter]
    | none =>
      if c.toNat < 0x20 ∨ c = '<' ∨ c = '>' ∨ c = '&' ∨ c.toNat = 0x2028 ∨ c.toNat = 0x2029 then
        unicodeEscape c.toNat
      else encodeRune c

/-- The encoding of a string. -/
def encodeString (s : Bytes) : Bytes := 0x22 :: (scan s).flatMap encodeSymbol ++ [0x22]

/-- The encoding of an array, from the encodings of its elements. -/
def encodeArray (elems : List Bytes) : Bytes := 0x5B :: [0x2C].intercalate elems ++ [0x5D]

/-- A member of an object, from the encoding of its value. -/
def encodeMember (m : Bytes × Bytes) : Bytes := encodeString m.1 ++ 0x3A :: m.2

/-- The encoding of an object, from its keys and the encodings of their values. -/
def encodeObject (members : List (Bytes × Bytes)) : Bytes :=
  0x7B :: [0x2C].intercalate (members.map encodeMember) ++ [0x7D]

/-! ## Parsing -/

def isSpace (b : UInt8) : Bool := b == 0x20 || b == 0x09 || b == 0x0A || b == 0x0D

def skipSpace (s : Bytes) : Bytes := s.dropWhile isSpace

def hexValue (b : UInt8) : Option ℕ :=
  if 0x30 ≤ b.toNat ∧ b.toNat ≤ 0x39 then some (b.toNat - 0x30)
  else if 0x61 ≤ b.toNat ∧ b.toNat ≤ 0x66 then some (b.toNat - 0x57)
  else if 0x41 ≤ b.toNat ∧ b.toNat ≤ 0x46 then some (b.toNat - 0x37)
  else none

/-- Four hexadecimal digits. -/
def readHex4 : Bytes → Option (ℕ × Bytes)
  | a :: b :: c :: d :: rest => do
    let a ← hexValue a
    let b ← hexValue b
    let c ← hexValue c
    let d ← hexValue d
    some (((a * 16 + b) * 16 + c) * 16 + d, rest)
  | _ => none

def isSurrogate (v : ℕ) : Bool := 0xD800 ≤ v && v < 0xE000

/-- The rune of a surrogate pair. -/
def surrogatePair (hi lo : ℕ) : Option Char :=
  if 0xD800 ≤ hi ∧ hi < 0xDC00 ∧ 0xDC00 ≤ lo ∧ lo < 0xE000 then
    some (Char.ofNat (0x10000 + (hi - 0xD800) * 0x400 + (lo - 0xDC00)))
  else none

/-- What follows the first half of a surrogate pair: its second half, and otherwise the half that
was read stands for U+FFFD. -/
def readSurrogate (hi : ℕ) (rest : Bytes) : Char × Bytes :=
  match rest with
  | 0x5C :: 0x75 :: rest' =>
    match readHex4 rest' with
    | some (lo, rest'') =>
      match surrogatePair hi lo with
      | some c => (c, rest'')
      | none => (runeError, rest)
    | none => (runeError, rest)
  | _ => (runeError, rest)

/-- The character of an escape, after its backslash. -/
def readEscape : Bytes → Option (Char × Bytes)
  | [] => none
  | b :: rest =>
    if b = 0x75 then
      match readHex4 rest with
      | none => none
      | some (v, rest') =>
        if isSurrogate v then some (readSurrogate v rest') else some (Char.ofNat v, rest')
    else if b = 0x2F then some ('/', rest)
    else
      match shortEscapes.find? fun p => p.1 == b with
      | some p => some (Char.ofNat p.2.toNat, rest)
      | none => none

/-- The contents of a string after its opening quote, and what follows the closing one. -/
def readStringAux : ℕ → Bytes → Option (Bytes × Bytes)
  | 0, _ => none
  | _ + 1, [] => none
  | n + 1, b :: tl =>
    if b = 0x22 then some ([], tl)
    else if b = 0x5C then
      match readEscape tl with
      | none => none
      | some (c, rest) => (readStringAux n rest).map fun p => (encodeRune c ++ p.1, p.2)
    else if b.toNat < 0x20 then none
    else
      match decodeRune (b :: tl) with
      | some (c, rest) => (readStringAux n rest).map fun p => (encodeRune c ++ p.1, p.2)
      | none => (readStringAux n tl).map fun p => (encodeRune runeError ++ p.1, p.2)

def readString (s : Bytes) : Option (Bytes × Bytes) := readStringAux (s.length + 1) s

def isDigit (b : UInt8) : Bool := 0x30 ≤ b.toNat && b.toNat ≤ 0x39

/-- Some digits, at least one. -/
def readDigits (s : Bytes) : Option (Bytes × Bytes) :=
  match s.span isDigit with
  | ([], _) => none
  | (ds, rest) => some (ds, rest)

/-- The integer part of a number: no leading zero before another digit. -/
def readInteger : Bytes → Option (Bytes × Bytes)
  | [] => none
  | b :: rest => if b = 0x30 then some ([b], rest) else readDigits (b :: rest)

/-- An optional fraction. -/
def readFraction : Bytes → Option (Bytes × Bytes)
  | [] => some ([], [])
  | b :: rest =>
    if b = 0x2E then (readDigits rest).map fun p => (b :: p.1, p.2) else some ([], b :: rest)

/-- An optional exponent. -/
def readExponent : Bytes → Option (Bytes × Bytes)
  | [] => some ([], [])
  | b :: rest =>
    if b = 0x65 ∨ b = 0x45 then
      match rest with
      | [] => none
      | sign :: rest' =>
        if sign = 0x2B ∨ sign = 0x2D then (readDigits rest').map fun p => (b :: sign :: p.1, p.2)
        else (readDigits rest).map fun p => (b :: p.1, p.2)
    else some ([], b :: rest)

def readNumber (s : Bytes) : Option (Bytes × Bytes) := do
  let (sign, s) := if s.head? = some 0x2D then ([0x2D], s.tail) else ([], s)
  let (int, s) ← readInteger s
  let (frac, s) ← readFraction s
  let (exp, s) ← readExponent s
  some (sign ++ int ++ frac ++ exp, s)

/-- The literals, and the values they stand for. -/
def literals : List (Bytes × Json) :=
  [(str "null", .null), (str "true", .bool true), (str "false", .bool false)]

/-- A literal or a number. -/
def readScalar (s : Bytes) : Option (Json × Bytes) :=
  match literals.find? fun p => p.1.isPrefixOf s with
  | some p => some (p.2, s.drop p.1.length)
  | none => (readNumber s).map fun p => (.number p.1, p.2)

mutual

/-- One value from the front of a text. -/
def value : ℕ → Bytes → Option (Json × Bytes)
  | 0, _ => none
  | n + 1, s =>
    match skipSpace s with
    | [] => none
    | b :: rest =>
      if b = 0x22 then (readString rest).map fun p => (.string p.1, p.2)
      else if b = 0x5B then
        match skipSpace rest with
        | [] => none
        | c :: rest' =>
          if c = 0x5D then some (.array [], rest')
          else (elements n (c :: rest')).map fun p => (.array p.1, p.2)
      else if b = 0x7B then
        match skipSpace rest with
        | [] => none
        | c :: rest' =>
          if c = 0x7D then some (.object [], rest')
          else (members n (c :: rest')).map fun p => (.object p.1, p.2)
      else readScalar (b :: rest)

/-- The elements of an array, up to its bracket. -/
def elements : ℕ → Bytes → Option (List Json × Bytes)
  | 0, _ => none
  | n + 1, s =>
    match value n s with
    | none => none
    | some (v, rest) =>
      match skipSpace rest with
      | [] => none
      | b :: rest' =>
        if b = 0x2C then (elements n rest').map fun p => (v :: p.1, p.2)
        else if b = 0x5D then some ([v], rest')
        else none

/-- The members of an object, up to its brace. -/
def members : ℕ → Bytes → Option (List (Bytes × Json) × Bytes)
  | 0, _ => none
  | n + 1, s =>
    match skipSpace s with
    | [] => none
    | q :: s' =>
      if q ≠ 0x22 then none
      else
        match readString s' with
        | none => none
        | some (key, rest) =>
          match skipSpace rest with
          | [] => none
          | colon :: rest =>
            if colon ≠ 0x3A then none
            else
              match value n rest with
              | none => none
              | some (v, rest) =>
                match skipSpace rest with
                | [] => none
                | b :: rest' =>
                  if b = 0x2C then (members n rest').map fun p => ((key, v) :: p.1, p.2)
                  else if b = 0x7D then some ([(key, v)], rest')
                  else none

end

/-- The first value of a text. -/
def parse (s : Bytes) : Option (Json × Bytes) := value (s.length + 1) s

/-! ## Fields of a structure -/

/-- A rune up to the case folding that reaches ASCII. -/
def foldRune (c : Char) : Char :=
  if c.toNat = 0x17F then 'S' else if c.toNat = 0x212A then 'K' else c.toUpper

/-- A key up to case folding. -/
def foldName (key : Bytes) : List Char := (scan key).map fun x => foldRune x.toRune

/-- The field that a key names: the one with this very name, and otherwise the first one up to
case folding. -/
def lookupField {F : Type} (fields : List (Bytes × F)) (key : Bytes) : Option F :=
  ((fields.find? fun f => f.1 == key).or
    (fields.find? fun f => foldName f.1 == foldName key)).map Prod.snd

/-- A value for a field of type string: null leaves the field as it is. -/
def decodeString (old : Bytes) : Json → Option Bytes
  | .string s => some s
  | .null => some old
  | _ => none

/-- A value for a field of type bool. -/
def decodeBool (old : Bool) : Json → Option Bool
  | .bool b => some b
  | .null => some old
  | _ => none

/-- The elements of an array for a slice of strings, over the elements it had. -/
def decodeElements : List Bytes → List Json → Option (List Bytes)
  | _, [] => some []
  | old, j :: js => do
    let s ← decodeString (old.headD []) j
    let ss ← decodeElements old.tail js
    some (s :: ss)

/-- A value for a slice of strings: null makes it nil. -/
def decodeStrings (old : List Bytes) : Json → Option (List Bytes)
  | .array js => decodeElements old js
  | .null => some []
  | _ => none

theorem decodeElements_strings (old ss : List Bytes) :
    decodeElements old (ss.map .string) = some ss := by
  induction ss generalizing old with
  | nil => rfl
  | cons s ss ih => simp [decodeElements, decodeString, ih]

/-! ## Strings are read back -/

theorem hexValue_hexByte {n : ℕ} (h : n < 16) : hexValue (hexByte n) = some n := by
  have hall : ∀ m : Fin 16, hexValue (hexByte m) = some m.val := by decide
  exact hall ⟨n, h⟩

theorem readEscape_unicodeEscape {v : ℕ} (h : v < 0x10000) (hs : isSurrogate v = false)
    (rest : Bytes) :
    readEscape ((unicodeEscape v).tail ++ rest) = some (Char.ofNat v, rest) := by
  have hd : ∀ n : ℕ, hexValue (hexByte (n % 16)) = some (n % 16) :=
    fun n => hexValue_hexByte (Nat.mod_lt _ (by decide))
  have hv : ((v / 4096 % 16 * 16 + v / 256 % 16) * 16 + v / 16 % 16) * 16 + v % 16 = v := by omega
  simp [unicodeEscape, readEscape, readHex4, hd, hv, hs]

theorem shortEscape_some {v : ℕ} {letter : UInt8} (h : shortEscape v = some letter) :
    ∃ b : UInt8, b.toNat = v ∧ letter ≠ 0x75 ∧ letter ≠ 0x2F ∧
      (shortEscapes.find? fun p => p.1 == letter) = some (letter, b) := by
  have hall : shortEscapes.all (fun p => p.1 != 0x75 && p.1 != 0x2F &&
      (shortEscapes.find? fun q => q.1 == p.1) == some p) = true := by decide
  obtain ⟨p, hp, rfl⟩ := Option.map_eq_some_iff.1 h
  have hmem := List.mem_of_find?_eq_some hp
  have hval : p.2.toNat = v := by simpa using List.find?_some hp
  have hp' := List.all_eq_true.1 hall p hmem
  simp only [Bool.and_eq_true, bne_iff_ne, beq_iff_eq] at hp'
  exact ⟨p.2, hval, hp'.1.1, hp'.1.2, hp'.2⟩

theorem ne_of_shortEscape_none {v : ℕ} (h : shortEscape v = none) : v ≠ 0x22 ∧ v ≠ 0x5C := by
  constructor
  · rintro rfl
    exact absurd h (by decide)
  · rintro rfl
    exact absurd h (by decide)

/-- A rune is encoded by its code point in ASCII, and from a byte above it on otherwise. -/
theorem encodeRune_cons (c : Char) : ∃ b tl, encodeRune c = b :: tl ∧
    (b.toNat = c.toNat ∨ (0x7F < c.toNat ∧ 0xC0 ≤ b.toNat)) := by
  have hc := toNat_lt c
  rw [encodeRune_eq]
  split_ifs with h₁ h₂ h₃
  · refine ⟨_, _, rfl, Or.inl ?_⟩
    simp
    omega
  · refine ⟨_, _, rfl, Or.inr ⟨by omega, ?_⟩⟩
    simp
    omega
  · refine ⟨_, _, rfl, Or.inr ⟨by omega, ?_⟩⟩
    simp
    omega
  · refine ⟨_, _, rfl, Or.inr ⟨by omega, ?_⟩⟩
    simp
    omega

theorem readStringAux_escape {tl rest : Bytes} {c : Char} (h : readEscape tl = some (c, rest))
    (n : ℕ) : readStringAux (n + 1) (0x5C :: tl) =
      (readStringAux n rest).map fun p => (encodeRune c ++ p.1, p.2) := by
  have hq : (0x5C : UInt8) ≠ 0x22 := by decide
  rw [readStringAux, if_neg hq, if_pos rfl, h]

/-- The encoding of a symbol is read as the rune it reports. -/
theorem readStringAux_encodeSymbol (x : Symbol) (rest : Bytes) (n : ℕ) :
    readStringAux (n + 1) (encodeSymbol x ++ rest) =
      (readStringAux n rest).map fun p => (encodeRune x.toRune ++ p.1, p.2) := by
  cases x with
  | bad b =>
    exact readStringAux_escape (readEscape_unicodeEscape (by decide) (by decide) rest) n
  | rune c =>
    simp only [encodeSymbol, Symbol.toRune]
    cases hshort : shortEscape c.toNat with
    | some letter =>
      obtain ⟨b, hb, h₁, h₂, hfind⟩ := shortEscape_some hshort
      have hesc : readEscape (letter :: rest) = some (c, rest) := by
        simp only [readEscape, if_neg h₁, if_neg h₂, hfind, hb, Char.ofNat_toNat]
      exact readStringAux_escape hesc n
    | none =>
      simp only
      split_ifs with hesc
      · have hv : c.toNat < 0x10000 ∧ isSurrogate c.toNat = false := by
          rcases hesc with h | rfl | rfl | rfl | h | h
          · exact ⟨by omega, by simp [isSurrogate]; omega⟩
          · decide
          · decide
          · decide
          · rw [h]; decide
          · rw [h]; decide
        have := readStringAux_escape (readEscape_unicodeEscape hv.1 hv.2 rest) n
        rwa [Char.ofNat_toNat] at this
      · obtain ⟨b, tl, hbytes, hb⟩ := encodeRune_cons c
        obtain ⟨hq, hbs⟩ := ne_of_shortEscape_none hshort
        have hcontrol : ¬ c.toNat < 0x20 := fun h => hesc (Or.inl h)
        have h₁ : b ≠ 0x22 := by
          rintro rfl
          rcases hb with hb | ⟨_, hb⟩
          · exact hq hb.symm
          · exact absurd hb (by decide)
        have h₂ : b ≠ 0x5C := by
          rintro rfl
          rcases hb with hb | ⟨_, hb⟩
          · exact hbs hb.symm
          · exact absurd hb (by decide)
        have h₃ : ¬ b.toNat < 0x20 := by omega
        have hdec := decodeRune_encodeRune c rest
        rw [hbytes, List.cons_append] at hdec ⊢
        rw [readStringAux, if_neg h₁, if_neg h₂, if_neg h₃, hdec]
        simp only [hbytes]

theorem readStringAux_encode (xs : List Symbol) (rest : Bytes) {n : ℕ} (hn : xs.length < n) :
    readStringAux n (xs.flatMap encodeSymbol ++ 0x22 :: rest) =
      some (xs.flatMap (fun x => encodeRune x.toRune), rest) := by
  induction xs generalizing n with
  | nil =>
    obtain ⟨n, rfl⟩ := Nat.exists_eq_succ_of_ne_zero (Nat.ne_of_gt hn)
    simp [readStringAux]
  | cons x xs ih =>
    obtain ⟨n, rfl⟩ := Nat.exists_eq_succ_of_ne_zero (Nat.ne_of_gt (Nat.lt_of_le_of_lt
      (Nat.zero_le _) hn))
    rw [List.length_cons, Nat.succ_eq_add_one, Nat.add_lt_add_iff_right] at hn
    rw [List.flatMap_cons, List.append_assoc, readStringAux_encodeSymbol, ih hn]
    simp

theorem encodeSymbol_ne_nil (x : Symbol) : encodeSymbol x ≠ [] := by
  unfold encodeSymbol
  cases x with
  | bad b => simp [unicodeEscape]
  | rune c =>
    simp only
    split
    · simp
    · split_ifs
      · simp [unicodeEscape]
      · exact encodeRune_ne_nil c

theorem length_le_flatMap_encodeSymbol (xs : List Symbol) :
    xs.length ≤ (xs.flatMap encodeSymbol).length := by
  induction xs with
  | nil => simp
  | cons x xs ih =>
    have := List.length_pos_of_ne_nil (encodeSymbol_ne_nil x)
    rw [List.flatMap_cons, List.length_append, List.length_cons]
    omega

/-- **A string is read back as the text that a reader of UTF-8 reports.** -/
theorem readString_encode (s rest : Bytes) :
    readString ((scan s).flatMap encodeSymbol ++ 0x22 :: rest) = some (toValid s, rest) := by
  have hlen := length_le_flatMap_encodeSymbol (scan s)
  exact readStringAux_encode _ _ (by rw [List.length_append]; omega)

/-! ## Values are read back -/

/-- With fuel `k`, the parser reads `text` as `j`, whatever follows. -/
def Reads (text : Bytes) (j : Json) (k : ℕ) : Prop :=
  ∀ n, k ≤ n → ∀ rest, value n (text ++ rest) = some (j, rest)

/-- With fuel `k`, the parser reads `text` as `j` when a separator or a closing bracket follows. -/
def ReadsInside (text : Bytes) (j : Json) (k : ℕ) : Prop :=
  ∀ n, k ≤ n → ∀ c ∈ [0x2C, 0x5D, 0x7D], ∀ rest, value n (text ++ c :: rest) = some (j, c :: rest)

theorem Reads.inside {text : Bytes} {j : Json} {k : ℕ} (h : Reads text j k) :
    ReadsInside text j k :=
  fun n hn c _ rest => h n hn (c :: rest)

theorem ReadsInside.mono {text : Bytes} {j : Json} {k m : ℕ} (h : ReadsInside text j k)
    (hm : k ≤ m) : ReadsInside text j m := fun n hn => h n (Nat.le_trans hm hn)

theorem Reads.mono {text : Bytes} {j : Json} {k m : ℕ} (h : Reads text j k) (hm : k ≤ m) :
    Reads text j m := fun n hn => h n (Nat.le_trans hm hn)

@[simp] theorem skipSpace_cons {b : UInt8} (h : isSpace b = false) (s : Bytes) :
    skipSpace (b :: s) = b :: s := by
  simp [skipSpace, h]

theorem reads_encodeString (s : Bytes) : Reads (encodeString s) (.string (toValid s)) 1 := by
  intro n hn rest
  obtain ⟨n, rfl⟩ := Nat.exists_eq_succ_of_ne_zero (Nat.ne_of_gt hn)
  have hsp : isSpace 0x22 = false := by decide
  have hr := readString_encode s rest
  simp only [encodeString, List.cons_append, List.append_assoc, List.nil_append, value,
    skipSpace_cons hsp, if_true, hr, Option.map_some]

theorem reads_true : Reads (str "true") (.bool true) 1 := by
  intro n hn rest
  obtain ⟨n, rfl⟩ := Nat.exists_eq_succ_of_ne_zero (Nat.ne_of_gt hn)
  have hs : str "true" = [0x74, 0x72, 0x75, 0x65] := by decide
  have hn : str "null" = [0x6E, 0x75, 0x6C, 0x6C] := by decide
  have hsp : isSpace 0x74 = false := by decide
  simp [hs, value, skipSpace_cons hsp, readScalar, literals, hn, List.isPrefixOf]

/-- The elements of an array are read one by one. -/
theorem elements_intercalate {items : List (Bytes × Json)} (hne : items ≠ []) {k : ℕ}
    (hitems : ∀ p ∈ items, ReadsInside p.1 p.2 k) (rest : Bytes) {n : ℕ}
    (hn : items.length + k ≤ n) :
    elements n ([0x2C].intercalate (items.map Prod.fst) ++ 0x5D :: rest) =
      some (items.map Prod.snd, rest) := by
  have hcomma : isSpace 0x2C = false := by decide
  have hclose : isSpace 0x5D = false := by decide
  have hdiff : (0x5D : UInt8) ≠ 0x2C := by decide
  induction items generalizing n with
  | nil => exact absurd rfl hne
  | cons p items ih =>
    rw [List.length_cons] at hn
    obtain ⟨n, rfl⟩ : ∃ m, n = m + 1 := ⟨n - 1, by omega⟩
    have hp := hitems p (by simp)
    cases items with
    | nil =>
      have hv := hp n (by simp at hn; omega) 0x5D (by simp) rest
      simp [elements, hv, skipSpace_cons hclose, hdiff]
    | cons q items =>
      have htail := ih (by simp) (fun x hx => hitems x (by simp [hx])) (n := n)
        (by simp at hn ⊢; omega)
      have hv := hp n (by omega) 0x2C (by simp)
        ([0x2C].intercalate ((q :: items).map Prod.fst) ++ 0x5D :: rest)
      rw [List.map_cons, List.intercalate_cons_of_ne_nil (by simp), List.append_assoc,
        List.append_assoc, List.singleton_append, elements, hv]
      simp only [skipSpace_cons hcomma, if_true, htail]
      rfl

/-- **An array of strings is read back.** -/
theorem reads_strings {ss : List Bytes} (hne : ss ≠ []) :
    Reads (encodeArray (ss.map encodeString)) (.array (ss.map fun s => .string (toValid s)))
      (ss.length + 2) := by
  intro n hn rest
  obtain ⟨n, rfl⟩ : ∃ m, n = m + 1 := ⟨n - 1, by omega⟩
  have hopen : isSpace 0x5B = false := by decide
  have hquote : isSpace 0x22 = false := by decide
  have helems : elements n ([0x2C].intercalate (ss.map encodeString) ++ 0x5D :: rest) =
      some (ss.map fun s => .string (toValid s), rest) := by
    have := @elements_intercalate (ss.map fun s => (encodeString s, .string (toValid s)))
      (by simpa using hne) 1 (by simpa using fun s _ => (reads_encodeString s).inside) rest n
      (by simp; omega)
    simpa [Function.comp_def] using this
  -- the text after the bracket starts with the quote of the first string
  obtain ⟨tl, htl⟩ : ∃ tl, [0x2C].intercalate (ss.map encodeString) ++ 0x5D :: rest =
    0x22 :: tl := by
    obtain ⟨s, ss, rfl⟩ := List.exists_cons_of_ne_nil hne
    cases ss <;> exact ⟨_, rfl⟩
  rw [htl] at helems
  have h₁ : (0x5B : UInt8) ≠ 0x22 := by decide
  have h₂ : (0x22 : UInt8) ≠ 0x5D := by decide
  simp only [encodeArray, List.cons_append, List.append_assoc, List.nil_append, htl, value,
    skipSpace_cons hopen, skipSpace_cons hquote, if_neg h₁, if_neg h₂, if_true]
  rw [helems]
  rfl

/-- The members of an object are read one by one. -/
theorem members_intercalate {items : List (Bytes × Bytes × Json)} (hne : items ≠ []) {k : ℕ}
    (hitems : ∀ p ∈ items, ReadsInside p.2.1 p.2.2 k) (rest : Bytes) {n : ℕ}
    (hn : items.length + k ≤ n) :
    members n ([0x2C].intercalate (items.map fun p => encodeMember (p.1, p.2.1)) ++ 0x7D :: rest) =
      some (items.map fun p => (toValid p.1, p.2.2), rest) := by
  have hcomma : isSpace 0x2C = false := by decide
  have hclose : isSpace 0x7D = false := by decide
  have hquote : isSpace 0x22 = false := by decide
  have hcolon : isSpace 0x3A = false := by decide
  have hdiff : (0x7D : UInt8) ≠ 0x2C := by decide
  induction items generalizing n with
  | nil => exact absurd rfl hne
  | cons p items ih =>
    rw [List.length_cons] at hn
    obtain ⟨n, rfl⟩ : ∃ m, n = m + 1 := ⟨n - 1, by omega⟩
    have hp := hitems p (by simp) n (by omega)
    -- one member, followed by the rest of the text
    have hmember : ∀ c ∈ [0x2C, 0x5D, 0x7D], ∀ t,
        members (n + 1) (encodeMember (p.1, p.2.1) ++ c :: t) =
          match skipSpace (c :: t) with
          | [] => none
          | b :: rest' =>
            if b = 0x2C then (members n rest').map fun q => ((toValid p.1, p.2.2) :: q.1, q.2)
            else if b = 0x7D then some ([(toValid p.1, p.2.2)], rest')
            else none := by
      intro c hc t
      have hr := readString_encode p.1 (0x3A :: (p.2.1 ++ c :: t))
      simp only [encodeMember, encodeString, List.cons_append, List.append_assoc, List.nil_append,
        members, skipSpace_cons hquote, skipSpace_cons hcolon, hr, hp c hc, ne_eq,
        not_true_eq_false, if_false]
    cases items with
    | nil =>
      rw [List.map_singleton, show [0x2C].intercalate [encodeMember (p.1, p.2.1)] =
        encodeMember (p.1, p.2.1) by simp [List.intercalate], hmember 0x7D (by simp)]
      simp only [skipSpace_cons hclose, if_neg hdiff, if_true]
      rfl
    | cons q items =>
      have htail := ih (by simp) (fun x hx => hitems x (by simp [hx])) (n := n)
        (by simp at hn ⊢; omega)
      rw [List.map_cons, List.intercalate_cons_of_ne_nil (by simp), List.append_assoc,
        List.append_assoc, List.singleton_append, hmember 0x2C (by simp)]
      simp only [skipSpace_cons hcomma, if_true, htail]
      rfl

/-- **An object of values that are read back is read back.** -/
theorem reads_object {items : List (Bytes × Bytes × Json)} (hne : items ≠ []) {k : ℕ}
    (hitems : ∀ p ∈ items, ReadsInside p.2.1 p.2.2 k) :
    Reads (encodeObject (items.map fun p => (p.1, p.2.1)))
      (.object (items.map fun p => (toValid p.1, p.2.2))) (items.length + k + 1) := by
  intro n hn rest
  obtain ⟨n, rfl⟩ : ∃ m, n = m + 1 := ⟨n - 1, by omega⟩
  have hopen : isSpace 0x7B = false := by decide
  have hquote : isSpace 0x22 = false := by decide
  have hmem := members_intercalate hne hitems rest (n := n) (by omega)
  obtain ⟨tl, htl⟩ : ∃ tl, [0x2C].intercalate (items.map fun p => encodeMember (p.1, p.2.1)) ++
      0x7D :: rest = 0x22 :: tl := by
    obtain ⟨p, ps, rfl⟩ := List.exists_cons_of_ne_nil hne
    cases ps <;> exact ⟨_, rfl⟩
  rw [htl] at hmem
  have h₁ : (0x7B : UInt8) ≠ 0x22 := by decide
  have h₂ : (0x7B : UInt8) ≠ 0x5B := by decide
  have h₃ : (0x22 : UInt8) ≠ 0x7D := by decide
  simp only [encodeObject, List.map_map, Function.comp_def, List.cons_append, List.append_assoc,
    List.nil_append, htl, value, skipSpace_cons hopen, skipSpace_cons hquote, if_neg h₁, if_neg h₂,
    if_neg h₃, if_true]
  rw [hmem]
  rfl

/-! ## Objects of strings -/

theorem length_le_intercalate {sep : UInt8} {texts : List Bytes} (h : ∀ t ∈ texts, t ≠ []) :
    texts.length ≤ ([sep].intercalate texts).length := by
  induction texts with
  | nil => simp
  | cons t texts ih =>
    have ht := List.length_pos_of_ne_nil (h t (by simp))
    cases texts with
    | nil => simpa [List.intercalate] using Nat.succ_le_of_lt ht
    | cons u texts =>
      have := ih fun v hv => h v (by simp [hv])
      rw [List.intercalate_cons_of_ne_nil (by simp), List.length_append, List.length_append,
        List.length_singleton, List.length_cons]
      omega

theorem length_le_encodeObject (members : List (Bytes × Bytes)) :
    members.length + 2 ≤ (encodeObject members).length := by
  have hne : ∀ t ∈ members.map encodeMember, t ≠ [] := by
    intro t ht
    obtain ⟨m, -, rfl⟩ := List.mem_map.1 ht
    simp [encodeMember, encodeString]
  have := @length_le_intercalate 0x2C _ hne
  simp only [List.length_map] at this
  simp only [encodeObject, List.length_cons, List.length_append, List.cons_append, List.length_nil]
  omega

/-- An object of strings is parsed, up to invalid UTF-8, whatever follows it. -/
theorem parse_encodeObject_strings {members : List (Bytes × Bytes)} (hne : members ≠ [])
    (rest : Bytes) :
    parse (encodeObject (members.map fun m => (m.1, encodeString m.2)) ++ rest) =
      some (.object (members.map fun m => (toValid m.1, .string (toValid m.2))), rest) := by
  have hitems : ∀ p ∈ members.map fun m => (m.1, encodeString m.2, Json.string (toValid m.2)),
      ReadsInside p.2.1 p.2.2 1 := by
    intro p hp
    obtain ⟨m, -, rfl⟩ := List.mem_map.1 hp
    exact (reads_encodeString m.2).inside
  have hreads := reads_object (by simpa using hne) hitems
  simp only [List.map_map, Function.comp_def] at hreads
  refine hreads _ ?_ rest
  have := length_le_encodeObject (members.map fun m => (m.1, encodeString m.2))
  simp only [List.length_map, List.length_append] at this ⊢
  omega

end Json

end SecretsBroker
