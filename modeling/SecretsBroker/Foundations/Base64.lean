import SecretsBroker.Foundations.JsonStruct

/-!
# Base64

`base64.StdEncoding` with its padding, and byte slices as `encoding/json` writes them: as a string
in base64. The decoder passes over line breaks and does not look at the bits that the padding leaves
over. `decode_encode` is the round trip and `Kind.carries_bytes` the one of a field.
-/

namespace SecretsBroker.Base64

open Utf8

/-- The characters of the alphabet. -/
def alphabet : Bytes := str "ABCDEFGHIJKLMNOPQRSTUVWXYZabcdefghijklmnopqrstuvwxyz0123456789+/"

def pad : UInt8 := 0x3D

/-- The character for six bits. -/
def digit (n : ℕ) : UInt8 := alphabet.getD (n % 64) 0

/-- The six bits of a character. -/
def value (b : UInt8) : Option ℕ := alphabet.findIdx? fun c => c == b

def encode : Bytes → Bytes
  | [] => []
  | [a] => [digit (a.toNat / 4), digit (a.toNat * 16), pad, pad]
  | [a, b] =>
    [digit (a.toNat / 4), digit (a.toNat * 16 + b.toNat / 16), digit (b.toNat * 4), pad]
  | a :: b :: c :: rest =>
    digit (a.toNat / 4) :: digit (a.toNat * 16 + b.toNat / 16) ::
      digit (b.toNat * 4 + c.toNat / 64) :: digit c.toNat :: encode rest

/-- Groups of four characters; the last one may be padded. -/
def decodeGroups : Bytes → Option Bytes
  | [] => some []
  | a :: b :: c :: d :: rest => do
    let a ← value a
    let b ← value b
    if c = pad then
      if d = pad ∧ rest = [] then some [UInt8.ofNat (a * 4 + b / 16)] else none
    else
      let c ← value c
      if d = pad then
        if rest = [] then some [UInt8.ofNat (a * 4 + b / 16), UInt8.ofNat (b * 16 + c / 4)]
        else none
      else
        let d ← value d
        let bytes ← decodeGroups rest
        some (UInt8.ofNat (a * 4 + b / 16) :: UInt8.ofNat (b * 16 + c / 4) ::
          UInt8.ofNat (c * 64 + d) :: bytes)
  | _ => none

/-- `StdEncoding.DecodeString` -/
def decode (s : Bytes) : Option Bytes := decodeGroups (s.filter fun b => b != 0x0A && b != 0x0D)

/-! ## The round trip -/

/-- A character that the encoder writes: no quote, backslash, control character or break. -/
def Plain (b : UInt8) : Prop := 0x20 < b.toNat ∧ b.toNat < 0x80 ∧ b ≠ 0x22 ∧ b ≠ 0x26 ∧ b ≠ 0x3C ∧
  b ≠ 0x3E ∧ b ≠ 0x5C

instance (b : UInt8) : Decidable (Plain b) := inferInstanceAs (Decidable (_ ∧ _))

theorem value_digit (n : ℕ) : value (digit n) = some (n % 64) := by
  have hall : ∀ m : Fin 64, value (alphabet.getD m 0) = some m.val := by decide +kernel
  exact hall ⟨n % 64, Nat.mod_lt _ (by decide)⟩

theorem digit_ne_pad (n : ℕ) : digit n ≠ pad := by
  have hall : ∀ m : Fin 64, alphabet.getD m 0 ≠ pad := by decide +kernel
  exact hall ⟨n % 64, Nat.mod_lt _ (by decide)⟩

theorem plain_digit (n : ℕ) : Plain (digit n) := by
  have hall : ∀ m : Fin 64, Plain (alphabet.getD m 0) := by decide +kernel
  exact hall ⟨n % 64, Nat.mod_lt _ (by decide)⟩

theorem plain_encode (s : Bytes) : ∀ b ∈ encode s, Plain b := by
  have hpad : Plain pad := by decide
  fun_induction encode s with
  | case1 => simp
  | case2 a => simp [plain_digit, hpad]
  | case3 a b => simp [plain_digit, hpad]
  | case4 a b c rest ih =>
    intro x hx
    simp only [List.mem_cons] at hx
    rcases hx with rfl | rfl | rfl | rfl | hx
    · exact plain_digit _
    · exact plain_digit _
    · exact plain_digit _
    · exact plain_digit _
    · exact ih x hx

theorem decodeGroups_encode (s : Bytes) : decodeGroups (encode s) = some s := by
  fun_induction encode s with
  | case1 => rfl
  | case2 a =>
    have ha := a.toNat_lt
    simp only [decodeGroups, value_digit, Option.bind_eq_bind, Option.bind_some, and_self, if_true]
    rw [ofNat_eq (b := a) (by omega)]
  | case3 a b =>
    have ha := a.toNat_lt
    have hb := b.toNat_lt
    simp only [decodeGroups, value_digit, Option.bind_eq_bind, Option.bind_some, digit_ne_pad,
      if_false, if_true]
    rw [ofNat_eq (b := a) (by omega), ofNat_eq (b := b) (by omega)]
  | case4 a b c rest ih =>
    have ha := a.toNat_lt
    have hb := b.toNat_lt
    have hc := c.toNat_lt
    simp only [decodeGroups, value_digit, Option.bind_eq_bind, Option.bind_some, digit_ne_pad,
      if_false, ih]
    rw [ofNat_eq (b := a) (by omega), ofNat_eq (b := b) (by omega), ofNat_eq (b := c) (by omega)]

theorem decode_encode (s : Bytes) : decode (encode s) = some s := by
  have hkept : (encode s).filter (fun b => b != 0x0A && b != 0x0D) = encode s := by
    refine List.filter_eq_self.2 fun b hb => ?_
    have hplain := (plain_encode s b hb).1
    have hne : b ≠ 0x0A ∧ b ≠ 0x0D := by
      constructor <;> rintro rfl <;> exact absurd hplain (by decide)
    simp [hne]
  rw [decode, hkept, decodeGroups_encode]

end SecretsBroker.Base64

namespace SecretsBroker.Json

open Utf8

/-! ## Byte slices in JSON -/

/-- A string of plain characters is written as it is. -/
theorem encodeString_plain {s : Bytes} (h : ∀ b ∈ s, Base64.Plain b) :
    encodeString s = 0x22 :: s ++ [0x22] := by
  suffices hscan : (scan s).flatMap encodeSymbol = s by rw [encodeString, hscan]
  induction s with
  | nil => rfl
  | cons b s ih =>
    obtain ⟨hlow, hhigh, h₁, h₂, h₃, h₄, h₅⟩ := h b (by simp)
    have hchar : (Char.ofNat b.toNat).toNat = b.toNat := toNat_ofNat (.inl (by omega))
    have hbytes : encodeRune (Char.ofNat b.toNat) = [b] := by
      rw [encodeRune_eq, hchar, if_pos (by omega), UInt8.ofNat_toNat]
    have hcons : b :: s = encodeRune (Char.ofNat b.toNat) ++ s := by rw [hbytes]; rfl
    have hsymbol : encodeSymbol (.rune (Char.ofNat b.toNat)) = [b] := by
      have hall : ∀ n : Fin 128, Base64.Plain (UInt8.ofNat n) →
          encodeSymbol (.rune (Char.ofNat n)) = [UInt8.ofNat n] := by decide +kernel
      have := hall ⟨b.toNat, hhigh⟩
      rw [UInt8.ofNat_toNat] at this
      exact this (h b (by simp))
    rw [hcons, scan_encodeRune_append, List.flatMap_cons, hsymbol,
      ih fun c hc => h c (by simp [hc]), hbytes]

/-- A value for an element of type byte. -/
def decodeByte (old : UInt8) : Json → Option UInt8
  | .number t =>
    match parseInt t with
    | some v => if 0 ≤ v ∧ v < 256 then some (UInt8.ofNat v.toNat) else none
    | none => none
  | .null => some old
  | _ => none

namespace Kind

def byte : Kind UInt8 := ⟨fun b => some (decimal b.toNat), decodeByte⟩

/-- A slice of bytes; nil and empty slices are not told apart. -/
def bytes : Kind Bytes where
  write s := some (0x22 :: Base64.encode s ++ [0x22])
  read old
    | .null => some []
    | .string s => Base64.decode s
    | .array js => readElements byte 0 old js
    | _ => none

theorem carries_bytes (old s : Bytes) : bytes.Carries old s s := by
  have hplain := Base64.plain_encode s
  have hvalid : toValid (Base64.encode s) = Base64.encode s :=
    (toValid_eq_self_iff _).2 (valid_of_ascii fun b hb => (hplain b hb).2.1)
  refine carries_of_write (t := encodeString (Base64.encode s)) ?_
    (reads_encodeString (Base64.encode s)).inside ?_
  · rw [encodeString_plain hplain]
    rfl
  · rw [hvalid]
    exact Base64.decode_encode s

theorem carries_bytes_omitEmpty (s : Bytes) : (bytes.omitEmpty []).Carries [] s s :=
  carries_omitEmpty (carries_bytes [] s) fun h => h

end Kind

end SecretsBroker.Json
