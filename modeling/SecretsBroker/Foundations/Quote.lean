import Mathlib.Algebra.Group.Nat.Defs
import SecretsBroker.Foundations.Utf8

/-!
# Quoted texts

`quote` and `quoteToASCII` render an arbitrary text between double quotes, with the quote and the
backslash escaped, control characters and bytes that are no UTF-8 as escapes, and, for
`quoteToASCII`, every rune above ASCII as an escape as well. Which runes above Latin-1 count as
printable is a table of the Unicode standard; it is a parameter here (`Unicode`), and nothing below
depends on it.

The quoted text is valid UTF-8 whatever the bytes of the argument are (`valid_quote`,
`valid_quoteToASCII`).
-/

namespace SecretsBroker

/-- The part of the Unicode tables that decides printing above Latin-1. -/
class Unicode where
  /-- Letters, marks, numbers, punctuation and symbols. -/
  isPrint : Char → Bool

namespace Quote

/-- Whether a rune is printed as itself. -/
def isPrint [Unicode] (c : Char) : Bool :=
  if c.toNat ≤ 0xFF then
    (0x20 ≤ c.toNat && c.toNat < 0x7F) || (0xA1 ≤ c.toNat && c.toNat != 0xAD)
  else Unicode.isPrint c

/-- A lowercase hexadecimal digit. -/
def hexDigit (n : ℕ) : Char := if n < 10 then Char.ofNat (0x30 + n) else Char.ofNat (0x57 + n)

/-- The last `k` hexadecimal digits of `n`. -/
def hex (n : ℕ) : ℕ → List Char
  | 0 => []
  | k + 1 => hexDigit (n / 16 ^ k % 16) :: hex n k

/-- The escape of a rune that is not printed as itself. -/
def escape (c : Char) : List Char :=
  match c.toNat with
  | 0x07 => ['\\', 'a']
  | 0x08 => ['\\', 'b']
  | 0x0C => ['\\', 'f']
  | 0x0A => ['\\', 'n']
  | 0x0D => ['\\', 'r']
  | 0x09 => ['\\', 't']
  | 0x0B => ['\\', 'v']
  | n =>
    if n < 0x20 ∨ n = 0x7F then '\\' :: 'x' :: hex n 2
    else if n < 0x10000 then '\\' :: 'u' :: hex n 4
    else '\\' :: 'U' :: hex n 8

/-- How a symbol of the text is rendered between the quotes. -/
def render [Unicode] (ascii : Bool) : Utf8.Symbol → List Char
  | .bad b => '\\' :: 'x' :: hex b.toNat 2
  | .rune c =>
    if c = '"' ∨ c = '\\' then ['\\', c]
    else if ascii then if c.toNat < 0x80 ∧ isPrint c then [c] else escape c
    else if isPrint c then [c] else escape c

/-- The runes of a quoted text. -/
def quoteWith [Unicode] (ascii : Bool) (s : Bytes) : List Char :=
  '"' :: (Utf8.scan s).flatMap (render ascii) ++ ['"']

end Quote

/-- `strconv.Quote`, also the verb `%q`. -/
def quote [Unicode] (s : Bytes) : Bytes := (Quote.quoteWith false s).flatMap Utf8.encodeRune

/-- `strconv.QuoteToASCII`. -/
def quoteToASCII [Unicode] (s : Bytes) : Bytes := (Quote.quoteWith true s).flatMap Utf8.encodeRune

/-- `strconv.Itoa` on a natural number, also the verb `%d`. -/
def itoa (n : ℕ) : Bytes := (Nat.toDigits 10 n).flatMap Utf8.encodeRune

/-- The decimal text of an integer. -/
def itoaInt (n : Int) : Bytes := if n < 0 then 0x2D :: itoa n.natAbs else itoa n.natAbs

theorem valid_quote [Unicode] (s : Bytes) : Utf8.Valid (quote s) :=
  Utf8.valid_flatMap_encodeRune _

theorem valid_quoteToASCII [Unicode] (s : Bytes) : Utf8.Valid (quoteToASCII s) :=
  Utf8.valid_flatMap_encodeRune _

theorem valid_itoa (n : ℕ) : Utf8.Valid (itoa n) :=
  Utf8.valid_flatMap_encodeRune _

end SecretsBroker
