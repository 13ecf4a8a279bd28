import SecretsBroker.Foundations.Utf8

/-!
# Words of a shell command

`tokenize` splits a command text into words by the quoting rules of the POSIX shell that need no
expansion: blanks separate words, single quotes preserve every character up to the next single
quote, and a backslash outside quotes preserves the character after it. It refuses a text in which a
character with another meaning stands unquoted (an operator, an expansion, a pattern, a comment, a
double quote or a newline), a text that ends inside quotes or after a backslash, and a text with a
NUL, which no command string can hold. A word list it answers is therefore what the shell passes on,
with nothing expanded.

`tokenize_join_quote`: words that are single-quoted by `quote` and joined by spaces are read back as
they were.
-/

namespace SecretsBroker.Shell

/-- The single quote. -/
def quoteChar : UInt8 := 0x27

def backslash : UInt8 := 0x5C

def space : UInt8 := 0x20

def isBlank (b : UInt8) : Bool := b == space || b == 0x09

/-- Characters that stand for something else than themselves when they are not quoted. -/
def isSpecial (b : UInt8) : Bool :=
  b ∈ str "|&;<>()$`\"*?[]#~=%!\x7b\x7d^\n\r" || b == 0

/-- Where the reader stands: between words, in a word outside quotes, after a backslash outside
quotes, or inside single quotes, with the word read so far. -/
inductive State
  | blank
  | word (acc : Bytes)
  | escaped (acc : Bytes)
  | single (acc : Bytes)

/-- Read the rest of a command text. -/
def words : State → Bytes → Option (List Bytes)
  | .blank, [] => some []
  | .word acc, [] => some [acc]
  | .escaped _, [] => none
  | .single _, [] => none
  | .blank, b :: tl =>
    if isBlank b then words .blank tl
    else if b = quoteChar then words (.single []) tl
    else if b = backslash then words (.escaped []) tl
    else if isSpecial b then none
    else words (.word [b]) tl
  | .word acc, b :: tl =>
    if isBlank b then (words .blank tl).map (acc :: ·)
    else if b = quoteChar then words (.single acc) tl
    else if b = backslash then words (.escaped acc) tl
    else if isSpecial b then none
    else words (.word (acc ++ [b])) tl
  | .escaped acc, b :: tl =>
    -- a backslash before a newline joins two lines; such a text is refused as well
    if b = 0 ∨ b = 0x0A then none else words (.word (acc ++ [b])) tl
  | .single acc, b :: tl =>
    if b = quoteChar then words (.word acc) tl
    else if b = 0 then none
    else words (.single (acc ++ [b])) tl

/-- The words of a command text, when it needs no expansion. -/
def tokenize (text : Bytes) : Option (List Bytes) := words .blank text

/-! ## Quoting -/

/-- A text with each quote replaced by a quote that closes, an escaped quote and a quote that opens
again. -/
def escapeQuotes : Bytes → Bytes
  | [] => []
  | b :: tl =>
    if b = quoteChar then quoteChar :: backslash :: quoteChar :: quoteChar :: escapeQuotes tl
    else b :: escapeQuotes tl

/-- Single quotes around a text. -/
def quote (s : Bytes) : Bytes := quoteChar :: (escapeQuotes s ++ [quoteChar])

/-- Words joined by single spaces. -/
def joinWords (ws : List Bytes) : Bytes := [space].intercalate ws

/-- Inside quotes, an escaped text is read as the text. -/
theorem words_single_escapeQuotes (s : Bytes) (hs : 0 ∉ s) (acc rest : Bytes) :
    words (.single acc) (escapeQuotes s ++ quoteChar :: rest) = words (.word (acc ++ s)) rest := by
  induction s generalizing acc with
  | nil => simp [escapeQuotes, words]
  | cons b s ih =>
    have hs' : 0 ∉ s := fun h => hs (by simp [h])
    by_cases hb : b = quoteChar
    · subst hb
      -- close, escape, open again: the accumulator gains one quote
      have hclose : ∀ tl,
        words (.single acc) (quoteChar :: backslash :: quoteChar :: quoteChar :: tl) =
          words (.single (acc ++ [quoteChar])) tl := by
        intro tl
        simp [words, quoteChar, backslash, isBlank, space]
      simp only [escapeQuotes, if_true, List.cons_append]
      rw [hclose, ih hs']
      simp
    · have hb0 : b ≠ 0 := fun h => hs (by simp [h])
      simp only [escapeQuotes, hb, if_false, List.cons_append, words, hb0]
      rw [ih hs']
      simp

/-- A quoted word at the front of a text opens a word that holds it. -/
theorem words_blank_quote (s : Bytes) (hs : 0 ∉ s) (rest : Bytes) :
    words .blank (quote s ++ rest) = words (.word s) rest := by
  have hq : isBlank quoteChar = false := by decide
  simp only [quote, List.cons_append, List.append_assoc, List.nil_append, words, hq,
    Bool.false_eq_true, if_false, if_true]
  rw [words_single_escapeQuotes s hs, List.nil_append]

/-- **Quoted words are read back as they were.** -/
theorem tokenize_join_quote (ws : List Bytes) (h : ∀ w ∈ ws, 0 ∉ w) :
    tokenize (joinWords (ws.map quote)) = some ws := by
  have hspace : isBlank space = true := by decide
  unfold tokenize
  induction ws with
  | nil => rfl
  | cons w ws ih =>
    have hw := h w (by simp)
    have hws : ∀ w ∈ ws, 0 ∉ w := fun v hv => h v (by simp [hv])
    cases ws with
    | nil =>
      have := words_blank_quote w hw []
      rw [List.append_nil] at this
      simpa [joinWords, words] using this
    | cons v ws =>
      rw [List.map_cons, joinWords, List.intercalate_cons_of_ne_nil (by simp), List.append_assoc,
        words_blank_quote w hw, List.singleton_append]
      simp only [words, hspace, if_true]
      rw [joinWords] at ih
      rw [ih hws]
      rfl

end SecretsBroker.Shell
