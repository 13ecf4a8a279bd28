import SecretsBroker.Foundations.Utf8
import Mathlib.Data.Option.Basic

/-!
# Documents in HTML

A document is a tree of elements and characters. `Document.write` writes one, with its text and its
attribute values escaped; `parse` reads a text as a browser does, in two stages: a tokenizer, which
is a machine on bytes (`step`), and the construction of the tree (`build`).

The standard gives every text a tree. `parse` answers it only where that takes no error recovery
and no tag that the text leaves out: names and quotes as `Document.write` sets them (in any case of
letters), references that are the few of `reference`, elements of the kinds that `admits` knows,
each closed by its own tag. It refuses everything else, among it a carriage return and a NUL, which
a browser does not take as they are. An element whose text has rules of its own (a script, a text
area) is none of these kinds; a title is, and only text may stand in it.

The main result is `parse_write`: a document that is well formed is read back as it is.
-/

namespace SecretsBroker.Html

/-! ## Escaping -/

/-- One byte of a text, with the five characters that markup gives a meaning written as
references. -/
def escapeByte (b : UInt8) : Bytes :=
  if b = 0x26 then str "&amp;"
  else if b = 0x27 then str "&#39;"
  else if b = 0x3C then str "&lt;"
  else if b = 0x3E then str "&gt;"
  else if b = 0x22 then str "&#34;"
  else [b]

def escape (s : Bytes) : Bytes := s.flatMap escapeByte

@[simp]
theorem escape_append (s t : Bytes) : escape (s ++ t) = escape s ++ escape t :=
  List.flatMap_append

/-- The value of a decimal number. -/
def decimal (ds : Bytes) : ℕ := ds.foldl (fun n d => 10 * n + (d.toNat - 0x30)) 0

def isDigit (b : UInt8) : Bool := 0x30 ≤ b.toNat && b.toNat ≤ 0x39

/-- The byte that a reference stands for, from what is between the ampersand and the semicolon:
the four names that escape markup, and decimal numbers of printable characters. -/
def reference (name : Bytes) : Option UInt8 :=
  if name = str "amp" then some 0x26
  else if name = str "lt" then some 0x3C
  else if name = str "gt" then some 0x3E
  else if name = str "quot" then some 0x22
  else
    match name with
    | 0x23 :: ds =>
      if ds != [] && ds.all isDigit && 0x20 ≤ decimal ds && decimal ds < 0x7F then
        some (UInt8.ofNat (decimal ds))
      else none
    | _ => none

/-! ## Tokens -/

/-- The name of an attribute and its value. -/
abbrev Attr := Bytes × Bytes

inductive Token
  | doctype
  | startTag (name : Bytes) (attrs : List Attr)
  | endTag (name : Bytes)
  | char (b : UInt8)
  deriving DecidableEq

def isLower (b : UInt8) : Bool := 0x61 ≤ b.toNat && b.toNat ≤ 0x7A

def isUpper (b : UInt8) : Bool := 0x41 ≤ b.toNat && b.toNat ≤ 0x5A

def lower (b : UInt8) : UInt8 := if isUpper b then b + 0x20 else b

/-- The bytes of the names of elements and attributes: letters, digits and hyphens. -/
def isNameByte (b : UInt8) : Bool := isLower b || isUpper b || isDigit b || b == 0x2D

/-- Where the tokenizer stands, with what it has read of the token. -/
inductive State
  | data
  | charRef (name : Bytes)
  | tagOpen
  | declaration (text : Bytes)
  | tagName (name : Bytes)
  | endName (name : Bytes)
  | beforeAttr (name : Bytes) (attrs : List Attr)
  | attrName (name : Bytes) (attrs : List Attr) (key : Bytes)
  | beforeValue (name : Bytes) (attrs : List Attr) (key : Bytes)
  | value (name : Bytes) (attrs : List Attr) (key val : Bytes)
  | valueRef (name : Bytes) (attrs : List Attr) (key val ref : Bytes)
  | afterValue (name : Bytes) (attrs : List Attr)
  deriving DecidableEq

/-- One byte of the input: the next state and what is emitted, if the byte may stand here. -/
def step : State → UInt8 → Option (State × List Token)
  | .data, b =>
    if b = 0x26 then some (.charRef [], [])
    else if b = 0x3C then some (.tagOpen, [])
    else if b = 0 ∨ b = 0x0D then none
    else some (.data, [.char b])
  | .charRef name, b =>
    if b = 0x3B then (reference name).map fun c => (.data, [.char c])
    else if isNameByte b ∨ b = 0x23 then some (.charRef (name ++ [b]), [])
    else none
  | .tagOpen, b =>
    if b = 0x21 then some (.declaration [], [])
    else if b = 0x2F then some (.endName [], [])
    else if isLower b ∨ isUpper b then some (.tagName [lower b], [])
    else none
  | .declaration text, b =>
    if b = 0x3E then
      if text = str "doctype html" then some (.data, [.doctype]) else none
    else some (.declaration (text ++ [lower b]), [])
  | .tagName name, b =>
    if b = 0x3E then some (.data, [.startTag name []])
    else if b = 0x20 then some (.beforeAttr name [], [])
    else if isNameByte b then some (.tagName (name ++ [lower b]), [])
    else none
  | .endName name, b =>
    if b = 0x3E then if name = [] then none else some (.data, [.endTag name])
    else if isNameByte b then some (.endName (name ++ [lower b]), [])
    else none
  | .beforeAttr name attrs, b =>
    if b = 0x20 then some (.beforeAttr name attrs, [])
    else if b = 0x3E then some (.data, [.startTag name attrs])
    else if isNameByte b then some (.attrName name attrs [lower b], [])
    else none
  | .attrName name attrs key, b =>
    if b = 0x3D then some (.beforeValue name attrs key, [])
    else if isNameByte b then some (.attrName name attrs (key ++ [lower b]), [])
    else none
  | .beforeValue name attrs key, b =>
    if b = 0x22 then some (.value name attrs key [], []) else none
  | .value name attrs key val, b =>
    if b = 0x22 then some (.afterValue name (attrs ++ [(key, val)]), [])
    else if b = 0x26 then some (.valueRef name attrs key val [], [])
    else if b = 0 ∨ b = 0x0D then none
    else some (.value name attrs key (val ++ [b]), [])
  | .valueRef name attrs key val ref, b =>
    if b = 0x3B then (reference ref).map fun c => (.value name attrs key (val ++ [c]), [])
    else if isNameByte b ∨ b = 0x23 then some (.valueRef name attrs key val (ref ++ [b]), [])
    else none
  | .afterValue name attrs, b =>
    if b = 0x20 then some (.beforeAttr name attrs, [])
    else if b = 0x3E then some (.data, [.startTag name attrs])
    else none

/-- What a text leads to, and what it emits. -/
def steps (σ : State) : Bytes → Option (State × List Token)
  | [] => some (σ, [])
  | b :: tl => (step σ b).bind fun p => (steps p.1 tl).map fun q => (q.1, p.2 ++ q.2)

/-- The tokens of a text. -/
def tokenize (text : Bytes) : Option (List Token) :=
  match steps .data text with
  | some (.data, ts) => some ts
  | _ => none

theorem steps_cons {σ σ' σ'' : State} {b : UInt8} {tl : Bytes} {ts ts' : List Token}
    (h : step σ b = some (σ', ts)) (h' : steps σ' tl = some (σ'', ts')) :
    steps σ (b :: tl) = some (σ'', ts ++ ts') := by
  simp [steps, h, h']

theorem steps_append {σ σ' σ'' : State} {s t : Bytes} {ts ts' : List Token}
    (h : steps σ s = some (σ', ts)) (h' : steps σ' t = some (σ'', ts')) :
    steps σ (s ++ t) = some (σ'', ts ++ ts') := by
  induction s generalizing σ ts with
  | nil =>
    obtain ⟨rfl, rfl⟩ := Prod.mk.inj (Option.some.inj h)
    exact h'
  | cons b s ih =>
    simp only [steps, Option.bind_eq_some_iff, Option.map_eq_some_iff] at h
    obtain ⟨p, hp, q, hq, he⟩ := h
    obtain ⟨rfl, rfl⟩ := Prod.mk.inj he
    rw [List.cons_append, List.append_assoc]
    exact steps_cons hp (ih hq)

/-- Bytes that the tokenizer takes as they are, or escaped. -/
def isPlain (b : UInt8) : Bool := b != 0 && b != 0x0D

/-- A case for each of the five escaped characters, and one for all others. -/
theorem escapeByte_cases {P : UInt8 → Prop} (b : UInt8) (amp : P 0x26) (apos : P 0x27)
    (lt : P 0x3C) (gt : P 0x3E) (quot : P 0x22)
    (other : b ≠ 0x26 → b ≠ 0x3C → b ≠ 0x22 → escapeByte b = [b] → P b) : P b := by
  by_cases h₁ : b = 0x26
  · exact h₁ ▸ amp
  by_cases h₂ : b = 0x27
  · exact h₂ ▸ apos
  by_cases h₃ : b = 0x3C
  · exact h₃ ▸ lt
  by_cases h₄ : b = 0x3E
  · exact h₄ ▸ gt
  by_cases h₅ : b = 0x22
  · exact h₅ ▸ quot
  · exact other h₁ h₃ h₅ (by simp [escapeByte, h₁, h₂, h₃, h₄, h₅])

/-- An escaped character is read as the character. -/
theorem steps_data_escapeByte {b : UInt8} (hb : isPlain b = true) :
    steps .data (escapeByte b) = some (.data, [.char b]) := by
  revert hb
  apply escapeByte_cases b
  iterate 5 exact fun _ => rfl
  intro h₁ h₂ _ he hb
  simp only [isPlain, Bool.and_eq_true, bne_iff_ne] at hb
  simp [he, steps, step, h₁, h₂, hb.1, hb.2]

/-- In a value as well. -/
theorem steps_value_escapeByte {b : UInt8} (hb : isPlain b = true) (name : Bytes)
    (attrs : List Attr) (key val : Bytes) :
    steps (.value name attrs key val) (escapeByte b) =
      some (.value name attrs key (val ++ [b]), []) := by
  revert hb
  apply escapeByte_cases b
  iterate 5 exact fun _ => rfl
  intro h₁ _ h₃ he hb
  simp only [isPlain, Bool.and_eq_true, bne_iff_ne] at hb
  simp [he, steps, step, h₁, h₃, hb.1, hb.2]

/-- A state that gathers the bytes it reads, each from the way it is written, gathers a text. -/
theorem steps_gather {σ : Bytes → State} {w : UInt8 → Bytes} {p : UInt8 → Bool}
    (h : ∀ b acc, p b = true → steps (σ acc) (w b) = some (σ (acc ++ [b]), []))
    {s : Bytes} (hs : s.all p = true) (acc : Bytes) :
    steps (σ acc) (s.flatMap w) = some (σ (acc ++ s), []) := by
  induction s generalizing acc with
  | nil => simp [steps]
  | cons b s ih =>
    rw [List.all_cons, Bool.and_eq_true] at hs
    simpa using steps_append (h b acc hs.1) (ih hs.2 (acc ++ [b]))

/-! ## Writing tokens -/

/-- A name as it is written: letters in lower case, digits and hyphens, a letter first. -/
def isName : Bytes → Bool
  | [] => false
  | b :: tl => isLower b && tl.all fun c => isLower c || isDigit c || c == 0x2D

def Attr.write (a : Attr) : Bytes := str " " ++ a.1 ++ str "=\"" ++ escape a.2 ++ str "\""

def Attr.isPlain (a : Attr) : Bool := isName a.1 && a.2.all Html.isPlain

namespace Token

def write : Token → Bytes
  | .doctype => str "<!DOCTYPE html>"
  | .startTag name attrs => str "<" ++ name ++ attrs.flatMap Attr.write ++ str ">"
  | .endTag name => str "</" ++ name ++ str ">"
  | .char b => escapeByte b

/-- Tokens that are read back as they are written. -/
def isPlain : Token → Bool
  | .doctype => true
  | .startTag name attrs => isName name && attrs.all Attr.isPlain
  | .endTag name => isName name
  | .char b => Html.isPlain b

end Token

/-- What the bytes of a written name are to the tokenizer. -/
theorem nameByte_facts {b : UInt8} (h : (isLower b || isDigit b || b == 0x2D) = true) :
    isNameByte b = true ∧ lower b = b ∧ b ≠ 0x3E ∧ b ≠ 0x20 ∧ b ≠ 0x3D := by
  have hb : (0x61 ≤ b.toNat ∧ b.toNat ≤ 0x7A) ∨ (0x30 ≤ b.toNat ∧ b.toNat ≤ 0x39) ∨
      b.toNat = 0x2D := by
    simp only [isLower, isDigit, Bool.or_eq_true, Bool.and_eq_true, decide_eq_true_eq, beq_iff_eq]
      at h
    rcases h with (h | h) | h
    · exact Or.inl h
    · exact Or.inr (Or.inl h)
    · exact Or.inr (Or.inr (by rw [h]; rfl))
  have hne : ∀ c : UInt8, c.toNat = 0x3E ∨ c.toNat = 0x20 ∨ c.toNat = 0x3D → b ≠ c := by
    rintro c hc rfl
    omega
  have hup : isUpper b = false := by
    simp only [isUpper, Bool.and_eq_false_iff, decide_eq_false_iff_not]
    omega
  refine ⟨?_, by simp [lower, hup], hne _ (by decide), hne _ (by decide), hne _ (by decide)⟩
  simp only [isNameByte, hup, Bool.or_false]
  exact h

/-- A state that gathers a name gathers a whole one. -/
theorem steps_name {σ : Bytes → State}
    (h : ∀ b acc, isNameByte b = true → lower b = b → b ≠ 0x3E → b ≠ 0x20 → b ≠ 0x3D →
      step (σ acc) b = some (σ (acc ++ [b]), []))
    {s : Bytes} (hs : (s.all fun c => isLower c || isDigit c || c == 0x2D) = true) (acc : Bytes) :
    steps (σ acc) s = some (σ (acc ++ s), []) := by
  have hbyte : ∀ b acc, (isLower b || isDigit b || b == 0x2D) = true →
      steps (σ acc) [b] = some (σ (acc ++ [b]), []) := by
    intro b acc hb
    obtain ⟨hn, hl, hgt, hsp, heq⟩ := nameByte_facts hb
    exact steps_cons (h b acc hn hl hgt hsp heq) rfl
  simpa using steps_gather hbyte hs acc

theorem isName.all {s : Bytes} (h : isName s = true) :
    (s.all fun c => isLower c || isDigit c || c == 0x2D) = true := by
  cases s with
  | nil => rfl
  | cons b s =>
    simp only [isName, Bool.and_eq_true] at h
    simp only [List.all_cons, Bool.and_eq_true, h.2, and_true]
    simp [h.1]

/-- The first byte of a name opens the state that gathers it. -/
theorem steps_open {σ : State} {σ' : Bytes → State} {s : Bytes}
    (hopen : ∀ b, isLower b = true → lower b = b → isNameByte b = true → b ≠ 0x3E → b ≠ 0x20 →
      step σ b = some (σ' [b], []))
    (h : ∀ b acc, isNameByte b = true → lower b = b → b ≠ 0x3E → b ≠ 0x20 → b ≠ 0x3D →
      step (σ' acc) b = some (σ' (acc ++ [b]), []))
    (hs : isName s = true) : steps σ s = some (σ' s, []) := by
  cases s with
  | nil => cases hs
  | cons b s =>
    simp only [isName, Bool.and_eq_true] at hs
    obtain ⟨hn, hl, hgt, hsp, -⟩ := nameByte_facts (b := b) (by simp [hs.1])
    simpa using steps_cons (hopen b hs.1 hl hn hgt hsp) (steps_name h hs.2 [b])

/-- Where the tokenizer may be when an attribute or the end of the tag follows. -/
theorem steps_attr {σ : State} {name : Bytes} {attrs : List Attr}
    (hσ : step σ 0x20 = some (.beforeAttr name attrs, [])) {a : Attr} (ha : a.isPlain = true) :
    steps σ a.write = some (.afterValue name (attrs ++ [a]), []) := by
  simp only [Attr.isPlain, Bool.and_eq_true] at ha
  have hkey : steps (.beforeAttr name attrs) a.1 = some (.attrName name attrs a.1, []) := by
    refine steps_open (fun b _ hl hn hgt hsp => ?_) (fun b acc hn hl _ _ heq => ?_) ha.1
    · simp [step, hn, hl, hgt, hsp]
    · simp [step, hn, hl, heq]
  have hval : steps (.value name attrs a.1 []) (escape a.2) =
      some (.value name attrs a.1 a.2, []) :=
    steps_gather (σ := .value name attrs a.1)
      (fun b acc hb => steps_value_escapeByte hb name attrs a.1 acc) ha.2 []
  have hspace : steps σ (str " ") = some (.beforeAttr name attrs, []) := steps_cons hσ rfl
  have hquote : steps (.attrName name attrs a.1) (str "=\"") =
      some (.value name attrs a.1 [], []) := rfl
  have hclose : steps (.value name attrs a.1 a.2) (str "\"") =
      some (.afterValue name (attrs ++ [a]), []) := rfl
  exact steps_append (steps_append (steps_append (steps_append hspace hkey) hquote) hval) hclose

theorem steps_attrs {σ : State} {name : Bytes} {attrs : List Attr}
    (hσ : step σ 0x20 = some (.beforeAttr name attrs, []))
    (hgt : step σ 0x3E = some (.data, [.startTag name attrs])) {as : List Attr}
    (has : as.all Attr.isPlain = true) :
    steps σ (as.flatMap Attr.write ++ str ">") = some (.data, [.startTag name (attrs ++ as)]) := by
  induction as generalizing σ attrs with
  | nil =>
    rw [List.append_nil]
    exact steps_cons hgt rfl
  | cons a as ih =>
    rw [List.all_cons, Bool.and_eq_true] at has
    rw [List.flatMap_cons, List.append_assoc]
    have hrest := ih (σ := .afterValue name (attrs ++ [a])) rfl rfl has.2
    simpa using steps_append (steps_attr hσ has.1) hrest

/-- **A written token is read back.** -/
theorem steps_write {t : Token} (h : t.isPlain = true) :
    steps .data t.write = some (.data, [t]) := by
  cases t with
  | doctype => decide +kernel
  | char b => exact steps_data_escapeByte h
  | endTag name =>
    have hname : steps (.endName []) name = some (.endName name, []) := by
      refine steps_name (σ := .endName) (fun b acc hn hl hgt _ _ => ?_) (isName.all h) []
      simp [step, hn, hl, hgt]
    have hopen : steps .data (str "</") = some (.endName [], []) := rfl
    have hne : name ≠ [] := by
      rintro rfl
      cases h
    have hgt : step (.endName name) 0x3E = some (.data, [.endTag name]) := by simp [step, hne]
    have hclose : steps (.endName name) (str ">") = some (.data, [.endTag name]) :=
      steps_cons hgt rfl
    exact steps_append (steps_append hopen hname) hclose
  | startTag name attrs =>
    simp only [Token.isPlain, Bool.and_eq_true] at h
    have hopen : steps .data (str "<") = some (.tagOpen, []) := rfl
    have hname : steps .tagOpen name = some (.tagName name, []) := by
      refine steps_open (fun b hlow hl hn hgt hsp => ?_) (fun b acc hn hl hgt hsp _ => ?_) h.1
      · have h₁ : b ≠ 0x21 := by rintro rfl; cases hlow
        have h₂ : b ≠ 0x2F := by rintro rfl; cases hlow
        simp [step, h₁, h₂, hlow, hl]
      · simp [step, hn, hl, hgt, hsp]
    have hattrs : steps (.tagName name) (attrs.flatMap Attr.write ++ str ">") =
        some (.data, [.startTag name ([] ++ attrs)]) := steps_attrs rfl rfl h.2
    simpa [Token.write] using steps_append (steps_append hopen hname) hattrs

/-- Written tokens are read back. -/
theorem tokenize_flatMap_write {ts : List Token} (h : ts.all Token.isPlain = true) :
    tokenize (ts.flatMap Token.write) = some ts := by
  have hsteps : steps .data (ts.flatMap Token.write) = some (.data, ts) := by
    induction ts with
    | nil => rfl
    | cons t ts ih =>
      rw [List.all_cons, Bool.and_eq_true] at h
      simpa using steps_append (steps_write h.1) (ih h.2)
  simp [tokenize, hsteps]

/-! ## Trees -/

/-- A character of a text, or an element with what is in it. -/
inductive Node
  | char (b : UInt8)
  | element (name : Bytes) (attrs : List Attr) (children : List Node)

/-- The text of a node list that is only text. -/
def text (s : Bytes) : List Node := s.map .char

/-- Elements that have no end tag and nothing in them. -/
def isVoid (name : Bytes) : Bool := name == str "meta" || name == str "input"

/-- Elements in which text and other elements may stand. -/
def isContainer (name : Bytes) : Bool :=
  name == str "body" || name == str "section" || name == str "form"

/-- Elements in which only text may stand. -/
def isTextual (name : Bytes) : Bool :=
  name == str "title" || name == str "h1" || name == str "p" || name == str "pre" ||
    name == str "button"

/-- Whether a start tag opens an element right inside the innermost of the open ones. -/
def admits (parents : List Bytes) (name : Bytes) : Bool :=
  match parents with
  | [] => name == str "html"
  | parent :: _ =>
    if parent = str "html" then name == str "head" || name == str "body"
    else if parent = str "head" then name == str "meta" || name == str "title"
    else isContainer parent &&
      (name == str "section" || name == str "h1" || name == str "p" || name == str "pre" ||
        name == str "input" || name == str "button" ||
        (name == str "form" && !parents.contains (str "form")))

/-- Whether a character is text of the innermost of the open elements. -/
def admitsText (parents : List Bytes) : Bool :=
  match parents with
  | [] => false
  | parent :: _ => isContainer parent || isTextual parent

def startsWithNewline : List Node → Bool
  | .char b :: _ => b == 0x0A
  | _ => false

/-- A newline right after the start tag of a `pre` is not part of its text. -/
def settle (name : Bytes) (children : List Node) : List Node :=
  if name = str "pre" ∧ startsWithNewline children then children.tail else children

/-- An open element, with the nodes before it in its parent. -/
structure Frame where
  name : Bytes
  attrs : List Attr
  before : List Node

/-- Build the tree of a token list, with the open elements and the nodes that the innermost of them
has so far. -/
def build (frames : List Frame) (nodes : List Node) : List Token → Option (List Node)
  | [] => if frames.isEmpty then some nodes else none
  | .doctype :: _ => none
  | .char b :: ts =>
    if admitsText (frames.map Frame.name) then build frames (nodes ++ [.char b]) ts else none
  | .startTag name attrs :: ts =>
    if admits (frames.map Frame.name) name then
      if isVoid name then build frames (nodes ++ [.element name attrs []]) ts
      else build (⟨name, attrs, nodes⟩ :: frames) [] ts
    else none
  | .endTag name :: ts =>
    match frames with
    | [] => none
    | f :: fs =>
      if name = f.name then
        build fs (f.before ++ [.element f.name f.attrs (settle f.name nodes)]) ts
      else none

/-- Read a text as a document: the declaration of the type, and the tree. -/
def parse (page : Bytes) : Option (List Node) :=
  match tokenize page with
  | some (.doctype :: ts) => build [] [] ts
  | _ => none

/-! ## Writing trees -/

mutual

/-- The tokens that a node is written with. -/
def Node.tokens : Node → List Token
  | .char b => [.char b]
  | .element name attrs children =>
    .startTag name attrs :: if isVoid name then [] else tokens children ++ [.endTag name]

def tokens : List Node → List Token
  | [] => []
  | n :: ns => n.tokens ++ tokens ns

end

mutual

/-- A node that is read back as it is written, inside the elements `parents`. -/
def Node.fits (parents : List Bytes) : Node → Bool
  | .char b => admitsText parents && isPlain b
  | .element name attrs children =>
    admits parents name && isName name && attrs.all Attr.isPlain &&
      if isVoid name then children.isEmpty
      else fits (name :: parents) children &&
        !(name == str "pre" && startsWithNewline children)

def fits (parents : List Bytes) : List Node → Bool
  | [] => true
  | n :: ns => n.fits parents && fits parents ns

end

mutual

theorem Node.all_tokens {parents : List Bytes} :
    (n : Node) → n.fits parents = true → n.tokens.all Token.isPlain = true
  | .char b, h => by
    simp only [Node.fits, Bool.and_eq_true] at h
    simpa [Node.tokens, Token.isPlain] using h.2
  | .element name attrs children, h => by
    simp only [Node.fits, Bool.and_eq_true] at h
    obtain ⟨⟨⟨-, hname⟩, hattrs⟩, hc⟩ := h
    have hstart : (Token.startTag name attrs).isPlain = true := by
      simp [Token.isPlain, hname, hattrs]
    rw [Node.tokens, List.all_cons, hstart, Bool.true_and]
    split_ifs at hc ⊢
    · rfl
    · rw [Bool.and_eq_true] at hc
      simp [all_tokens children hc.1, Token.isPlain, hname]

theorem all_tokens {parents : List Bytes} :
    (ns : List Node) → fits parents ns = true → (tokens ns).all Token.isPlain = true
  | [], _ => rfl
  | n :: ns, h => by
    simp only [fits, Bool.and_eq_true] at h
    rw [tokens, List.all_append, n.all_tokens h.1, all_tokens ns h.2, Bool.and_true]

end

mutual

/-- A node that fits is built where its tokens are read. -/
theorem Node.build_tokens (frames : List Frame) (nodes : List Node) (ts : List Token) :
    (n : Node) → n.fits (frames.map Frame.name) = true →
      build frames nodes (n.tokens ++ ts) = build frames (nodes ++ [n]) ts
  | .char b, h => by
    simp only [Node.fits, Bool.and_eq_true] at h
    simp [Node.tokens, build, h.1]
  | .element name attrs children, h => by
    simp only [Node.fits, Bool.and_eq_true] at h
    obtain ⟨⟨⟨hadmits, -⟩, -⟩, hc⟩ := h
    rw [Node.tokens, List.cons_append, build, if_pos hadmits]
    split_ifs at hc ⊢ with hvoid
    · rw [List.isEmpty_iff] at hc
      rw [hc, List.nil_append]
    · rw [Bool.and_eq_true] at hc
      have hsettle : settle name children = children := by
        have := hc.2
        simp only [Bool.not_eq_true', Bool.and_eq_false_iff, beq_eq_false_iff_ne] at this
        rw [settle, if_neg]
        rintro ⟨h₁, h₂⟩
        rcases this with h | h
        · exact h h₁
        · simp [h] at h₂
      rw [List.append_assoc, build_tokens (⟨name, attrs, nodes⟩ :: frames) [] _ children hc.1,
        List.singleton_append, build]
      simp [hsettle]

theorem build_tokens (frames : List Frame) (nodes : List Node) (ts : List Token) :
    (ns : List Node) → fits (frames.map Frame.name) ns = true →
      build frames nodes (tokens ns ++ ts) = build frames (nodes ++ ns) ts
  | [], _ => by simp [tokens]
  | n :: ns, h => by
    simp only [fits, Bool.and_eq_true] at h
    rw [tokens, List.append_assoc, n.build_tokens _ _ _ h.1, build_tokens _ _ _ ns h.2,
      List.append_assoc, List.singleton_append]

end

/-- A document: a tree that is well formed, from its root on. -/
structure Document where
  nodes : List Node
  fits : fits [] nodes = true

/-- The text of a node list. -/
def write (ns : List Node) : Bytes := (tokens ns).flatMap Token.write

def Document.write (d : Document) : Bytes := Token.doctype.write ++ Html.write d.nodes

/-- **A document is read back as it is.** -/
theorem parse_write (d : Document) : parse d.write = some d.nodes := by
  have hplain : (Token.doctype :: tokens d.nodes).all Token.isPlain = true := by
    simp [Token.isPlain, all_tokens d.nodes d.fits]
  have htokens : tokenize d.write = some (.doctype :: tokens d.nodes) :=
    tokenize_flatMap_write hplain
  have hbuild := build_tokens [] [] [] d.nodes d.fits
  rw [List.append_nil, List.nil_append] at hbuild
  simp [parse, htokens, hbuild, build]

/-! ## Lists of nodes -/

theorem tokens_append (ns ms : List Node) : tokens (ns ++ ms) = tokens ns ++ tokens ms := by
  induction ns with
  | nil => rfl
  | cons n ns ih => rw [List.cons_append, tokens, tokens, ih, List.append_assoc]

@[simp]
theorem write_append (ns ms : List Node) : write (ns ++ ms) = write ns ++ write ms := by
  rw [write, tokens_append, List.flatMap_append, write, write]

theorem write_flatMap {α : Type} (f : α → List Node) (l : List α) :
    write (l.flatMap f) = l.flatMap fun a => write (f a) := by
  induction l with
  | nil => rfl
  | cons a l ih => rw [List.flatMap_cons, write_append, ih, List.flatMap_cons]

/-- A text is written escaped. -/
@[simp]
theorem write_text (s : Bytes) : write (text s) = escape s := by
  induction s with
  | nil => rfl
  | cons b s ih =>
    change escapeByte b ++ write (text s) = escapeByte b ++ escape s
    rw [ih]

/-- An element is written between its tags. -/
theorem write_element (name : Bytes) (h : isVoid name = false) (attrs : List Attr)
    (children : List Node) :
    write [.element name attrs children] =
      (Token.startTag name attrs).write ++ write children ++ (Token.endTag name).write := by
  simp [write, tokens, Node.tokens, h]

@[simp]
theorem fits_append (parents : List Bytes) (ns ms : List Node) :
    fits parents (ns ++ ms) = (fits parents ns && fits parents ms) := by
  induction ns with
  | nil => rfl
  | cons n ns ih => rw [List.cons_append, fits, fits, ih, Bool.and_assoc]

theorem fits_flatMap {α : Type} {parents : List Bytes} {f : α → List Node} {l : List α}
    (h : ∀ a ∈ l, fits parents (f a) = true) : fits parents (l.flatMap f) = true := by
  induction l with
  | nil => rfl
  | cons a l ih =>
    rw [List.flatMap_cons, fits_append, h a (by simp), ih fun b hb => h b (by simp [hb])]
    rfl

theorem fits_text {parents : List Bytes} (hp : admitsText parents = true) {s : Bytes}
    (hs : s.all isPlain = true) : fits parents (text s) = true := by
  induction s with
  | nil => rfl
  | cons b s ih =>
    rw [List.all_cons, Bool.and_eq_true] at hs
    rw [text, List.map_cons, fits, Node.fits, hp, hs.1]
    exact ih hs.2

theorem fits_element {parents : List Bytes} {name : Bytes} {attrs : List Attr}
    {children : List Node} (hname : (admits parents name && isName name && !isVoid name) = true)
    (hattrs : attrs.all Attr.isPlain = true) (hchildren : fits (name :: parents) children = true)
    (hpre : (name == str "pre" && startsWithNewline children) = false) :
    fits parents [.element name attrs children] = true := by
  simp only [Bool.and_eq_true, Bool.not_eq_true'] at hname
  simp [fits, Node.fits, hname.1.1, hname.1.2, hname.2, hattrs, hchildren, hpre]

/-! ## What a document shows and sends -/

mutual

/-- The outermost elements of a name, in the order of the document. -/
def Node.elements (name : Bytes) : Node → List (List Attr × List Node)
  | .char _ => []
  | .element n attrs children => if n = name then [(attrs, children)] else elements name children

def elements (name : Bytes) : List Node → List (List Attr × List Node)
  | [] => []
  | n :: ns => n.elements name ++ elements name ns

end

mutual

/-- The characters in a node. -/
def Node.textContent : Node → Bytes
  | .char b => [b]
  | .element _ _ children => textContent children

def textContent : List Node → Bytes
  | [] => []
  | n :: ns => n.textContent ++ textContent ns

end

@[simp]
theorem elements_append (name : Bytes) (ns ms : List Node) :
    elements name (ns ++ ms) = elements name ns ++ elements name ms := by
  induction ns with
  | nil => rfl
  | cons n ns ih => rw [List.cons_append, elements, elements, ih, List.append_assoc]

theorem elements_flatMap {α : Type} (name : Bytes) (f : α → List Node) (l : List α) :
    elements name (l.flatMap f) = l.flatMap fun a => elements name (f a) := by
  induction l with
  | nil => rfl
  | cons a l ih => rw [List.flatMap_cons, elements_append, ih, List.flatMap_cons]

@[simp]
theorem elements_text (name s : Bytes) : elements name (text s) = [] := by
  induction s with
  | nil => rfl
  | cons b s ih => exact ih

@[simp]
theorem textContent_text (s : Bytes) : textContent (text s) = s := by
  induction s with
  | nil => rfl
  | cons b s ih => exact congrArg (b :: ·) ih

/-- The value of an attribute. Of two with one name, the first counts. -/
def attr (key : Bytes) (attrs : List Attr) : Option Bytes := attrs.lookup key

/-- A form: where and how it is sent, the fields that it sends whatever its reader does, and what
its buttons say. -/
structure Form where
  method : Bytes
  action : Bytes
  hidden : List (Bytes × Bytes)
  label : Bytes
  deriving DecidableEq

/-- The name and the value of an input that is not shown. -/
def hiddenField (e : List Attr × List Node) : Option (Bytes × Bytes) :=
  if attr (str "type") e.1 = some (str "hidden") then
    some ((attr (str "name") e.1).getD [], (attr (str "value") e.1).getD [])
  else none

def formOf (e : List Attr × List Node) : Form where
  method := (attr (str "method") e.1).getD (str "GET")
  action := (attr (str "action") e.1).getD []
  hidden := (elements (str "input") e.2).filterMap hiddenField
  label := (elements (str "button") e.2).flatMap fun b => textContent b.2

/-- The forms of a document, in its order. -/
def forms (ns : List Node) : List Form := (elements (str "form") ns).map formOf

/-! ## Sending a form -/

def hexDigit (n : ℕ) : UInt8 := UInt8.ofNat (if n < 10 then 0x30 + n else 0x37 + n)

/-- One byte in the encoding of forms. -/
def formEncodeByte (b : UInt8) : Bytes :=
  if isLower b || isUpper b || isDigit b || (str "*-._").contains b then [b]
  else if b = 0x20 then str "+"
  else [0x25, hexDigit (b.toNat / 16), hexDigit (b.toNat % 16)]

/-- The fields of a form as they are sent. -/
def formBody (fields : List (Bytes × Bytes)) : Bytes :=
  (str "&").intercalate
    (fields.map fun f => f.1.flatMap formEncodeByte ++ str "=" ++ f.2.flatMap formEncodeByte)

end SecretsBroker.Html
