import Mathlib.Algebra.Group.Int.Defs
import Mathlib.Data.Bool.AllAny
import Mathlib.Data.Int.Notation
import SecretsBroker.Foundations.JsonText

/-!
# Structures in JSON

How `encoding/json` writes and reads the values of a structure. A `Kind` is how values of one type
are written, or left out, and how a member of an object sets them; a `Field` is a named part of a
structure; `encodeStruct` and `decodeStruct` put the fields together, with unknown members refused
or passed over. `decodeSole` reads a structure that is alone in its text.

`Kind.Carries` says that a value comes back as another one (itself, for most types). It is shown for
each kind; `Carried` chains the fields of a structure in order, and `Carried.decode` is the round
trip of the structure.
-/

namespace SecretsBroker.Json

open Utf8

/-! ## Integers -/

/-- The decimal digits of a number. -/
def decimal (n : ℕ) : Bytes := (Nat.toDigits 10 n).map fun c => UInt8.ofNat c.toNat

/-- The number with the given digits. -/
def digitsValue (ds : Bytes) : ℕ := Nat.ofDigitChars 10 (ds.map fun b => Char.ofNat b.toNat) 0

def encodeInt (n : Int64) : Bytes :=
  (if n.toInt < 0 then [0x2D] else []) ++ decimal n.toInt.natAbs

/-- An integer in decimal notation. -/
def parseInt (t : Bytes) : Option ℤ :=
  let (sign, ds) := readSign t
  if ds ≠ [] ∧ ds.all isDigit then
    some (if sign = [] then (digitsValue ds : ℤ) else -(digitsValue ds : ℤ))
  else none

/-- A value for a field of type int. -/
def decodeInt (old : Int64) : Json → Option Int64
  | .number t =>
    match parseInt t with
    | some v => if -2 ^ 63 ≤ v ∧ v < 2 ^ 63 then some (Int64.ofInt v) else none
    | none => none
  | .null => some old
  | _ => none

theorem decimal_isDigit (n : ℕ) : ∀ b ∈ decimal n, isDigit b = true := by
  intro b hb
  obtain ⟨c, hc, rfl⟩ := List.mem_map.1 hb
  have hdigit := Nat.isDigit_of_mem_toDigits (by decide) (by decide) hc
  simp only [Char.isDigit, ge_iff_le, Bool.and_eq_true, decide_eq_true_eq] at hdigit
  have h₁ : 48 ≤ c.toNat := hdigit.1
  have h₂ : c.toNat ≤ 57 := hdigit.2
  simp [isDigit]
  omega

theorem decimal_ne_nil (n : ℕ) : decimal n ≠ [] := by
  simp [decimal, Nat.toDigits_ne_nil]

theorem digitsValue_decimal (n : ℕ) : digitsValue (decimal n) = n := by
  have hback : ((Nat.toDigits 10 n).map fun c => UInt8.ofNat c.toNat).map
      (fun b => Char.ofNat b.toNat) = Nat.toDigits 10 n := by
    rw [List.map_map]
    conv_rhs => rw [← List.map_id (Nat.toDigits 10 n)]
    apply List.map_congr_left
    intro c hc
    have hdigit := Nat.isDigit_of_mem_toDigits (by decide) (by decide) hc
    simp only [Char.isDigit, ge_iff_le, Bool.and_eq_true, decide_eq_true_eq] at hdigit
    have h₂ : c.toNat ≤ 57 := hdigit.2
    have hmod : c.toNat % 256 = c.toNat := Nat.mod_eq_of_lt (by omega)
    simp [Function.comp_apply, hmod, Char.ofNat_toNat]
  rw [digitsValue, decimal, hback]
  exact Nat.ofDigitChars_toDigits (by decide) (by decide)

/-- No decimal number starts with zero but zero itself. -/
theorem decimal_head (n : ℕ) : decimal n = [0x30] ∨ (decimal n).head? ≠ some 0x30 := by
  induction n using Nat.strongRecOn with
  | ind n ih =>
    by_cases hn : n < 10
    · have hall : ∀ m : Fin 10, decimal m = [0x30] ∨ (decimal m).head? ≠ some 0x30 := by decide
      exact hall ⟨n, hn⟩
    · have hstep :
          decimal n = decimal (n / 10) ++ [UInt8.ofNat (Nat.digitChar (n % 10)).toNat] := by
        unfold decimal
        rw [Nat.toDigits_of_base_le (by decide) (by omega), List.map_append]
        rfl
      rcases ih (n / 10) (by omega) with h | h
      · -- the number without its last digit is not zero
        have hzero : n / 10 = 0 := by
          rw [← digitsValue_decimal (n / 10), h]
          decide
        omega
      · rw [hstep, List.head?_append_of_ne_nil _ (decimal_ne_nil _)]
        exact .inr h

/-- A number is read up to the separator that follows it. -/
theorem readInteger_decimal (n : ℕ) {c : UInt8} (hc : isDigit c = false) (rest : Bytes) :
    readInteger (decimal n ++ c :: rest) = some (decimal n, c :: rest) := by
  have hdigits : readDigits (decimal n ++ c :: rest) = some (decimal n, c :: rest) := by
    have hall := decimal_isDigit n
    refine readDigits_iff.2 ⟨decimal_ne_nil n, ?_, ?_⟩
    · rw [List.takeWhile_append_of_pos hall, List.takeWhile_cons_of_neg (by simp [hc]),
        List.append_nil]
    · rw [List.dropWhile_append_of_pos hall, List.dropWhile_cons_of_neg (by simp [hc])]
  rcases decimal_head n with h | h
  · rw [h]
    rfl
  · obtain ⟨b, tl, hb⟩ := List.exists_cons_of_ne_nil (decimal_ne_nil n)
    rw [hb] at h hdigits ⊢
    have hne : b ≠ 0x30 := by simpa using h
    rw [List.cons_append, readInteger, if_neg hne]
    exact hdigits

theorem readSign_encodeInt (n : Int64) (rest : Bytes) :
    readSign (encodeInt n ++ rest) =
      (if n.toInt < 0 then [0x2D] else [], decimal n.toInt.natAbs ++ rest) := by
  by_cases hn : n.toInt < 0
  · simp [encodeInt, hn, readSign]
  · obtain ⟨b, tl, hb⟩ := List.exists_cons_of_ne_nil (decimal_ne_nil n.toInt.natAbs)
    have hdigit := decimal_isDigit n.toInt.natAbs b (by rw [hb]; simp)
    have hne : b ≠ 0x2D := by
      rintro rfl
      exact absurd hdigit (by decide)
    simp [encodeInt, hn, readSign, hb, hne]

theorem reads_encodeInt (n : Int64) : ReadsInside (encodeInt n) (.number (encodeInt n)) 1 := by
  intro m hm c hc rest
  obtain ⟨m, rfl⟩ : ∃ k, m = k + 1 := ⟨m - 1, by omega⟩
  -- what a separator is not
  have hsep : isDigit c = false ∧ c ≠ 0x2E ∧ ¬ (c = 0x65 ∨ c = 0x45) := by
    simp only [List.mem_cons, List.not_mem_nil, or_false] at hc
    rcases hc with rfl | rfl | rfl <;> decide
  have hint := readInteger_decimal n.toInt.natAbs hsep.1 rest
  apply value_of_readNumber
  refine readNumber_iff.2 ⟨_, _, _, c :: rest, [], c :: rest, [], readSign_encodeInt n _, hint, ?_,
    ?_, ?_⟩
  · rw [readFraction, if_neg hsep.2.1]
  · simp only [readExponent, if_neg hsep.2.2]
  · simp [encodeInt]

theorem decodeInt_encodeInt (old n : Int64) : decodeInt old (.number (encodeInt n)) = some n := by
  have hsign := readSign_encodeInt n []
  rw [List.append_nil, List.append_nil] at hsign
  have hparse : parseInt (encodeInt n) = some n.toInt := by
    have hall : (decimal n.toInt.natAbs).all isDigit = true :=
      List.all_eq_true.2 (decimal_isDigit _)
    rw [parseInt, hsign]
    simp only [decimal_ne_nil, ne_eq, not_false_eq_true, hall, and_self, if_true,
      digitsValue_decimal]
    by_cases hn : n.toInt < 0
    · rw [if_pos hn, if_neg (List.cons_ne_nil _ _)]
      congr 1
      omega
    · rw [if_neg hn, if_pos rfl]
      congr 1
      omega
  have hrange : -2 ^ 63 ≤ n.toInt ∧ n.toInt < 2 ^ 63 := ⟨n.le_toInt, n.toInt_lt⟩
  simp only [decodeInt, hparse, if_pos hrange, Int64.ofInt_toInt]

/-! ## Kinds of values -/

/-- How the values of a type are written, when they are not left out, and how the value of a member
sets them. -/
structure Kind (α : Type) where
  write : α → Option Bytes
  read : α → Json → Option α

namespace Kind

def string : Kind Bytes := ⟨fun s => some (encodeString s), decodeString⟩

def int : Kind Int64 := ⟨fun n => some (encodeInt n), decodeInt⟩

def bool : Kind Bool := ⟨fun b => some (if b then str "true" else str "false"), decodeBool⟩

/-- A slice of strings; nil and empty slices are not told apart. -/
def strings : Kind (List Bytes) :=
  ⟨fun ss => some (encodeArray (ss.map encodeString)), decodeStrings⟩

/-- The option `omitempty`. -/
def omitEmpty {α : Type} [DecidableEq α] (c : Kind α) (zero : α) : Kind α where
  write x := if x = zero then none else c.write x
  read := c.read

/-- A pointer with the option `omitempty`. -/
def pointer {α : Type} (c : Kind α) (zero : α) : Kind (Option α) where
  write x := x.bind c.write
  read old
    | .null => some none
    | j => (c.read (old.getD zero) j).map some

/-- The elements of an array for a slice, over the elements it had. -/
def readElements {α : Type} (c : Kind α) (zero : α) : List α → List Json → Option (List α)
  | _, [] => some []
  | old, j :: js => do
    let x ← c.read (old.headD zero) j
    let xs ← readElements c zero old.tail js
    some (x :: xs)

/-- A slice, which may be nil. -/
def slice {α : Type} (c : Kind α) (zero : α) : Kind (Option (List α)) where
  write
    | none => some (str "null")
    | some xs => some (encodeArray (xs.map fun x => (c.write x).getD []))
  read old
    | .null => some none
    | .array js => (readElements c zero (old.getD []) js).map some
    | _ => none

/-- The elements of an array are read one by one. -/
theorem forall₂_of_readElements {α : Type} {c : Kind α} {zero : α} {js : List Json} {xs : List α}
    (h : readElements c zero [] js = some xs) :
    List.Forall₂ (fun j x => c.read zero j = some x) js xs := by
  induction js generalizing xs with
  | nil =>
    obtain rfl := Option.some.inj h
    exact .nil
  | cons j js ih =>
    simp only [readElements, List.headD_nil, List.tail_nil, Option.bind_eq_bind,
      Option.bind_eq_some_iff, Option.some.injEq] at h
    obtain ⟨x, hx, xs, hxs, rfl⟩ := h
    exact .cons hx (ih hxs)

end Kind

/-! ## Fields and structures -/

/-- A field of a structure, by the name of its members. -/
structure Field (σ : Type) where
  name : Bytes
  write : σ → Option Bytes
  read : σ → Json → Option σ

/-- The field with a getter and a setter. -/
def Field.of {σ α : Type} (name : Bytes) (get : σ → α) (set : σ → α → σ) (c : Kind α) :
    Field σ where
  name := name
  write x := c.write (get x)
  read x j := (c.read (get x) j).map (set x)

section Struct

variable {σ : Type}

/-- The JSON of a structure. -/
def encodeStruct (fields : List (Field σ)) (x : σ) : Bytes :=
  encodeObject (fields.filterMap fun f => (f.write x).map fun t => (f.name, t))

/-- One member of an object. `strict` stands for `DisallowUnknownFields`. -/
def decodeMember (strict : Bool) (fields : List (Field σ)) (x : σ) (m : Bytes × Json) : Option σ :=
  match lookupField (fields.map fun f => (f.name, f)) m.1 with
  | none => if strict then none else some x
  | some f => f.read x m.2

/-- A value for a structure. -/
def decodeStruct (strict : Bool) (fields : List (Field σ)) (x : σ) : Json → Option σ
  | .null => some x
  | .object members => members.foldlM (decodeMember strict fields) x
  | _ => none

/-- A structure that stands alone in a text: `Decode`, and `io.EOF` when asked for more. -/
def decodeSole (strict : Bool) (fields : List (Field σ)) (x : σ) (data : Bytes) : Option σ :=
  match parse data with
  | none => none
  | some (j, rest) =>
    match decodeStruct strict fields x j with
    | none => none
    | some y => if skipSpace rest = [] then some y else none

/-- A structure as the value of a field or an element. -/
def Kind.struct (strict : Bool) (fields : List (Field σ)) : Kind σ :=
  ⟨fun x => some (encodeStruct fields x), decodeStruct strict fields⟩

end Struct

/-! ## What comes back -/

namespace Kind

variable {α : Type}

/-- A value `x`, written and read over `old`, comes back as `y`. -/
def Carries (c : Kind α) (old x y : α) : Prop :=
  (c.write x = none → y = old) ∧
    ∀ t, c.write x = some t → ∃ j k, ReadsInside t j k ∧ c.read old j = some y

theorem carries_of_write {c : Kind α} {old x y : α} {t : Bytes} {j : Json} {k : ℕ}
    (hw : c.write x = some t) (hr : ReadsInside t j k) (hread : c.read old j = some y) :
    c.Carries old x y := by
  refine ⟨fun h => ?_, fun t' h => ?_⟩
  · rw [hw] at h
    exact absurd h (by simp)
  · obtain rfl := Option.some.inj (hw.symm.trans h)
    exact ⟨j, k, hr, hread⟩

theorem carries_string (old s : Bytes) : string.Carries old s (toValid s) :=
  carries_of_write rfl (reads_encodeString s).inside rfl

theorem carries_int (old n : Int64) : int.Carries old n n :=
  carries_of_write rfl (reads_encodeInt n) (decodeInt_encodeInt old n)

theorem reads_literal {p : Bytes × Json} (hp : p ∈ literals) : Reads p.1 p.2 1 := by
  intro n hn rest
  obtain ⟨n, rfl⟩ : ∃ m, n = m + 1 := ⟨n - 1, by omega⟩
  simp only [literals, List.mem_cons, List.not_mem_nil, or_false] at hp
  rcases hp with rfl | rfl | rfl <;> rfl

theorem carries_bool (old b : Bool) : bool.Carries old b b := by
  cases b with
  | true =>
    have hr := reads_literal (p := (str "true", .bool true)) (by simp [literals])
    exact carries_of_write rfl hr.inside rfl
  | false =>
    have hr := reads_literal (p := (str "false", .bool false)) (by simp [literals])
    exact carries_of_write rfl hr.inside rfl

theorem carries_strings (old ss : List Bytes) : strings.Carries old ss (ss.map toValid) := by
  have hitems : ∀ p ∈ ss.map fun s => (encodeString s, Json.string (toValid s)),
      ∃ k, ReadsInside p.1 p.2 k := by
    intro p hp
    obtain ⟨s, -, rfl⟩ := List.mem_map.1 hp
    exact ⟨1, (reads_encodeString s).inside⟩
  obtain ⟨k, hk⟩ := reads_array hitems
  simp only [List.map_map, Function.comp_def] at hk
  refine carries_of_write rfl hk.inside ?_
  have := decodeElements_strings old (ss.map toValid)
  rwa [List.map_map] at this

theorem carries_omitEmpty [DecidableEq α] {c : Kind α} {zero x y : α} (h : c.Carries zero x y)
    (hzero : x = zero → y = zero) : (c.omitEmpty zero).Carries zero x y := by
  by_cases hx : x = zero
  · exact ⟨fun _ => hzero hx, fun t ht => absurd ht (by simp [omitEmpty, hx])⟩
  · have hw : (c.omitEmpty zero).write x = c.write x := if_neg hx
    unfold Carries
    rw [hw]
    exact h

theorem carries_string_omitEmpty (s : Bytes) :
    (string.omitEmpty []).Carries [] s (toValid s) := by
  refine carries_omitEmpty (carries_string [] s) ?_
  rintro rfl
  rfl

theorem carries_strings_omitEmpty (ss : List Bytes) :
    (strings.omitEmpty []).Carries [] ss (ss.map toValid) := by
  refine carries_omitEmpty (carries_strings [] ss) ?_
  rintro rfl
  rfl

theorem carries_int_omitEmpty (n : Int64) : (int.omitEmpty 0).Carries 0 n n :=
  carries_omitEmpty (carries_int 0 n) fun h => h

theorem carries_pointer_none (c : Kind α) (zero : α) : (c.pointer zero).Carries none none none :=
  ⟨fun _ => rfl, fun t ht => absurd ht (by simp [pointer])⟩

theorem carries_pointer_some {c : Kind α} {zero x y : α} {t : Bytes} {j : Json} {k : ℕ}
    (hw : c.write x = some t) (hr : ReadsInside t j k) (hnull : j ≠ .null)
    (hread : c.read zero j = some y) : (c.pointer zero).Carries none (some x) (some y) := by
  refine carries_of_write hw hr ?_
  cases j with
  | null => exact absurd rfl hnull
  | _ => simp [pointer, hread]

theorem carries_int_pointer (n : Option Int64) : (int.pointer 0).Carries none n n := by
  cases n with
  | none => exact carries_pointer_none int 0
  | some n => exact carries_pointer_some rfl (reads_encodeInt n) (by simp) (decodeInt_encodeInt 0 n)

/-- The elements of a slice come back one by one. -/
theorem carries_slice {c : Kind α} {zero : α} {old : Option (List α)} (hold : old.getD [] = [])
    {xs : List α} {back : α → α} (h : ∀ x ∈ xs, c.write x ≠ none ∧ c.Carries zero x (back x)) :
    (c.slice zero).Carries old (some xs) (some (xs.map back)) := by
  have hitems : ∃ items : List (Bytes × Json),
      items.map Prod.fst = (xs.map fun x => (c.write x).getD []) ∧
      (∀ p ∈ items, ∃ k, ReadsInside p.1 p.2 k) ∧
      readElements c zero [] (items.map Prod.snd) = some (xs.map back) := by
    induction xs with
    | nil => exact ⟨[], rfl, by simp, rfl⟩
    | cons x xs ih =>
      obtain ⟨items, hfst, hreads, helems⟩ := ih fun y hy => h y (by simp [hy])
      obtain ⟨hwrite, -, hcarry⟩ := h x (by simp)
      obtain ⟨t, ht⟩ := Option.ne_none_iff_exists'.1 hwrite
      obtain ⟨j, k, hr, hread⟩ := hcarry t ht
      refine ⟨(t, j) :: items, by simp [ht, hfst], ?_, ?_⟩
      · intro p hp
        rcases List.mem_cons.1 hp with rfl | hp
        · exact ⟨k, hr⟩
        · exact hreads p hp
      · simp [readElements, hread, helems]
  obtain ⟨items, hfst, hreads, helems⟩ := hitems
  obtain ⟨k, hk⟩ := reads_array hreads
  rw [hfst] at hk
  exact carries_of_write rfl hk.inside (by simp [slice, hold, helems])

end Kind

section Struct

variable {σ : Type}

/-- The fields of `x`, written in order and read over `st`, make it `st'`. -/
inductive Carried (x : σ) : List (Field σ) → σ → σ → Prop
  | nil (st : σ) : Carried x [] st st
  | cons {f : Field σ} {fs : List (Field σ)} {st st₁ st' : σ}
    (hout : f.write x = none → st₁ = st)
    (hin : ∀ t, f.write x = some t → ∃ j k, ReadsInside t j k ∧ f.read st j = some st₁)
    (hrest : Carried x fs st₁ st') : Carried x (f :: fs) st st'

/-- A field with a getter and a setter. -/
theorem Carried.of {α : Type} {name : Bytes} {get : σ → α} {set : σ → α → σ} {c : Kind α}
    {fs : List (Field σ)} {x st st' : σ} {y : α} (h : c.Carries (get st) (get x) y)
    (hset : set st (get st) = st) (hrest : Carried x fs (set st y) st') :
    Carried x (Field.of name get set c :: fs) st st' := by
  refine .cons (fun hw => ?_) (fun t ht => ?_) hrest
  · rw [h.1 hw, hset]
  · obtain ⟨j, k, hr, hread⟩ := h.2 t ht
    exact ⟨j, k, hr, by simp [Field.of, hread]⟩

/-- The names of the fields are distinct UTF-8 texts. -/
def Distinct (fields : List (Field σ)) : Prop :=
  (fields.map Field.name).Nodup ∧ ∀ f ∈ fields, Valid f.name

instance (fields : List (Field σ)) : Decidable (Distinct fields) :=
  inferInstanceAs (Decidable (_ ∧ _))

theorem Distinct.lookup {fields : List (Field σ)} (h : Distinct fields) {f : Field σ}
    (hf : f ∈ fields) : lookupField (fields.map fun f => (f.name, f)) f.name = some f := by
  have hfind : ((fields.map fun f => (f.name, f)).find? fun p => p.1 == f.name) =
      some (f.name, f) := by
    have hnodup := h.1
    clear h
    induction fields with
    | nil => simp at hf
    | cons g fields ih =>
      rw [List.map_cons, List.nodup_cons] at hnodup
      rcases List.mem_cons.1 hf with rfl | hf
      · simp
      · have hne : g.name ≠ f.name := by
          intro heq
          exact hnodup.1 (List.mem_map.2 ⟨f, hf, heq.symm⟩)
        simp only [List.map_cons, List.find?_cons, beq_eq_false_iff_ne.2 hne]
        exact ih hf hnodup.2
  simp [lookupField, hfind]

/-- The members that are written for some of the fields, and what they set. -/
theorem Carried.items {fields fs : List (Field σ)} {x st y : σ} (h : Carried x fs st y)
    (hdist : Distinct fields) (strict : Bool) (hfs : ∀ f ∈ fs, f ∈ fields) :
    ∃ items : List (Bytes × Bytes × Json),
      (items.map fun p => (p.1, p.2.1)) =
        (fs.filterMap fun f => (f.write x).map fun t => (f.name, t)) ∧
      (∀ p ∈ items, ∃ k, ReadsInside p.2.1 p.2.2 k) ∧
      (items.map fun p => (toValid p.1, p.2.2)).foldlM (decodeMember strict fields) st =
        some y := by
  induction h with
  | nil st => exact ⟨[], rfl, by simp, rfl⟩
  | @cons f fs st st₁ st' hout hin hrest ih =>
    obtain ⟨items, htext, hreads, hfold⟩ := ih fun g hg => hfs g (by simp [hg])
    cases hw : f.write x with
    | none =>
      rw [hout hw] at hfold
      exact ⟨items, by simp [hw, htext], hreads, hfold⟩
    | some t =>
      obtain ⟨j, k, hr, hread⟩ := hin t hw
      have hmem := hfs f (by simp)
      have hname : toValid f.name = f.name := (toValid_eq_self_iff _).2 (hdist.2 f hmem)
      refine ⟨(f.name, t, j) :: items, by simp [hw, htext], ?_, ?_⟩
      · intro p hp
        rcases List.mem_cons.1 hp with rfl | hp
        · exact ⟨k, hr⟩
        · exact hreads p hp
      · simp only [List.map_cons, List.foldlM_cons, decodeMember, hname, hdist.lookup hmem, hread,
          Option.bind_eq_bind, Option.bind_some]
        exact hfold

/-- **A structure whose fields come back comes back.** -/
theorem Carried.decode {fields : List (Field σ)} {x st y : σ} (h : Carried x fields st y)
    (hdist : Distinct fields) (strict : Bool) :
    ∃ ms k, Reads (encodeStruct fields x) (.object ms) k ∧
      decodeStruct strict fields st (.object ms) = some y := by
  obtain ⟨items, htext, hreads, hfold⟩ := h.items hdist strict fun _ hf => hf
  obtain ⟨k, hk⟩ := reads_members hreads
  rw [htext] at hk
  exact ⟨_, k, hk, hfold⟩

/-- The text of an encoder, which ends in a newline, is decoded again. -/
theorem Carried.decodeSole {fields : List (Field σ)} {x st y : σ} (h : Carried x fields st y)
    (hdist : Distinct fields) (strict : Bool) :
    decodeSole strict fields st (encodeStruct fields x ++ [0x0A]) = some y := by
  obtain ⟨ms, k, hreads, hdec⟩ := h.decode hdist strict
  have hsp : skipSpace [0x0A] = [] := rfl
  simp only [Json.decodeSole, hreads.parse, hdec, hsp, if_true]

/-- A structure as the value of a field or an element. -/
theorem Kind.carries_struct {fields : List (Field σ)} {x st y : σ} (h : Carried x fields st y)
    (hdist : Distinct fields) (strict : Bool) : (Kind.struct strict fields).Carries st x y := by
  obtain ⟨ms, k, hr, hdec⟩ := h.decode hdist strict
  exact Kind.carries_of_write rfl hr.inside hdec

end Struct

/-! ## Lengths -/

section Length

theorem length_encodeSymbol_le (x : Symbol) : (encodeSymbol x).length ≤ 6 * x.bytes.length := by
  cases x with
  | bad b => simp [encodeSymbol, unicodeEscape, Symbol.bytes]
  | rune c =>
    have hpos := List.length_pos_of_ne_nil (encodeRune_ne_nil c)
    simp only [encodeSymbol, Symbol.bytes]
    split
    · simp only [List.length_cons, List.length_nil]
      omega
    · split_ifs
      · simp only [unicodeEscape, List.length_cons, List.length_nil]
        omega
      · omega

/-- A byte of a string is written as six at most. -/
theorem length_encodeString_le (s : Bytes) : (encodeString s).length ≤ 6 * s.length + 2 := by
  have hsum : ∀ xs : List Symbol,
      (xs.flatMap encodeSymbol).length ≤ 6 * (xs.flatMap Symbol.bytes).length := by
    intro xs
    induction xs with
    | nil => simp
    | cons x xs ih =>
      have := length_encodeSymbol_le x
      simp only [List.flatMap_cons, List.length_append]
      omega
  have := hsum (scan s)
  rw [flatMap_bytes_scan] at this
  simp only [encodeString, List.length_cons, List.length_append, List.cons_append, List.length_nil]
  omega

theorem length_encodeArray_le {texts : List Bytes} {n : ℕ} (h : ∀ t ∈ texts, t.length ≤ n) :
    (encodeArray texts).length ≤ texts.length * (n + 1) + 2 := by
  have hsum : ([0x2C].intercalate texts).length ≤ texts.length * (n + 1) := by
    induction texts with
    | nil => simp
    | cons t texts ih =>
      have ht := h t (by simp)
      have htail := ih fun u hu => h u (by simp [hu])
      rw [List.length_cons, Nat.succ_mul]
      cases texts with
      | nil =>
        simp only [List.intercalate, List.intersperse_singleton, List.flatten_singleton,
          List.length_nil]
        omega
      | cons u texts =>
        rw [List.intercalate_cons_of_ne_nil (by simp), List.length_append, List.length_append,
          List.length_singleton]
        omega
  simp only [encodeArray, List.length_cons, List.length_append, List.cons_append, List.length_nil]
  omega

end Length

/-! ## One line -/

section OneLine

theorem le_of_mem_unicodeEscape (v : ℕ) : ∀ b ∈ unicodeEscape v, 0x20 ≤ b.toNat := by
  have hhex : ∀ n : ℕ, 0x20 ≤ (hexByte (n % 16)).toNat := by
    intro n
    have hall : ∀ m : Fin 16, 0x20 ≤ (hexByte m).toNat := by decide
    exact hall ⟨n % 16, Nat.mod_lt _ (by decide)⟩
  simp [unicodeEscape, hhex]

theorem le_of_mem_encodeSymbol (x : Symbol) : ∀ b ∈ encodeSymbol x, 0x20 ≤ b.toNat := by
  cases x with
  | bad b => exact le_of_mem_unicodeEscape _
  | rune c =>
    simp only [encodeSymbol]
    cases hshort : shortEscape c.toNat with
    | some letter =>
      have hall : ∀ p ∈ shortEscapes, 0x20 ≤ p.1.toNat :=
        List.all_iff_forall_prop.1 (by decide)
      obtain ⟨p, hp, rfl⟩ := Option.map_eq_some_iff.1 hshort
      have hle := hall p (List.mem_of_find?_eq_some hp)
      simpa using hle
    | none =>
      simp only
      split_ifs with hesc
      · exact le_of_mem_unicodeEscape _
      · exact le_of_mem_encodeRune (Nat.not_lt.1 fun h => hesc (.inl h))

/-- **No control character is written raw.** -/
theorem le_of_mem_encodeString (s : Bytes) : ∀ b ∈ encodeString s, 0x20 ≤ b.toNat := by
  intro b hb
  simp only [encodeString, List.cons_append, List.mem_cons, List.mem_append, List.mem_flatMap,
    List.not_mem_nil, or_false] at hb
  rcases hb with rfl | ⟨x, -, hx⟩ | rfl
  · decide
  · exact le_of_mem_encodeSymbol x b hx
  · decide

theorem newline_encodeString (s : Bytes) : 0x0A ∉ encodeString s := fun h =>
  absurd (le_of_mem_encodeString s _ h) (by decide)

theorem mem_intercalate {sep : UInt8} {texts : List Bytes} {b : UInt8}
    (h : b ∈ [sep].intercalate texts) : b = sep ∨ ∃ t ∈ texts, b ∈ t := by
  induction texts with
  | nil => simp at h
  | cons t texts ih =>
    cases texts with
    | nil => exact .inr ⟨t, List.mem_cons_self, by simpa [List.intercalate] using h⟩
    | cons u texts =>
      rw [List.intercalate_cons_of_ne_nil (by simp), List.append_assoc] at h
      rcases List.mem_append.1 h with ht | h
      · exact .inr ⟨t, List.mem_cons_self, ht⟩
      · rcases List.mem_cons.1 h with rfl | h
        · exact .inl rfl
        · obtain hsep | ⟨v, hv, hb⟩ := ih h
          · exact .inl hsep
          · exact .inr ⟨v, List.mem_cons_of_mem t hv, hb⟩

theorem newline_intercalate {texts : List Bytes} (h : ∀ t ∈ texts, 0x0A ∉ t) :
    0x0A ∉ [0x2C].intercalate texts := by
  intro hmem
  obtain hsep | ⟨t, ht, hmem⟩ := mem_intercalate hmem
  · exact absurd hsep (by decide)
  · exact h t ht hmem

theorem newline_encodeArray {texts : List Bytes} (h : ∀ t ∈ texts, 0x0A ∉ t) :
    0x0A ∉ encodeArray texts := by
  have := newline_intercalate h
  simp [encodeArray, this]

theorem le_of_mem_encodeArray {texts : List Bytes} (h : ∀ t ∈ texts, ∀ b ∈ t, 0x20 ≤ b.toNat) :
    ∀ b ∈ encodeArray texts, 0x20 ≤ b.toNat := by
  intro b hb
  simp only [encodeArray, List.cons_append, List.mem_cons, List.mem_append, List.not_mem_nil,
    or_false] at hb
  rcases hb with rfl | hb | rfl
  · decide
  · obtain rfl | ⟨t, ht, hb⟩ := mem_intercalate hb
    · decide
    · exact h t ht b hb
  · decide

theorem newline_encodeInt (n : Int64) : 0x0A ∉ encodeInt n := by
  have hdigits : 0x0A ∉ decimal n.toInt.natAbs := fun hmem =>
    absurd (decimal_isDigit _ _ hmem) (by decide)
  by_cases hn : n.toInt < 0
  · simp [encodeInt, hn, hdigits]
  · simp [encodeInt, hn, hdigits]

/-- All values of the kind are written on one line. -/
def Kind.OneLine {α : Type} (c : Kind α) : Prop := ∀ x t, c.write x = some t → 0x0A ∉ t

theorem Kind.oneLine_string : string.OneLine := by
  rintro s t ⟨⟩
  exact newline_encodeString s

theorem Kind.oneLine_int : int.OneLine := by
  rintro n t ⟨⟩
  exact newline_encodeInt n

theorem Kind.oneLine_strings : strings.OneLine := by
  rintro ss t ⟨⟩
  apply newline_encodeArray
  intro t ht
  obtain ⟨s, -, rfl⟩ := List.mem_map.1 ht
  exact newline_encodeString s

theorem Kind.OneLine.omitEmpty {α : Type} [DecidableEq α] {c : Kind α} (h : c.OneLine) (zero : α) :
    (c.omitEmpty zero).OneLine := by
  intro x t ht
  simp only [Kind.omitEmpty] at ht
  split_ifs at ht with hx
  exact h x t ht

theorem Kind.OneLine.pointer {α : Type} {c : Kind α} (h : c.OneLine) (zero : α) :
    (c.pointer zero).OneLine := by
  intro x t ht
  obtain ⟨x, rfl, hw⟩ := Option.bind_eq_some_iff.1 ht
  exact h x t hw

/-- All values of the field are written on one line. -/
def Field.OneLine {σ : Type} (f : Field σ) : Prop := ∀ x t, f.write x = some t → 0x0A ∉ t

theorem Kind.OneLine.field {σ α : Type} {c : Kind α} (h : c.OneLine) (name : Bytes) (get : σ → α)
    (set : σ → α → σ) : (Field.of name get set c).OneLine := fun x => h (get x)

/-- **A structure is written on one line** when its fields are. -/
theorem newline_encodeStruct {σ : Type} {fields : List (Field σ)} (h : ∀ f ∈ fields, f.OneLine)
    (x : σ) : 0x0A ∉ encodeStruct fields x := by
  have hmembers : ∀ t ∈ (fields.filterMap fun f => (f.write x).map fun t => (f.name, t)).map
      encodeMember, 0x0A ∉ t := by
    intro t ht
    obtain ⟨m, hm, rfl⟩ := List.mem_map.1 ht
    obtain ⟨f, hf, hw⟩ := List.mem_filterMap.1 hm
    obtain ⟨text, htext, rfl⟩ := Option.map_eq_some_iff.1 hw
    simp [encodeMember, newline_encodeString, h f hf x text htext]
  have := newline_intercalate hmembers
  simp [encodeStruct, encodeObject, this]

/-- A structure whose first field is there starts with the name of that field. -/
theorem encodeStruct_cons {σ : Type} {f : Field σ} {fs : List (Field σ)} {x : σ} {t tl : Bytes}
    {c : UInt8} (hw : f.write x = some t) (hname : encodeString f.name = 0x22 :: c :: tl) :
    ∃ L, encodeStruct (f :: fs) x = 0x7B :: 0x22 :: c :: L := by
  unfold encodeStruct encodeObject
  rw [List.filterMap_cons_some (b := (f.name, t)) (by simp [hw]), List.map_cons]
  cases (fs.filterMap fun f => (f.write x).map fun t => (f.name, t)).map encodeMember with
  | nil => exact ⟨_, by simp [List.intercalate, encodeMember, hname]; rfl⟩
  | cons m ms =>
    rw [List.intercalate_cons_of_ne_nil (by simp), encodeMember, hname]
    exact ⟨_, rfl⟩

end OneLine

end SecretsBroker.Json
