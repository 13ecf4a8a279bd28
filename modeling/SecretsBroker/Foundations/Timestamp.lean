import Mathlib.Data.List.DropRight
import Mathlib.Data.Nat.Digits.Defs
import Mathlib.Tactic.IntervalCases
import SecretsBroker.Foundations.JsonStruct
import SecretsBroker.Foundations.Quote

/-!
# Times and their text

Times are nanoseconds since 1970, in UTC. `civil` gives the date of a day and `daysOf` the day of a
date (`daysOf_civil`). `rfc3339Nano` is the text that `encoding/json` writes for a time, for the
years from 0 to 9999, and `parseRfc3339` reads such a text back, also with the offset of a time
zone. `parse_rfc3339Nano`: a time comes back to the nanosecond.
-/

namespace SecretsBroker.Timestamp

open Json

/-! ## The calendar -/

/-- The day of the civil calendar that is `days` days after 1 January 1970. -/
def civil (days : ℤ) : ℤ × ℕ × ℕ :=
  let z := days + 719468
  let era := z / 146097
  let doe := (z - era * 146097).toNat
  let yoe := (doe - doe / 1460 + doe / 36524 - doe / 146096) / 365
  let doy := doe - (365 * yoe + yoe / 4 - yoe / 100)
  let mp := (5 * doy + 2) / 153
  let month := if mp < 10 then mp + 3 else mp - 9
  (yoe + era * 400 + (if month ≤ 2 then 1 else 0), month, doy - (153 * mp + 2) / 5 + 1)

def isLeap (year : ℤ) : Bool := year % 4 = 0 ∧ (year % 100 ≠ 0 ∨ year % 400 = 0)

def daysIn (month : ℕ) (year : ℤ) : ℕ :=
  if month = 2 then (if isLeap year then 29 else 28)
  else if month = 4 ∨ month = 6 ∨ month = 9 ∨ month = 11 then 30 else 31

/-- The days from 1 January 1970 to a date. A year is counted from March, so that its last day is
the one that a leap year adds. -/
def daysOf (year : ℤ) (month day : ℕ) : ℤ :=
  let y := if month ≤ 2 then year - 1 else year
  let yoe := (y % 400).toNat
  let mp := if month ≤ 2 then month + 9 else month - 3
  y / 400 * 146097 +
    ((365 * yoe + yoe / 4 - yoe / 100 + ((153 * mp + 2) / 5 + (day - 1)) : ℕ) : ℤ) - 719468

/-- The days of an era of 400 years before one of its years. -/
def yearStart (yoe : ℕ) : ℕ := 365 * yoe + yoe / 4 - yoe / 100

/-- The year of a day in its era. -/
theorem year_spec {doe yoe : ℕ} (h : doe < 146097)
    (hy : yoe = (doe - doe / 1460 + doe / 36524 - doe / 146096) / 365) :
    yoe ≤ 399 ∧ yearStart yoe ≤ doe ∧ (yoe < 399 → doe < yearStart (yoe + 1)) := by
  unfold yearStart
  have he : doe / 36524 ≤ 4 := by omega
  have hf : doe / 146096 ≤ 1 := by omega
  have hyoe : yoe ≤ 399 := by omega
  -- the day and the year are linear in each other within a century
  generalize hE : doe / 36524 = e at *
  generalize hF : doe / 146096 = f at *
  generalize hG : doe / 1460 = g at *
  refine ⟨hyoe, ?_, fun hlt => ?_⟩
  · generalize hC : yoe / 100 = c at *
    have hc : c ≤ 3 := by omega
    interval_cases e <;> interval_cases f <;> interval_cases c <;> omega
  · generalize hC : (yoe + 1) / 100 = c at *
    have hc : c ≤ 3 := by omega
    interval_cases e <;> interval_cases f <;> interval_cases c <;> omega

/-- The month of a day in a year that begins in March. -/
theorem month_spec {doy mp : ℕ} (h : doy ≤ 365) (hm : mp = (5 * doy + 2) / 153) :
    mp ≤ 11 ∧ (153 * mp + 2) / 5 ≤ doy ∧ doy < (153 * (mp + 1) + 2) / 5 := by omega

/-- A year has 366 days only if the next February has 29. -/
theorem length_year {yoe : ℕ} (h : yoe < 399) : yearStart (yoe + 1) - yearStart yoe =
    if isLeap (yoe + 1) then 366 else 365 := by
  have hleap : isLeap ((yoe : ℤ) + 1) = true ↔ (yoe + 1) % 4 = 0 ∧ (yoe + 1) % 100 ≠ 0 := by
    simp only [isLeap, decide_eq_true_eq]
    omega
  unfold yearStart
  split_ifs with hl
  · have := hleap.1 hl
    omega
  · have : ¬ ((yoe + 1) % 4 = 0 ∧ (yoe + 1) % 100 ≠ 0) := fun h => hl (hleap.2 h)
    omega

/-- A day in March of a year of an era has the number that its year, its month and its day make. -/
theorem civil_eq (days : ℤ) : ∃ (era : ℤ) (yoe mp dom : ℕ), yoe ≤ 399 ∧ mp ≤ 11 ∧
    dom < (153 * (mp + 1) + 2) / 5 - (153 * mp + 2) / 5 ∧
    (mp = 11 → dom ≤ if isLeap (yoe + 1) then 28 else 27) ∧
    days = era * 146097 + ((yearStart yoe + ((153 * mp + 2) / 5 + dom) : ℕ) : ℤ) - 719468 ∧
    civil days = (yoe + era * 400 + (if mp < 10 then 0 else 1),
      (if mp < 10 then mp + 3 else mp - 9), dom + 1) := by
  obtain ⟨doe, era, hdoe, hz⟩ : ∃ (doe : ℕ) (era : ℤ), doe < 146097 ∧
      days + 719468 = era * 146097 + doe := by
    refine ⟨((days + 719468) % 146097).toNat, (days + 719468) / 146097, ?_, ?_⟩ <;> omega
  have hera : (days + 719468) / 146097 = era := by omega
  have hdoe' : (days + 719468 - era * 146097).toNat = doe := by omega
  obtain ⟨yoe, hyoe⟩ : ∃ yoe, yoe = (doe - doe / 1460 + doe / 36524 - doe / 146096) / 365 :=
    ⟨_, rfl⟩
  obtain ⟨hyle, hstart, hnext⟩ := year_spec hdoe hyoe
  obtain ⟨doy, hdoy⟩ : ∃ doy, doe = yearStart yoe + doy := ⟨doe - yearStart yoe, by omega⟩
  have hleap : doy ≤ if isLeap (yoe + 1) then 365 else 364 := by
    by_cases h399 : yoe < 399
    · have := length_year h399
      have := hnext h399
      split_ifs at * <;> omega
    · obtain rfl : yoe = 399 := by omega
      have : yearStart 399 = 145731 := by decide
      simp [isLeap]
      omega
  have hdoyle : doy ≤ 365 := by
    split_ifs at hleap <;> omega
  obtain ⟨mp, hmp⟩ : ∃ mp, mp = (5 * doy + 2) / 153 := ⟨_, rfl⟩
  obtain ⟨hmle, hmstart, hmnext⟩ := month_spec hdoyle hmp
  refine ⟨era, yoe, mp, doy - (153 * mp + 2) / 5, hyle, hmle, by omega, fun h => ?_, ?_, ?_⟩
  · subst h
    split_ifs at hleap ⊢ <;> omega
  · omega
  · have hdoy' : doe - (365 * yoe + yoe / 4 - yoe / 100) = doy := by
      change doe - yearStart yoe = doy
      omega
    simp only [civil, hera, hdoe', ← hyoe, hdoy', ← hmp]
    by_cases hlt : mp < 10
    · simp [hlt]
    · have : mp - 9 ≤ 2 := by omega
      simp [hlt, this]

/-- **The day of the date of a day is that day**, and the date is one of the calendar. -/
theorem daysOf_civil (days : ℤ) :
    daysOf (civil days).1 (civil days).2.1 (civil days).2.2 = days ∧
      (civil days).2.1 ∈ Set.Icc 1 12 ∧
      (civil days).2.2 ∈ Set.Icc 1 (daysIn (civil days).2.1 (civil days).1) := by
  obtain ⟨era, yoe, mp, dom, hyoe, hmp, hdom, hleap, hdays, hcivil⟩ := civil_eq days
  rw [hcivil]
  have hera : ((yoe : ℤ) + era * 400) / 400 = era := by omega
  have hyear : (((yoe : ℤ) + era * 400) % 400).toNat = yoe := by omega
  simp only [Set.mem_Icc]
  refine ⟨?_, by split_ifs <;> omega, by omega, ?_⟩
  · by_cases hlt : mp < 10
    · have hmonth : ¬ mp + 3 ≤ 2 := by omega
      simp only [daysOf, hlt, hmonth, if_true, if_false, add_zero, hera, hyear, Nat.add_sub_cancel]
      exact hdays.symm
    · have hmonth : mp - 9 ≤ 2 := by omega
      have hmp' : mp - 9 + 9 = mp := by omega
      simp only [daysOf, hlt, hmonth, if_true, if_false, add_sub_cancel_right, hera, hyear, hmp',
        Nat.add_sub_cancel]
      exact hdays.symm
  · -- an era has a whole number of leap years
    have hfeb : isLeap ((yoe : ℤ) + era * 400 + 1) = isLeap ((yoe : ℤ) + 1) := by
      simp only [isLeap, decide_eq_decide]
      omega
    by_cases hlast : mp = 11
    · subst hlast
      have hday := hleap rfl
      rw [← hfeb] at hday
      change dom + 1 ≤ if isLeap ((yoe : ℤ) + era * 400 + 1) = true then 29 else 28
      split_ifs at hday ⊢ <;> omega
    · have : mp ≤ 10 := by omega
      clear hleap hdays hcivil
      interval_cases mp <;> simp [daysIn] <;> omega

/-! ## The text of a time -/

/-- A number with at least `width` digits. -/
def padded (width n : ℕ) : Bytes :=
  List.replicate (width - (itoa n).length) 0x30 ++ itoa n

/-- The fraction of a second, without zeros at its end. -/
def fraction (nanos : ℕ) : Bytes :=
  if nanos = 0 then [] else 0x2E :: (padded 9 nanos).rdropWhile (· == 0x30)

/-- `time.RFC3339Nano` for a time in UTC, when its year has four digits. -/
def rfc3339Nano (time : ℤ) : Option Bytes :=
  let seconds := time / 1000000000
  let (year, month, day) := civil (seconds / 86400)
  let second := (seconds % 86400).toNat
  if 0 ≤ year ∧ year ≤ 9999 then
    some (padded 4 year.toNat ++ str "-" ++ padded 2 month ++ str "-" ++ padded 2 day ++ str "T" ++
      padded 2 (second / 3600) ++ str ":" ++ padded 2 (second / 60 % 60) ++ str ":" ++
      padded 2 (second % 60) ++ fraction (time % 1000000000).toNat ++ str "Z")
  else none

/-- A number of `width` digits within some bounds. -/
def readUint (width lo hi : ℕ) (s : Bytes) : Option (ℕ × Bytes) :=
  let ds := s.take width
  if ds.length = width ∧ ds.all isDigit ∧ lo ≤ digitsValue ds ∧ digitsValue ds ≤ hi then
    some (digitsValue ds, s.drop width)
  else none

def readByte (b : UInt8) : Bytes → Option Bytes
  | [] => none
  | c :: s => if c = b then some s else none

/-- The fraction of a second, if there is one. Digits after the ninth are dropped. -/
def readFraction : Bytes → ℕ × Bytes
  | 0x2E :: s =>
    let ds := s.takeWhile isDigit
    if ds = [] then (0, 0x2E :: s)
    else (digitsValue (ds.take 9 ++ List.replicate (9 - ds.length) 0x30), s.dropWhile isDigit)
  | s => (0, s)

/-- The offset of a time zone in seconds, up to the end of the text. -/
def readZone (s : Bytes) : Option ℤ :=
  if s = str "Z" then some 0
  else
    match s with
    | [] => none
    | sign :: s => do
      let (hours, s) ← readUint 2 0 23 s
      let s ← readByte 0x3A s
      let (minutes, s) ← readUint 2 0 59 s
      let offset : ℤ := (hours * 60 + minutes) * 60
      if s ≠ [] then none
      else if sign = 0x2B then some offset
      else if sign = 0x2D then some (-offset)
      else none

/-- A time in the form of RFC 3339. -/
def parseRfc3339 (s : Bytes) : Option ℤ := do
  let (year, s) ← readUint 4 0 9999 s
  let s ← readByte 0x2D s
  let (month, s) ← readUint 2 1 12 s
  let s ← readByte 0x2D s
  let (day, s) ← readUint 2 1 (daysIn month year) s
  let s ← readByte 0x54 s
  let (hour, s) ← readUint 2 0 23 s
  let s ← readByte 0x3A s
  let (minute, s) ← readUint 2 0 59 s
  let s ← readByte 0x3A s
  let (second, s) ← readUint 2 0 59 s
  let (nanos, s) := readFraction s
  let offset ← readZone s
  some ((daysOf year month day * 86400 + (hour * 3600 + minute * 60 + second : ℕ) - offset) *
    1000000000 + nanos)

/-! ## A time comes back -/

/-- Digits are single bytes. -/
theorem itoa_eq_decimal (n : ℕ) : itoa n = decimal n := by
  have hsingle : ∀ cs : List Char, (∀ c ∈ cs, c.toNat < 0x80) →
      cs.flatMap Utf8.encodeRune = cs.map fun c => UInt8.ofNat c.toNat := by
    intro cs hcs
    induction cs with
    | nil => rfl
    | cons c cs ih =>
      rw [List.flatMap_cons, List.map_cons, ih fun c hc => hcs c (by simp [hc]),
        Utf8.encodeRune_eq, if_pos (by have := hcs c (by simp); omega)]
      rfl
  refine hsingle _ fun c hc => ?_
  have hdigit := Nat.isDigit_of_mem_toDigits (by decide) (by decide) hc
  simp only [Char.isDigit, ge_iff_le, Bool.and_eq_true, decide_eq_true_eq] at hdigit
  have h : c.toNat ≤ 57 := hdigit.2
  omega

section Padded

variable {width n : ℕ}

theorem length_padded (hwidth : 0 < width) (h : n < 10 ^ width) :
    (padded width n).length = width := by
  have hle : (itoa n).length ≤ width := by
    rw [itoa_eq_decimal, decimal, List.length_map]
    exact (Nat.length_toDigits_le_iff (by decide) hwidth).2 h
  rw [padded, List.length_append, List.length_replicate]
  omega

theorem isDigit_padded (width n : ℕ) : ∀ b ∈ padded width n, isDigit b = true := by
  intro b hb
  rcases List.mem_append.1 hb with hb | hb
  · rw [List.eq_of_mem_replicate hb]
    rfl
  · rw [itoa_eq_decimal] at hb
    exact decimal_isDigit n b hb

theorem digitsValue_padded (width n : ℕ) : digitsValue (padded width n) = n := by
  have hzero : Char.ofNat (0x30 : UInt8).toNat = '0' := by decide
  conv_rhs => rw [← digitsValue_decimal n]
  simp only [digitsValue, padded, itoa_eq_decimal, List.map_append, List.map_replicate, hzero,
    Nat.ofDigitChars_append, Nat.ofDigitChars_replicate_zero, mul_zero]

/-- A number is read back from its digits. -/
theorem readUint_padded {lo hi : ℕ} (hwidth : 0 < width) (h : n < 10 ^ width) (hlo : lo ≤ n)
    (hhi : n ≤ hi) (rest : Bytes) :
    readUint width lo hi (padded width n ++ rest) = some (n, rest) := by
  have hlen := length_padded hwidth h
  have htake : (padded width n ++ rest).take width = padded width n := List.take_left' hlen
  have hdrop : (padded width n ++ rest).drop width = rest := List.drop_left' hlen
  have hall : (padded width n).all isDigit = true := List.all_eq_true.2 (isDigit_padded width n)
  simp only [readUint, htake, hdrop, hlen, hall, digitsValue_padded, hlo, hhi, and_self, if_true]

end Padded

theorem readByte_cons (b : UInt8) (s : Bytes) : readByte b (b :: s) = some s := by
  rw [readByte, if_pos rfl]

theorem readFraction_fraction {nanos : ℕ} (h : nanos < 1000000000) {rest : Bytes} {b : UInt8}
    (hb : isDigit b = false) (hdot : b ≠ 0x2E) :
    readFraction (fraction nanos ++ b :: rest) = (nanos, b :: rest) := by
  unfold fraction
  split_ifs with hzero
  · subst hzero
    rw [List.nil_append, readFraction]
    rintro s heq
    exact absurd (List.cons.inj heq).1 hdot
  · obtain ⟨ds, hds⟩ : ∃ ds, ds = (padded 9 nanos).rdropWhile (· == 0x30) := ⟨_, rfl⟩
    -- what is left out are zeros
    have hsplit : ds ++ List.replicate (9 - ds.length) 0x30 = padded 9 nanos := by
      have happend := @List.rdropWhile_append_rtakeWhile _ (· == (0x30 : UInt8)) (padded 9 nanos)
      rw [← hds] at happend
      have hlen := congrArg List.length happend
      rw [List.length_append, length_padded (by decide) h] at hlen
      have hzeros : (padded 9 nanos).rtakeWhile (· == 0x30) = List.replicate (9 - ds.length) 0x30 :=
        List.eq_replicate_iff.2 ⟨by omega, fun c hc => by simpa using List.mem_rtakeWhile_imp hc⟩
      rw [← hzeros, happend]
    have hdigits : ∀ c ∈ ds, isDigit c = true := fun c hc =>
      isDigit_padded 9 nanos c (hsplit ▸ List.mem_append_left _ hc)
    have hle : ds.length ≤ 9 := by
      have hlen := congrArg List.length hsplit
      rw [List.length_append, length_padded (by decide) h] at hlen
      omega
    have hne : ds ≠ [] := by
      rintro rfl
      have hvalue := digitsValue_padded 9 nanos
      rw [← hsplit] at hvalue
      exact hzero (hvalue.symm.trans (by decide))
    rw [← hds, List.cons_append, readFraction]
    have htake : (ds ++ b :: rest).takeWhile isDigit = ds := by
      rw [List.takeWhile_append_of_pos hdigits, List.takeWhile_cons_of_neg (by simp [hb]),
        List.append_nil]
    have hdrop : (ds ++ b :: rest).dropWhile isDigit = b :: rest := by
      rw [List.dropWhile_append_of_pos hdigits, List.dropWhile_cons_of_neg (by simp [hb])]
    simp only [htake, hdrop, hne, if_false, List.take_of_length_le hle, hsplit, digitsValue_padded]

/-- **A time comes back to the nanosecond.** -/
theorem parse_rfc3339Nano {time : ℤ} {text : Bytes} (h : rfc3339Nano time = some text) :
    parseRfc3339 text = some time := by
  obtain ⟨hdays, ⟨hmonth, hmonth'⟩, hday, hday'⟩ := daysOf_civil (time / 1000000000 / 86400)
  obtain ⟨⟨year, month, day⟩, hdate⟩ : ∃ date, civil (time / 1000000000 / 86400) = date := ⟨_, rfl⟩
  rw [hdate] at hdays hmonth hmonth' hday hday'
  simp only [rfc3339Nano, hdate] at h hdays hmonth hmonth' hday hday'
  split_ifs at h with hyear
  obtain rfl := Option.some.inj h
  obtain ⟨y, rfl⟩ := Int.eq_ofNat_of_zero_le hyear.1
  have hday31 : daysIn month y ≤ 31 := by
    unfold daysIn
    split_ifs <;> omega
  obtain ⟨second, hsecond⟩ : ∃ second, second = (time / 1000000000 % 86400).toNat := ⟨_, rfl⟩
  have hlt : second < 86400 := by omega
  have hdash : str "-" = [0x2D] := by decide
  have hcolon : str ":" = [0x3A] := by decide
  have hT : str "T" = [0x54] := by decide
  have hZ : str "Z" = [0x5A] := by decide
  simp only [← hsecond, hdash, hcolon, hT, hZ, List.append_assoc, List.nil_append,
    List.cons_append, Int.toNat_natCast]
  have hread : ∀ {n lo hi : ℕ}, n < 10 ^ 2 → lo ≤ n → n ≤ hi → ∀ rest,
      readUint 2 lo hi (padded 2 n ++ rest) = some (n, rest) :=
    fun h hlo hhi rest => readUint_padded (by decide) h hlo hhi rest
  have hyears : ∀ rest, readUint 4 0 9999 (padded 4 y ++ rest) = some (y, rest) :=
    readUint_padded (by decide) (by omega) (by omega) (by omega)
  have hmonths := @hread month 1 12 (by omega) hmonth hmonth'
  have hdates := @hread day 1 (daysIn month y) (by omega) hday hday'
  have hhours := @hread (second / 3600) 0 23 (by omega) (by omega) (by omega)
  have hminutes := @hread (second / 60 % 60) 0 59 (by omega) (by omega) (by omega)
  have hseconds := @hread (second % 60) 0 59 (by omega) (by omega) (by omega)
  have hnanos := @readFraction_fraction (time % 1000000000).toNat (by omega) [] 0x5A (by decide)
    (by decide)
  have hzone : readZone [0x5A] = some 0 := by decide
  -- one field after the other, each up to the mark that follows it
  have hnext : ∀ {α : Type} {p : Option α} {a : α} {f : α → Option ℤ} {t : ℤ}, p = some a →
      f a = some t → (p >>= f) = some t := fun hp hf => Option.bind_eq_some_iff.2 ⟨_, hp, hf⟩
  unfold parseRfc3339
  refine hnext (hyears _) (hnext (readByte_cons _ _) ?_)
  refine hnext (hmonths _) (hnext (readByte_cons _ _) ?_)
  refine hnext (hdates _) (hnext (readByte_cons _ _) ?_)
  refine hnext (hhours _) (hnext (readByte_cons _ _) ?_)
  refine hnext (hminutes _) (hnext (readByte_cons _ _) ?_)
  refine hnext (hseconds _) ?_
  simp only [hnanos, hzone, Option.bind_eq_bind, Option.bind_some, hdays, Option.some.injEq]
  omega

example :
    rfc3339Nano 1000000000120000000 = some (str "2001-09-09T01:46:40.12Z") := by decide +kernel

/-- The text of a time is ASCII. -/
theorem lt_of_mem_rfc3339Nano {time : ℤ} {text : Bytes} (h : rfc3339Nano time = some text) :
    ∀ b ∈ text, b.toNat < 0x80 := by
  have hpadded : ∀ width n, ∀ b ∈ padded width n, b.toNat < 0x80 := by
    intro width n b hb
    have hdigit := isDigit_padded width n b hb
    simp only [isDigit, Bool.and_eq_true, decide_eq_true_eq] at hdigit
    omega
  have hfraction : ∀ n, ∀ b ∈ fraction n, b.toNat < 0x80 := by
    intro n b hb
    unfold fraction at hb
    split_ifs at hb
    · simp at hb
    · rcases List.mem_cons.1 hb with rfl | hb
      · decide
      · exact hpadded 9 n b ((List.rdropWhile_prefix _ _).subset hb)
  have hmark : ∀ s ∈ ["-", "T", ":", "Z"], ∀ b ∈ str s, b.toNat < 0x80 := by decide +kernel
  simp only [rfc3339Nano] at h
  split_ifs at h
  obtain rfl := Option.some.inj h
  intro b hb
  simp only [List.mem_append] at hb
  rcases hb with (((((((((((hb | hb) | hb) | hb) | hb) | hb) | hb) | hb) | hb) | hb) | hb) | hb) |
    hb
  all_goals first
    | exact hpadded _ _ b hb
    | exact hfraction _ b hb
    | exact hmark _ (by simp) b hb

end SecretsBroker.Timestamp

namespace SecretsBroker.Json.Kind

open Timestamp

/-- A time. Here the decoded string is parsed, in the source the text between the quotes as it is;
so a time that is written with escapes is accepted here only. -/
def time : Kind ℤ where
  write t := (rfc3339Nano t).map encodeString
  read old
    | .null => some old
    | .string s => parseRfc3339 s
    | _ => none

theorem carries_time {t : ℤ} {text : Bytes} (h : rfc3339Nano t = some text) (old : ℤ) :
    time.Carries old t t := by
  have hvalid : Utf8.toValid text = text :=
    (Utf8.toValid_eq_self_iff _).2 (Utf8.valid_of_ascii (lt_of_mem_rfc3339Nano h))
  refine carries_of_write (by simp only [time, h, Option.map_some])
    (reads_encodeString text).inside ?_
  rw [hvalid]
  exact parse_rfc3339Nano h

end SecretsBroker.Json.Kind
