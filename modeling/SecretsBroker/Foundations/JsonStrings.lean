import SecretsBroker.Foundations.Json

/-!
# The strings of a parsed value

Whatever bytes a text has, the strings that the parser makes of it are valid UTF-8: an escape stands
for a rune, and a byte that is no part of a rune is read as U+FFFD. So are the strings that the
fields of a structure get from a parsed value.
-/

namespace SecretsBroker.Json

open Utf8

/-- All strings within the value are valid UTF-8. -/
inductive Text : Json → Prop
  | null : Text .null
  | bool (b : Bool) : Text (.bool b)
  | number (text : Bytes) : Text (.number text)
  | string {s : Bytes} (h : Valid s) : Text (.string s)
  | array {elems : List Json} (h : ∀ v ∈ elems, Text v) : Text (.array elems)
  | object {members : List (Bytes × Json)} (h : ∀ m ∈ members, Text m.2) : Text (.object members)

/-! ## The parser -/

theorem valid_readStringAux {n : ℕ} {s : Bytes} {x : Bytes × Bytes}
    (h : readStringAux n s = some x) : Valid x.1 := by
  -- a rune in front of what the rest is read as
  have hrune : ∀ {c : Char} {o : Option (Bytes × Bytes)} {x : Bytes × Bytes},
      (∀ y, o = some y → Valid y.1) → (o.map fun p => (encodeRune c ++ p.1, p.2)) = some x →
      Valid x.1 := by
    intro c o x ho hx
    obtain ⟨y, hy, rfl⟩ := Option.map_eq_some_iff.1 hx
    exact valid_encodeRune_append.2 (ho y hy)
  induction n generalizing s x with
  | zero => simp [readStringAux] at h
  | succ n ih =>
    cases s with
    | nil => simp [readStringAux] at h
    | cons b tl =>
      unfold readStringAux at h
      split_ifs at h
      · obtain rfl := Option.some.inj h
        exact valid_str ""
      · split at h
        · cases h
        · exact hrune (fun _ hy => ih hy) h
      · split at h
        · exact hrune (fun _ hy => ih hy) h
        · exact hrune (fun _ hy => ih hy) h

theorem text_readScalar {s : Bytes} {x : Json × Bytes} (h : readScalar s = some x) : Text x.1 := by
  unfold readScalar at h
  split at h
  · next p hp =>
    obtain rfl := Option.some.inj h
    have hmem := List.mem_of_find?_eq_some hp
    simp only [literals, List.mem_cons, List.not_mem_nil, or_false] at hmem
    rcases hmem with rfl | rfl | rfl
    · exact .null
    · exact .bool true
    · exact .bool false
  · obtain ⟨y, -, rfl⟩ := Option.map_eq_some_iff.1 h
    exact .number y.1

/-- By induction on the fuel, for the three readers at once. -/
theorem text_value_aux (n : ℕ) :
    (∀ s x, value n s = some x → Text x.1) ∧
    (∀ s x, elements n s = some x → ∀ v ∈ x.1, Text v) ∧
    ∀ s x, members n s = some x → ∀ m ∈ x.1, Text m.2 := by
  induction n with
  | zero => simp [value, elements, members]
  | succ n ih =>
    obtain ⟨ihv, ihe, ihm⟩ := ih
    refine ⟨fun s x h => ?_, fun s x h => ?_, fun s x h => ?_⟩
    · unfold value at h
      split at h
      · cases h
      split_ifs at h
      · obtain ⟨y, hy, rfl⟩ := Option.map_eq_some_iff.1 h
        exact .string (valid_readStringAux hy)
      · split at h
        · cases h
        split_ifs at h
        · obtain rfl := Option.some.inj h
          exact .array (by simp)
        · obtain ⟨y, hy, rfl⟩ := Option.map_eq_some_iff.1 h
          exact .array (ihe _ y hy)
      · split at h
        · cases h
        split_ifs at h
        · obtain rfl := Option.some.inj h
          exact .object (by simp)
        · obtain ⟨y, hy, rfl⟩ := Option.map_eq_some_iff.1 h
          exact .object (ihm _ y hy)
      · exact text_readScalar h
    · unfold elements at h
      split at h
      · cases h
      next v rest hv =>
      split at h
      · cases h
      split_ifs at h
      · obtain ⟨y, hy, rfl⟩ := Option.map_eq_some_iff.1 h
        exact List.forall_mem_cons.2 ⟨ihv _ _ hv, ihe _ y hy⟩
      · obtain rfl := Option.some.inj h
        exact List.forall_mem_cons.2 ⟨ihv _ _ hv, by simp⟩
    · unfold members at h
      split at h
      · cases h
      split_ifs at h
      split at h
      · cases h
      split at h
      · cases h
      split_ifs at h
      split at h
      · cases h
      next v rest hv =>
      split at h
      · cases h
      split_ifs at h
      · obtain ⟨y, hy, rfl⟩ := Option.map_eq_some_iff.1 h
        exact List.forall_mem_cons.2 ⟨ihv _ _ hv, ihm _ y hy⟩
      · obtain rfl := Option.some.inj h
        exact List.forall_mem_cons.2 ⟨ihv _ _ hv, by simp⟩

/-- **A parsed value has valid strings**, whatever text it was parsed from. -/
theorem text_parse {s : Bytes} {x : Json × Bytes} (h : parse s = some x) : Text x.1 :=
  (text_value_aux _).1 s x h

/-! ## The fields of a structure -/

theorem valid_decodeString {old s : Bytes} {j : Json} (hj : Text j) (hold : Valid old)
    (h : decodeString old j = some s) : Valid s := by
  cases hj with
  | null =>
    obtain rfl := Option.some.inj h
    exact hold
  | string hs =>
    obtain rfl := Option.some.inj h
    exact hs
  | bool | number | array | object => cases h

theorem valid_decodeElements {old ss : List Bytes} {js : List Json} (hjs : ∀ j ∈ js, Text j)
    (hold : ∀ s ∈ old, Valid s) (h : decodeElements old js = some ss) : ∀ s ∈ ss, Valid s := by
  induction js generalizing old ss with
  | nil =>
    obtain rfl := Option.some.inj h
    simp
  | cons j js ih =>
    simp only [decodeElements, Option.bind_eq_bind, Option.bind_eq_some_iff] at h
    obtain ⟨s, hs, ss', hss, h⟩ := h
    obtain rfl := Option.some.inj h
    have hhead : Valid (old.headD []) := by
      cases old with
      | nil => exact valid_str ""
      | cons o old => exact hold o (by simp)
    exact List.forall_mem_cons.2 ⟨valid_decodeString (hjs j (by simp)) hhead hs,
      ih (fun j hj => hjs j (by simp [hj])) (fun s hs => hold s (List.mem_of_mem_tail hs)) hss⟩

theorem valid_decodeStrings {old ss : List Bytes} {j : Json} (hj : Text j)
    (hold : ∀ s ∈ old, Valid s) (h : decodeStrings old j = some ss) : ∀ s ∈ ss, Valid s := by
  cases hj with
  | null =>
    obtain rfl := Option.some.inj h
    simp
  | array hjs => exact valid_decodeElements hjs hold h
  | bool | number | string | object => cases h

end SecretsBroker.Json
