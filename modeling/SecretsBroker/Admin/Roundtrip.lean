import SecretsBroker.Admin.Frame

/-!
# An entry added and removed

An entry that `insertAllowEntry` adds to a block that ends in a newline is two lines of its own,
whatever the arguments are. It is the last entry of the block, and `removeAllowEntries` at its index
gives back the text byte by byte (`removeAllowEntries_insertAllowEntry`). The headers are counted on
the way: the block has one more allow header, and the other blocks are the same text
(`Part.blockText_eq`).
-/

namespace SecretsBroker.Admin

/-! ## The other blocks -/

/-- The text between the bounds of a block. -/
def blockText (data : Bytes) (n j : ℕ) : Except Bytes Bytes := do
  let (start, stop) ← projectBlockBounds data n j
  pure (slice data start stop)

/-- The number of allow headers in a block. -/
def allowHeaderCount (data : Bytes) (n j : ℕ) : Except Bytes ℕ :=
  (blockText data n j).map fun block => (findAllIndex allowHeaderPattern block).length

section Blocks

variable {data updated : Bytes} {n i j : ℕ}

/-- The text of a block from the list of the headers. -/
theorem blockText_eq (data : Bytes) (n j : ℕ) : blockText data n j =
    if (findAllIndex projectHeaderPattern data).length ≠ n then .error errProjectBlocks
    else match (findAllIndex projectHeaderPattern data)[j]? with
      | none => .error errProjectOutside
      | some header => .ok (slice data header.2
          (((findAllIndex projectHeaderPattern data)[j + 1]?.map Prod.fst).getD data.length)) := by
  unfold blockText projectBlockBounds projectHeader
  dsimp only
  split_ifs
  · rfl
  · cases (findAllIndex projectHeaderPattern data)[j]? <;> rfl

theorem slice_append_left {u : Bytes} (w : Bytes) {a b : ℕ} (h : b ≤ u.length) :
    slice (u ++ w) a b = slice u a b := by
  rw [slice, slice, List.take_append_of_le_length h]

theorem slice_append_right (u w : Bytes) (a b : ℕ) :
    slice (u ++ w) (u.length + a) (u.length + b) = slice w a b := by
  rw [slice, slice, List.take_length_add_append, List.drop_length_add_append]

theorem Part.length_findAllIndex_after (P : Part projectHeaderPattern data i) :
    (findAllIndex projectHeaderPattern data).length =
      i + 1 + (findAllIndex projectHeaderPattern P.after).length := by
  have hbefore : (findAllIndex projectHeaderPattern P.before).length = i :=
    (length_findAllIndex _ _).trans P.index
  rw [P.findAllIndex_eq projectHeaderPattern_nil]
  simp only [List.length_append, List.length_cons, List.length_map, hbefore]
  omega

/-- The blocks before the selected one are those of the text up to its header. -/
theorem Part.blockText_of_lt (P : Part projectHeaderPattern data i)
    (hn : (findAllIndex projectHeaderPattern data).length = n) (hj : j < i) :
    blockText data n j = blockText (P.before ++ P.header) (i + 1) j := by
  have hupto : findAllIndex projectHeaderPattern (P.before ++ P.header) =
      findAllIndex projectHeaderPattern P.before ++
        [(P.before.length, (P.before ++ P.header).length)] := by
    have haround := findAllIndex_around projectHeaderPattern_nil P.start P.line (.inl rfl)
    rw [List.append_nil, if_pos P.matched, findAllIndex_nil projectHeaderPattern_nil] at haround
    simpa using haround
  have hlen : (findAllIndex projectHeaderPattern (P.before ++ P.header)).length = i + 1 := by
    rw [hupto, List.length_append, length_findAllIndex, P.index, List.length_singleton]
  -- the two headers that bound the block
  have hget : ∀ k ≤ i, (findAllIndex projectHeaderPattern data)[k]? =
      (findAllIndex projectHeaderPattern (P.before ++ P.header))[k]? := by
    intro k hk
    rw [P.findAllIndex_eq projectHeaderPattern_nil, ← List.singleton_append, ← List.append_assoc,
      ← hupto, List.getElem?_append_left (by omega)]
  obtain ⟨next, hnext⟩ : ∃ next,
      (findAllIndex projectHeaderPattern (P.before ++ P.header))[j + 1]? = some next :=
    ⟨_, List.getElem?_eq_getElem (by omega)⟩
  have hstop : next.1 ≤ (P.before ++ P.header).length := by
    obtain ⟨h₁, h₂⟩ := mem_findAllIndex_le (List.mem_of_getElem? hnext)
    exact h₁.trans h₂
  have hslice : ∀ a, slice data a next.1 = slice (P.before ++ P.header) a next.1 := by
    intro a
    have := slice_append_left (P.body ++ P.after) (a := a) hstop
    rwa [← List.append_assoc, ← P.eq] at this
  rw [blockText_eq, blockText_eq, if_neg (not_not.2 hn), if_neg (not_not.2 hlen), hget j hj.le,
    hget (j + 1) hj, hnext]
  simp only [Option.map_some, Option.getD_some, hslice]

/-- The blocks behind the selected one are those of the text behind it. -/
theorem Part.blockText_of_gt (P : Part projectHeaderPattern data i)
    (hn : (findAllIndex projectHeaderPattern data).length = n) (k : ℕ) :
    blockText data n (i + 1 + k) =
      blockText P.after (findAllIndex projectHeaderPattern P.after).length k := by
  set u := P.before ++ P.header ++ P.body with hu
  have hbefore : (findAllIndex projectHeaderPattern P.before).length = i :=
    (length_findAllIndex _ _).trans P.index
  have hget : ∀ k, (findAllIndex projectHeaderPattern data)[i + 1 + k]? =
      (findAllIndex projectHeaderPattern P.after)[k]?.map (shift u.length) := by
    intro k
    rw [P.findAllIndex_eq projectHeaderPattern_nil, List.getElem?_append_right (by omega), hbefore,
      show i + 1 + k - i = k + 1 by omega, List.getElem?_cons_succ, List.getElem?_map]
  have hstop : ((findAllIndex projectHeaderPattern data)[i + 1 + k + 1]?.map Prod.fst).getD
      data.length = u.length +
        ((findAllIndex projectHeaderPattern P.after)[k + 1]?.map Prod.fst).getD P.after.length := by
    have hlen : data.length = u.length + P.after.length := by
      rw [← List.length_append, hu, ← P.eq]
    rw [Nat.add_assoc, hget, hlen]
    cases (findAllIndex projectHeaderPattern P.after)[k + 1]? <;> rfl
  have hslice : ∀ a b, slice data (u.length + a) (u.length + b) = slice P.after a b := by
    intro a b
    have := slice_append_right u P.after a b
    rwa [hu, ← P.eq, ← hu] at this
  rw [blockText_eq, blockText_eq, if_neg (not_not.2 hn), if_neg (not_not.2 rfl), hget, hstop]
  cases (findAllIndex projectHeaderPattern P.after)[k]? with
  | none => rfl
  | some header => exact congrArg Except.ok (hslice header.2 _)

namespace Part.SameFrame

variable {P : Part projectHeaderPattern data i} {Q : Part projectHeaderPattern updated i}

theorem length_eq (h : P.SameFrame Q) : (findAllIndex projectHeaderPattern updated).length =
    (findAllIndex projectHeaderPattern data).length := by
  rw [Q.length_findAllIndex_after, h.2, ← P.length_findAllIndex_after]

/-- **The other blocks are the same text** when the same text stands around the selected one. -/
theorem blockText_eq (h : P.SameFrame Q)
    (hn : (findAllIndex projectHeaderPattern data).length = n) (hj : j ≠ i) :
    blockText updated n j = blockText data n j := by
  have hn' := h.length_eq.trans hn
  rcases Nat.lt_or_gt_of_ne hj with hlt | hgt
  · rw [Q.blockText_of_lt hn' hlt, P.blockText_of_lt hn hlt, h.1]
  · obtain ⟨k, rfl⟩ := Nat.exists_eq_add_of_lt hgt
    rw [show i + k + 1 = i + 1 + k by omega, Q.blockText_of_gt hn', P.blockText_of_gt hn, h.2]

end Part.SameFrame

end Blocks

/-! ## Two lines at the end of a block -/

section Lines

variable {data : Bytes} {n i : ℕ}

theorem findAllIndex_two_lines {p : Bytes → Bool} (hp : p [] = false) {u l l' : Bytes}
    (hu : LineStart u) (hl : newline ∉ l) (hl' : newline ∉ l') :
    findAllIndex p (u ++ (l ++ [newline] ++ l' ++ [newline])) =
      findAllIndex p u ++ (if p l then [(u.length, (u ++ l).length)] else []) ++
        (if p l' then [((u ++ l ++ [newline]).length, (u ++ l ++ [newline] ++ l').length)]
          else []) := by
  have hend : findAllIndex p [newline] = [] := by
    rw [← List.nil_append [newline], findAllIndex_append_newline, findAllIndex_nil hp]
    rfl
  have hstop : LineStop [newline] := .inr ⟨[], rfl⟩
  have hassoc : u ++ (l ++ [newline] ++ l' ++ [newline]) =
      u ++ l ++ [newline] ++ l' ++ [newline] := by
    simp only [List.append_assoc]
  rw [hassoc, findAllIndex_around hp (lineStart_append_newline _) hl' hstop,
    findAllIndex_around hp hu hl hstop, hend]
  simp only [List.map_nil, List.append_nil]

theorem cutSpans_two_lines (u l l' w : Bytes) :
    cutSpans (u ++ l ++ l' ++ w) 0
      [(u.length, (u ++ l).length), ((u ++ l).length, (u ++ l ++ l').length)] = .ok (u ++ w) := by
  have hfirst : slice (u ++ l ++ l' ++ w) 0 u.length = u := by
    have := slice_append [] u (l ++ l' ++ w)
    simpa using this
  have hempty : slice (u ++ l ++ l' ++ w) (u ++ l).length (u ++ l).length = [] := by
    have := slice_append (u ++ l) [] (l' ++ w)
    simpa using this
  have hrest : (u ++ l ++ l' ++ w).drop (u ++ l ++ l').length = w := List.drop_left
  simp only [cutSpans, Nat.not_lt_zero, lt_irrefl, if_false, bind, Except.bind, pure, Except.pure,
    hfirst, hempty, hrest, List.nil_append]

/-- A block whose last byte is a newline. -/
theorem Part.body_eq_of_last (P : Part projectHeaderPattern data i)
    (h : data[P.offset + P.body.length - 1]? = some newline) : ∃ m, P.body = m ++ [newline] := by
  have hlast : (P.before ++ P.header ++ P.body).getLast? = some newline := by
    have hpos : 0 < (P.before ++ P.header ++ P.body).length := by
      have := List.length_pos_iff.2 (P.header_ne_nil projectHeaderPattern_nil)
      simp only [List.length_append]
      omega
    have hget := @List.getElem?_append_left _ (P.before ++ P.header ++ P.body) P.after _
      (Nat.sub_lt hpos Nat.one_pos)
    rw [← P.eq] at hget
    rw [List.getLast?_eq_getElem?, ← hget, List.length_append]
    exact h
  rcases List.eq_nil_or_concat P.body with hnil | ⟨m, c, hbody⟩
  · rw [hnil, List.append_nil,
      List.getLast?_append_of_ne_nil _ (P.header_ne_nil projectHeaderPattern_nil)] at hlast
    exact absurd (List.mem_of_getLast? hlast) P.line
  · rw [hbody, List.concat_eq_append, ← List.append_assoc, List.getLast?_concat] at hlast
    obtain rfl := Option.some.inj hlast
    exact ⟨m, by rw [hbody, List.concat_eq_append]⟩

theorem Part.take_stop (P : Part projectHeaderPattern data i) :
    data.take (P.offset + P.body.length) = P.before ++ P.header ++ P.body := by
  have htake : (P.before ++ P.header ++ P.body ++ P.after).take
      (P.before ++ P.header ++ P.body).length = P.before ++ P.header ++ P.body := List.take_left
  rwa [← P.eq, List.length_append] at htake

theorem Part.slice_eq (P : Part projectHeaderPattern data i) :
    slice data P.offset (P.offset + P.body.length) = P.body := by
  rw [slice, P.take_stop]
  exact List.drop_left

theorem Part.blockText_eq (P : Part projectHeaderPattern data i)
    (hn : (findAllIndex projectHeaderPattern data).length = n) :
    blockText data n i = .ok P.body := by
  simp only [blockText, P.bounds hn, bind, Except.bind, pure, Except.pure, P.slice_eq]

/-- The removal of entries, from the part of the project. -/
theorem Part.removeAllowEntries_eq (P : Part projectHeaderPattern data i)
    (hn : (findAllIndex projectHeaderPattern data).length = n) {allowCount : ℕ}
    (hcount : (findAllIndex allowHeaderPattern P.body).length = allowCount) (remove : List ℕ) :
    removeAllowEntries data n i allowCount remove =
      remove.mapM
        (allowEntrySpans data P.body P.offset (findAllIndex allowHeaderPattern P.body)) >>=
        fun spans => cutSpans data 0 spans.flatten := by
  simp only [removeAllowEntries, P.bounds hn, bind, Except.bind, P.slice_eq, hcount, ne_eq,
    not_true_eq_false, if_false]

/-- The two lines of a new entry. -/
theorem exists_entryLines (data : Bytes) (argv : List Bytes) :
    ∃ l l', entryText data argv = l ++ [newline] ++ l' ++ [newline] ∧ newline ∉ l ∧ newline ∉ l' ∧
      mark l = some .allow ∧ argvPattern l' = true := by
  obtain ⟨e⟩ := exists_ending data
  refine ⟨str "  [[projects.allow]]" ++ e.eol, str "  argv = " ++ encodeArgv argv ++ e.eol, ?_, ?_,
    ?_, e.mark_allow, e.argvPattern_argvLine argv⟩
  · conv_lhs => rw [entryText, e.eq]
    simp only [List.append_assoc]
  · have hheader : newline ∉ str "  [[projects.allow]]" := by decide +kernel
    simp only [List.mem_append, not_or]
    exact ⟨hheader, e.newline_notMem⟩
  · have hargv := newline_argvLine argv
    simp only [List.mem_append, not_or] at hargv ⊢
    exact ⟨hargv, e.newline_notMem⟩

/-- The block with two lines added at its end, of which none is a project header. -/
theorem Part.exists_two_lines (P : Part projectHeaderPattern data i) {m l l' : Bytes}
    (hbody : P.body = m ++ [newline]) (hl : newline ∉ l) (hl' : newline ∉ l')
    (hp : projectHeaderPattern l = false) (hp' : projectHeaderPattern l' = false) :
    ∃ Q : Part projectHeaderPattern
      (P.before ++ P.header ++ (P.body ++ (l ++ [newline] ++ l' ++ [newline])) ++ P.after) i,
        P.SameFrame Q ∧ Q.body = P.body ++ (l ++ [newline] ++ l' ++ [newline]) := by
  have hstart : LineStart P.body := .inr ⟨m, hbody⟩
  have hstop : LineStop (P.body ++ (l ++ [newline] ++ l' ++ [newline])) := by
    rcases P.body_stop with hnil | ⟨b, hb⟩
    · simp [hbody] at hnil
    · exact .inr ⟨b ++ (l ++ [newline] ++ l' ++ [newline]), by rw [hb]; rfl⟩
  have hfree : findAllIndex projectHeaderPattern
      (P.body ++ (l ++ [newline] ++ l' ++ [newline])) = [] := by
    rw [findAllIndex_two_lines projectHeaderPattern_nil hstart hl hl',
      findAllIndex_eq_nil_iff.2 P.body_free, hp, hp']
    rfl
  have hend : ∃ e, P.body ++ (l ++ [newline] ++ l' ++ [newline]) = e ++ [newline] :=
    ⟨P.body ++ (l ++ [newline] ++ l'), by simp only [List.append_assoc]⟩
  exact ⟨P.withBody _ hstop (.inr hend) hfree, ⟨rfl, rfl⟩, rfl⟩

theorem consumeNewline_cons (u w : Bytes) :
    consumeNewline (u ++ newline :: w) u.length = (u ++ [newline]).length := by
  rw [consumeNewline_append]
  simp

theorem allowHeaderPattern_nil : allowHeaderPattern [] = false := by decide +kernel

theorem argvPattern_nil : argvPattern [] = false := by decide +kernel

/-- The spans of an entry whose two lines end the block. -/
theorem allowEntrySpans_last (u b w : Bytes) {l l' : Bytes} (hb : LineStart b) (hl : newline ∉ l)
    (hl' : newline ∉ l') (hmark : mark l = some .allow) (hargv : argvPattern l' = true) :
    (findAllIndex allowHeaderPattern (b ++ (l ++ [newline] ++ l' ++ [newline]))).length =
        (findAllIndex allowHeaderPattern b).length + 1 ∧
      allowEntrySpans (u ++ (b ++ (l ++ [newline] ++ l' ++ [newline])) ++ w)
        (b ++ (l ++ [newline] ++ l' ++ [newline])) u.length
        (findAllIndex allowHeaderPattern (b ++ (l ++ [newline] ++ l' ++ [newline])))
        (findAllIndex allowHeaderPattern b).length =
      .ok [((u ++ b).length, (u ++ b ++ (l ++ [newline])).length),
        ((u ++ b ++ (l ++ [newline])).length,
          (u ++ b ++ (l ++ [newline]) ++ (l' ++ [newline])).length)] := by
  have hheaders : findAllIndex allowHeaderPattern (b ++ (l ++ [newline] ++ l' ++ [newline])) =
      findAllIndex allowHeaderPattern b ++ [(b.length, (b ++ l).length)] := by
    rw [findAllIndex_two_lines allowHeaderPattern_nil hb hl hl', if_pos (mark_eq_allow.1 hmark),
      allowHeaderPattern_eq_false (by rw [mark_argv hargv]; simp)]
    simp
  refine ⟨by rw [hheaders, List.length_append, List.length_singleton], ?_⟩
  -- the section of the entry is its `argv` line
  have hsection : slice (b ++ (l ++ [newline] ++ l' ++ [newline])) (b ++ l).length
      (b ++ (l ++ [newline] ++ l' ++ [newline])).length = [newline] ++ l' ++ [newline] := by
    have := slice_append (b ++ l) ([newline] ++ l' ++ [newline]) []
    simpa [Nat.add_assoc] using this
  have hmatches : findAllIndex argvPattern ([newline] ++ l' ++ [newline]) =
      [(1, 1 + l'.length)] := by
    have htwo := findAllIndex_two_lines argvPattern_nil (.inl rfl)
      (List.not_mem_nil : newline ∉ []) hl'
    rw [if_pos hargv, argvPattern_nil, findAllIndex_nil argvPattern_nil] at htwo
    simpa [Nat.add_comm] using htwo
  have hfirst : (findAllIndex allowHeaderPattern b ++
      [(b.length, (b ++ l).length)])[(findAllIndex allowHeaderPattern b).length]? =
        some (b.length, (b ++ l).length) := by
    simp
  have hnext : (findAllIndex allowHeaderPattern b ++
      [(b.length, (b ++ l).length)])[(findAllIndex allowHeaderPattern b).length + 1]? = none := by
    simp
  have hnl : consumeNewline (u ++ (b ++ (l ++ [newline] ++ l' ++ [newline])) ++ w)
      (u.length + (b ++ l).length) = (u ++ b ++ (l ++ [newline])).length := by
    have := consumeNewline_cons (u ++ b ++ l) (l' ++ [newline] ++ w)
    simpa [Nat.add_assoc] using this
  have hnl' : consumeNewline (u ++ (b ++ (l ++ [newline] ++ l' ++ [newline])) ++ w)
      (u.length + (b ++ l).length + (1 + l'.length)) =
        (u ++ b ++ (l ++ [newline]) ++ (l' ++ [newline])).length := by
    have := consumeNewline_cons (u ++ b ++ (l ++ [newline]) ++ l') w
    simpa [Nat.add_assoc, Nat.add_comm 1] using this
  rw [hheaders]
  simp only [allowEntrySpans, hfirst, hnext, Option.map_none, Option.getD_none, hsection, hmatches,
    hnl, hnl']
  simp [Nat.add_assoc]

end Lines

/-! ## The round trip -/

section Roundtrip

variable {data updated : Bytes} {n i allowCount : ℕ} {argv : List Bytes}

/-- **An entry added and removed leaves the text as it was.** The block of the project ends in a
newline. The insertion adds one allow header to the block, no project header, and no allow header
elsewhere. -/
theorem removeAllowEntries_insertAllowEntry {start stop : ℕ}
    (h : insertAllowEntry data n i allowCount argv = .ok updated)
    (hb : projectBlockBounds data n i = .ok (start, stop)) (hend : data[stop - 1]? = some newline) :
    removeAllowEntries updated n i (allowCount + 1) [allowCount] = .ok data ∧
      (findAllIndex projectHeaderPattern updated).length =
        (findAllIndex projectHeaderPattern data).length ∧
      allowHeaderCount data n i = .ok allowCount ∧
      allowHeaderCount updated n i = .ok (allowCount + 1) ∧
      ∀ j ≠ i, allowHeaderCount updated n j = allowHeaderCount data n j := by
  obtain ⟨P, hn, hcount, rfl⟩ := insertAllowEntry_ok h
  rw [P.bounds hn] at hb
  obtain ⟨rfl, rfl⟩ := Prod.mk.inj (Except.ok.inj hb)
  obtain ⟨m, hbody⟩ := P.body_eq_of_last hend
  obtain ⟨l, l', hentry, hl, hl', hmark, hargv⟩ := exists_entryLines data argv
  have hproject : projectHeaderPattern l = false :=
    projectHeaderPattern_eq_false (by rw [hmark]; simp)
  have hproject' : projectHeaderPattern l' = false :=
    projectHeaderPattern_eq_false (by rw [mark_argv hargv]; simp)
  have hstart : LineStart P.body := .inr ⟨m, hbody⟩
  have hupdated : splice data (P.offset + P.body.length) (P.offset + P.body.length)
      (if midLine data (P.offset + P.body.length) then newlineOf data ++ entryText data argv
        else entryText data argv) =
      P.before ++ P.header ++ (P.body ++ (l ++ [newline] ++ l' ++ [newline])) ++ P.after := by
    have hmid : midLine data (P.offset + P.body.length) = false := by
      rw [midLine, P.take_stop, hbody, ← List.append_assoc, List.getLast?_concat]
      rfl
    have hbody' : P.body = P.body ++ [] ++ [] := by simp
    have hsplice := P.splice_body hbody' (entryText data argv)
    rw [hmid, if_neg Bool.false_ne_true, ← hentry]
    simpa [Part.offset] using hsplice
  rw [hupdated]
  obtain ⟨Q, hframe, hQ⟩ := P.exists_two_lines hbody hl hl' hproject hproject'
  have hnQ := hframe.length_eq.trans hn
  obtain ⟨hlen, hspans⟩ :=
    allowEntrySpans_last (P.before ++ P.header) P.body P.after hstart hl hl' hmark hargv
  rw [hcount] at hlen hspans
  refine ⟨?_, hframe.length_eq, ?_, ?_, fun j hj => ?_⟩
  · have hoffset : Q.offset = (P.before ++ P.header).length := congrArg List.length hframe.1
    have hcut := cutSpans_two_lines (P.before ++ P.header ++ P.body) (l ++ [newline])
      (l' ++ [newline]) P.after
    have hlenQ : (findAllIndex allowHeaderPattern Q.body).length = allowCount + 1 := by
      rw [hQ, hlen]
    rw [Q.removeAllowEntries_eq hnQ hlenQ, hoffset, hQ, List.mapM_cons, hspans]
    simp only [List.mapM_nil, bind, Except.bind, pure, Except.pure, List.flatten_cons,
      List.flatten_nil, List.append_nil]
    rw [← P.eq] at hcut
    simpa only [List.append_assoc] using hcut
  · rw [allowHeaderCount, P.blockText_eq hn, ← hcount]
    rfl
  · rw [allowHeaderCount, Q.blockText_eq hnQ, hQ, ← hlen]
    rfl
  · rw [allowHeaderCount, allowHeaderCount, hframe.blockText_eq hn hj]

/-- Two projects, with both line endings. -/
def mixedPolicy : Bytes :=
  str "[[projects]]\r\nalias = \"web\"\n  [[projects.allow]]\n  argv = [\"ls\"]\r\n# end\n[[projects]]\n"

/-- An argument that reads like a header. -/
def headerArgv : List Bytes := [str "echo", str "\n[[projects]]\r\n"]

theorem removeAllowEntries_insertAllowEntry_mixed :
    ∃ updated, insertAllowEntry mixedPolicy 2 0 1 headerArgv = .ok updated ∧
      removeAllowEntries updated 2 0 2 [1] = .ok mixedPolicy := by
  have hok : (insertAllowEntry mixedPolicy 2 0 1 headerArgv).toBool = true := by decide +kernel
  have hb : projectBlockBounds mixedPolicy 2 0 = .ok (13, 72) := by decide +kernel
  have hend : mixedPolicy[72 - 1]? = some newline := by decide +kernel
  cases h : insertAllowEntry mixedPolicy 2 0 1 headerArgv with
  | error e =>
    rw [h] at hok
    cases hok
  | ok updated => exact ⟨updated, rfl, (removeAllowEntries_insertAllowEntry h hb hend).1⟩

end Roundtrip

end SecretsBroker.Admin
