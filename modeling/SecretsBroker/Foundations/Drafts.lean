import SecretsBroker.Foundations.Replacement

/-!
# What a process installs is what it wrote

Processes that follow the replacement protocol, any number of times. Without any assumption on
stamps a replacement may replace a version that its process has not read. What it installs is its
own all the same: a temporary file is found under its name by the process that created it, and
nobody else writes to it.

`Owned` is the invariant, and `Owned.step` that every step of every process keeps it. A replacement
stands in the log with the bytes its process had read last and the bytes it wrote (`Owned.logged`).
-/

namespace SecretsBroker.Replacement

open Files

/-- The protocol, which a process may begin anew at any time. -/
def Again (target : Bytes) (Permits : Bytes → Bytes → Prop) (q : Phase) (op : FileOp)
    (r : op.Answer) (q' : Phase) : Prop :=
  Next target Permits q op r q' ∨ Next target Permits .idle op r q'

/-- The temporary file of a process in a phase. -/
def Owns (v : Volume) : Phase → Prop
  | .drafting _ _ _ tmp name c => ∃ t, Drafts v [] name c t ∧ v.desc? tmp = some ⟨t, false⟩
  | .drafted _ _ _ name c => ∃ t, Drafts v [] name c t
  | _ => True

/-- The last replacement of a process. -/
def History.lastEntry {ι : Type} [DecidableEq ι] (h : History ι) (i : ι) : Option (Entry ι) :=
  (h.log.filter fun e => e.who = i).getLast?

/-- What holds in every state of a system of processes that follow `Again`. -/
structure Owned {ι : Type} [DecidableEq ι] (target : Bytes) (v : Volume) (h : History ι)
    (phase : ι → Phase) : Prop where
  names_lt : ∀ n o, v.names.lookup n = some o → o < v.files.length
  present : ∃ o, v.names.lookup target = some o
  fds_lt : ∀ i, ∀ fd ∈ (phase i).fds, fd < v.fds.length
  fds_disjoint : ∀ i j, i ≠ j → ∀ fd ∈ (phase i).fds, fd ∉ (phase j).fds
  read : ∀ i b, (phase i).bytes? = some b → (h.read i).2 = b
  owns : ∀ i, Owns v (phase i)
  apart : ∀ i name, (phase i).draft = some name →
    name ≠ target ∧ ∀ j, j ≠ i → (phase j).draft ≠ some name
  logged : ∀ i b c, (phase i).result = some (b, c) →
    ∃ e, h.lastEntry i = some e ∧ e.read = b ∧ e.written = c

section Owns

variable {v v' : Volume} {q : Phase}

/-- A temporary file survives a change that keeps its name, its contents and its descriptor. -/
theorem Owns.frame (ho : Owns v q) (hfds : ∀ fd ∈ q.fds, v'.desc? fd = v.desc? fd)
    (hdraft : ∀ name c t, q.draft = some name → Drafts v [] name c t → Drafts v' [] name c t) :
    Owns v' q := by
  cases q with
  | drafting m b fd tmp name c =>
    obtain ⟨t, hd, ht⟩ := ho
    exact ⟨t, hdraft name c t rfl hd, (hfds tmp (by simp [Phase.fds])).trans ht⟩
  | drafted m b fd name c =>
    obtain ⟨t, hd⟩ := ho
    exact ⟨t, hdraft name c t rfl hd⟩
  | _ => trivial

theorem Drafts.of_fds {name : Bytes} {c : Option Bytes} {t : ℕ} {fds : List (Option Desc)}
    (h : Drafts v [] name c t) : Drafts { v with fds := fds } [] name c t :=
  ⟨h.lookup, h.new, h.only, h.contents⟩

/-- The file behind a temporary name. -/
theorem Owns.lookup {name : Bytes} (ho : Owns v q) (hq : q.draft = some name) :
    ∃ c t, Drafts v [] name c t := by
  cases q with
  | drafting m b fd tmp name' c =>
    obtain ⟨t, hd, -⟩ := ho
    obtain rfl : name' = name := Option.some.inj hq
    exact ⟨c, t, hd⟩
  | drafted m b fd name' c =>
    obtain ⟨t, hd⟩ := ho
    obtain rfl : name' = name := Option.some.inj hq
    exact ⟨c, t, hd⟩
  | _ => simp [Phase.draft] at hq

end Owns

section Steps

variable {ι : Type} [DecidableEq ι] {target : Bytes} {v v' : Volume} {h h' : History ι}
  {phase : ι → Phase} {i : ι} {q' : Phase}

/-- A step of process `i`: what it has read, owns and has installed afterwards, and that the
temporary files of the others are left alone. -/
theorem Owned.move (ho : Owned target v h phase)
    (hnames : ∀ n o, v'.names.lookup n = some o → o < v'.files.length)
    (hpresent : ∃ o, v'.names.lookup target = some o) (hle : v.fds.length ≤ v'.fds.length)
    (hlast : ∀ j, j ≠ i → h'.lastEntry j = h.lastEntry j)
    (hreads : ∀ j, j ≠ i → h'.read j = h.read j)
    (hread : ∀ b, q'.bytes? = some b → (h'.read i).2 = b)
    (hres : ∀ b c, q'.result = some (b, c) →
      ∃ e, h'.lastEntry i = some e ∧ e.read = b ∧ e.written = c)
    (hothers : ∀ j, j ≠ i → Owns v (phase j) → Owns v' (phase j))
    (hfds : ∀ fd ∈ q'.fds, fd ∈ (phase i).fds ∨ fd = v.fds.length ∧ fd < v'.fds.length)
    (hdraft : ∀ name, q'.draft = some name → (phase i).draft = some name ∨
      (name ≠ target ∧ ∀ j, j ≠ i → (phase j).draft ≠ some name))
    (hq : Owns v' q') : Owned target v' h' (Function.update phase i q') := by
  -- each field by whether it is about `i`
  have split : ∀ {P : ι → Phase → Prop}, P i q' → (∀ j, j ≠ i → P j (phase j)) →
      ∀ j, P j (Function.update phase i q' j) := by
    intro P hi hj j
    by_cases hji : j = i
    · subst hji
      rwa [Function.update_self]
    · rw [Function.update_of_ne hji]
      exact hj j hji
  have fresh : ∀ j, j ≠ i → ∀ fd ∈ q'.fds, fd ∉ (phase j).fds := by
    intro j hj fd hfd hmem
    rcases hfds fd hfd with hold | ⟨rfl, -⟩
    · exact ho.fds_disjoint i j (Ne.symm hj) fd hold hmem
    · exact absurd (ho.fds_lt j _ hmem) (lt_irrefl _)
  have apart : ∀ name, q'.draft = some name →
      name ≠ target ∧ ∀ j, j ≠ i → (phase j).draft ≠ some name := fun name hname =>
    (hdraft name hname).elim (ho.apart i name) id
  refine ⟨hnames, hpresent, ?_, ?_, ?_, ?_, ?_, ?_⟩
  · refine @split (fun _ q => ∀ fd ∈ q.fds, fd < v'.fds.length) (fun fd hfd => ?_)
      fun j _ fd hfd => lt_of_lt_of_le (ho.fds_lt j fd hfd) hle
    rcases hfds fd hfd with hold | ⟨-, hlt⟩
    · exact lt_of_lt_of_le (ho.fds_lt i fd hold) hle
    · exact hlt
  · intro a b hab fd ha hb
    by_cases hai : a = i
    · subst hai
      rw [Function.update_self] at ha
      rw [Function.update_of_ne (Ne.symm hab)] at hb
      exact fresh b (Ne.symm hab) fd ha hb
    · rw [Function.update_of_ne hai] at ha
      by_cases hbi : b = i
      · subst hbi
        rw [Function.update_self] at hb
        exact fresh a hai fd hb ha
      · rw [Function.update_of_ne hbi] at hb
        exact ho.fds_disjoint a b hab fd ha hb
  · exact @split (fun j q => ∀ b, q.bytes? = some b → (h'.read j).2 = b) hread
      fun j hj b hb => by rw [hreads j hj]; exact ho.read j b hb
  · exact @split (fun _ q => Owns v' q) hq fun j hj => hothers j hj (ho.owns j)
  · refine @split (fun j q => ∀ name, q.draft = some name → name ≠ target ∧
      ∀ k, k ≠ j → (Function.update phase i q' k).draft ≠ some name) (fun name hname => ?_)
      fun j hj name hname => ⟨(ho.apart j name hname).1, fun k hk => ?_⟩
    · refine ⟨(apart name hname).1, fun k hk => ?_⟩
      rw [Function.update_of_ne hk]
      exact (apart name hname).2 k hk
    · by_cases hki : k = i
      · subst hki
        rw [Function.update_self]
        exact fun hq' => (apart name hq').2 j hj hname
      · rw [Function.update_of_ne hki]
        exact (ho.apart j name hname).2 k hk
  · exact @split (fun j q => ∀ b c, q.result = some (b, c) →
      ∃ e, h'.lastEntry j = some e ∧ e.read = b ∧ e.written = c) hres
      fun j hj b c hr => by rw [hlast j hj]; exact ho.logged j b c hr

/-- A step that changes the descriptors at most. -/
theorem Owned.still (ho : Owned target v h phase) {fds : List (Option Desc)}
    (hle : v.fds.length ≤ fds.length) (hlog : h'.log = h.log)
    (hreads : ∀ j, j ≠ i → h'.read j = h.read j)
    (hread : ∀ b, q'.bytes? = some b → (h'.read i).2 = b)
    (hres : ∀ b c, q'.result = some (b, c) → (phase i).result = some (b, c))
    (hdesc : ∀ j, j ≠ i → ∀ fd ∈ (phase j).fds,
      ({ v with fds := fds } : Volume).desc? fd = v.desc? fd)
    (hfds : ∀ fd ∈ q'.fds, fd ∈ (phase i).fds ∨ fd = v.fds.length ∧ fd < fds.length)
    (hdraft : ∀ name, q'.draft = some name → (phase i).draft = some name)
    (hq : Owns { v with fds := fds } q') :
    Owned target { v with fds := fds } h' (Function.update phase i q') :=
  ho.move ho.names_lt ho.present hle (fun _ _ => by simp [History.lastEntry, hlog]) hreads hread
    (fun b c hr => by simpa [History.lastEntry, hlog] using ho.logged i b c (hres b c hr))
    (fun j hj hown => hown.frame (hdesc j hj) fun _ _ _ _ => Drafts.of_fds) hfds
    (fun name hname => .inl (hdraft name hname)) hq

/-- A step that leaves the volume as it was. -/
theorem Owned.stay (ho : Owned target v h phase) (hlog : h'.log = h.log)
    (hreads : ∀ j, j ≠ i → h'.read j = h.read j)
    (hread : ∀ b, q'.bytes? = some b → (h'.read i).2 = b)
    (hres : ∀ b c, q'.result = some (b, c) → (phase i).result = some (b, c))
    (hfds : ∀ fd ∈ q'.fds, fd ∈ (phase i).fds)
    (hdraft : ∀ name, q'.draft = some name → (phase i).draft = some name) (hq : Owns v q') :
    Owned target v h' (Function.update phase i q') :=
  @Owned.still ι _ target v h h' phase i q' ho v.fds le_rfl hlog hreads hread hres
    (fun _ _ _ _ => rfl) (fun fd hfd => .inl (hfds fd hfd)) hdraft hq

/-- A change of the process's temporary file. -/
theorem Owned.modifyDraft (ho : Owned target v h phase) {m : Stamp} {b name : Bytes}
    {fd tmp : ℕ} {c c' : Option Bytes} (hp : phase i = .drafting m b fd tmp name c)
    (f : Inode → Inode)
    (hc : ∀ x', c' = some x' → ∃ x, c = some x ∧ ∀ g : Inode, g.bytes = x → (f g).bytes = x') :
    Owned target (v.modify tmp f) h
      (Function.update phase i (.drafting m b fd tmp name c')) := by
  have hown := ho.owns i
  rw [hp] at hown
  obtain ⟨t, hd, ht⟩ := hown
  rw [Volume.modify_of_desc? ht]
  refine ho.move ?_ ho.present le_rfl (fun _ _ => rfl) (fun _ _ => rfl) ?_ (by simp [Phase.result])
    ?_ (by simp [hp, Phase.fds]) (by simp [hp, Phase.draft]) ?_
  · intro n o hn
    simpa using ho.names_lt n o hn
  · exact fun x hx => ho.read i x (by simpa [hp, Phase.bytes?] using hx)
  · intro j hj hown
    refine hown.frame (fun _ _ => rfl) fun n c'' t' hn hd' => ?_
    -- another name leads to another file
    have hne : t ≠ t' := by
      rintro rfl
      have hsame := hd'.only name hd.lookup
      exact (ho.apart i name (by simp [hp, Phase.draft])).2 j hj (hsame ▸ hn)
    refine ⟨hd'.lookup, hd'.new, hd'.only, fun x hx => ?_⟩
    obtain ⟨g, hg, hgb⟩ := hd'.contents x hx
    exact ⟨g, by simpa [hne] using hg, hgb⟩
  · refine ⟨t, ⟨hd.lookup, hd.new, hd.only, fun x' hx' => ?_⟩, ht⟩
    obtain ⟨x, hx, hf⟩ := hc x' hx'
    obtain ⟨g, hg, hgb⟩ := hd.contents x hx
    exact ⟨f g, by simp [hg], hf g hgb⟩

/-- Closing one of the process's descriptors. -/
theorem Owned.close (ho : Owned target v h phase) {fd : ℕ} (hfd : fd ∈ (phase i).fds)
    (hread : ∀ b, q'.bytes? = some b → (h.read i).2 = b)
    (hres : ∀ b c, q'.result = some (b, c) → (phase i).result = some (b, c))
    (hfds : ∀ k ∈ q'.fds, k ∈ (phase i).fds)
    (hdraft : ∀ name, q'.draft = some name → (phase i).draft = some name)
    (hq : Owns { v with fds := v.fds.set fd none } q') :
    Owned target { v with fds := v.fds.set fd none } h (Function.update phase i q') := by
  refine ho.still (by simp) rfl (fun _ _ => rfl) hread hres (fun j hj k hk => ?_)
    (fun k hk => .inl (hfds k hk)) hdraft hq
  rw [Volume.desc?_close, if_neg]
  rintro rfl
  exact ho.fds_disjoint i j (Ne.symm hj) k hfd hk

/-- Opening a file. -/
theorem Owned.open (ho : Owned target v h phase) {o : ℕ}
    (hread : ∀ b, q'.bytes? = some b → (h.read i).2 = b)
    (hres : q'.result = none) (hfds : ∀ fd ∈ q'.fds, fd = v.fds.length) (hdraft : q'.draft = none)
    (hq : Owns { v with fds := v.fds ++ [some ⟨o, false⟩] } q') :
    Owned target { v with fds := v.fds ++ [some ⟨o, false⟩] } h (Function.update phase i q') := by
  refine ho.still (by simp) rfl (fun _ _ => rfl) hread (by simp [hres]) (fun j hj k hk => ?_)
    (fun k hk => .inr ⟨hfds k hk, by simp [hfds k hk]⟩) (by simp [hdraft]) hq
  rw [Volume.desc?_open, if_neg (Nat.ne_of_lt (ho.fds_lt j k hk))]

/-- Creating the process's temporary file. -/
theorem Owned.create (ho : Owned target v h phase) {m : Stamp} {b name : Bytes} {fd : ℕ}
    (hp : phase i = .confirmed m b fd) (hnew : v.names.lookup name = none) (a : Attr) :
    Owned target
      { v with
        names := v.names.insert name v.files.length
        files := v.files ++ [⟨a, []⟩]
        fds := v.fds ++ [some ⟨v.files.length, false⟩] }
      h (Function.update phase i (.drafting m b fd v.fds.length name (some []))) := by
  obtain ⟨cur, hcur⟩ := ho.present
  have hne : target ≠ name := by
    rintro rfl
    simp [hnew] at hcur
  refine ho.move ?_ ⟨cur, (AList.lookup_insert_ne hne).trans hcur⟩ (by simp) (fun _ _ => rfl)
    (fun _ _ => rfl) ?_ (by simp [Phase.result]) ?_ (by simp [hp, Phase.fds]) ?_ ?_
  · intro n o hn
    simp only [List.length_append, List.length_cons, List.length_nil]
    by_cases hnn : n = name
    · subst hnn
      obtain rfl : v.files.length = o := by simpa using hn
      omega
    · have := ho.names_lt n o (by rwa [AList.lookup_insert_ne hnn] at hn)
      omega
  · exact fun x hx => ho.read i x (by simpa [hp, Phase.bytes?] using hx)
  · intro j hj hown
    refine hown.frame (fun k hk => ?_) fun n c t hn hd => ?_
    · exact (Volume.desc?_open v ⟨v.files.length, false⟩ k).trans
        (if_neg (Nat.ne_of_lt (ho.fds_lt j k hk)))
    · have hnn : n ≠ name := by
        rintro rfl
        exact absurd hd.lookup (by simp [hnew])
      have hlt := ho.names_lt n t hd.lookup
      refine ⟨(AList.lookup_insert_ne hnn).trans hd.lookup, hd.new, fun x hx => ?_, fun x hx => ?_⟩
      · by_cases hxn : x = name
        · subst hxn
          obtain rfl : v.files.length = t := by simpa using hx
          exact absurd hlt (lt_irrefl _)
        · exact hd.only x (by rwa [AList.lookup_insert_ne hxn] at hx)
      · obtain ⟨g, hg, hgb⟩ := hd.contents x hx
        exact ⟨g, (List.getElem?_append_left hlt).trans hg, hgb⟩
  · intro n hn
    obtain rfl : name = n := Option.some.inj hn
    refine .inr ⟨Ne.symm hne, fun j _ hj => ?_⟩
    obtain ⟨c, t, hd⟩ := (ho.owns j).lookup hj
    exact absurd hd.lookup (by simp [hnew])
  · refine ⟨v.files.length, ⟨AList.lookup_insert _, by simp, fun x hx => ?_, fun x hx => ?_⟩, ?_⟩
    · by_contra hxn
      rw [AList.lookup_insert_ne hxn] at hx
      exact absurd (ho.names_lt x _ hx) (lt_irrefl _)
    · obtain rfl : [] = x := by simpa using hx
      exact ⟨⟨a, []⟩, by simp, rfl⟩
    · exact (Volume.desc?_open v ⟨v.files.length, false⟩ _).trans (if_pos rfl)

/-- Removing the process's temporary file. -/
theorem Owned.discard (ho : Owned target v h phase) {m : Stamp} {b name : Bytes} {fd : ℕ}
    {c : Option Bytes} (hp : phase i = .drafted m b fd name c) :
    Owned target { v with names := v.names.erase name } h
      (Function.update phase i (.confirmed m b fd)) := by
  have hmine : (phase i).draft = some name := by simp [hp, Phase.draft]
  obtain ⟨hne, hapart⟩ := ho.apart i name hmine
  obtain ⟨cur, hcur⟩ := ho.present
  refine ho.move ?_ ⟨cur, (AList.lookup_erase_ne (Ne.symm hne)).trans hcur⟩ le_rfl
    (fun _ _ => rfl) (fun _ _ => rfl) ?_ (by simp [Phase.result]) ?_ (by simp [hp, Phase.fds])
    (by simp [Phase.draft]) trivial
  · intro n o hn
    by_cases hnn : n = name
    · subst hnn
      simp [AList.lookup_erase] at hn
    · exact ho.names_lt n o (by rwa [AList.lookup_erase_ne hnn] at hn)
  · exact fun x hx => ho.read i x (by simpa [hp, Phase.bytes?] using hx)
  · intro j hj hown
    refine hown.frame (fun _ _ => rfl) fun n c' t hn hd => ?_
    have hnn : n ≠ name := by
      rintro rfl
      exact hapart j hj hn
    refine ⟨(AList.lookup_erase_ne hnn).trans hd.lookup, hd.new, fun x hx => ?_, hd.contents⟩
    by_cases hxn : x = name
    · subst hxn
      simp [AList.lookup_erase] at hx
    · exact hd.only x (by rwa [AList.lookup_erase_ne hxn] at hx)

/-- The rename installs what the process wrote. -/
theorem Owned.replace (ho : Owned target v h phase) {m : Stamp} {b c name : Bytes} {fd t : ℕ}
    (hp : phase i = .drafted m b fd name (some c)) (hname : v.names.lookup name = some t)
    (hv : v' = { v with names := (v.names.erase name).insert target t }) :
    Owned target v' (h.after target v' i (.rename name target) none)
      (Function.update phase i (.renamed b c fd false)) := by
  have hmine : (phase i).draft = some name := by simp [hp, Phase.draft]
  obtain ⟨hne, hapart⟩ := ho.apart i name hmine
  have hown := ho.owns i
  rw [hp] at hown
  obtain ⟨t', hd⟩ := hown
  obtain rfl : t = t' := Option.some.inj (hname.symm.trans hd.lookup)
  obtain ⟨f, hf, hfc⟩ := hd.contents c rfl
  have hlook : v'.names.lookup target = some t := by simp [hv]
  have hcont : contents v' target = c := by simp [contents, Volume.file?, hv, hf, hfc]
  have hreadb : (h.read i).2 = b := ho.read i b (by simp [hp, Phase.bytes?])
  have hlog : (h.after target v' i (.rename name target) none).log =
      h.log ++ [⟨i, (h.read i).1, b, c⟩] := by simp [History.after, hcont, hreadb]
  have hread : (h.after target v' i (.rename name target) none).read = h.read := by
    simp [History.after]
  -- the names that lead somewhere afterwards
  have lookup : ∀ n o, v'.names.lookup n = some o →
      (n = target ∧ o = t) ∨ (n ≠ name ∧ v.names.lookup n = some o) := by
    intro n o hn
    by_cases hnt : n = target
    · subst hnt
      exact .inl ⟨rfl, Option.some.inj (hn.symm.trans hlook)⟩
    · rw [hv, AList.lookup_insert_ne hnt] at hn
      by_cases hnn : n = name
      · subst hnn
        simp [AList.lookup_erase] at hn
      · exact .inr ⟨hnn, by rwa [AList.lookup_erase_ne hnn] at hn⟩
  refine ho.move ?_ ⟨t, hlook⟩ (by simp [hv]) (fun j hj => ?_) (by simp [hread])
    (by simp [Phase.bytes?]) ?_ ?_ (by simp [hp, Phase.fds]) (by simp [Phase.draft]) trivial
  · intro n o hn
    have hfiles : v'.files = v.files := by simp [hv]
    rw [hfiles]
    rcases lookup n o hn with ⟨-, rfl⟩ | ⟨-, hold⟩
    · exact ho.names_lt name o hname
    · exact ho.names_lt n o hold
  · rw [History.lastEntry, hlog, List.filter_append]
    simp [History.lastEntry, Ne.symm hj]
  · intro x y hxy
    obtain ⟨rfl, rfl⟩ : b = x ∧ c = y := by simpa [Phase.result] using hxy
    exact ⟨⟨i, (h.read i).1, b, c⟩, by simp [History.lastEntry, hlog], rfl, rfl⟩
  · intro j hj hown
    refine hown.frame (fun k _ => by simp [hv, Volume.desc?]) fun n c' s hn hd' => ?_
    have hnn : n ≠ name := by
      rintro rfl
      exact hapart j hj hn
    have hnt : n ≠ target := (ho.apart j n hn).1
    refine ⟨?_, hd'.new, fun x hx => ?_, fun x hx => ?_⟩
    · rw [hv, AList.lookup_insert_ne hnt, AList.lookup_erase_ne hnn]
      exact hd'.lookup
    · rcases lookup x s hx with ⟨-, rfl⟩ | ⟨-, hold⟩
      · exact absurd (hd'.only name hname) (Ne.symm hnn)
      · exact hd'.only x hold
    · obtain ⟨g, hg, hgb⟩ := hd'.contents x hx
      exact ⟨g, by simp [hv, hg], hgb⟩

theorem Owned.next (ho : Owned target v h phase) {ch : Choice} {op : FileOp} {r : op.Answer}
    {Permits : Bytes → Bytes → Prop} (hs : v.step ch op = some (r, v'))
    (hn : Next target Permits (phase i) op r q') :
    Owned target v' (h.after target v' i op r) (Function.update phase i q') := by
  have hread := ho.read i
  have hown := ho.owns i
  generalize hp : phase i = q at hn hread hown
  cases hn with
  | stay hr =>
    obtain rfl := Volume.step_inert hs hr
    rw [History.after_inert hr, ← hp, Function.update_eq_self]
    exact ho
  | look =>
    obtain ⟨rfl, -⟩ := Volume.step_lstat hs
    exact ho.stay rfl (fun _ _ => rfl) (by simp [Phase.bytes?]) (by simp [Phase.result])
      (by simp [Phase.fds]) (by simp [Phase.draft]) trivial
  | openRead =>
    obtain ⟨o, -, rfl, rfl⟩ := Volume.step_openRead hs
    exact ho.open (by simp [Phase.bytes?]) rfl (by simp [Phase.fds]) rfl trivial
  | abandon =>
    obtain rfl := Volume.step_close hs
    exact ho.close (by simp [hp, Phase.fds]) (by simp [Phase.bytes?]) (by simp [Phase.result])
      (by simp [Phase.fds]) (by simp [Phase.draft]) trivial
  | @fetch m fd limit b hlt =>
    obtain ⟨rfl, -⟩ := Volume.step_readAll hs
    refine ho.stay rfl (fun j hj => Function.update_of_ne hj _ _) (fun x hx => ?_)
      (by simp [Phase.result]) (by simp [hp, Phase.fds]) (by simp [Phase.draft]) trivial
    obtain rfl : b = x := by simpa [Phase.bytes?] using hx
    simp [History.after]
  | overlong =>
    obtain ⟨rfl, -⟩ := Volume.step_readAll hs
    exact ho.stay rfl (fun j hj => Function.update_of_ne hj _ _) (by simp [Phase.bytes?])
      (by simp [Phase.result]) (by simp [hp]) (by simp [Phase.draft]) trivial
  | closeRead =>
    obtain rfl := Volume.step_close hs
    refine ho.close (by simp [hp, Phase.fds]) ?_ (by simp [Phase.result]) (by simp [Phase.fds])
      (by simp [Phase.draft]) trivial
    exact fun x hx => hread x (by simpa [Phase.bytes?] using hx)
  | observe =>
    obtain ⟨rfl, -⟩ := Volume.step_lstat hs
    refine ho.stay rfl (fun _ _ => rfl) ?_ (by simp [Phase.result]) (by simp [Phase.fds])
      (by simp [Phase.draft]) trivial
    exact fun x hx => hread x (by simpa [Phase.bytes?] using hx)
  | openLock =>
    obtain ⟨o, -, rfl, rfl⟩ := Volume.step_openRead hs
    refine ho.open ?_ rfl (by simp [Phase.fds]) rfl trivial
    exact fun x hx => hread x (by simpa [Phase.bytes?] using hx)
  | @lock m b fd nonblocking =>
    obtain ⟨d, hd, -, rfl⟩ := Volume.step_flock hs
    have hfd : fd ∈ (phase i).fds := by simp [hp, Phase.fds]
    refine ho.still (by simp) rfl (fun _ _ => rfl) ?_ (by simp [Phase.result]) (fun j hj k hk => ?_)
      (by simp [hp, Phase.fds]) (by simp [Phase.draft]) trivial
    · exact fun x hx => hread x (by simpa [Phase.bytes?] using hx)
    · rw [Volume.desc?_set _ (Volume.lt_of_desc? hd), if_neg]
      rintro rfl
      exact ho.fds_disjoint i j (Ne.symm hj) k hfd hk
  | confirm =>
    obtain ⟨rfl, -⟩ := Volume.step_lstat hs
    refine ho.stay rfl (fun _ _ => rfl) ?_ (by simp [Phase.result]) (by simp [hp, Phase.fds])
      (by simp [Phase.draft]) trivial
    exact fun x hx => hread x (by simpa [Phase.bytes?] using hx)
  | create =>
    obtain ⟨hnew, -, rfl, rfl⟩ := Volume.step_createTemp hs
    exact ho.create hp hnew _
  | chown =>
    rw [Volume.step_chown hs]
    exact ho.modifyDraft hp _ fun x hx => ⟨x, hx, fun _ h => h⟩
  | chmod =>
    rw [Volume.step_chmod hs]
    exact ho.modifyDraft hp _ fun x hx => ⟨x, hx, fun _ h => h⟩
  | @write m b name data c fd tmp n =>
    obtain ⟨f, rfl, hf⟩ := Volume.step_write hs
    refine ho.modifyDraft hp f fun x hx => ⟨c, rfl, fun g hg => ?_⟩
    rw [hf rfl g, hg, Option.some.inj hx]
  | spoil =>
    obtain ⟨f, rfl, -⟩ := Volume.step_write hs
    exact ho.modifyDraft hp f (by simp)
  | closeDraft =>
    obtain rfl := Volume.step_close hs
    refine ho.close (by simp [hp, Phase.fds]) ?_ (by simp [Phase.result]) (by simp [hp, Phase.fds])
      (by simp [hp, Phase.draft]) ?_
    · exact fun x hx => hread x (by simpa [Phase.bytes?] using hx)
    · obtain ⟨t, hd, -⟩ := hown
      exact ⟨t, hd.of_fds⟩
  | discard =>
    rw [Volume.step_remove hs]
    exact ho.discard hp
  | replace =>
    obtain ⟨t, ht, hv⟩ := Volume.step_rename hs
    exact ho.replace hp ht hv
  | openDirFailed =>
    obtain rfl := Volume.step_openDir hs
    exact ho.stay rfl (fun _ _ => rfl) (by simp [Phase.bytes?]) (by simp [hp, Phase.result])
      (by simp [hp, Phase.fds]) (by simp [Phase.draft]) trivial
  | syncDirFailed =>
    obtain rfl := Volume.step_syncDir hs
    exact ho.stay rfl (fun _ _ => rfl) (by simp [Phase.bytes?]) (by simp [hp, Phase.result])
      (by simp [hp, Phase.fds]) (by simp [Phase.draft]) trivial
  | @unlock m b fd r q hq =>
    obtain rfl := Volume.step_close hs
    refine ho.close ?_ (by simp [Phase.bytes?]) (by simp [Phase.result]) (by simp [Phase.fds])
      (by simp [Phase.draft]) trivial
    rcases hq with rfl | rfl | rfl | ⟨name, c, rfl⟩ <;> simp [hp, Phase.fds]
  | finish =>
    obtain rfl := Volume.step_close hs
    exact ho.close (by simp [hp, Phase.fds]) (by simp [Phase.bytes?]) (by simp [hp, Phase.result])
      (by simp [Phase.fds]) (by simp [Phase.draft]) trivial

/-- A process may forget what it has begun. -/
theorem Owned.restart (ho : Owned target v h phase) :
    Owned target v h (Function.update phase i .idle) :=
  ho.stay rfl (fun _ _ => rfl) (by simp [Phase.bytes?]) (by simp [Phase.result])
    (by simp [Phase.fds]) (by simp [Phase.draft]) trivial

/-- **Every step of every process keeps the invariant.** -/
theorem Owned.step (ho : Owned target v h phase) {ch : Choice} {op : FileOp} {r : op.Answer}
    {Permits : Bytes → Bytes → Prop} (hs : v.step ch op = some (r, v'))
    (hn : Again target Permits (phase i) op r q') :
    Owned target v' (h.after target v' i op r) (Function.update phase i q') := by
  rcases hn with hn | hn
  · exact ho.next hs hn
  · have hidle : Owned target v h (Function.update phase i .idle) := ho.restart
    have hnext := @Owned.next ι _ target v v' h (Function.update phase i .idle) i q' hidle ch op r
      Permits hs (by rwa [Function.update_self])
    rwa [Function.update_idem] at hnext

end Steps

theorem Ready.owned {ι : Type} [DecidableEq ι] {target : Bytes} {v : Volume} {o : ℕ} {f : Inode}
    (h : Ready v target o f) : Owned target v (History.start o f : History ι) fun _ => .idle where
  names_lt := h.names_lt
  present := ⟨o, h.lookup⟩
  fds_lt := by simp [Phase.fds]
  fds_disjoint := by simp [Phase.fds]
  read := by simp [Phase.bytes?]
  owns := fun _ => trivial
  apart := by simp [Phase.draft]
  logged := by simp [Phase.result]

end SecretsBroker.Replacement
