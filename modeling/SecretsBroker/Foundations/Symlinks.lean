import SecretsBroker.Foundations.Path

/-!
# Resolving symbolic links

A file system as far as the resolution of paths reads it: which absolute lists of names are
directories, other files and symbolic links. `walkSymlinks` follows a path name by name, as
`filepath.EvalSymlinks` does (at most 255 links), and `evalSymlinks` is its cleaned text. `resolve`
is the place in the tree that a path leads to from a working directory.

`resolve_eq_of_clean_eq`: paths whose evaluated texts are equal after cleaning lead to one place.
-/

namespace SecretsBroker

/-- What stands at a place in the tree. -/
inductive Node
  | dir
  | file
  | link (target : Bytes)
  deriving DecidableEq

/-- A state of the file system: what stands below the root. -/
structure FileSystem where
  node : List Bytes → Option Node

/-- Where a walk has arrived: names below the root, or below the working directory. -/
structure Dest where
  rooted : Bool
  names : List Bytes
  deriving DecidableEq

namespace Dest

def child (d : Dest) (c : Bytes) : Dest := ⟨d.rooted, d.names ++ [c]⟩

def up (d : Dest) : Dest := ⟨d.rooted, Path.up d.rooted d.names⟩

/-- The place in the tree, from the working directory `cwd` of the process. -/
def place (cwd : List Bytes) (d : Dest) : List Bytes :=
  if d.rooted then d.names
  else d.names.foldl (fun at? c => if c = Path.dotDot then at?.dropLast else at? ++ [c]) cwd

def text (d : Dest) : Bytes := Path.render d.rooted d.names

/-- A list of names that cleaning leaves as it is. -/
def Canonical (d : Dest) : Prop := Path.Canonical d.rooted d.names

theorem eq_of_clean_text_eq {d e : Dest} (hd : d.Canonical) (he : e.Canonical)
    (h : Path.clean (Path.clean d.text) = Path.clean (Path.clean e.text)) : d = e := by
  simp only [text, Path.clean_render hd, Path.clean_render he] at h
  obtain ⟨hr, hn⟩ := Path.render_injective hd he h
  cases d
  cases e
  simp_all

end Dest

namespace FileSystem

/-- `os.Lstat`. -/
def lstat (fs : FileSystem) (cwd : List Bytes) (d : Dest) : Option Node := fs.node (d.place cwd)

/-- Follow the parts of a path from `dest`, up to the first link, where `next` takes over. -/
def walkFrom (fs : FileSystem) (cwd : List Bytes) (next : Dest → List Bytes → Except Bytes Dest) :
    Dest → List Bytes → Except Bytes Dest
  | dest, [] => .ok dest
  | dest, c :: cs =>
    if c = [] ∨ c = Path.dot then walkFrom fs cwd next dest cs
    else if c = Path.dotDot then walkFrom fs cwd next dest.up cs
    else
      match fs.lstat cwd (dest.child c) with
      | none => .error (str "no such file or directory")
      | some .dir => walkFrom fs cwd next (dest.child c) cs
      | some .file =>
        if cs ≠ [] then .error (str "not a directory") else .ok (dest.child c)
      | some (.link target) =>
        next (if Path.isAbs target then ⟨true, []⟩ else dest)
          (target.splitOn Path.separator ++ cs)

/-- The walk, with the number of links it may still follow. -/
def walk (fs : FileSystem) (cwd : List Bytes) : ℕ → Dest → List Bytes → Except Bytes Dest
  | 0 => walkFrom fs cwd fun _ _ => .error (str "EvalSymlinks: too many links")
  | n + 1 => walkFrom fs cwd (walk fs cwd n)

def walkSymlinks (fs : FileSystem) (cwd : List Bytes) (path : Bytes) : Except Bytes Dest :=
  fs.walk cwd 255 ⟨Path.isAbs path, []⟩ (path.splitOn Path.separator)

/-- `filepath.EvalSymlinks`. -/
def evalSymlinks (fs : FileSystem) (cwd : List Bytes) (path : Bytes) : Except Bytes Bytes :=
  (fs.walkSymlinks cwd path).map fun d => Path.clean d.text

/-- The place in the tree that a path leads to, such as the directory a process starts in. -/
def resolve (fs : FileSystem) (cwd : List Bytes) (path : Bytes) : Except Bytes (List Bytes) :=
  (fs.walkSymlinks cwd path).map (Dest.place cwd)

/-! ## Walks end at canonical names -/

theorem walkFrom_canonical {fs : FileSystem} {cwd : List Bytes}
    {next : Dest → List Bytes → Except Bytes Dest}
    (hnext : ∀ d cs e, d.Canonical → (∀ c ∈ cs, Path.separator ∉ c) → next d cs = .ok e →
      e.Canonical)
    {d e : Dest} {cs : List Bytes} (hd : d.Canonical) (hcs : ∀ c ∈ cs, Path.separator ∉ c)
    (h : fs.walkFrom cwd next d cs = .ok e) : e.Canonical := by
  induction cs generalizing d with
  | nil =>
    obtain rfl := Except.ok.inj h
    exact hd
  | cons c cs ih =>
    have hcs' : ∀ c ∈ cs, Path.separator ∉ c := fun c hc => hcs c (by simp [hc])
    rw [walkFrom] at h
    by_cases hdot : c = [] ∨ c = Path.dot
    · rw [if_pos hdot] at h
      exact ih hd hcs' h
    rw [if_neg hdot] at h
    by_cases hdd : c = Path.dotDot
    · rw [if_pos hdd] at h
      have hup : d.up.Canonical := Path.Canonical.up hd
      exact ih hup hcs' h
    · rw [if_neg hdd] at h
      rw [not_or] at hdot
      have hchild : (d.child c).Canonical :=
        Path.Canonical.child hd ⟨hdot.1, hdot.2, hcs c (by simp)⟩ hdd
      split at h
      · exact absurd h (by simp)
      · exact ih hchild hcs' h
      · split_ifs at h
        obtain rfl := Except.ok.inj h
        exact hchild
      · next target _ =>
        refine hnext _ _ _ ?_ (fun c hc => ?_) h
        · split_ifs
          · exact Path.canonical_nil true
          · exact hd
        · rcases List.mem_append.1 hc with hc | hc
          · exact Path.not_mem_of_mem_splitOn hc
          · exact hcs' c hc

theorem walk_canonical {fs : FileSystem} {cwd : List Bytes} (n : ℕ) {d e : Dest} {cs : List Bytes}
    (hd : d.Canonical) (hcs : ∀ c ∈ cs, Path.separator ∉ c) (h : fs.walk cwd n d cs = .ok e) :
    e.Canonical := by
  induction n generalizing d e cs with
  | zero => exact walkFrom_canonical (fun _ _ _ _ _ hn => absurd hn (by simp)) hd hcs h
  | succ n ih => exact walkFrom_canonical (fun _ _ _ hd' hcs' hn => ih hd' hcs' hn) hd hcs h

theorem walkSymlinks_canonical {fs : FileSystem} {cwd : List Bytes} {path : Bytes} {d : Dest}
    (h : fs.walkSymlinks cwd path = .ok d) : d.Canonical := by
  have hstart : (⟨Path.isAbs path, []⟩ : Dest).Canonical := Path.canonical_nil _
  exact walk_canonical 255 hstart (fun _ hc => Path.not_mem_of_mem_splitOn hc) h

/-- **Paths that evaluate to the same clean text lead to the same place**, also when they are
evaluated in different states of the file system. -/
theorem resolve_eq_of_clean_eq {fs fs' : FileSystem} {cwd : List Bytes} {path path' p p' : Bytes}
    (h : fs.evalSymlinks cwd path = .ok p) (h' : fs'.evalSymlinks cwd path' = .ok p')
    (heq : Path.clean p = Path.clean p') : fs.resolve cwd path = fs'.resolve cwd path' := by
  unfold evalSymlinks at h h'
  unfold resolve
  cases hw : fs.walkSymlinks cwd path with
  | error err => simp [hw, Except.map] at h
  | ok d =>
    cases hw' : fs'.walkSymlinks cwd path' with
    | error err => simp [hw', Except.map] at h'
    | ok e =>
      rw [hw] at h
      rw [hw'] at h'
      obtain rfl := Except.ok.inj h
      obtain rfl := Except.ok.inj h'
      rw [Dest.eq_of_clean_text_eq (walkSymlinks_canonical hw) (walkSymlinks_canonical hw') heq]

end FileSystem

end SecretsBroker
