import DrawLang.FileTree

/-!
# Files that have been written

A file that has been written is found where it was written, with all bytes in the order in which they
were put into it, and other files stay what they are. That is what a program may expect of a system,
as long as what stands at the path is a file. In a tree of files it is so at every path: only
directories are walked through, and a file is never put in the place of one, so all paths that have
led somewhere lead there still.

* `FileSystem.Writes`: a file is written without failure.
* `FileSystem.Stores`: what is expected of a path in a state.
* `walk_put`, `locate_put`: where paths lead when a file has been put somewhere.
* `FileTree.stores`: trees do what is expected.
* `FileTree.exists_writes`: where writing to them succeeds.
-/

namespace DrawLang

/-! ## What is expected of a system -/

namespace FileSystem

variable {σ ι : Type} (fs : FileSystem σ ι) (path : String)

/-- Whether bytes are put into a file one part after the other. -/
def Appends : List (List UInt8) → σ → σ → Prop
  | [], s, s' => s' = s
  | bytes :: rest, s, s' =>
    ∃ s₁, fs.append path bytes s = (.ok (), s₁) ∧ Appends rest s₁ s'

/-- Whether a file is made, bytes are put into it, and it is closed, all of this without failure. -/
def Writes (parts : List (List UInt8)) (s s' : σ) : Prop :=
  ∃ s₁ s₂, fs.create path s = (.ok (), s₁) ∧ fs.Appends path parts s₁ s₂ ∧
    fs.close path s₂ = (true, s')

/-- Whether what is written to a path in a state is found there, and other files stay what they
are. -/
structure Stores (s : σ) : Prop where
  holds : ∀ {parts s'}, fs.Writes path parts s s' → fs.read s' path = .contents parts.flatten
  spares : ∀ {parts s' other bytes}, fs.Writes path parts s s' →
    fs.read s other = .contents bytes → fs.file? s' other ≠ fs.file? s' path →
    fs.read s' other = .contents bytes

variable {fs path}

/-- Bytes are put into a file in two goes. -/
theorem appends_append {parts rest : List (List UInt8)} {s s' : σ} :
    fs.Appends path (parts ++ rest) s s' ↔
      ∃ s₁, fs.Appends path parts s s₁ ∧ fs.Appends path rest s₁ s' := by
  induction parts generalizing s with
  | nil => simp [Appends]
  | cons bytes parts ih =>
    simp only [List.cons_append, Appends, ih]
    constructor
    · rintro ⟨s₁, hbytes, s₂, hparts, hrest⟩
      exact ⟨s₂, ⟨s₁, hbytes, hparts⟩, hrest⟩
    · rintro ⟨s₂, ⟨s₁, hbytes, hparts⟩, hrest⟩
      exact ⟨s₁, hbytes, s₂, hparts, hrest⟩

end FileSystem

namespace FileTree

variable {tree tree' : FileTree} {here last start : Location} {path : String} {bytes : List UInt8}

theorem bind_eq_ok_iff {ε β γ : Type} {x : Except ε β} {f : β → Except ε γ} {c : γ} :
    (x >>= f) = .ok c ↔ ∃ b, x = .ok b ∧ f b = .ok c := by
  cases x with
  | error e => simp [bind, Except.bind]
  | ok b => simp [bind, Except.bind]

/-! ## Where paths lead -/

/-- Two parts of a path are walked along one after the other. -/
theorem walk_append (tree : FileTree) (start : Location) (parts rest : List String) :
    tree.walk start (parts ++ rest) = (do tree.walk (← tree.walk start parts) rest) := by
  induction parts generalizing start with
  | nil => rfl
  | cons part parts ih =>
    rw [List.cons_append, walk, walk]
    split
    · split
      · exact ih _
      · split
        · exact ih _
        · cases tree.enter start part with
          | error cause => rfl
          | ok next => exact ih next
    · rfl

/-- What can be entered can be entered when a file has been put somewhere. -/
theorem enter_put {name : String} (h : tree.enter start name = .ok last) (here : Location)
    (bytes : List UInt8) : (tree.put here (.file bytes)).enter start name = .ok last := by
  unfold enter at h ⊢
  split at h
  · cases h
  · rename_i hlength
    rw [if_neg hlength]
    by_cases hname : name :: start = here
    · rw [← hname, lookup?_put]
      split at h
      · cases h
      · exact h
    · rw [lookup?_put_of_ne tree hname]
      exact h

/-- Where a walk leads does not change when a file is put where there is no directory. -/
theorem walk_put (hhere : tree.lookup? here ≠ some .directory) {parts : List String}
    (h : tree.walk start parts = .ok last) (bytes : List UInt8) :
    (tree.put here (.file bytes)).walk start parts = .ok last := by
  induction parts generalizing start with
  | nil => exact h
  | cons part parts ih =>
    rw [walk] at h ⊢
    split at h
    · rename_i hstart
      have hne : start ≠ here := by
        rintro rfl
        exact hhere hstart
      rw [lookup?_put_of_ne tree hne, hstart]
      dsimp only
      split at h
      · rename_i hmoves
        rw [if_pos hmoves]
        exact ih h
      · rename_i hmoves
        rw [if_neg hmoves]
        split at h
        · rename_i hup
          rw [if_pos hup]
          exact ih h
        · rename_i hup
          rw [if_neg hup]
          obtain ⟨next, henter, h⟩ := bind_eq_ok_iff.1 h
          exact bind_eq_ok_iff.2 ⟨next, enter_put henter here bytes, ih h⟩
    · cases h

/-- Where a path leads does not change when a file is put where there is no directory. -/
theorem locate_put (hhere : tree.lookup? here ≠ some .directory)
    (h : tree.locate path = .ok last) (bytes : List UInt8) :
    (tree.put here (.file bytes)).locate path = .ok last := by
  obtain ⟨u, hcheck, hwalk⟩ := bind_eq_ok_iff.1 h
  exact bind_eq_ok_iff.2 ⟨u, hcheck, walk_put hhere hwalk bytes⟩

/-- How a path puts a file: at a name in a directory, where there is no directory. -/
structure Puts (tree : FileTree) (path : String) (dir : Location) (name : String) : Prop where
  check : checkPath path = .ok ()
  parts : ∃ above, Path.parts path = above ++ [name] ∧
    tree.walk (tree.origin path) above = .ok dir
  directory : tree.lookup? dir = some .directory
  moves : Path.moves name = true
  inside : name ≠ ".."
  length : name.utf8ByteSize ≤ maxNameLength
  free : tree.lookup? (name :: dir) ≠ some .directory

/-- The last part of a path that does not end with a slash. -/
theorem parts_of_dropWhile {parts above : List String} {name : String}
    (h : parts.reverse.dropWhile (· = "") = name :: above) (hlast : parts.getLast? ≠ some "") :
    parts = above.reverse ++ [name] ∧ name ≠ "" := by
  cases hreverse : parts.reverse with
  | nil =>
    rw [hreverse] at h
    cases h
  | cons last rest =>
    have hne : last ≠ "" := by
      rintro rfl
      rw [← List.head?_reverse, hreverse] at hlast
      exact hlast rfl
    rw [hreverse, List.dropWhile_cons, if_neg (by simpa using hne)] at h
    obtain ⟨rfl, rfl⟩ := List.cons.inj h
    refine ⟨?_, hne⟩
    rw [← List.reverse_cons, ← hreverse, List.reverse_reverse]

theorem exists_puts_of_place (h : tree.place path = .ok here) :
    ∃ dir name, here = name :: dir ∧ tree.Puts path dir name := by
  obtain ⟨_, hcheck, h⟩ := bind_eq_ok_iff.1 h
  dsimp only at h
  split at h
  · cases h
  rename_i name above hparts
  obtain ⟨dir, hwalk, h⟩ := bind_eq_ok_iff.1 h
  split at h
  · rename_i hdir
    split at h
    · cases h
    rename_i hname
    split at h
    · cases h
    rename_i hlength
    split at h
    · cases h
    rename_i hfree
    obtain rfl := Except.ok.inj h
    obtain ⟨hlast, hdot, hup⟩ : _ ∧ _ ∧ _ := by simpa only [not_or] using hname
    obtain ⟨happend, hempty⟩ := parts_of_dropWhile hparts hlast
    refine ⟨dir, name, rfl, hcheck, ⟨_, happend, hwalk⟩, hdir, ?_, hup,
      Nat.le_of_not_lt hlength, hfree⟩
    simp [Path.moves, hempty, hdot]
  · cases h

/-- A path leads to the file that it has put. -/
theorem locate_of_place (h : tree.place path = .ok here) (bytes : List UInt8) :
    (tree.put here (.file bytes)).locate path = .ok here := by
  obtain ⟨dir, name, rfl, hputs⟩ := exists_puts_of_place h
  obtain ⟨above, hparts, hwalk⟩ := hputs.parts
  have hne : dir ≠ name :: dir := (List.cons_ne_self name dir).symm
  have henter : (tree.put (name :: dir) (.file bytes)).enter dir name = .ok (name :: dir) := by
    rw [enter, if_neg (Nat.not_lt.2 hputs.length), lookup?_put]
  have hlast : (tree.put (name :: dir) (.file bytes)).walk dir [name] = .ok (name :: dir) := by
    rw [walk, lookup?_put_of_ne tree hne, hputs.directory]
    simp only [hputs.moves, hputs.inside, henter, Bool.not_true, Bool.false_eq_true, if_false]
    rfl
  refine bind_eq_ok_iff.2 ⟨(), hputs.check, ?_⟩
  rw [hparts, walk_append]
  exact bind_eq_ok_iff.2 ⟨dir, walk_put hputs.free hwalk bytes, hlast⟩

theorem place_of_puts {dir : Location} {name : String} (h : tree.Puts path dir name) :
    tree.place path = .ok (name :: dir) := by
  obtain ⟨above, hparts, hwalk⟩ := h.parts
  have hmoves : name ≠ "" ∧ name ≠ "." := by simpa [Path.moves] using h.moves
  have hlast : ¬ ((above ++ [name]).getLast? = some "" ∨ name = "." ∨ name = "..") := by
    simp [hmoves, h.inside]
  have hwhole : (above ++ [name]).reverse.dropWhile (· = "") = name :: above.reverse := by
    simp [hmoves]
  refine bind_eq_ok_iff.2 ⟨(), h.check, ?_⟩
  dsimp only
  rw [hparts, hwhole]
  refine bind_eq_ok_iff.2 ⟨dir, by rwa [List.reverse_reverse], ?_⟩
  rw [h.directory]
  dsimp only
  rw [if_neg hlast, if_neg (Nat.not_lt.2 h.length)]
  split
  · exact absurd ‹_› h.free
  · rfl

/-- A file can be put wherever it could be before one was put somewhere. -/
theorem place_put (hhere : tree.lookup? here ≠ some .directory)
    (h : tree.place path = .ok last) (bytes : List UInt8) :
    (tree.put here (.file bytes)).place path = .ok last := by
  obtain ⟨dir, name, rfl, hputs⟩ := exists_puts_of_place h
  obtain ⟨above, hparts, hwalk⟩ := hputs.parts
  have hdir : dir ≠ here := by
    rintro rfl
    exact hhere hputs.directory
  refine place_of_puts { hputs with
    parts := ⟨above, hparts, walk_put hhere hwalk bytes⟩
    directory := (lookup?_put_of_ne tree hdir _).trans hputs.directory
    free := ?_ }
  by_cases hname : name :: dir = here
  · rw [← hname, lookup?_put]
    exact nofun
  · rw [lookup?_put_of_ne tree hname]
    exact hputs.free

/-! ## Trees -/

theorem lookup?_put_of_ne_nil (h : here ≠ []) (tree : FileTree) (entry : Entry) :
    (tree.put here entry).lookup? here = some entry := by
  cases here with
  | nil => exact absurd rfl h
  | cons name dir => exact lookup?_put tree name dir entry

theorem ne_nil_of_lookup? (h : tree.lookup? here = some (.file bytes)) : here ≠ [] := by
  rintro rfl
  cases h

theorem read_eq_contents_iff : tree.read path = .contents bytes ↔
    ∃ here, tree.locate path = .ok here ∧ tree.lookup? here = some (.file bytes) := by
  unfold read
  cases tree.locate path with
  | error cause => simp
  | ok here =>
    cases hentry : tree.lookup? here with
    | none => simp [hentry]
    | some entry => cases entry <;> simp [hentry]

/-- How a tree has come about by writing to one place: paths lead where they have led, and nothing
is changed elsewhere. -/
structure Differs (here : Location) (tree tree' : FileTree) : Prop where
  locate : ∀ {other last}, tree.locate other = .ok last → tree'.locate other = .ok last
  place : ∀ {other last}, tree.place other = .ok last → tree'.place other = .ok last
  lookup? : ∀ there ≠ here, tree'.lookup? there = tree.lookup? there

theorem Differs.trans {tree₁ : FileTree} (h : Differs here tree tree₁)
    (h' : Differs here tree₁ tree') : Differs here tree tree' where
  locate hlocate := h'.locate (h.locate hlocate)
  place hplace := h'.place (h.place hplace)
  lookup? there hne := (h'.lookup? there hne).trans (h.lookup? there hne)

theorem differs_put (h : tree.lookup? here ≠ some .directory) (bytes : List UInt8) :
    Differs here tree (tree.put here (.file bytes)) where
  locate hlocate := locate_put h hlocate bytes
  place hplace := place_put h hplace bytes
  lookup? _ hne := lookup?_put_of_ne tree hne _

/-- An empty file is put where the path then leads. -/
theorem exists_of_create {u : Unit} (h : create path tree = (.ok u, tree')) :
    ∃ here, tree.place path = .ok here ∧ tree'.locate path = .ok here ∧
      tree'.lookup? here = some (.file []) ∧ Differs here tree tree' := by
  unfold create at h
  cases hplace : tree.place path with
  | error cause =>
    rw [hplace] at h
    cases h
  | ok here =>
    rw [hplace] at h
    cases h
    have hlocate := locate_of_place hplace []
    obtain ⟨dir, name, rfl, hputs⟩ := exists_puts_of_place hplace
    exact ⟨_, rfl, hlocate, lookup?_put tree name dir _, differs_put hputs.free []⟩

/-- What appending to a file comes to. -/
theorem append_eq {before : List UInt8} (hlocate : tree.locate path = .ok here)
    (hfile : tree.lookup? here = some (.file before)) (bytes : List UInt8) :
    append path bytes tree = (.ok (), tree.put here (.file (before ++ bytes))) := by
  simp only [append, hlocate, hfile]

/-- Bytes are put behind those that are there, one part after the other. -/
theorem lookup?_of_appends {parts : List (List UInt8)} {before : List UInt8}
    (hlocate : tree.locate path = .ok here) (hfile : tree.lookup? here = some (.file before))
    (h : system.Appends path parts tree tree') :
    tree'.lookup? here = some (.file (before ++ parts.flatten)) ∧ Differs here tree tree' := by
  induction parts generalizing tree before with
  | nil =>
    obtain rfl := h
    exact ⟨by simpa using hfile, ⟨id, id, fun _ _ => rfl⟩⟩
  | cons bytes parts ih =>
    obtain ⟨tree₁, happend, h⟩ := h
    obtain ⟨-, rfl⟩ := Prod.mk.inj ((append_eq hlocate hfile bytes).symm.trans happend)
    have hfree : tree.lookup? here ≠ some .directory := by simp [hfile]
    have hput := lookup?_put_of_ne_nil (ne_nil_of_lookup? hfile) tree (.file (before ++ bytes))
    obtain ⟨hafter, hdiffers⟩ := ih (locate_put hfree hlocate _) hput h
    refine ⟨?_, (differs_put hfree _).trans hdiffers⟩
    rw [hafter, List.flatten_cons, List.append_assoc]

/-- A file is written where it can be placed, and found there. -/
theorem exists_of_writes {parts : List (List UInt8)} (h : system.Writes path parts tree tree') :
    ∃ here, tree.place path = .ok here ∧ tree'.locate path = .ok here ∧
      tree'.lookup? here = some (.file parts.flatten) ∧ Differs here tree tree' := by
  obtain ⟨tree₁, tree₂, hcreate, happends, hclose⟩ := h
  cases hclose
  obtain ⟨here, hplace, hlocate, hfile, hcreated⟩ := exists_of_create hcreate
  obtain ⟨hafter, happended⟩ := lookup?_of_appends hlocate hfile happends
  exact ⟨here, hplace, happended.locate hlocate, hafter, hcreated.trans happended⟩

/-- What is written to a path of a tree is found there, and other files stay what they are. -/
theorem stores (path : String) (tree : FileTree) : system.Stores path tree := by
  constructor
  · intro parts tree' h
    obtain ⟨here, -, hlocate, hfile, -⟩ := exists_of_writes h
    exact read_eq_contents_iff.2 ⟨here, hlocate, hfile⟩
  · intro parts tree' other bytes h hread hne
    obtain ⟨here, -, hlocate, -, hdiffers⟩ := exists_of_writes h
    obtain ⟨there, hother, hfile⟩ := read_eq_contents_iff.1 hread
    have hother' := hdiffers.locate hother
    change (tree'.locate other).toOption ≠ (tree'.locate path).toOption at hne
    rw [hother', hlocate] at hne
    have hapart : there ≠ here := by
      rintro rfl
      exact hne rfl
    exact read_eq_contents_iff.2 ⟨there, hother', (hdiffers.lookup? there hapart).trans hfile⟩

theorem exists_appends {before : List UInt8} (hlocate : tree.locate path = .ok here)
    (hfile : tree.lookup? here = some (.file before)) (parts : List (List UInt8)) :
    ∃ tree', system.Appends path parts tree tree' := by
  induction parts generalizing tree before with
  | nil => exact ⟨tree, rfl⟩
  | cons bytes parts ih =>
    have hfree : tree.lookup? here ≠ some .directory := by simp [hfile]
    have hput := lookup?_put_of_ne_nil (ne_nil_of_lookup? hfile) tree (.file (before ++ bytes))
    obtain ⟨tree', happends⟩ := ih (locate_put hfree hlocate _) hput
    exact ⟨tree', _, append_eq hlocate hfile bytes, happends⟩

/-- Writing to a tree succeeds wherever a file can be placed. -/
theorem exists_writes (h : tree.place path = .ok here) (parts : List (List UInt8)) :
    ∃ tree', system.Writes path parts tree tree' := by
  have hcreate : create path tree = (.ok (), tree.put here (.file [])) := by
    simp only [create, h]
  obtain ⟨there, -, hlocate, hfile, -⟩ := exists_of_create hcreate
  obtain ⟨tree', happends⟩ := exists_appends hlocate hfile parts
  exact ⟨tree', _, tree', hcreate, happends, rfl⟩

end FileTree

end DrawLang
