import DrawLang.Source
import Mathlib.Data.List.Induction

/-!
# Where loaded files are

Systems read a path as components, and they put one path onto another by looking at the front of the
second: a path that begins with a slash starts at the root, so it takes the place of what was there.
That is why the path of a load is taken apart before it is put onto the base. Its root is left out,
the other components are put onto each other, and what comes of that never begins with a slash.

* `Component`, `components`, `separator`, `push`: how systems read paths and put them onto each
  other.
* `underBase`: the path of a loaded file, made by these.
* `parts_eq_iff`: the parts of a path are the only texts without slashes that spell it.
* `ofParts_eq_foldl`: components put onto each other are parts with slashes between them.
* `loads_stay_under_base`: what the path of a loaded file is.
-/

namespace DrawLang.Path

/-- What systems read in a path. -/
inductive Component where
  | root | here | above
  | name (text : String)
  deriving DecidableEq, Repr

namespace Component

def text : Component → String
  | root => "/"
  | here => "."
  | above => ".."
  | name text => text

/-- What a part says wherever it stands. -/
def ofPart? (part : String) : Option Component :=
  if part = "" ∨ part = "." then none
  else if part = ".." then some above
  else some (name part)

end Component

/-- Whether a path starts at the root. -/
def IsAbsolute (path : String) : Prop := path.toList.head? = some '/'

instance (path : String) : Decidable (IsAbsolute path) :=
  inferInstanceAs (Decidable (path.toList.head? = some '/'))

/-- The components of a path. A slash at the front is the root; other slashes only separate. A dot
counts at the front alone, where no slash stands before it. -/
def components (path : String) : List Component :=
  (if IsAbsolute path then [.root] else if (parts path).head? = some "." then [.here] else []) ++
    (parts path).filterMap Component.ofPart?

/-- What goes between a path and another one that is put onto it: a slash, unless the path is empty
or ends with one. -/
def separator (path : String) : String :=
  if path = "" ∨ path.toList.getLast? = some '/' then "" else "/"

def push (base path : String) : String :=
  if IsAbsolute path then path else base ++ separator base ++ path

/-- The path of a loaded file: what a path says apart from the root, put onto the base. -/
def underBase (base path : String) : String :=
  push base (((components path).filter (· ≠ .root)).foldl (fun file c => push file c.text) "")

/-! ## Parts -/

theorem splitSlashes_of_notMem {cs : List Char} (h : '/' ∉ cs) : splitSlashes cs = [cs] := by
  induction cs with
  | nil => rfl
  | cons c cs ih =>
    obtain ⟨hc, hcs⟩ := not_or.1 (mt List.mem_cons.2 h)
    rw [splitSlashes, if_neg (Ne.symm hc), ih hcs]

/-- A slash separates what stands in front of it from what stands behind it. -/
theorem splitSlashes_append (as bs : List Char) :
    splitSlashes (as ++ '/' :: bs) = splitSlashes as ++ splitSlashes bs := by
  induction as with
  | nil => rfl
  | cons a as ih =>
    rw [List.cons_append, splitSlashes, splitSlashes, ih]
    split
    · rfl
    · cases h : splitSlashes as with
      | nil => exact absurd h (splitSlashes_ne_nil as)
      | cons part rest => rfl

theorem parts_ne_nil (path : String) : parts path ≠ [] := by
  simpa [parts] using splitSlashes_ne_nil path.toList

theorem slash_notMem_parts {path part : String} (h : part ∈ parts path) : '/' ∉ part.toList := by
  obtain ⟨cs, hcs, rfl⟩ := List.mem_map.1 h
  rw [String.toList_ofList]
  exact slash_notMem_splitSlashes _ cs hcs

theorem parts_of_notMem {part : String} (h : '/' ∉ part.toList) : parts part = [part] := by
  rw [parts, splitSlashes_of_notMem h, List.map_singleton, String.ofList_toList]

theorem parts_append_slash (path rest : String) :
    parts (path ++ "/" ++ rest) = parts path ++ parts rest := by
  have h : (path ++ "/" ++ rest).toList = path.toList ++ '/' :: rest.toList := by simp
  rw [parts, h, splitSlashes_append, List.map_append, parts, parts]

theorem parts_ofParts {ps : List String} (hne : ps ≠ []) (h : ∀ part ∈ ps, '/' ∉ part.toList) :
    parts (ofParts ps) = ps := by
  induction ps with
  | nil => exact absurd rfl hne
  | cons part ps ih =>
    obtain ⟨hpart, hps⟩ := List.forall_mem_cons.1 h
    cases ps with
    | nil => exact parts_of_notMem hpart
    | cons next ps =>
      rw [ofParts, String.intercalate_cons_cons, parts_append_slash, parts_of_notMem hpart]
      exact congrArg (part :: ·) (ih (List.cons_ne_nil _ _) hps)

theorem intercalate_splitSlashes (cs : List Char) : ['/'].intercalate (splitSlashes cs) = cs := by
  induction cs with
  | nil => rfl
  | cons c cs ih =>
    rw [splitSlashes]
    cases h : splitSlashes cs with
    | nil => exact absurd h (splitSlashes_ne_nil cs)
    | cons part rest =>
      rw [h] at ih
      split
      · rename_i hc
        rw [List.intercalate_cons_cons, ih, hc]
        rfl
      · cases rest with
        | nil =>
          rw [List.intercalate_singleton] at ih ⊢
          rw [ih]
        | cons next rest =>
          rw [List.intercalate_cons_cons] at ih ⊢
          rw [List.cons_append, List.cons_append, ih]

theorem ofParts_parts (path : String) : ofParts (parts path) = path := by
  have h : ((splitSlashes path.toList).map String.ofList).map String.toList =
      splitSlashes path.toList := by simp [Function.comp_def]
  rw [ofParts, parts, ← String.toList_inj, String.toList_intercalate, h]
  exact intercalate_splitSlashes path.toList

/-- The parts of a path are the only texts without slashes that spell it with slashes between. -/
theorem parts_eq_iff {path : String} {ps : List String} :
    parts path = ps ↔ ps ≠ [] ∧ (∀ part ∈ ps, '/' ∉ part.toList) ∧ ofParts ps = path := by
  constructor
  · rintro rfl
    exact ⟨parts_ne_nil path, fun part h => slash_notMem_parts h, ofParts_parts path⟩
  · rintro ⟨hne, hps, rfl⟩
    exact parts_ofParts hne hps

/-! ## Cleaning -/

theorem moves_iff {part : String} : moves part = true ↔ part ≠ "" ∧ part ≠ "." := by
  simp [moves]

theorem moves_eq (part : String) : moves part = decide (part ≠ "" ∧ part ≠ ".") := by
  rw [Bool.eq_iff_iff, moves_iff, decide_eq_true_iff]

/-- The dot that a path keeps: the one at its front. -/
def frontDot (ps : List String) : List String := if ps.head? = some "." then ["."] else []

theorem cleanParts_eq (path : String) :
    cleanParts path = frontDot (parts path) ++ (parts path).filter moves := by
  rw [cleanParts]
  cases parts path with
  | nil => rfl
  | cons first rest =>
    by_cases h : first = "."
    · subst h
      simp [frontDot, moves]
    · simp [frontDot, h]

/-- What a cleaned path keeps is a part that is not empty. -/
theorem of_mem_cleanParts {path part : String} (h : part ∈ cleanParts path) :
    part ≠ "" ∧ '/' ∉ part.toList := by
  rw [cleanParts_eq, List.mem_append] at h
  rcases h with h | h
  · rw [frontDot] at h
    split at h
    · obtain rfl := List.mem_singleton.1 h
      decide
    · cases h
  · obtain ⟨hmem, hmoves⟩ := List.mem_filter.1 h
    exact ⟨(moves_iff.1 hmoves).1, slash_notMem_parts hmem⟩

theorem filter_moves_frontDot (ps : List String) : (frontDot ps).filter moves = [] := by
  rw [frontDot]
  split <;> rfl

theorem head?_filter_moves (ps : List String) : (ps.filter moves).head? ≠ some "." := by
  intro h
  have hmem := List.mem_of_mem_head? (Option.mem_def.2 h)
  exact absurd rfl (moves_iff.1 (List.mem_filter.1 hmem).2).2

/-- The parts of a path that lead somewhere stay, in order. -/
theorem filter_moves_cleanParts (path : String) :
    (cleanParts path).filter moves = (parts path).filter moves := by
  rw [cleanParts_eq, List.filter_append, filter_moves_frontDot, List.nil_append,
    List.filter_filter]
  simp only [Bool.and_self]

theorem parts_clean_of_ne_nil {path : String} (h : cleanParts path ≠ []) :
    parts (clean path) = cleanParts path :=
  parts_ofParts h fun _ hmem => (of_mem_cleanParts hmem).2

theorem filter_moves_parts_clean (path : String) :
    (parts (clean path)).filter moves = (parts path).filter moves := by
  by_cases h : cleanParts path = []
  · rw [← filter_moves_cleanParts path, clean, h]
    rfl
  · rw [parts_clean_of_ne_nil h, filter_moves_cleanParts]

theorem frontDot_cleanParts (path : String) :
    frontDot (cleanParts path) = frontDot (parts path) := by
  rw [cleanParts_eq]
  by_cases h : (parts path).head? = some "."
  · simp [frontDot, h]
  · rw [frontDot, frontDot, if_neg h, List.nil_append, if_neg (head?_filter_moves _)]

theorem clean_clean (path : String) : clean (clean path) = clean path := by
  by_cases h : cleanParts path = []
  · rw [clean, clean, h]
    rfl
  · have hparts : cleanParts (clean path) = cleanParts path := by
      rw [cleanParts_eq, parts_clean_of_ne_nil h, frontDot_cleanParts, filter_moves_cleanParts,
        cleanParts_eq]
    rw [clean, hparts, clean]

/-! ## Fronts and ends -/

theorem head?_parts_of_isAbsolute {path : String} (h : IsAbsolute path) :
    (parts path).head? = some "" := by
  obtain ⟨cs, hcs⟩ := List.head?_eq_some_iff.1 h
  rw [parts, hcs, splitSlashes, if_pos rfl]
  rfl

/-- A path that needs no slash in front of what is put onto it has an empty part. -/
theorem empty_mem_parts {path : String} (h : path = "" ∨ path.toList.getLast? = some '/') :
    "" ∈ parts path := by
  rcases h with rfl | h
  · exact List.mem_singleton_self ""
  · obtain ⟨cs, hcs⟩ := List.getLast?_eq_some_iff.1 h
    rw [parts, hcs, splitSlashes_append, List.map_append]
    exact List.mem_append_right _ (List.mem_singleton_self "")

/-- Whether a slash is needed or not, the parts of two paths stay apart. -/
theorem filter_moves_separated (base path : String) :
    (parts (base ++ separator base ++ path)).filter moves =
      (parts base).filter moves ++ (parts path).filter moves := by
  rw [separator]
  split
  · rename_i h
    rw [String.append_empty]
    rcases h with rfl | h
    · rw [String.empty_append]
      rfl
    · obtain ⟨cs, hcs⟩ := List.getLast?_eq_some_iff.1 h
      have hbase : base = String.ofList cs ++ "/" ++ "" := by simp [← String.toList_inj, hcs]
      have hpath : base ++ path = String.ofList cs ++ "/" ++ path := by
        simp [← String.toList_inj, hcs]
      rw [hpath, hbase, parts_append_slash, parts_append_slash, List.filter_append,
        List.filter_append]
      simp [parts_of_notMem, moves]
  · rw [parts_append_slash, List.filter_append]

/-- A cleaned path never starts at the root. -/
theorem not_isAbsolute_clean (path : String) : ¬ IsAbsolute (clean path) := by
  intro h
  by_cases hparts : cleanParts path = []
  · rw [clean, hparts] at h
    cases h
  · have hhead := head?_parts_of_isAbsolute h
    rw [parts_clean_of_ne_nil hparts] at hhead
    exact (of_mem_cleanParts (List.mem_of_mem_head? hhead)).1 rfl

/-! ## Putting paths onto each other -/

theorem push_of_not_isAbsolute {path : String} (h : ¬ IsAbsolute path) (base : String) :
    push base path = base ++ separator base ++ path := if_neg h

theorem join_eq (base path : String) : join base path = base ++ separator base ++ path := by
  simp only [join, separator, String.isEmpty_iff]
  split
  · rw [String.append_empty]
  · rfl

/-- One more part goes behind a slash, unless it is the first one. -/
theorem push_ofParts {ps : List String} {part : String}
    (hps : ∀ p ∈ ps, p ≠ "" ∧ '/' ∉ p.toList) (hpart : '/' ∉ part.toList) :
    push (ofParts ps) part = ofParts (ps ++ [part]) := by
  have hrelative : ¬ IsAbsolute part := fun h => hpart (List.mem_of_mem_head? h)
  rw [push_of_not_isAbsolute hrelative]
  by_cases hne : ps = []
  · subst hne
    simp [ofParts, separator]
  · have hparts : parts (ofParts ps) = ps := parts_ofParts hne fun p hp => (hps p hp).2
    -- a slash at the end would leave an empty part behind it
    have hend : ¬ (ofParts ps = "" ∨ (ofParts ps).toList.getLast? = some '/') := by
      intro h
      have hmem := empty_mem_parts h
      rw [hparts] at hmem
      exact (hps "" hmem).1 rfl
    rw [separator, if_neg hend, ofParts, ofParts,
      String.intercalate_append_of_ne_nil hne (List.cons_ne_nil _ _), String.intercalate_singleton]

/-- Parts that are put onto each other stand with single slashes between them. -/
theorem ofParts_eq_foldl {ps : List String} (h : ∀ p ∈ ps, p ≠ "" ∧ '/' ∉ p.toList) :
    ps.foldl push "" = ofParts ps := by
  induction ps using List.reverseRecOn with
  | nil => rfl
  | append_singleton ps part ih =>
    have hps : ∀ p ∈ ps, p ≠ "" ∧ '/' ∉ p.toList := fun p hp => h p (List.mem_append_left _ hp)
    have hpart := h part (by simp)
    rw [List.foldl_append, ih hps, List.foldl_cons, List.foldl_nil, push_ofParts hps hpart.2]

/-! ## Components -/

theorem Component.ofPart?_eq_none {part : String} (h : ¬ moves part = true) :
    ofPart? part = none := by
  rw [ofPart?, if_pos (by simpa [moves_iff, imp_iff_not_or] using h)]

/-- A part that leads somewhere is read as it is written, and never as the root. -/
theorem Component.ofPart?_of_moves {part : String} (h : moves part = true) :
    ∃ c, ofPart? part = some c ∧ c ≠ root ∧ c.text = part := by
  have hpart : ¬ (part = "" ∨ part = ".") := by simpa [moves_iff] using h
  by_cases hup : part = ".."
  · refine ⟨above, ?_, by decide, hup.symm⟩
    rw [ofPart?, if_neg hpart, if_pos hup]
  · refine ⟨name part, ?_, nofun, rfl⟩
    rw [ofPart?, if_neg hpart, if_neg hup]

theorem map_text_filterMap (ps : List String) :
    ((ps.filterMap Component.ofPart?).filter (· ≠ .root)).map Component.text =
      ps.filter moves := by
  induction ps with
  | nil => rfl
  | cons part ps ih =>
    by_cases h : moves part = true
    · obtain ⟨c, hc, hroot, htext⟩ := Component.ofPart?_of_moves h
      rw [List.filterMap_cons_some hc, List.filter_cons_of_pos (by simpa using hroot),
        List.filter_cons_of_pos h, List.map_cons, htext, ih]
    · rw [List.filterMap_cons_none (Component.ofPart?_eq_none h), List.filter_cons_of_neg h, ih]

/-- Apart from the root, the components of a path are the parts that cleaning keeps. -/
theorem map_text_components (path : String) :
    ((components path).filter (· ≠ .root)).map Component.text = cleanParts path := by
  rw [components, cleanParts_eq, List.filter_append, List.map_append, map_text_filterMap, frontDot]
  congr 1
  split
  · rename_i h
    rw [head?_parts_of_isAbsolute h]
    rfl
  · split <;> rfl

theorem underBase_eq (base path : String) : underBase base path = push base (clean path) := by
  have hfold : ((components path).filter (· ≠ .root)).foldl (fun file c => push file c.text) "" =
      clean path := by
    rw [← List.foldl_map, map_text_components]
    exact ofParts_eq_foldl fun p hp => of_mem_cleanParts hp
  rw [underBase, hfold]

/-! ## Loaded files -/

theorem underBase_eq_append (base path : String) :
    underBase base path = base ++ separator base ++ clean path := by
  rw [underBase_eq, push_of_not_isAbsolute (not_isAbsolute_clean path)]

theorem isPrefix_underBase (base path : String) :
    base.toList <+: (underBase base path).toList := by
  rw [underBase_eq_append, String.toList_append, String.toList_append, List.append_assoc]
  exact List.prefix_append _ _

/-- A loaded file is found from the root if and only if the base is. -/
theorem isAbsolute_underBase (base path : String) :
    IsAbsolute (underBase base path) ↔ IsAbsolute base := by
  -- under an empty base the cleaned path is at the front, otherwise the base is
  by_cases hbase : base = ""
  · subst hbase
    have hfile : underBase "" path = clean path := by simp [underBase_eq_append, separator]
    rw [hfile]
    exact iff_of_false (not_isAbsolute_clean path) (by decide)
  · obtain ⟨rest, hrest⟩ := isPrefix_underBase base path
    obtain ⟨c, cs, hcs⟩ := List.exists_cons_of_ne_nil (mt String.toList_eq_nil_iff.1 hbase)
    rw [IsAbsolute, IsAbsolute, ← hrest, hcs, List.cons_append, List.head?_cons, List.head?_cons]

/-- The file that a path loads lies at the base and the cleaned path, with a slash between them
unless the base is empty or ends with one. Cleaning takes the texts between the slashes and leaves
out the empty ones, and the dots that do not stand at the very front. Whatever slashes the path
begins with, the base stays in front, and the file is found from the root only if the base is.
Apart from empty parts and dots it has the parts of the base and of the path. -/
theorem loads_stay_under_base (base path : String) (read : String → Delivery) :
    Opener.under base read path =
        (read (underBase base path)).namingPath (underBase base path) ∧
      underBase base path = base ++ separator base ++ clean path ∧
      clean path = "/".intercalate ((if (parts path).head? = some "." then ["."] else []) ++
        (parts path).filter fun part => part ≠ "" ∧ part ≠ ".") ∧
      (∀ ps, parts path = ps ↔
        ps ≠ [] ∧ (∀ part ∈ ps, '/' ∉ part.toList) ∧ "/".intercalate ps = path) ∧
      base.toList <+: (underBase base path).toList ∧
      (IsAbsolute (underBase base path) ↔ IsAbsolute base) ∧
      clean (clean path) = clean path ∧
      (parts (underBase base path)).filter moves = (parts (base ++ "/" ++ path)).filter moves := by
  refine ⟨?_, underBase_eq_append base path, ?_, fun ps => parts_eq_iff,
    isPrefix_underBase base path, isAbsolute_underBase base path, clean_clean path, ?_⟩
  · rw [Opener.under, join_eq, underBase_eq_append]
  · rw [clean, ofParts, cleanParts_eq, frontDot]
    congr 2
    exact List.filter_congr fun part _ => moves_eq part
  · rw [underBase_eq_append, filter_moves_separated, filter_moves_parts_clean, parts_append_slash,
      List.filter_append]

/-- Slashes, dots and an absolute path do not lead away from the base. -/
example : underBase "lib" "//.//a/../b/" = "lib/a/../b" := by decide

end DrawLang.Path
