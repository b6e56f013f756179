import DrawLang.Proofs.Fillings
import DrawLang.Proofs.Pointing

/-!
# Loads that fail

A load fails if its source cannot be opened or read, or if the text does not parse. It lists one
fault then, and does nothing else. So it can be left out: the run stays what it is, but for that
fault, each time the load would have been run. No step looks at the faults that have been listed.

* `Opener.failure?`: the fault of a load.
* `exists_common_log`: one log tells what is listed in the places of a sketch, whatever is there.
* `faults_ignored`: faults that have been listed make no difference.
* `failing_loads_isolated`: loads that fail can be left out.
-/

namespace DrawLang

/-! ## Statements that only list faults -/

/-- The fault that a load lists if it fails. -/
def Opener.failure? (opener : Opener) (path : Word) : Option Fault :=
  match opener path.text with
  | .contents bytes =>
    match parse? path.text (Text.decode bytes) with
    | .error place => some (.misplacedToken place)
    | .ok _ => Option.none
  | _ => opener.refusal? path

section Lists

variable {opener : Opener} {run : BodyRunner}

theorem loadSource_of_failure {path : Word} {f : Fault} (h : opener.failure? path = some f) :
    loadSource opener run path = report f := by
  unfold Opener.failure? Opener.refusal? at h
  unfold loadSource
  cases hopener : opener path.text with
  | unopened cause message =>
    rw [hopener] at h
    exact congrArg report (Option.some.inj h)
  | unreadable cause =>
    rw [hopener] at h
    exact congrArg report (Option.some.inj h)
  | contents bytes =>
    rw [hopener] at h
    dsimp only at h ⊢
    cases hparse : parse? path.text (Text.decode bytes) with
    | error place =>
      rw [hparse] at h
      exact congrArg report (Option.some.inj h)
    | ok program =>
      rw [hparse] at h
      cases h

/-- A load fails with a fault at its path, or with the one of the text that it loads. -/
theorem failure?_eq_some {path : Word} {f : Fault} (h : opener.failure? path = some f) :
    (∃ reason, f = .unavailable path.stop reason) ∨
      ∃ bytes place, opener path.text = .contents bytes ∧
        parse? path.text (Text.decode bytes) = .error place ∧ f = .misplacedToken place := by
  unfold Opener.failure? at h
  split at h
  · rename_i bytes hopener
    split at h
    · rename_i place hparse
      exact .inr ⟨bytes, place, hopener, hparse, (Option.some.inj h).symm⟩
    · cases h
  · exact .inl (exists_of_refusal? h)

/-- A statement that does nothing but list a fault, as a list. -/
theorem lists_of_exec {s : Stmt} {f : Fault}
    (h : ∀ (run : BodyRunner) (m : Machine), s.exec opener run m = report f m) :
    ListsOnly opener [s] [f] := by
  intro run m _
  let m₁ : Machine := { m with faults := m.faults.push f }
  have hpush : m.faults.push f = m.faults ++ [f] := by simp
  rw [execAll_cons, h run m, ← hpush]
  show (if m.pending.isSome = true then some ((), m₁) else some ((), m₁)) = some ((), m₁)
  exact ite_self _

theorem lists_nothing (opener : Opener) : ListsOnly opener [] [] := by
  intro run m _
  have happend : m.faults ++ ([] : List Fault) = m.faults := by simp
  show some ((), m) = some ((), { m with faults := m.faults ++ ([] : List Fault) })
  rw [happend]

theorem lists_load {path : Word} {f : Fault} (h : opener.failure? path = some f) :
    ListsOnly opener [.load path] [f] :=
  lists_of_exec fun _ m => congrFun (loadSource_of_failure h) m

/-- A statement that divides by zero at a given place, and does nothing else. -/
def probe (place : Position) : Stmt :=
  .test .same (.literal "0") (.binary .div (.literal "1") (.literal "0") place) []

theorem lists_probe (opener : Opener) (place : Position) :
    ListsOnly opener [probe place] [.divisionByZero place] :=
  lists_of_exec fun _ _ => rfl

end Lists

/-- A load that fails. -/
structure FailingLoad (opener : Opener) where
  path : Word
  failure : Fault
  fails : opener.failure? path = some failure

namespace Filling

variable {opener : Opener} {k : Nat}

/-- Loads that fail in all places. -/
def loads (load : Fin k → FailingLoad opener) : Filling opener k where
  stmts i := [.load (load i).path]
  faults i := [(load i).failure]
  lists i := lists_load (load i).fails

def nothing : Filling opener k where
  stmts _ := []
  faults _ := []
  lists _ := lists_nothing opener

/-- In every place a division by zero in a line of its own file, which tells the place. -/
def probing (line : Nat) : Filling opener k where
  stmts i := [probe ⟨"", line, i⟩]
  faults i := [.divisionByZero ⟨"", line, i⟩]
  lists _ := lists_probe opener _

theorem mem_listed {φ : Filling opener k} {log : Log k} {f : Fault} :
    f ∈ φ.listed log ↔ .inl f ∈ log ∨ ∃ i, .inr i ∈ log ∧ f ∈ φ.faults i := by
  simp [listed, Sum.exists]

end Filling

/-! ## One log for all fillings -/

section Log

variable {opener : Opener} {k : Nat}

def Unmarked (k line : Nat) (f : Fault) : Prop := ∀ i : Fin k, f ≠ .divisionByZero ⟨"", line, i⟩

/-- The entry of a log that a fault stands for in the run with the probes of a line. -/
def unmark (k line : Nat) : Fault → Fault ⊕ Fin k
  | .divisionByZero place =>
    if h : place.file = "" ∧ place.line = line ∧ place.column < k then
      .inr ⟨place.column, h.2.2⟩
    else
      .inl (.divisionByZero place)
  | f => .inl f

theorem unmark_of_unmarked {line : Nat} {f : Fault} (h : Unmarked k line f) :
    unmark k line f = .inl f := by
  cases f with
  | divisionByZero place =>
    rw [unmark, dif_neg]
    rintro ⟨hfile, hline, hcolumn⟩
    apply h ⟨place.column, hcolumn⟩
    rw [← hfile, ← hline]
  | _ => rfl

theorem unmark_probe (line : Nat) (i : Fin k) :
    unmark k line (.divisionByZero ⟨"", line, i⟩) = .inr i :=
  dif_pos ⟨rfl, rfl, i.isLt⟩

/-- A log is read off the faults that are listed with the probes of a line, if no other faults look
like these. -/
theorem map_unmark_listed {line : Nat} {log : Log k} (h : ∀ f, .inl f ∈ log → Unmarked k line f) :
    ((Filling.probing line : Filling opener k).listed log).map (unmark k line) = log := by
  induction log with
  | nil => rfl
  | cons e log ih =>
    have ih := ih fun f hf => h f (List.mem_cons_of_mem _ hf)
    cases e with
    | inl f =>
      have hf := unmark_of_unmarked (h f List.mem_cons_self)
      exact congrArg₂ List.cons hf ih
    | inr i => exact congrArg₂ List.cons (unmark_probe line i) ih

/-- Far enough down all lines are free of given faults. -/
theorem exists_unmarked (k : Nat) (fs : List Fault) :
    ∃ n, ∀ line, n ≤ line → ∀ f ∈ fs, Unmarked k line f := by
  induction fs with
  | nil => exact ⟨0, nofun⟩
  | cons f fs ih =>
    obtain ⟨n, hn⟩ := ih
    have hf : ∃ n', ∀ line, n' ≤ line → Unmarked k line f := by
      cases hplace : f.position? with
      | none =>
        refine ⟨0, fun line _ i hi => ?_⟩
        rw [hi] at hplace
        cases hplace
      | some place =>
        refine ⟨place.line + 1, fun line hline i hi => ?_⟩
        rw [hi] at hplace
        cases hplace
        exact absurd hline (Nat.not_succ_le_self line)
    obtain ⟨n', hn'⟩ := hf
    refine ⟨max n n', fun line hline => ?_⟩
    rw [Nat.max_le] at hline
    exact List.forall_mem_cons.2 ⟨hn' line hline.2, hn line hline.1⟩

/-- If for any two fillings there is a log of what is listed, then there is one log for all of them.
It is read off the faults that are listed with probes in the places. -/
theorem exists_common_log {F : Filling opener k → List Fault}
    (h : ∀ φ ψ, ∃ log : Log k, F φ = φ.listed log ∧ F ψ = ψ.listed log) :
    ∃ log : Log k, ∀ φ, F φ = φ.listed log := by
  obtain ⟨n, hn⟩ := exists_unmarked k (F .nothing)
  -- what is listed beside the probes is listed without them, too
  have hmem {line : Nat} {f : Fault} (hf : f ∈ F (.probing line)) :
      f ∈ F .nothing ∨ ∃ i : Fin k, f = .divisionByZero ⟨"", line, i⟩ := by
    obtain ⟨log, hnothing, hprobing⟩ := h .nothing (.probing line)
    rw [hprobing, Filling.mem_listed] at hf
    rw [hnothing, Filling.mem_listed]
    rcases hf with hf | ⟨i, -, hf⟩
    · exact .inl (.inl hf)
    · exact .inr ⟨i, List.mem_singleton.1 hf⟩
  have hunmarked {line line' : Nat} {f : Fault} (hf : f ∈ F (.probing line)) (hline : n ≤ line')
      (hne : line ≠ line') : Unmarked k line' f := by
    rcases hmem hf with hf | ⟨i, rfl⟩
    · exact hn line' hline f hf
    · intro j hj
      exact hne (congrArg Position.line (Fault.divisionByZero.inj hj))
  refine ⟨(F (.probing n)).map (unmark k n), fun φ => ?_⟩
  obtain ⟨n', hn'⟩ := exists_unmarked k (F φ)
  let line := max (n + 1) n'
  have hlt : n < line := Nat.lt_of_succ_le (Nat.le_max_left _ _)
  obtain ⟨log, hφ, hline⟩ := h φ (.probing line)
  obtain ⟨log', hline', hn₀⟩ := h (.probing line) (.probing n)
  have hlog : (F (.probing line)).map (unmark k line) = log := by
    rw [hline, map_unmark_listed fun f hf => ?_]
    exact hn' line (Nat.le_max_right _ _) f (hφ ▸ Filling.mem_listed.2 (.inl hf))
  have hcommon (f : Fault) (hf : .inl f ∈ log') : f ∈ F (.probing line) ∧ f ∈ F (.probing n) := by
    rw [hline', hn₀]
    exact ⟨Filling.mem_listed.2 (.inl hf), Filling.mem_listed.2 (.inl hf)⟩
  have hlog' : (F (.probing line)).map (unmark k line) = log' := by
    rw [hline', map_unmark_listed fun f hf => ?_]
    exact hunmarked (hcommon f hf).2 (Nat.le_of_lt hlt) (Nat.ne_of_lt hlt)
  have hlog₀ : (F (.probing n)).map (unmark k n) = log' := by
    rw [hn₀, map_unmark_listed fun f hf => ?_]
    exact hunmarked (hcommon f hf).1 (Nat.le_refl n) (Nat.ne_of_gt hlt)
  rw [hlog₀, ← hlog', hlog, hφ]

end Log

/-- What comes of a sketch in a run, however it is filled: no outcome with any filling, or one
picture with all of them, and faults that are those of one log. -/
theorem exists_log (settings : Settings) (depth : Nat) (name : String) {k : Nat}
    (sketch : Sketch k) :
    (∀ φ : Filling settings.opener k,
      Program.run? settings depth name (sketch.fill φ.stmts) = none) ∨
    ∃ log : Log k, ∀ φ ψ : Filling settings.opener k, ∃ o o',
      Program.run? settings depth name (sketch.fill φ.stmts) = some o ∧
      Program.run? settings depth name (sketch.fill ψ.stmts) = some o' ∧
      SameShow φ ψ log o o' := by
  let run (φ : Filling settings.opener k) : Option Outcome :=
    Program.run? settings depth name (sketch.fill φ.stmts)
  have hrel (φ ψ : Filling settings.opener k) :
      Option.Rel (fun o o' => ∃ log, SameShow φ ψ log o o') (run φ) (run ψ) :=
    rel_run?_filled settings depth name sketch φ ψ
  cases hnothing : run .nothing with
  | none =>
    left
    intro φ
    have h := hrel .nothing φ
    rw [hnothing] at h
    generalize hφ : run φ = r at h
    cases h
    exact hφ
  | some o₀ =>
    right
    have hsome (φ : Filling settings.opener k) : ∃ o, run φ = some o := by
      have h := hrel .nothing φ
      rw [hnothing] at h
      generalize run φ = r at h ⊢
      cases h
      exact ⟨_, rfl⟩
    choose outcome houtcome using hsome
    have hshow (φ ψ : Filling settings.opener k) :
        ∃ log, SameShow φ ψ log (outcome φ) (outcome ψ) := by
      have h := hrel φ ψ
      rw [houtcome φ, houtcome ψ] at h
      cases h with
      | some h => exact h
    obtain ⟨log, hlog⟩ := exists_common_log (F := fun φ => (outcome φ).faults.toList) fun φ ψ =>
      (hshow φ ψ).imp fun _ h => ⟨h.left, h.right⟩
    refine ⟨log, fun φ ψ => ⟨outcome φ, outcome ψ, houtcome φ, houtcome ψ, ?_⟩⟩
    obtain ⟨_, h⟩ := hshow φ ψ
    exact ⟨h.canvas, h.frames, hlog φ, hlog ψ⟩

/-! ## Faults that have been listed -/

/-- Whether the faults that have been listed make no difference to what is run: the same is done,
and the same faults are added. No result is pending when something starts. -/
def FaultsIgnored (opener : Opener) : Prop :=
  ∀ (n : Nat) (ss : List Stmt) (m : Machine) (fs fs' : Array Fault), m.pending = none →
    Option.Rel (fun r r' => ∃ added : List Fault, r.2.faults = fs ++ added ∧
        r'.2 = { r.2 with faults := fs' ++ added })
      (Stmt.execAll opener (execAt opener n) ss { m with faults := fs })
      (Stmt.execAll opener (execAt opener n) ss { m with faults := fs' })

theorem push_append (fs : Array Fault) (added : List Fault) (f : Fault) :
    (fs ++ added).push f = fs ++ (added ++ [f]) :=
  Array.toList_inj.1 (by simp)

/-- A run beside the same run with other faults listed before. -/
def prehistories (fs fs' : Array Fault) : Comparison where
  place := id
  Bodies _ := Eq
  Faults gs gs' := ∃ added : List Fault, gs = fs ++ added ∧ gs' = fs' ++ added
  Records r es r' es' := r = r' ∧ es = es'
  bodies h body := eq_relocateAll h body
  report := by
    rintro gs gs' f f' ⟨added, rfl, rfl⟩ hf
    rw [Fault.relocate_id, Fault.relocate_id] at hf
    exact ⟨added ++ [f], push_append fs added f, hf ▸ push_append fs' added f⟩
  tell h event _ hr := by
    rw [← eq_relocate_event h event, hr.1, hr.2]
    exact ⟨rfl, rfl⟩
  capture c hr := by
    rw [hr.1, hr.2]
    exact ⟨rfl, rfl⟩

section Prehistories

variable {fs fs' : Array Fault}

theorem bound_eq {b b' : Binding} (h : (prehistories fs fs').Bound b b') : b = b' := by
  cases h with
  | value n => rfl
  | routine role name params hbody =>
    cases hbody
    rfl

theorem frames_eq {frame frame' : Bindings} (h : (prehistories fs fs').Frames frame frame') :
    frame = frame' := by
  have heq : List.Forall₂ Eq frame frame' := h.imp fun _ _ he => Prod.ext he.1 (bound_eq he.2)
  rwa [List.forall₂_eq_eq_eq] at heq

theorem scopes_eq {s s' : Scope} (h : (prehistories fs fs').Scopes s s') : s = s' := by
  have hinner : List.Forall₂ Eq s.inner s'.inner := h.inner.imp fun _ _ => frames_eq
  rw [List.forall₂_eq_eq_eq] at hinner
  have hroot := frames_eq h.root
  cases s
  cases s'
  cases hinner
  cases hroot
  rfl

theorem scopes_self (s : Scope) : (prehistories fs fs').Scopes s s := by
  have hbound (b : Binding) : (prehistories fs fs').Bound b b := by
    cases b with
    | value n => exact .value n
    | routine role d => exact .routine role d.name d.params rfl
  have hframe (frame : Bindings) : (prehistories fs fs').Frames frame frame :=
    List.forall₂_same.2 fun e _ => ⟨rfl, hbound e.2⟩
  exact ⟨List.forall₂_same.2 fun frame _ => hframe frame, hframe s.root⟩

/-- States that are alike are the same but for their faults. -/
theorem eq_of_alike {m m' : Machine} {gs : Array Fault} (h : (prehistories fs fs').Alike m m')
    (hgs : m'.faults = gs) : m' = { m with faults := gs } := by
  obtain ⟨hcanvas, hpen, hpending, hnumber, hscope, -, hrecorder, hevents⟩ := h
  have hscope := scopes_eq hscope
  cases m
  cases m'
  simp_all

end Prehistories

/-- No step looks at the faults that have been listed. -/
theorem faults_ignored (opener : Opener) : FaultsIgnored opener := by
  intro n ss m fs fs' hm
  let C := prehistories fs fs'
  have htracks : C.Tracks False (execAt opener n) (execAt opener n) :=
    Comparison.Tracks.execAt_of_eq opener id n
  have hstep := htracks.execAll C.ignores_id opener ss
  rw [Stmt.relocateAll_id] at hstep
  have hready : C.Ready { m with faults := fs } { m with faults := fs' } :=
    { canvas := rfl
      pen := rfl
      pending := rfl
      inNumber := rfl
      scope := scopes_self m.scope
      faults := ⟨[], by simp, by simp⟩
      records := ⟨rfl, rfl⟩
      nothing := hm }
  rcases hstep hready with ⟨h, -⟩ | hrel
  · exact h.elim
  · generalize Stmt.execAll opener (execAt opener n) ss { m with faults := fs } = r at hrel ⊢
    generalize Stmt.execAll opener (execAt opener n) ss { m with faults := fs' } = r' at hrel ⊢
    cases hrel with
    | none => exact .none
    | some hr =>
      rename_i r r'
      obtain ⟨u, m₁⟩ := r
      obtain ⟨u', m₁'⟩ := r'
      obtain ⟨-, halike⟩ := hr
      obtain ⟨added, hfs, hfs'⟩ := halike.faults
      exact .some ⟨added, hfs, eq_of_alike halike hfs'⟩

/-! ## Loads that are left out -/

/-- **Loads that fail can be left out.** At every depth, a program with loads that fail ends if the
program without them does. Both show one picture and one row of frames, and the faults of both are
those of one log: what is listed in its places are the faults of the loads for the one, and nothing
for the other. The places of the log are those where a load was run, since the log is the same for
any other statements in place of the loads that do nothing but list faults. Each load lists one
fault, at its path or the one of the text that it loads. And faults that have been listed make no
difference to what is run later. -/
theorem failing_loads_isolated (settings : Settings) (name : String) {k : Nat} (sketch : Sketch k)
    (load : Fin k → FailingLoad settings.opener) :
    (∀ depth, Option.Rel (fun o o' => ∃ log, SameShow (.loads load) .nothing log o o' ∧
        ∀ φ : Filling settings.opener k, ∃ oφ,
          Program.run? settings depth name (sketch.fill φ.stmts) = some oφ ∧
          SameShow φ .nothing log oφ o')
      (Program.run? settings depth name (sketch.fill fun i => [.load (load i).path]))
      (Program.run? settings depth name (sketch.fill fun _ => []))) ∧
    (∀ i, (∃ reason, (load i).failure = .unavailable (load i).path.stop reason) ∨
      ∃ bytes place, settings.opener (load i).path.text = .contents bytes ∧
        parse? (load i).path.text (Text.decode bytes) = .error place ∧
        (load i).failure = .misplacedToken place) ∧
    FaultsIgnored settings.opener := by
  refine ⟨fun depth => ?_, fun i => failure?_eq_some (load i).fails, faults_ignored _⟩
  rcases exists_log settings depth name sketch with hnone | ⟨log, hlog⟩
  · have hload := hnone (.loads load)
    have hnothing := hnone .nothing
    simp only [Filling.loads, Filling.nothing] at hload hnothing
    rw [hload, hnothing]
    exact .none
  · obtain ⟨o, o', ho, ho', hshow⟩ := hlog (.loads load) .nothing
    have hothers (φ : Filling settings.opener k) : ∃ oφ,
        Program.run? settings depth name (sketch.fill φ.stmts) = some oφ ∧
        SameShow φ .nothing log oφ o' := by
      obtain ⟨oφ, o'', hφ, ho'', hshow⟩ := hlog φ .nothing
      rw [ho'] at ho''
      cases ho''
      exact ⟨oφ, hφ, hshow⟩
    simp only [Filling.loads, Filling.nothing] at ho ho'
    rw [ho, ho']
    exact .some ⟨log, hshow, hothers⟩

/-- A source that breaks off while it is read, and one that does not parse. -/
def gappySettings : Settings :=
  { length := 2
    opener := .ofList [("torn", .unreadable .isDirectory),
      ("scrawl", .contents ("Line 0".toList.map fun c => UInt8.ofNat c.toNat))]
    recording := true
    library := Library.none }

def gapWord (text : String) (line : Nat) : Word := ⟨text, ⟨"gaps", line, 6⟩, ⟨"gaps", line, 12⟩⟩

/-- Loads that fail in three ways: the first one's source is not there at all. -/
def gappyLoads : Fin 3 → FailingLoad gappySettings.opener
  | 0 => ⟨gapWord "absent" 1, .unavailable ⟨"gaps", 1, 12⟩ "open absent: file does not exist", rfl⟩
  | 1 => ⟨gapWord "torn" 2,
      .unavailable ⟨"gaps", 2, 12⟩ "read torn: Is a directory (os error 21)", rfl⟩
  | 2 => ⟨gapWord "scrawl" 3, .misplacedToken ⟨"scrawl", 1, 7⟩, by decide +kernel⟩

/-- Two loads stand in a loop, and one in a number. -/
def gappySketch : Sketch 3 :=
  .define .number "Ink" [] (.place 2 (.keep (.value (.literal "40")) .nil))
    (.loop "I" (.literal "1") (.literal "2") (.place 0 (.place 1 .nil))
      (.keep (.paper (.call (gapWord "Ink" 4) [])) .nil))

/-- Without the loads, the paper is as gray as with them, and no fault is listed. -/
theorem gaps_isolated : ∃ o o' log,
    Program.run? gappySettings 2 "gaps"
      (gappySketch.fill fun i => [.load (gappyLoads i).path]) = some o ∧
    Program.run? gappySettings 2 "gaps" (gappySketch.fill fun _ => []) = some o' ∧
    SameShow (.loads gappyLoads) .nothing log o o' ∧
    o.faults.toList = [0, 1, 0, 1, 2].map fun i => (gappyLoads i).failure := by
  have hfaults : (Program.run? gappySettings 2 "gaps"
      (gappySketch.fill fun i => [.load (gappyLoads i).path])).map (·.faults.toList) =
        some ([0, 1, 0, 1, 2].map fun i => (gappyLoads i).failure) := by decide +kernel
  obtain ⟨o, ho, hlist⟩ := Option.map_eq_some_iff.1 hfaults
  have hrel := (failing_loads_isolated gappySettings "gaps" gappySketch gappyLoads).1 2
  rw [ho] at hrel
  generalize Program.run? gappySettings 2 "gaps" (gappySketch.fill fun _ => []) = r at hrel ⊢
  cases hrel with
  | @some _ o' h =>
    obtain ⟨log, hshow, -⟩ := h
    exact ⟨o, o', log, ho, rfl, hshow, hlist⟩

end DrawLang
