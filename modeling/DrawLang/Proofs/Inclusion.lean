import DrawLang.Proofs.Lockstep
import DrawLang.Proofs.Unwinding

/-!
# Blocks and loads

A block is run like its statements, and a load like the statements of the text that it loads: in the
frame at hand, and with a `Value` among them ending the same number. So programs that differ in that
only, also in the bodies of their definitions, run alike. One of them may have to go deeper, since
every load goes one level down; how much deeper depends on how deep the replaced loads are nested.

* `Included`: programs that differ in blocks and loads only.
* `inclusions`: what is compared of their runs.
* `tracks_included`: bodies to different depths.
* `inclusion_invisible`: the runs of such programs.
-/

namespace DrawLang

/-! ## Blocks and loads in place -/

/-- Whether an opener has a text under a path that is parsed into statements. -/
def Opener.Serves (opener : Opener) (path : String) (loaded : List Stmt) : Prop :=
  ∃ bytes, opener path = .contents bytes ∧ parse? path (Text.decode bytes) = .ok loaded

/-- Lists of statements that differ in what is included how, at any depth and in any number of
places. Where one of them has a block, the other one may have its statements in place; where one of
them has a load, the other one may have the statements of the text that it loads. What stands for
these statements may again differ from them in this way. Loads are replaced at most `k` deep: in
what stands for a load, further ones are replaced at most `k - 1` deep. -/
inductive Included (opener : Opener) : Nat → List Stmt → List Stmt → Prop where
  | nil {k} : Included opener k [] []
  | keep {k} (s : Stmt) {ss ss'} : Included opener k ss ss' →
      Included opener k (s :: ss) (s :: ss')
  | block {k body body' ss ss'} : Included opener k body body' → Included opener k ss ss' →
      Included opener k (.block body :: ss) (.block body' :: ss')
  | loop {k} (name : String) (first last : Expr) {body body' ss ss'} :
      Included opener k body body' → Included opener k ss ss' →
      Included opener k (.loop name first last body :: ss) (.loop name first last body' :: ss')
  | test {k} (relation : Relation) (left right : Expr) {body body' ss ss'} :
      Included opener k body body' → Included opener k ss ss' →
      Included opener k (.test relation left right body :: ss)
        (.test relation left right body' :: ss')
  | define {k} (role : Role) (name : String) (params : List String) {body body' ss ss'} :
      Included opener k body body' → Included opener k ss ss' →
      Included opener k (.define role name params body :: ss)
        (.define role name params body' :: ss')
  | blockLeft {k body body' ss ss'} : Included opener k body body' → Included opener k ss ss' →
      Included opener k (.block body :: ss) (body' ++ ss')
  | blockRight {k body body' ss ss'} : Included opener k body body' → Included opener k ss ss' →
      Included opener k (body ++ ss) (.block body' :: ss')
  | loadLeft {k path loaded body' ss ss'} : opener.Serves path.text loaded →
      Included opener k loaded body' → Included opener (k + 1) ss ss' →
      Included opener (k + 1) (.load path :: ss) (body' ++ ss')
  | loadRight {k path loaded body ss ss'} : opener.Serves path.text loaded →
      Included opener k body loaded → Included opener (k + 1) ss ss' →
      Included opener (k + 1) (body ++ ss) (.load path :: ss')

namespace Included

variable {opener : Opener} {k k' : Nat} {ss ss' : List Stmt}

theorem refl (opener : Opener) (k : Nat) (ss : List Stmt) : Included opener k ss ss := by
  induction ss with
  | nil => exact .nil
  | cons s ss ih => exact .keep s ih

theorem symm (h : Included opener k ss ss') : Included opener k ss' ss := by
  induction h with
  | nil => exact .nil
  | keep s _ ih => exact .keep s ih
  | block _ _ ihbody ih => exact .block ihbody ih
  | loop name first last _ _ ihbody ih => exact .loop name first last ihbody ih
  | test relation left right _ _ ihbody ih => exact .test relation left right ihbody ih
  | define role name params _ _ ihbody ih => exact .define role name params ihbody ih
  | blockLeft _ _ ihbody ih => exact .blockRight ihbody ih
  | blockRight _ _ ihbody ih => exact .blockLeft ihbody ih
  | loadLeft hserves _ _ ihbody ih => exact .loadRight hserves ihbody ih
  | loadRight hserves _ _ ihbody ih => exact .loadLeft hserves ihbody ih

theorem mono (h : Included opener k ss ss') (hk : k ≤ k') : Included opener k' ss ss' := by
  induction h generalizing k' with
  | nil => exact .nil
  | keep s _ ih => exact .keep s (ih hk)
  | block _ _ ihbody ih => exact .block (ihbody hk) (ih hk)
  | loop name first last _ _ ihbody ih => exact .loop name first last (ihbody hk) (ih hk)
  | test relation left right _ _ ihbody ih => exact .test relation left right (ihbody hk) (ih hk)
  | define role name params _ _ ihbody ih => exact .define role name params (ihbody hk) (ih hk)
  | blockLeft _ _ ihbody ih => exact .blockLeft (ihbody hk) (ih hk)
  | blockRight _ _ ihbody ih => exact .blockRight (ihbody hk) (ih hk)
  | loadLeft hserves _ _ ihbody ih =>
    obtain _ | k' := k'
    · omega
    exact .loadLeft hserves (ihbody (by omega)) (ih hk)
  | loadRight hserves _ _ ihbody ih =>
    obtain _ | k' := k'
    · omega
    exact .loadRight hserves (ihbody (by omega)) (ih hk)

end Included

/-- A run beside one of a program with other inclusions. What is told of loads is not compared. -/
def inclusions (opener : Opener) (k : Nat) : Comparison where
  place := id
  Bodies _ := Included opener k
  Faults := Eq
  Records r _ r' _ := r = r'
  bodies h body := by
    rw [← eq_relocateAll h body]
    exact .refl opener k body
  report := @push_of_relocate_id
  tell _ _ _ h := h
  capture c h := capture_congr c h

/-! ## Runs with different inclusions -/

section Steps

variable {opener : Opener} {k : Nat} {short : Prop} {run : BodyRunner}

/-- Two lists in a row, as a step. -/
theorem execAll_append_apply {m : Machine} (hm : m.pending = none) (ss ts : List Stmt) :
    Stmt.execAll opener run (ss ++ ts) m =
      (Stmt.execAll opener run ss >>= fun _ => do
        if ← isPending then return () else Stmt.execAll opener run ts : Exec Unit) m := by
  rw [execAll_append hm]
  show _ = (Stmt.execAll opener run ss m).bind _
  congr 1
  funext r
  show _ = (if r.2.pending.isSome = true then _ else _ : Exec Unit) r.2
  split <;> rfl

section Parts

variable {C : Comparison} {run' : BodyRunner} {x y : Exec Unit} {body ss ss' : List Stmt}

/-- What goes in step with the first of two lists, and then as the second one. -/
theorem append_inStep_right (hbody : InStep short C.Ready C.Alike x (Stmt.execAll opener run' body))
    (hss : InStep short C.Ready C.Alike (Stmt.execAll opener run ss)
      (Stmt.execAll opener run' ss')) :
    InStep short C.Ready C.Alike
      (do x; if ← isPending then return () else Stmt.execAll opener run ss)
      (Stmt.execAll opener run' (body ++ ss')) := by
  intro m m' hm
  have hnothing : m'.pending = none := hm.pending ▸ hm.nothing
  rw [execAll_append_apply hnothing]
  exact InStep.bind hbody (fun _ => unlessPending_inStep hss) hm

/-- Likewise with the two lists on the left. -/
theorem append_inStep_left (hbody : InStep short C.Ready C.Alike (Stmt.execAll opener run body) y)
    (hss : InStep short C.Ready C.Alike (Stmt.execAll opener run ss)
      (Stmt.execAll opener run' ss')) :
    InStep short C.Ready C.Alike (Stmt.execAll opener run (body ++ ss))
      (do y; if ← isPending then return () else Stmt.execAll opener run' ss') := by
  intro m m' hm
  rw [execAll_append_apply hm.nothing]
  exact InStep.bind hbody (fun _ => unlessPending_inStep hss) hm

end Parts

theorem loadSource_of_serves {path : Word} {loaded : List Stmt}
    (h : opener.Serves path.text loaded) : loadSource opener run path =
      (do tell (.sourceLoaded path.text loaded.length); run loaded) := by
  obtain ⟨bytes, hopener, hparse⟩ := h
  simp only [loadSource, hopener, hparse]

/-- What the left run tells is not compared. -/
theorem tell_inStep_left {S : Machine → Machine → Prop} (event : Event) {x y : Exec Unit}
    (h : InStep short (inclusions opener k).Ready S x y) :
    InStep short (inclusions opener k).Ready S (do tell event; x) y :=
  fun m m' hm => @h { m with events := m.events.push event } m' { hm with }

/-- What the right run tells is not compared. -/
theorem tell_inStep_right {S : Machine → Machine → Prop} (event : Event) {x y : Exec Unit}
    (h : InStep short (inclusions opener k).Ready S x y) :
    InStep short (inclusions opener k).Ready S x (do tell event; y) :=
  fun m m' hm => @h m { m' with events := m'.events.push event } { hm with }

/-- Statements go in step with the same statements under other inclusions, if those are run deep
enough: for every level on the left `k + 1` levels, since the body of a call may have a load on the
right that goes down `k` levels first, and `j` levels more for the loads in these statements. -/
theorem execAll_included {j n : Nat} {ss ss' : List Stmt} (h : Included opener j ss ss')
    (hk : j ≤ k)
    (htracks : ∀ N, n * (k + 1) ≤ N →
      (inclusions opener k).Tracks True (execAt opener n) (execAt opener N)) :
    ∀ N, n * (k + 1) + j ≤ N →
      InStep True (inclusions opener k).Ready (inclusions opener k).Alike
        (Stmt.execAll opener (execAt opener n) ss)
        (Stmt.execAll opener (execAt opener N) ss') := by
  have hid := (inclusions opener k).ignores_id
  induction h with
  | nil => exact fun N _ => (InStep.pure _).alike
  | keep s _ ih =>
    intro N hN
    have hs := (htracks N (by omega)).exec hid opener s
    rw [Stmt.relocate_id] at hs
    exact .bind hs fun _ => unlessPending_inStep (ih hk N hN)
  | block _ _ ihbody ih =>
    intro N hN
    exact .bind (ihbody hk N hN) fun _ => unlessPending_inStep (ih hk N hN)
  | loop name first last _ _ ihbody ih =>
    intro N hN
    have hs := (htracks N (by omega)).loop hid name first last (ihbody hk N hN)
    rw [Expr.relocate_id, Expr.relocate_id] at hs
    exact .bind hs fun _ => unlessPending_inStep (ih hk N hN)
  | test relation left right _ _ ihbody ih =>
    intro N hN
    have hs := (htracks N (by omega)).test hid relation left right (ihbody hk N hN)
    rw [Expr.relocate_id, Expr.relocate_id] at hs
    exact .bind hs fun _ => unlessPending_inStep (ih hk N hN)
  | define role name params hbody _ _ ih =>
    intro N hN
    have hbound := Comparison.Bound.routine role name params (C := inclusions opener k)
      (hbody.mono hk)
    exact .bind (bindName_inStep name hbound).alike fun _ => unlessPending_inStep (ih hk N hN)
  | blockLeft _ _ ihbody ih =>
    intro N hN
    exact append_inStep_right (ihbody hk N hN) (ih hk N hN)
  | blockRight _ _ ihbody ih =>
    intro N hN
    exact append_inStep_left (ihbody hk N hN) (ih hk N hN)
  | @loadLeft j path loaded body' _ _ hserves hbody _ _ ih =>
    intro N hN
    -- statements in place on the right are a body there, run one level further up
    have hloaded : InStep True (inclusions opener k).Ready (inclusions opener k).Alike
        (execAt opener n loaded) (Stmt.execAll opener (execAt opener N) body') :=
      (htracks (N + 1) (by omega)).anywhere fun _ => hbody.mono (by omega)
    have hload := tell_inStep_left (.sourceLoaded path.text loaded.length) hloaded
    rw [← loadSource_of_serves hserves] at hload
    exact append_inStep_right hload (ih hk N hN)
  | @loadRight j path loaded body _ _ hserves _ _ ihbody ih =>
    intro N hN
    -- the load goes one level down, and what it loads is compared with one level less to spare
    obtain _ | N := N
    · omega
    have hloaded : InStep True (inclusions opener k).Ready (inclusions opener k).Alike
        (Stmt.execAll opener (execAt opener n) body) (execAt opener (N + 1) loaded) :=
      ihbody (by omega) N (by omega)
    have hload := tell_inStep_right (.sourceLoaded path.text loaded.length) hloaded
    rw [← loadSource_of_serves hserves] at hload
    exact append_inStep_left hload (ih hk (N + 1) hN)

/-- Bodies go in step with the same bodies under other inclusions, if those are run deep enough. -/
theorem tracks_included (opener : Opener) (k n : Nat) : ∀ N, n * (k + 1) ≤ N →
    (inclusions opener k).Tracks True (execAt opener n) (execAt opener N) := by
  induction n with
  | zero =>
    intro N _
    exact ⟨execAt_keeps opener 0, fun _ => .failure trivial⟩
  | succ n ih =>
    intro N hN
    refine ⟨execAt_keeps opener (n + 1), fun h => ?_⟩
    rw [Nat.succ_mul] at hN
    obtain _ | N := N
    · omega
    exact (execAll_included h (Nat.le_refl k) ih N (by omega)).mono Comparison.Within.toReady id

end Steps

/-! ## Outcomes -/

/-- What runs of programs with different inclusions have in common. -/
structure SameResult (o o' : Outcome) : Prop where
  canvas : o.canvas = o'.canvas
  frames : o.frames = o'.frames
  faults : o.faults = o'.faults

/-- States with the same canvas, recorder and faults show the same result. -/
theorem sameResult_ofMachine {settings settings' : Settings} {m m' : Machine}
    (hscale : settings.scale = settings'.scale) (hcanvas : m.canvas = m'.canvas)
    (hrecorder : m.recorder = m'.recorder) (hfaults : m.faults = m'.faults) :
    SameResult (.ofMachine settings m) (.ofMachine settings' m') := by
  refine ⟨?_, ?_, hfaults⟩
  · simp only [Outcome.ofMachine, hcanvas, hscale]
  · simp only [Outcome.ofMachine, hrecorder]

/-- If a program ends, the one with other inclusions ends at all depths that are great enough. -/
theorem run?_included {settings : Settings} {depth depth' k : Nat} {name : String} {p p' : Program}
    {o : Outcome} (h : Included settings.opener k p p') (hdepth : depth * (k + 1) ≤ depth')
    (ho : p.run? settings depth name = some o) :
    ∃ o', p'.run? settings depth' name = some o' ∧ SameResult o o' := by
  have hstart : (inclusions settings.opener k).Alike (settings.start name p)
      (settings.start name p') := .start rfl rfl rfl
  have hend : ∀ m m', (inclusions settings.opener k).Alike m m' →
      SameResult (.ofMachine settings m) (.ofMachine settings m') :=
    fun m m' hm => sameResult_ofMachine rfl hm.canvas hm.records hm.faults
  have htracks := tracks_included settings.opener k depth depth' hdepth
  have hrel := Comparison.rel_run? htracks rfl h Iff.rfl hstart hend
  rw [ho] at hrel
  rcases hrel with ⟨-, hnone⟩ | hrel
  · cases hnone
  · generalize p'.run? settings depth' name = r at hrel ⊢
    cases hrel with
    | some hsame => exact ⟨_, rfl, hsame⟩

/-- Of two programs that differ in what is included how, one ends if the other one does, and then
they give the same picture, the same frames and the same faults in the same order. -/
theorem inclusion_invisible (settings : Settings) (name : String) (k : Nat) (p p' : Program)
    (h : Included settings.opener k p p') :
    ((∃ depth o, p.run? settings depth name = some o) ↔
      ∃ depth o, p'.run? settings depth name = some o) ∧
    ∀ depth depth' o o', p.run? settings depth name = some o →
      p'.run? settings depth' name = some o' → SameResult o o' := by
  refine ⟨⟨?_, ?_⟩, fun depth depth' o o' ho ho' => ?_⟩
  · rintro ⟨depth, o, ho⟩
    obtain ⟨o', ho', -⟩ := run?_included h (Nat.le_refl _) ho
    exact ⟨_, o', ho'⟩
  · rintro ⟨depth, o, ho⟩
    obtain ⟨o', ho', -⟩ := run?_included h.symm (Nat.le_refl _) ho
    exact ⟨_, o', ho'⟩
  · -- at a depth that is great enough for both, the second program has one outcome
    have hself := Included.refl settings.opener 0 p'
    have hgreat : depth' * (0 + 1) ≤ depth * (k + 1) + depth' := by omega
    obtain ⟨o₁, ho₁, hsame⟩ := run?_included h (Nat.le_add_right _ depth') ho
    obtain ⟨o₂, ho₂, hsame'⟩ := run?_included hself hgreat ho'
    rw [ho₁] at ho₂
    cases ho₂
    exact ⟨hsame.canvas.trans hsame'.canvas.symm, hsame.frames.trans hsame'.frames.symm,
      hsame.faults.trans hsame'.faults.symm⟩

/-- A text that divides by zero on its way to a `Value`. -/
def halfText : String := "Set [0 1] A / 0\nValue A / 2"

def halvingSettings : Settings :=
  let bytes := halfText.toList.map fun c => UInt8.ofNat c.toNat
  { length := 2, opener := .ofList [("half", .contents bytes)], recording := true, library := [] }

/-- The number `Half`, whose body begins with given statements, and some paper in its ink. -/
def halvingProgram (statements : List Stmt) : Program :=
  let here : Position := .start "main"
  [.define .number "Half" ["A"] (statements ++ [.value (.literal "9")]),
    .paper (.call ⟨"Half", here, here⟩ [.literal "60"])]

/-- The body may load the statements in a block or have them in place. -/
theorem halving_includes : ∃ (path : Word) (loaded : List Stmt) (o o' : Outcome),
    Included halvingSettings.opener 1 (halvingProgram [.block [.load path]])
      (halvingProgram loaded) ∧
    (halvingProgram [.block [.load path]]).run? halvingSettings 3 "main" = some o ∧
    (halvingProgram loaded).run? halvingSettings 2 "main" = some o' ∧ SameResult o o' := by
  let path : Word := ⟨"half", .start "main", .start "main"⟩
  have hparses : (parse? "half" halfText).toOption.isSome = true := by decide +kernel
  have hruns : ((halvingProgram [.block [.load path]]).run? halvingSettings 3 "main").isSome =
      true := by decide +kernel
  have hruns' : ((halvingProgram ((parse? "half" halfText).toOption.getD [])).run?
      halvingSettings 2 "main").isSome = true := by decide +kernel
  have hdecode : Text.decode (halfText.toList.map fun c => UInt8.ofNat c.toNat) = halfText := by
    decide +kernel
  obtain ⟨loaded, hparse⟩ := exists_parse_of_isSome hparses
  rw [hparse] at hruns'
  obtain ⟨o, ho⟩ := Option.isSome_iff_exists.1 hruns
  obtain ⟨o', ho'⟩ := Option.isSome_iff_exists.1 hruns'
  have hserves : halvingSettings.opener.Serves "half" loaded := by
    refine ⟨_, rfl, ?_⟩
    rw [hdecode, hparse]
  have hload : Included halvingSettings.opener 1 [.load path] (loaded ++ []) :=
    .loadLeft hserves (.refl _ _ _) .nil
  rw [List.append_nil] at hload
  have hincluded : Included halvingSettings.opener 1 (halvingProgram [.block [.load path]])
      (halvingProgram loaded) :=
    .define _ _ _ (.blockLeft hload (.refl _ _ _)) (.refl _ _ _)
  have hsame := (inclusion_invisible halvingSettings "main" 1 _ _ hincluded).2 3 2 o o' ho ho'
  exact ⟨path, loaded, o, o', hincluded, ho, ho', hsame⟩

end DrawLang
