import DrawLang.Proofs.Relocation
import DrawLang.Proofs.Steps
import Mathlib.Data.List.Forall2

/-!
# Runs in step

Two runs are compared step by step. What may differ between their states is said once: what counts
of a place, which bodies of definitions answer each other, and how the faults and the recordings are
related. If every elementary step keeps the states alike, so does whatever is built from the steps,
and a run to a depth ends when the other one ends.

* `InStep`: two steps that go together.
* `Comparison`: what is compared; `Comparison.Alike`: states that are alike.
* `Comparison.Ready`, `Comparison.Within`: states at which something starts.
* `Comparison.Tracks`: runners that keep states alike.
* `Tracks.eval`, `Tracks.exec`, `Tracks.execAll`: trees that differ in their places only.
* `Tracks.execAt`: bodies to any depth.
* `Comparison.rel_run?_of_sources`, `Comparison.rel_run?`: the outcomes of programs that answer each
  other, after libraries that do; `rel_unexecuted?`: the outcomes where there is no program.
-/

namespace DrawLang

/-! ## Steps side by side -/

/-- Two steps that go together. From states that stand in `R` both end, with one result and in
states that stand in `S`, or neither ends. Where the first may fall `short` of the second, it may
also be the only one that does not end. -/
def InStep (short : Prop) (R S : Machine → Machine → Prop) {α : Type} (x y : Exec α) : Prop :=
  ∀ ⦃m m'⦄, R m m' →
    short ∧ x m = none ∨ Option.Rel (fun r r' => r.1 = r'.1 ∧ S r.2 r'.2) (x m) (y m')

namespace InStep

variable {short : Prop} {R R' S S' T : Machine → Machine → Prop} {α β : Type}

theorem mono {x y : Exec α} (h : InStep short R S x y) (hR : ∀ {m m'}, R' m m' → R m m')
    (hS : ∀ {m m'}, S m m' → S' m m') : InStep short R' S' x y := by
  intro m m' hm
  rcases h (hR hm) with hshort | hrel
  · exact .inl hshort
  · right
    cases hx : x m <;> cases hy : y m' <;> rw [hx, hy] at hrel <;> cases hrel
    · exact .none
    · rename_i hrel
      exact .some ⟨hrel.1, hS hrel.2⟩

theorem pure (a : α) : InStep short R R (Pure.pure a) (Pure.pure a) :=
  fun _ _ hm => .inr (.some ⟨rfl, hm⟩)

theorem failure {y : Exec α} (h : short) : InStep short R S failure y :=
  fun _ _ _ => .inl ⟨h, rfl⟩

theorem modify {f g : Machine → Machine} (h : ∀ {m m'}, R m m' → S (f m) (g m')) :
    InStep short R S (modify f) (modify g) :=
  fun _ _ hm => .inr (.some ⟨rfl, h hm⟩)

theorem bind {x y : Exec α} {f g : α → Exec β} (hx : InStep short R S x y)
    (hf : ∀ a, InStep short S T (f a) (g a)) : InStep short R T (x >>= f) (y >>= g) := by
  intro m m' hm
  show short ∧ (x m).bind _ = none ∨ Option.Rel _ ((x m).bind _) ((y m').bind _)
  rcases hx hm with ⟨hshort, hnone⟩ | hrel
  · left
    rw [hnone]
    exact ⟨hshort, rfl⟩
  · cases hx : x m <;> cases hy : y m' <;> rw [hx, hy] at hrel <;> cases hrel
    · exact .inr .none
    · rename_i r r' hrel
      obtain ⟨a, m₁⟩ := r
      obtain ⟨b, m₁'⟩ := r'
      obtain ⟨rfl, hS⟩ := hrel
      exact hf a hS

/-- Steps that look at the state first. -/
theorem get {f g : Machine → Exec β} (h : ∀ {n n'}, R n n' → InStep short R S (f n) (g n')) :
    InStep short R S (MonadState.get >>= f) (MonadState.get >>= g) :=
  fun _ _ hm => h hm hm

end InStep

/-! ## What is compared -/

def Event.isCapture : Event → Bool
  | .frameCaptured _ | .frameLimitReached _ => true
  | _ => false

/-- What is told after a capture. -/
def Recorder.told (r : Recorder) (events : Array Event) : Array Event :=
  match r.captureEvent with
  | some event => events.push event
  | none => events

/-- How two runs are compared. -/
structure Comparison where
  /-- What counts of a place. -/
  place : Position → Position
  /-- The bodies that answer each other, in definitions of a role. -/
  Bodies : Role → List Stmt → List Stmt → Prop
  /-- The lists of faults that answer each other. -/
  Faults : Array Fault → Array Fault → Prop
  /-- The recorders that answer each other, with the lists of events. -/
  Records : Recorder → Array Event → Recorder → Array Event → Prop
  bodies : ∀ {f role}, place ∘ f = place → ∀ body, Bodies role body (Stmt.relocateAll f body)
  report : ∀ {faults faults' fault fault'}, Faults faults faults' →
    fault.relocate place = fault'.relocate place →
    Faults (faults.push fault) (faults'.push fault')
  tell : ∀ {f r es r' es'}, place ∘ f = place → ∀ event : Event, event.isCapture = false →
    Records r es r' es' → Records r (es.push event) r' (es'.push (event.relocate f))
  capture : ∀ {r es r' es'} (c : Canvas), Records r es r' es' →
    Records (r.capture c) (r.told es) (r'.capture c) (r'.told es')

/-- Lists of faults stay equal if equal faults are added. -/
theorem push_of_relocate_id {faults faults' : Array Fault} {fault fault' : Fault}
    (h : faults = faults') (hfault : fault.relocate id = fault'.relocate id) :
    faults.push fault = faults'.push fault' := by
  rw [Fault.relocate_id, Fault.relocate_id] at hfault
  rw [h, hfault]

/-- Where all of a place counts, bodies do not change with places. -/
theorem eq_relocateAll {f : Position → Position} (h : id ∘ f = id) (body : List Stmt) :
    body = Stmt.relocateAll f body := by
  rw [Function.id_comp] at h
  rw [h, Stmt.relocateAll_id]

/-- Nor do events. -/
theorem eq_relocate_event {f : Position → Position} (h : id ∘ f = id) (event : Event) :
    event = event.relocate f := by
  rw [Function.id_comp] at h
  rw [h, Event.relocate_id]

/-- Equal recorders stay equal. -/
theorem capture_congr {r r' : Recorder} (c : Canvas) (h : r = r') : r.capture c = r'.capture c := by
  rw [h]

namespace Comparison

variable (C : Comparison)

/-- Whether a change of places makes no difference that counts. -/
def Ignores (f : Position → Position) : Prop := C.place ∘ f = C.place

variable {C} in
theorem Ignores.fault {f : Position → Position} (h : C.Ignores f) (fault : Fault) :
    fault.relocate C.place = (fault.relocate f).relocate C.place := by
  rw [Fault.relocate_relocate, h]

theorem ignores_id : C.Ignores id := rfl

theorem bodies_self (role : Role) (body : List Stmt) : C.Bodies role body body := by
  have h : C.Bodies role body (Stmt.relocateAll id body) := C.bodies rfl body
  rwa [Stmt.relocateAll_id] at h

/-- Whether what is read of two sources answers each other. -/
inductive Parses : Except Position Program → Except Position Program → Prop where
  | error (place : Position) : Parses (.error place) (.error place)
  | ok {p p' : Program} : C.Bodies .command p p' → Parses (.ok p) (.ok p')

/-- Whether two sources of a library have one name and answer each other. -/
structure Sources (source source' : LibrarySource) : Prop where
  name : source.name = source'.name
  parsed : C.Parses (parse? source.name source.text) (parse? source'.name source'.text)

theorem sources_self (source : LibrarySource) : C.Sources source source := by
  refine ⟨rfl, ?_⟩
  cases parse? source.name source.text with
  | error place => exact .error place
  | ok p => exact .ok (C.bodies_self .command p)

/-- Whether two bindings answer each other. -/
inductive Bound : Binding → Binding → Prop where
  | value (n : Int64) : Bound (.value n) (.value n)
  | routine (role : Role) (name : String) (params : List String) {body body' : List Stmt} :
      C.Bodies role body body' →
      Bound (.routine role ⟨name, params, body⟩) (.routine role ⟨name, params, body'⟩)

def Frames : Bindings → Bindings → Prop :=
  List.Forall₂ fun e e' => e.1 = e'.1 ∧ C.Bound e.2 e'.2

structure Scopes (s s' : Scope) : Prop where
  inner : List.Forall₂ C.Frames s.inner s'.inner
  root : C.Frames s.root s'.root

/-- Whether two states are alike. -/
structure Alike (m m' : Machine) : Prop where
  canvas : m.canvas = m'.canvas
  pen : m.pen = m'.pen
  pending : m.pending = m'.pending
  inNumber : m.inNumber = m'.inNumber
  scope : C.Scopes m.scope m'.scope
  faults : C.Faults m.faults m'.faults
  records : C.Records m.recorder m.events m'.recorder m'.events

/-- Whether two states are alike, and no result is pending. -/
structure Ready (m m' : Machine) : Prop extends C.Alike m m' where
  nothing : m.pending = none

/-- Whether two states are alike, and the innermost call is in a role. Outside of calls that is the
role of commands. -/
structure Inside (role : Role) (m m' : Machine) : Prop extends C.Alike m m' where
  inside : m.inNumber = (role == .number)

/-- Whether two states are alike, no result is pending, and the innermost call is in a role. -/
structure Within (role : Role) (m m' : Machine) : Prop extends C.Ready m m' where
  inside : m.inNumber = (role == .number)

variable {C} in
theorem Within.toInside {role : Role} {m m' : Machine} (h : C.Within role m m') :
    C.Inside role m m' := ⟨h.toAlike, h.inside⟩

end Comparison

/-! ## Scopes that are alike -/

section Scopes

variable {C : Comparison}

theorem lookup_alike {frame frame' : Bindings} (h : C.Frames frame frame') (name : String) :
    Option.Rel C.Bound (frame.lookup name) (frame'.lookup name) := by
  induction h with
  | nil => exact .none
  | @cons e e' _ _ he _ ih =>
    obtain ⟨n, b⟩ := e
    obtain ⟨n', b'⟩ := e'
    obtain ⟨rfl, hb⟩ := he
    rw [List.lookup_cons, List.lookup_cons]
    cases name == n with
    | true => exact .some hb
    | false => exact ih

theorem setFrame_alike {frame frame' : Bindings} (h : C.Frames frame frame') (name : String)
    {b b' : Binding} (hb : C.Bound b b') :
    C.Frames (Bindings.set frame name b) (Bindings.set frame' name b') := by
  induction h with
  | nil => exact .cons ⟨rfl, hb⟩ .nil
  | @cons e e' rest rest' he hrest ih =>
    obtain ⟨n, _⟩ := e
    obtain ⟨n', _⟩ := e'
    obtain ⟨rfl, hold⟩ := he
    unfold Bindings.set
    by_cases hn : n = name
    · rw [if_pos hn, if_pos hn]
      exact .cons ⟨rfl, hb⟩ hrest
    · rw [if_neg hn, if_neg hn]
      exact .cons ⟨rfl, hold⟩ ih

namespace Comparison.Scopes

variable {s s' : Scope}

theorem get? (h : C.Scopes s s') (name : String) :
    Option.Rel C.Bound (s.get? name) (s'.get? name) := by
  have hframes : List.Forall₂ C.Frames s.frames s'.frames :=
    List.rel_append h.inner (.cons h.root .nil)
  unfold Scope.get?
  generalize s.frames = frames at hframes ⊢
  generalize s'.frames = frames' at hframes ⊢
  induction hframes with
  | nil => exact .none
  | cons hframe _ ih =>
    have hlookup := lookup_alike hframe name
    rw [List.findSome?_cons, List.findSome?_cons]
    generalize List.lookup name _ = b at hlookup ⊢
    generalize List.lookup name _ = b' at hlookup ⊢
    cases hlookup with
    | none => exact ih
    | some hb => exact .some hb

theorem set (h : C.Scopes s s') (name : String) {b b' : Binding} (hb : C.Bound b b') :
    C.Scopes (s.set name b) (s'.set name b') := by
  obtain ⟨inner, root⟩ := s
  obtain ⟨inner', root'⟩ := s'
  obtain ⟨hinner, hroot⟩ := h
  cases hinner with
  | nil => exact ⟨.nil, setFrame_alike hroot name hb⟩
  | cons hframe houter => exact ⟨.cons (setFrame_alike hframe name hb) houter, hroot⟩

theorem push (h : C.Scopes s s') : C.Scopes s.push s'.push :=
  ⟨.cons .nil h.inner, h.root⟩

theorem pop (h : C.Scopes s s') : C.Scopes s.pop s'.pop := by
  obtain ⟨inner, root⟩ := s
  obtain ⟨inner', root'⟩ := s'
  obtain ⟨hinner, hroot⟩ := h
  cases hinner with
  | nil => exact ⟨.nil, hroot⟩
  | cons _ houter => exact ⟨houter, hroot⟩

theorem setAll (h : C.Scopes s s') (params : List String) (values : List Int64) :
    C.Scopes (s.setAll params values) (s'.setAll params values) := by
  unfold Scope.setAll
  induction params.zip values generalizing s s' with
  | nil => exact h
  | cons p ps ih => exact ih (h.set p.1 (.value p.2))

/-- A name stands for the same number in scopes that are alike. -/
theorem value? (h : C.Scopes s s') (name : String) :
    (s.get? name).bind Binding.value? = (s'.get? name).bind Binding.value? := by
  have hget := h.get? name
  generalize s.get? name = b at hget ⊢
  generalize s'.get? name = b' at hget ⊢
  cases hget with
  | none => rfl
  | some hb => cases hb <;> rfl

/-- A name stands for definitions in both of two scopes that are alike, and their bodies answer each
other, or for no definition in either. -/
theorem definition? (h : C.Scopes s s') (role : Role) (name : String) :
    Option.Rel (fun d d' => d.params = d'.params ∧ C.Bodies role d.body d'.body)
      ((s.get? name).bind (Binding.definition? role))
      ((s'.get? name).bind (Binding.definition? role)) := by
  have hget := h.get? name
  generalize s.get? name = b at hget ⊢
  generalize s'.get? name = b' at hget ⊢
  cases hget with
  | none => exact .none
  | some hb =>
    cases hb with
    | value n => exact .none
    | routine r name params hbody =>
      simp only [Option.bind_some, Binding.definition?]
      by_cases hr : r = role
      · rw [if_pos hr, if_pos hr]
        exact .some ⟨rfl, hr ▸ hbody⟩
      · rw [if_neg hr, if_neg hr]
        exact .none

end Comparison.Scopes

end Scopes

/-! ## Elementary steps -/

section Steps

variable {C : Comparison} {short : Prop} {α : Type}

namespace InStep

/-- A step that goes together with another one leads to states that are the closer, the more is
known of what it does to its own state. -/
theorem keeping {R S S' T : Machine → Machine → Prop} {x y : Exec α} (h : InStep short R S x y)
    (hx : Keeps T x) (hS : ∀ {m m' m₁ m₁'}, R m m' → T m m₁ → S m₁ m₁' → S' m₁ m₁') :
    InStep short R S' x y := by
  intro m m' hm
  rcases h hm with hshort | hrel
  · exact .inl hshort
  · right
    cases hm₁ : x m <;> cases hm₁' : y m' <;> rw [hm₁, hm₁'] at hrel <;> cases hrel
    · exact .none
    · rename_i hrel
      exact .some ⟨hrel.1, hS hm (hx hm₁) hrel.2⟩

theorem ready {x y : Exec α} (h : InStep short C.Ready C.Alike x y) (hx : Keeps Restored x) :
    InStep short C.Ready C.Ready x y :=
  h.keeping hx fun hm hrestored halike => ⟨halike, hrestored.pending hm.nothing⟩

/-- The innermost call stays in progress. -/
theorem inside {role : Role} {x y : Exec α} (h : InStep short (C.Within role) C.Alike x y)
    (hx : Keeps Contained x) : InStep short (C.Within role) (C.Inside role) x y :=
  h.keeping hx fun hm hcontained halike => ⟨halike, hcontained.inNumber.trans hm.inside⟩

/-- Expressions leave nothing pending. -/
theorem within {x y : Exec α} (role : Role) (h : InStep short C.Ready C.Ready x y)
    (hx : Keeps Restored x) : InStep short (C.Within role) (C.Within role) x y :=
  (h.mono Comparison.Within.toReady id).keeping hx fun hm hrestored hready =>
    ⟨hready, hrestored.inNumber.trans hm.inside⟩

/-- Outside of numbers nothing is left pending. -/
theorem outside {x y : Exec α} (h : InStep short (C.Within .command) C.Alike x y)
    (hx : Keeps Contained x) : InStep short (C.Within .command) (C.Within .command) x y :=
  h.keeping hx fun hm hcontained halike =>
    { halike with
      nothing := hcontained.pending hm.inside hm.nothing
      inside := hcontained.inNumber.trans hm.inside }

/-- The innermost call is in some role. -/
theorem of_within {S : Machine → Machine → Prop} {x y : Exec α}
    (h : ∀ role, InStep short (C.Within role) S x y) : InStep short C.Ready S x y := by
  intro m m' hm
  cases hnumber : m.inNumber with
  | true => exact h .number ⟨hm, hnumber⟩
  | false => exact h .command ⟨hm, hnumber⟩

theorem alike {x y : Exec α} (h : InStep short C.Ready C.Ready x y) :
    InStep short C.Ready C.Alike x y :=
  h.mono id Comparison.Ready.toAlike

end InStep

theorem report_inStep {fault fault' : Fault}
    (h : fault.relocate C.place = fault'.relocate C.place) :
    InStep short C.Ready C.Ready (report fault) (report fault') :=
  .modify fun hm => { hm with faults := C.report hm.faults h }

theorem tell_inStep {f : Position → Position} (hf : C.Ignores f) (event : Event)
    (h : event.isCapture = false) :
    InStep short C.Ready C.Ready (tell event) (tell (event.relocate f)) :=
  .modify fun hm => { hm with records := C.tell hf event h hm.records }

theorem bindName_inStep (name : String) {b b' : Binding} (hb : C.Bound b b') :
    InStep short C.Ready C.Ready (bindName name b) (bindName name b') :=
  .modify fun hm => { hm with scope := hm.scope.set name hb }

theorem usePen_inStep (color : Rgba) :
    InStep short C.Ready C.Ready (modify fun m => { m with pen := color })
      (modify fun m => { m with pen := color }) :=
  .modify fun hm => { hm with pen := rfl }

theorem draw_inStep (change : Canvas → Rgba → Canvas) :
    InStep short C.Ready C.Ready (draw change) (draw change) := by
  refine .bind (S := C.Ready) (.modify fun hm => { hm with canvas := ?_ }) fun _ =>
    .modify fun {m m'} hm => { hm with records := ?_ }
  · rw [hm.canvas, hm.pen]
  · have hrecords := C.capture m.canvas hm.records
    rwa [← hm.canvas]

theorem setPending_inStep (result : Int64) :
    InStep short C.Ready C.Alike (setPending result) (setPending result) :=
  .modify fun hm => { hm with pending := rfl }

theorem takePending_inStep : InStep short C.Alike C.Ready takePending takePending := by
  refine .get fun {m m'} hm => ?_
  rw [hm.pending]
  refine .bind (.modify fun hm => ?_) fun _ => .pure _
  exact { hm with pending := rfl, nothing := rfl }

/-- What is run unless a result is pending: nothing is done otherwise, on both sides. -/
theorem InStep.unlessPending {R S : Machine → Machine → Prop} {x y : Exec Unit}
    (h : InStep short R S x y) (hsame : ∀ {m m'}, S m m' → m.pending = m'.pending)
    (hnone : ∀ {m m'}, S m m' → m.pending = none → R m m') :
    InStep short S S (do if ← isPending then return () else x)
      (do if ← isPending then return () else y) := by
  intro m m' hm
  show short ∧ (if m.pending.isSome = true then _ else _ : Exec Unit) m = none ∨
    Option.Rel _ ((if m.pending.isSome = true then _ else _ : Exec Unit) m)
      ((if m'.pending.isSome = true then _ else _ : Exec Unit) m')
  rw [← hsame hm]
  cases hpending : m.pending with
  | none => exact h (hnone hm hpending)
  | some n => exact .inr (.some ⟨rfl, hm⟩)

theorem unlessPending_inStep {x y : Exec Unit} (h : InStep short C.Ready C.Alike x y) :
    InStep short C.Alike C.Alike (do if ← isPending then return () else x)
      (do if ← isPending then return () else y) :=
  h.unlessPending Comparison.Alike.pending fun hm hnone => ⟨hm, hnone⟩

theorem unlessPending_inside {role : Role} {x y : Exec Unit}
    (h : InStep short (C.Within role) (C.Inside role) x y) :
    InStep short (C.Inside role) (C.Inside role) (do if ← isPending then return () else x)
      (do if ← isPending then return () else y) :=
  h.unlessPending (fun hm => hm.pending) fun hm hnone => ⟨⟨hm.toAlike, hnone⟩, hm.inside⟩

theorem inFrame_inStep (role : Role) (params : List String) (values : List Int64)
    {body body' : Exec Unit} (h : InStep short (C.Within role) C.Alike body body') :
    InStep short C.Ready C.Alike (inFrame (role == .number) params values body)
      (inFrame (role == .number) params values body') := by
  refine .bind (S := C.Ready)
    (.modify fun hm => { hm with scope := hm.scope.push.setAll params values }) fun _ =>
      .get fun {n n'} hn => ?_
  rw [hn.inNumber]
  refine .bind (S := C.Within role)
    (.modify fun hm => { hm with inNumber := rfl, inside := rfl }) fun _ => .bind h fun _ => ?_
  exact .modify fun hm => { hm with inNumber := rfl, scope := hm.scope.pop }

end Steps

/-! ## Trees -/

/-- Runners that keep states alike: bodies that answer each other go in step where they are those of
the innermost call, and the first runner keeps bodies in their frames. -/
structure Comparison.Tracks (C : Comparison) (short : Prop) (run run' : BodyRunner) : Prop where
  keeps : ∀ body, Keeps Contained (run body)
  bodies : ∀ {role body body'}, C.Bodies role body body' →
    InStep short (C.Within role) C.Alike (run body) (run' body')

section Trees

variable {C : Comparison} {short : Prop} {opener : Opener} {run run' : BodyRunner}
  {f : Position → Position}

/-! ### Expressions -/

theorem readName_inStep (hf : C.Ignores f) (word : Word) :
    InStep short C.Ready C.Ready (readName word) (readName (word.relocate f)) := by
  refine .get fun {m m'} hm => ?_
  dsimp only [Word.relocate]
  rw [← hm.scope.value? word.text]
  cases (m.scope.get? word.text).bind Binding.value? with
  | some n => exact .pure n
  | none => exact .bind (report_inStep (hf.fault _)) fun _ => .pure _

theorem operate_inStep (hf : C.Ignores f) (op : Operator) (a b : Int64) (place : Position) :
    InStep short C.Ready C.Ready (operate op a b place) (operate op a b (f place)) := by
  unfold operate
  cases op.apply a b with
  | some n => exact .pure n
  | none => exact .bind (report_inStep (hf.fault _)) fun _ => .pure _

/-- What is done with the definition that a name stands for. -/
theorem findDefinition_inStep {α : Type} (role : Role) (name : String)
    {f g : Option Definition → Exec α} (hnone : InStep short C.Ready C.Ready (f none) (g none))
    (hsome : ∀ {d d'}, d.params = d'.params → C.Bodies role d.body d'.body →
      InStep short C.Ready C.Ready (f (some d)) (g (some d'))) :
    InStep short C.Ready C.Ready (findDefinition role name >>= f)
      (findDefinition role name >>= g) := by
  show InStep short C.Ready C.Ready
    (MonadState.get >>= fun m => f ((m.scope.get? name).bind (Binding.definition? role)))
    (MonadState.get >>= fun m => g ((m.scope.get? name).bind (Binding.definition? role)))
  refine .get fun {m m'} hm => ?_
  have hd := hm.scope.definition? role name
  generalize (m.scope.get? name).bind (Binding.definition? role) = d at hd ⊢
  generalize (m'.scope.get? name).bind (Binding.definition? role) = d' at hd ⊢
  cases hd with
  | none => exact hnone
  | some hd => exact hsome hd.1 hd.2

namespace Comparison.Tracks

/-- Bodies that answer each other in every role go in step wherever they are run. -/
theorem anywhere (h : C.Tracks short run run') {body body' : List Stmt}
    (hbody : ∀ role, C.Bodies role body body') :
    InStep short C.Ready C.Alike (run body) (run' body') :=
  .of_within fun role => h.bodies (hbody role)

mutual

/-- An expression goes in step with itself at other places. -/
theorem eval (h : C.Tracks short run run') (hf : C.Ignores f) : ∀ e : Expr,
    InStep short C.Ready C.Ready (e.eval run) ((e.relocate f).eval run')
  | .literal _ => .pure _
  | .name word => readName_inStep hf word
  | .binary op l r place => by
    refine .bind (h.eval hf l) fun a => ?_
    refine .bind (h.eval hf r) fun b => ?_
    exact operate_inStep hf op a b place
  | .call word args => by
    refine findDefinition_inStep .number word.text ?_ fun {d d'} hparams hbody => ?_
    · exact .bind (report_inStep (hf.fault _)) fun _ => .pure _
    · obtain ⟨_, params, body'⟩ := d'
      obtain rfl : d.params = params := hparams
      refine .bind (h.evalAll hf args) fun values => ?_
      exact .bind (inFrame_inStep .number d.params values (h.bodies hbody)) fun _ =>
        takePending_inStep

theorem evalAll (h : C.Tracks short run run') (hf : C.Ignores f) : ∀ es : List Expr,
    InStep short C.Ready C.Ready (Expr.evalAll run es)
      (Expr.evalAll run' (Expr.relocateAll f es))
  | [] => .pure _
  | e :: es => by
    refine .bind (h.eval hf e) fun n => ?_
    refine .bind (h.evalAll hf es) fun ns => ?_
    exact .pure _

end

/-! ### Statements -/

theorem commandCall (h : C.Tracks short run run') (params : List String) (values : List Int64)
    {body body' : List Stmt} (hbody : C.Bodies .command body body') :
    InStep short C.Ready C.Ready (inFrame false params values (run body))
      (inFrame false params values (run' body')) :=
  (inFrame_inStep .command params values (h.bodies hbody)).ready
    (commandCall_keeps (h.keeps body))

theorem repeatFrom {role : Role} {bound bound' : Exec Int64} {pass pass' : Int64 → Exec Unit}
    (hbound : InStep short (C.Within role) (C.Within role) bound bound')
    (hpass : ∀ i, InStep short (C.Within role) (C.Inside role) (pass i) (pass' i)) (n : Nat)
    (i : Int64) : InStep short (C.Within role) (C.Inside role) (repeatFrom bound pass n i)
      (repeatFrom bound' pass' n i) := by
  have hstop : InStep short (C.Within role) (C.Inside role) (Pure.pure ()) (Pure.pure ()) :=
    (InStep.pure ()).mono id Within.toInside
  induction n generalizing i with
  | zero =>
    unfold DrawLang.repeatFrom
    refine .bind hbound fun last => ?_
    split
    · exact .bind (hpass i) fun _ => unlessPending_inside hstop
    · exact hstop
  | succ n ih =>
    unfold DrawLang.repeatFrom
    refine .bind hbound fun last => ?_
    split
    · exact .bind (hpass i) fun _ => unlessPending_inside (ih (i + 1))
    · exact hstop

/-- In a call in some role, a loop goes in step with one whose body goes in step with its own. -/
theorem loop_inside (h : C.Tracks short run run') (hf : C.Ignores f) (role : Role) (name : String)
    (first last : Expr) {body body' : List Stmt}
    (hbody : InStep short (C.Within role) (C.Inside role) (Stmt.execAll opener run body)
      (Stmt.execAll opener run' body')) :
    InStep short (C.Within role) (C.Inside role) ((Stmt.loop name first last body).exec opener run)
      ((Stmt.loop name (first.relocate f) (last.relocate f) body').exec opener run') := by
  have hbind (i : Int64) : InStep short (C.Within role) (C.Within role)
      (bindName name (.value i)) (bindName name (.value i)) :=
    .modify fun hm => { hm with scope := hm.scope.set name (.value i) }
  refine .bind ((h.eval hf first).within role (eval_keeps h.keeps first)) fun i => ?_
  refine repeatFrom ((h.eval hf last).within role (eval_keeps h.keeps last)) (fun i => ?_) _ i
  exact .bind (hbind i) fun _ => hbody

/-- A loop goes in step with one whose body goes in step with its own. -/
theorem loop (h : C.Tracks short run run') (hf : C.Ignores f) (name : String) (first last : Expr)
    {body body' : List Stmt} (hbody : InStep short C.Ready C.Alike
      (Stmt.execAll opener run body) (Stmt.execAll opener run' body')) :
    InStep short C.Ready C.Alike ((Stmt.loop name first last body).exec opener run)
      ((Stmt.loop name (first.relocate f) (last.relocate f) body').exec opener
        run') :=
  .of_within fun role => (h.loop_inside hf role name first last
    ((hbody.mono Within.toReady id).inside (execAll_keeps h.keeps opener body))).mono id
      Inside.toAlike

/-- In a call in some role, a conditional goes in step with one whose body goes in step with its
own. -/
theorem test_inside (h : C.Tracks short run run') (hf : C.Ignores f) (role : Role)
    (relation : Relation) (left right : Expr) {body body' : List Stmt}
    (hbody : InStep short (C.Within role) (C.Inside role) (Stmt.execAll opener run body)
      (Stmt.execAll opener run' body')) :
    InStep short (C.Within role) (C.Inside role)
      ((Stmt.test relation left right body).exec opener run)
      ((Stmt.test relation (left.relocate f) (right.relocate f) body').exec opener run') := by
  refine .bind ((h.eval hf left).within role (eval_keeps h.keeps left)) fun a => ?_
  refine .bind ((h.eval hf right).within role (eval_keeps h.keeps right)) fun b => ?_
  split
  · exact hbody
  · exact (InStep.pure ()).mono id Within.toInside

/-- A conditional goes in step with one whose body goes in step with its own. -/
theorem test (h : C.Tracks short run run') (hf : C.Ignores f) (relation : Relation)
    (left right : Expr) {body body' : List Stmt} (hbody : InStep short C.Ready C.Alike
      (Stmt.execAll opener run body) (Stmt.execAll opener run' body')) :
    InStep short C.Ready C.Alike ((Stmt.test relation left right body).exec opener run)
      ((Stmt.test relation (left.relocate f) (right.relocate f) body').exec opener
        run') :=
  .of_within fun role => (h.test_inside hf role relation left right
    ((hbody.mono Within.toReady id).inside (execAll_keeps h.keeps opener body))).mono id
      Inside.toAlike

theorem loadSource (h : C.Tracks short run run') (hf : C.Ignores f) (opener : Opener)
    (path : Word) : InStep short C.Ready C.Alike (loadSource opener run path)
      (loadSource opener run' (path.relocate f)) := by
  unfold DrawLang.loadSource
  dsimp only [Word.relocate]
  cases opener path.text with
  | unopened _ message => exact (report_inStep (hf.fault _)).alike
  | unreadable cause => exact (report_inStep (hf.fault _)).alike
  | contents bytes =>
    dsimp only
    cases parse? path.text (Text.decode bytes) with
    | error place => exact (report_inStep rfl).alike
    | ok program =>
      refine .bind (tell_inStep hf (.sourceLoaded path.text program.length) rfl) fun _ => ?_
      exact h.anywhere fun role => C.bodies_self role program

mutual

/-- A statement goes in step with itself at other places. -/
theorem exec (h : C.Tracks short run run') (hf : C.Ignores f) (opener : Opener) : ∀ s : Stmt,
    InStep short C.Ready C.Alike (s.exec opener run) ((s.relocate f).exec opener run')
  | .paper ink => .bind (h.eval hf ink) fun _ => (draw_inStep _).alike
  | .pen ink => .bind (h.eval hf ink) fun _ => (usePen_inStep _).alike
  | .line x₁ y₁ x₂ y₂ => by
    refine .bind (h.eval hf x₁) fun x₁ => ?_
    refine .bind (h.eval hf y₁) fun y₁ => ?_
    refine .bind (h.eval hf x₂) fun x₂ => ?_
    refine .bind (h.eval hf y₂) fun y₂ => ?_
    refine .get fun {m m'} hm => ?_
    simp only [Machine.point, Machine.flip, hm.canvas]
    exact (draw_inStep _).alike
  | .assign name result => .bind (h.eval hf result) fun n => (bindName_inStep name (.value n)).alike
  | .setPixel x y ink => by
    refine .bind (h.eval hf x) fun x => ?_
    refine .bind (h.eval hf y) fun y => ?_
    refine .bind (h.eval hf ink) fun ink => ?_
    refine .get fun {m m'} hm => ?_
    simp only [Machine.point, Machine.flip, hm.canvas]
    exact (draw_inStep _).alike
  | .readPixel name x y => by
    refine .bind (h.eval hf x) fun x => ?_
    refine .bind (h.eval hf y) fun y => ?_
    refine .get fun {m m'} hm => ?_
    simp only [Machine.point, Machine.flip, hm.canvas]
    exact (bindName_inStep name (.value _)).alike
  | .block body => h.execAll hf opener body
  | .loop name first last body => h.loop hf name first last (h.execAll hf opener body)
  | .test relation left right body => h.test hf relation left right (h.execAll hf opener body)
  | .define role name params body =>
    (bindName_inStep name (.routine role name params (C.bodies hf body))).alike
  | .call word args => by
    refine (findDefinition_inStep .command word.text ?_ fun {d d'} hparams hbody => ?_).alike
    · exact report_inStep (hf.fault _)
    · obtain ⟨_, params, body'⟩ := d'
      obtain rfl : d.params = params := hparams
      exact .bind (h.evalAll hf args) fun values => h.commandCall d.params values hbody
  | .value result => by
    refine .get fun {m m'} hm => ?_
    rw [hm.inNumber]
    split
    · exact .bind (h.eval hf result) fun n => setPending_inStep n
    · exact (tell_inStep hf (.valueIgnored result) rfl).alike
  | .load path => h.loadSource hf opener path

/-- Statements go in step with themselves at other places. -/
theorem execAll (h : C.Tracks short run run') (hf : C.Ignores f) (opener : Opener) :
    ∀ ss : List Stmt, InStep short C.Ready C.Alike (Stmt.execAll opener run ss)
      (Stmt.execAll opener run' (Stmt.relocateAll f ss))
  | [] => (InStep.pure _).alike
  | s :: ss => .bind (h.exec hf opener s) fun _ => unlessPending_inStep (h.execAll hf opener ss)

end

/-! ### Bodies, libraries and programs -/

/-- To a depth, bodies go in step if bodies that answer each other do so one level up, given that
all bodies do that they call. -/
theorem execAt_of_execAll (opener : Opener)
    (hstep : ∀ run run', C.Tracks short run run' → ∀ role body body',
      C.Bodies role body body' → InStep short (C.Within role) C.Alike
        (Stmt.execAll opener run body) (Stmt.execAll opener run' body')) (n : Nat) :
    C.Tracks short (execAt opener n) (execAt opener n) := by
  induction n with
  | zero => exact ⟨execAt_keeps opener 0, fun _ _ _ _ => .inr .none⟩
  | succ n ih => exact ⟨execAt_keeps opener (n + 1), hstep _ _ ih _ _ _⟩

/-- To a depth, bodies go in step if those that answer each other differ in places only. -/
theorem execAt (opener : Opener) (hbodies : ∀ {role body body'}, C.Bodies role body body' →
    ∃ f, C.Ignores f ∧ body' = Stmt.relocateAll f body) (n : Nat) :
    C.Tracks short (execAt opener n) (execAt opener n) := by
  refine execAt_of_execAll opener (fun _ _ h _ body _ hbody => ?_) n
  obtain ⟨f, hf, rfl⟩ := hbodies hbody
  exact (h.execAll hf opener body).mono Within.toReady id

/-- To a depth, bodies go in step if only equal bodies answer each other. -/
theorem execAt_of_eq (opener : Opener)
    (hbodies : ∀ {role body body'}, C.Bodies role body body' → body = body') (n : Nat) :
    C.Tracks short (DrawLang.execAt opener n) (DrawLang.execAt opener n) := by
  refine execAt opener (fun h => ⟨id, C.ignores_id, ?_⟩) n
  rw [Stmt.relocateAll_id]
  exact (hbodies h).symm

theorem library (h : C.Tracks short run run') {l l' : Library} (hl : List.Forall₂ C.Sources l l') :
    InStep short (C.Within .command) (C.Within .command) (l.exec run) (l'.exec run') := by
  have htell (event : Event) (hevent : event.isCapture = false) :
      InStep short (C.Within .command) (C.Within .command) (DrawLang.tell event)
        (DrawLang.tell (event.relocate id)) :=
    (tell_inStep C.ignores_id event hevent).within .command (tell_keeps _)
  induction hl with
  | nil => exact .pure _
  | @cons source source' sources sources' hsource _ ih =>
    obtain ⟨hname, hparsed⟩ := hsource
    unfold Library.exec
    rw [← hname] at hparsed ⊢
    generalize parse? source.name source.text = parsed at hparsed ⊢
    generalize parse? source.name source'.text = parsed' at hparsed ⊢
    cases hparsed with
    | error place =>
      refine .bind (htell (.libraryRejected source.name) rfl) fun _ => ?_
      refine .bind ((report_inStep rfl).within .command (report_keeps _)) fun _ => ?_
      exact ih
    | ok hbody =>
      refine .bind ((h.bodies hbody).outside (h.keeps _)) fun _ => ?_
      refine .bind (htell (.libraryLoaded source.name) rfl) fun _ => ?_
      exact ih

/-- Programs that answer each other go in step, with libraries before them that do. -/
theorem program (h : C.Tracks short run run') {l l' : Library} (hl : List.Forall₂ C.Sources l l')
    {p p' : Program} (hp : C.Bodies .command p p') :
    InStep short (C.Within .command) C.Alike (p.exec run l) (p'.exec run' l') := by
  refine .bind (h.library hl) fun _ => ?_
  refine .bind ((draw_inStep _).within .command (draw_keeps _)) fun _ => ?_
  exact h.bodies hp

end Comparison.Tracks

end Trees

/-! ## Outcomes -/

/-- Two runs begin alike if their canvases have one size and their recorders answer each other. -/
theorem Comparison.Alike.start {C : Comparison} {settings settings' : Settings}
    {name name' : String} {p p' : Program} (hlength : settings.length = settings'.length)
    (hfaults : C.Faults #[] #[])
    (hrecords : C.Records
      (.new settings.recording settings.frameLimit settings.scale.toNat)
      #[.programParsed name p.length]
      (.new settings'.recording settings'.frameLimit settings'.scale.toNat)
      #[.programParsed name' p'.length]) :
    C.Alike (settings.start name p) (settings'.start name' p') where
  canvas := congrArg (fun n : UInt64 => Canvas.blank n.toNat n.toNat) hlength
  pen := rfl
  pending := rfl
  inNumber := rfl
  scope := ⟨.nil, .nil⟩
  faults := hfaults
  records := hrecords

/-- Runs that execute nothing have outcomes that are related, if their pictures can be laid out. -/
theorem rel_unexecuted? {settings settings' : Settings} {fault fault' : Fault}
    {S : Outcome → Outcome → Prop} (hfits : settings.Fits ↔ settings'.Fits)
    (h : S (.unexecuted settings fault) (.unexecuted settings' fault')) :
    Option.Rel S (Outcome.unexecuted? settings fault) (Outcome.unexecuted? settings' fault') := by
  rw [Outcome.unexecuted?_eq, Outcome.unexecuted?_eq]
  by_cases hpicture : settings.Fits
  · rw [if_pos hpicture, if_pos (hfits.1 hpicture)]
    exact .some h
  · rw [if_neg hpicture, if_neg (mt hfits.2 hpicture)]
    exact .none

section Runs

variable {C : Comparison} {short : Prop} {settings settings' : Settings} {depth depth' : Nat}
  {name name' : String} {p p' : Program} {S : Outcome → Outcome → Prop}

/-- Runs whose last states show what is related have outcomes that are, if the pictures of both can
be laid out or those of neither. -/
theorem rel_run?_of_exec (hfits : settings.Fits ↔ settings'.Fits)
    (h : Option.Rel (fun r r' => S (.ofMachine settings r.2) (.ofMachine settings' r'.2))
      (p.exec (execAt settings.opener depth) settings.library (settings.start name p))
      (p'.exec (execAt settings'.opener depth') settings'.library (settings'.start name' p'))) :
    Option.Rel S (p.run? settings depth name) (p'.run? settings' depth' name') := by
  rw [run?_eq_map, run?_eq_map]
  by_cases hpicture : settings.Fits
  · rw [if_pos hpicture, if_pos (hfits.1 hpicture)]
    generalize p.exec _ _ _ = r at h ⊢
    generalize p'.exec _ _ _ = r' at h ⊢
    cases h with
    | none => exact .none
    | some hr => exact .some hr
  · rw [if_neg hpicture, if_neg (mt hfits.2 hpicture)]
    exact .none

/-- Runs of programs and libraries that answer each other end with outcomes that show states that
are alike, if they begin in such states and the pictures of both can be laid out or those of
neither. -/
theorem Comparison.rel_run?_of_sources
    (h : C.Tracks short (execAt settings.opener depth) (execAt settings'.opener depth'))
    (hlibrary : List.Forall₂ C.Sources settings.library settings'.library)
    (hp : C.Bodies .command p p') (hfits : settings.Fits ↔ settings'.Fits)
    (hstart : C.Alike (settings.start name p) (settings'.start name' p'))
    (hend : ∀ m m', C.Alike m m' → S (.ofMachine settings m) (.ofMachine settings' m')) :
    short ∧ p.run? settings depth name = none ∨
      Option.Rel S (p.run? settings depth name) (p'.run? settings' depth' name') := by
  rcases h.program hlibrary hp ⟨⟨hstart, rfl⟩, rfl⟩ with ⟨hshort, hnone⟩ | hrel
  · left
    rw [run?_eq_map, hnone]
    exact ⟨hshort, ite_self none⟩
  · right
    refine rel_run?_of_exec hfits ?_
    generalize p.exec _ _ _ = r at hrel ⊢
    generalize p'.exec _ _ _ = r' at hrel ⊢
    cases hrel with
    | none => exact .none
    | some hr => exact .some (hend _ _ hr.2)

/-- Likewise with one library before both. -/
theorem Comparison.rel_run?
    (h : C.Tracks short (execAt settings.opener depth) (execAt settings'.opener depth'))
    (hlibrary : settings.library = settings'.library) (hp : C.Bodies .command p p')
    (hfits : settings.Fits ↔ settings'.Fits)
    (hstart : C.Alike (settings.start name p) (settings'.start name' p'))
    (hend : ∀ m m', C.Alike m m' → S (.ofMachine settings m) (.ofMachine settings' m')) :
    short ∧ p.run? settings depth name = none ∨
      Option.Rel S (p.run? settings depth name) (p'.run? settings' depth' name') := by
  refine rel_run?_of_sources h ?_ hp hfits hstart hend
  rw [← hlibrary]
  exact List.forall₂_same.2 fun source _ => C.sources_self source

end Runs

end DrawLang
