import DrawLang.Proofs.Preamble
import DrawLang.Proofs.Unwinding

/-!
# What the library binds names to

A name is bound to the last of its definitions. So the source text of a library says what each of
its names means once it has been run, and a state in which a name still means that can be told from
others without looking at its history.

* `Stmt.lastBinding?`, `Library.binding?`: what statements and libraries bind a name to.
* `get?_of_library`: the bindings after a library has run.
* `Library.exists_binding?`: the standard library binds the names of its definitions to these, apart
  from places.
* `Library.standard_binds`: the bindings after the standard library has run.
* `Scope.Standard`: a name still means what the standard library says.
* `findDefinition_standard`: what a call of such a name finds.
-/

namespace DrawLang

/-! ## The last definition of a name -/

/-- What a statement binds a name to, if it is a definition of it. -/
def Stmt.binding? (name : String) : Stmt → Option Binding
  | .define role n params body => if n = name then some (.routine role ⟨n, params, body⟩) else none
  | _ => none

/-- What the last definition of a name among statements binds it to. -/
def Stmt.lastBinding? (name : String) (ss : List Stmt) : Option Binding :=
  ss.reverse.findSome? (Stmt.binding? name)

def Library.statements (library : Library) : List Stmt :=
  library.flatMap fun source =>
    match parse? source.name source.text with
    | .ok p => p
    | .error _ => []

def Library.binding? (library : Library) (name : String) : Option Binding :=
  Stmt.lastBinding? name library.statements

theorem Library.statements_cons (source : LibrarySource) (sources : Library) {p : Program}
    (h : parse? source.name source.text = .ok p) :
    statements (source :: sources) = p ++ statements sources := by
  rw [statements, List.flatMap_cons, h]
  rfl

def Binding.outline : Binding → Binding
  | .value n => .value n
  | .routine role d => .routine role { d with body := Stmt.outlineAll d.body }

namespace Stmt

theorem lastBinding?_cons (name : String) (s : Stmt) (ss : List Stmt) :
    lastBinding? name (s :: ss) = (lastBinding? name ss).or (s.binding? name) := by
  rw [lastBinding?, List.reverse_cons, List.findSome?_append]
  cases h : s.binding? name <;> simp [lastBinding?, h]

theorem lastBinding?_append (name : String) (ss ts : List Stmt) :
    lastBinding? name (ss ++ ts) = (lastBinding? name ts).or (lastBinding? name ss) := by
  rw [lastBinding?, List.reverse_append, List.findSome?_append]
  rfl

theorem binding?_outline (name : String) (s : Stmt) :
    s.outline.binding? name = (s.binding? name).map Binding.outline := by
  cases s with
  | define role n params body =>
    simp only [Stmt.outline, binding?]
    split <;> rfl
  | _ => rfl

theorem lastBinding?_outlineAll (name : String) (ss : List Stmt) :
    lastBinding? name (outlineAll ss) = (lastBinding? name ss).map Binding.outline := by
  induction ss with
  | nil => rfl
  | cons s ss ih =>
    rw [outlineAll, lastBinding?_cons, ih, binding?_outline, lastBinding?_cons, Option.map_or]

/-- Among definitions of different names, each one is the last of its name. -/
theorem lastBinding?_definitions {ds : List (Role × Definition)} {role : Role} {d : Definition}
    (hnames : (ds.map fun d => d.2.name).Nodup) (h : (role, d) ∈ ds) :
    lastBinding? d.name (ds.map fun d => d.2.stmt d.1) = some (.routine role d) := by
  have hnone {name : String} {es : List (Role × Definition)}
      (hname : name ∉ es.map fun d => d.2.name) :
      lastBinding? name (es.map fun d => d.2.stmt d.1) = none := by
    refine List.findSome?_eq_none_iff.2 fun s hs => ?_
    obtain ⟨e, he, rfl⟩ := List.mem_map.1 (List.mem_reverse.1 hs)
    refine if_neg ?_
    rintro rfl
    exact hname (List.mem_map_of_mem he)
  induction ds with
  | nil => cases h
  | cons e ds ih =>
    obtain ⟨hname, hrest⟩ := List.nodup_cons.1 hnames
    rw [List.map_cons, lastBinding?_cons]
    rcases List.mem_cons.1 h with rfl | h
    · rw [hnone hname, Option.none_or]
      exact if_pos rfl
    · rw [ih hrest h, Option.some_or]

end Stmt

/-- The sources behind another one decide what a name is bound to, if they define it. -/
theorem Library.binding?_cons (source : LibrarySource) (sources : Library) {p : Program}
    (h : parse? source.name source.text = .ok p) (name : String) :
    binding? (source :: sources) name = (binding? sources name).or (Stmt.lastBinding? name p) := by
  rw [binding?, statements_cons source sources h, Stmt.lastBinding?_append]
  rfl

/-! ## Running a library -/

section Runs

variable {opener : Opener} {run : BodyRunner} {names : List String} {m m₁ : Machine}

/-- Definitions bind each name to the last of them. -/
theorem get?_of_execAll {p : Program} (hp : ∀ s ∈ p, s.defines names = true)
    (h : Stmt.execAll opener run p m = some ((), m₁)) (hnone : m.pending = none) (name : String) :
    m₁.scope.get? name = (Stmt.lastBinding? name p).or (m.scope.get? name) := by
  induction p generalizing m with
  | nil =>
    obtain ⟨-, rfl⟩ := pure_eq_some_iff.1 h
    rfl
  | cons s p ih =>
    obtain ⟨hs, hps⟩ := List.forall_mem_cons.1 hp
    cases s with
    | define role n params body =>
      let bound : Machine := { m with scope := m.scope.set n (.routine role ⟨n, params, body⟩) }
      have hdefine : (Stmt.define role n params body).exec opener run m = some ((), bound) := rfl
      have hrest : Stmt.execAll opener run p bound = some ((), m₁) := by
        rw [execAll_cons, hdefine, Option.bind_some] at h
        exact (if_neg (by simp [bound, hnone])).symm.trans h
      rw [ih hps hrest hnone, Scope.get?_set, Stmt.lastBinding?_cons, Option.or_assoc]
      congr 1
      by_cases hn : name = n
      · simp [Stmt.binding?, hn]
      · have hne : ¬ n = name := fun e => hn e.symm
        simp [Stmt.binding?, hn, hne]
    | _ => cases hs

/-- After a library of definitions, each name means what the library binds it to, or else what it
meant before. -/
theorem get?_of_library {library : Library} (hlibrary : library.Defines names) {n : Nat}
    (h : library.exec (execAt opener (n + 1)) m = some ((), m₁)) (hnone : m.pending = none)
    (name : String) : m₁.scope.get? name = (library.binding? name).or (m.scope.get? name) := by
  induction library generalizing m with
  | nil =>
    obtain ⟨-, rfl⟩ := pure_eq_some_iff.1 h
    rfl
  | cons source sources ih =>
    obtain ⟨⟨p, hparse, hp⟩, hsources⟩ := List.forall_mem_cons.1 hlibrary
    unfold Library.exec at h
    rw [hparse] at h
    obtain ⟨_, m₂, hexec, h⟩ := bind_eq_some_iff.1 h
    obtain ⟨_, _, htell, hrest⟩ := bind_eq_some_iff.1 h
    obtain rfl := modify_eq_some_iff.1 htell
    obtain ⟨m₂', hexec', hbeside⟩ : ∃ m₂', execAt opener (n + 1) p m = some ((), m₂') ∧
        Beside names m₂' m := execAll_beside hp (.refl names m) hnone
    obtain rfl : m₂' = m₂ := congrArg Prod.snd (Option.some.inj (hexec'.symm.trans hexec))
    have hget := ih hsources hrest (hbeside.pending.trans hnone)
    have hfirst := get?_of_execAll hp hexec hnone name
    rw [hget, Library.binding?_cons source sources hparse, Option.or_assoc]
    exact congrArg _ hfirst

end Runs

/-! ## The standard library -/

namespace Library

variable {role : Role} {d : Definition}

theorem outline_statements : Stmt.outlineAll standard.statements =
    Stmt.outlineAll (standardDefinitions.map fun d => d.2.stmt d.1) := by
  obtain ⟨p, q, hparse, hparse', hp, hq⟩ := standard_outline
  have hgraphics : statements [⟨"graphics.dbn", graphicsText⟩] = q := by
    rw [statements_cons ⟨"graphics.dbn", graphicsText⟩ [] hparse']
    exact List.append_nil q
  have hstatements : standard.statements = p ++ q := by
    rw [standard, statements_cons ⟨"letters.dbn", lettersText⟩ _ hparse, hgraphics]
  rw [hstatements, standardDefinitions, List.map_append, outlineAll_append, outlineAll_append]
  exact congrArg₂ _ hp hq

/-- The standard library binds each of its names to a definition that is the one intended, apart
from places. -/
theorem exists_binding? (hd : (role, d) ∈ standardDefinitions) :
    ∃ body, standard.binding? d.name = some (.routine role ⟨d.name, d.params, body⟩) ∧
      Stmt.outlineAll body = Stmt.outlineAll d.body := by
  have hnames : (standardDefinitions.map fun d => d.2.name).Nodup := by decide +kernel
  have houtline := Stmt.lastBinding?_outlineAll d.name standard.statements
  rw [outline_statements, Stmt.lastBinding?_outlineAll, Stmt.lastBinding?_definitions hnames hd]
    at houtline
  obtain ⟨b, hb, houtline⟩ := Option.map_eq_some_iff.1 houtline.symm
  cases b with
  | value n => cases houtline
  | routine role' d' =>
    obtain ⟨name, params, body⟩ := d'
    simp only [Binding.outline, Binding.routine.injEq, Definition.mk.injEq] at houtline
    obtain ⟨rfl, rfl, rfl, hbody⟩ := houtline
    exact ⟨body, hb, hbody⟩

/-- A name that the standard library defines means this definition when the library has run, and a
name that it leaves alone means what it meant before. -/
theorem standard_binds (opener : Opener) (n : Nat) {m : Machine} (hnone : m.pending = .none) :
    ∃ m₁, standard.exec (execAt opener (n + 1)) m = some ((), m₁) ∧ Beside standardNames m₁ m ∧
      ∀ name, m₁.scope.get? name = (standard.binding? name).or (m.scope.get? name) := by
  obtain ⟨m₁, hexec, hbeside⟩ := library_beside standard_defines n (.refl standardNames m) hnone
  exact ⟨m₁, hexec, hbeside, get?_of_library standard_defines hexec hnone⟩

end Library

/-! ## Names that keep their standard meaning -/

/-- Whether a name resolves to what the standard library binds it to. -/
def Scope.Standard (s : Scope) (name : String) : Prop :=
  s.get? name = Library.standard.binding? name

section Standard

variable {s : Scope} {name n : String}

theorem Scope.Standard.set (h : s.Standard name) (hne : name ≠ n) (b : Binding) :
    (s.set n b).Standard name :=
  (s.get?_set n name b).trans ((if_neg hne).trans h)

theorem Scope.Standard.setAll (h : s.Standard name) {params : List String}
    (hparams : name ∉ params) (values : List Int64) : (s.setAll params values).Standard name :=
  (get?_setAll_of_notMem hparams s values).trans h

theorem Scope.Standard.push (h : s.Standard name) : s.push.Standard name :=
  (s.get?_push name).trans h

/-- Where the standard library has run before anything else, all its names mean what it says, and
nothing has been drawn. -/
theorem exists_standard (length : Nat) : ∃ m : Machine, m.canvas = .blank length length ∧
    m.pen = .black ∧ m.pending = none ∧ ∀ name, m.scope.Standard name := by
  obtain ⟨m, -, hbeside, hget⟩ :=
    Library.standard_binds .none 0
      (m := { Machine.start 0 (.new false 0 1) with canvas := .blank length length }) rfl
  refine ⟨m, hbeside.canvas, hbeside.pen, hbeside.pending, fun name => ?_⟩
  rw [Scope.Standard, hget]
  exact Option.or_none

/-- A call finds the definition of the library, apart from places. -/
theorem findDefinition_standard {role : Role} {d : Definition} {m : Machine}
    (hd : (role, d) ∈ Library.standardDefinitions) (hname : name = d.name)
    (h : m.scope.Standard name) :
    ∃ body, findDefinition role name m = some (some ⟨d.name, d.params, body⟩, m) ∧
      Stmt.outlineAll body = Stmt.outlineAll d.body := by
  subst hname
  obtain ⟨body, hbinding, hbody⟩ := Library.exists_binding? hd
  have hget : m.scope.get? d.name = some (.routine role ⟨d.name, d.params, body⟩) :=
    h.trans hbinding
  refine ⟨body, ?_, hbody⟩
  show some ((m.scope.get? d.name).bind (Binding.definition? role), m) = _
  rw [hget, Option.bind_some, Binding.definition?, if_pos rfl]

end Standard

end DrawLang
