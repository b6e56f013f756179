import DrawLang.Event
import DrawLang.Fault
import DrawLang.Proofs.RoundTrip
import Mathlib.Logic.Basic

/-!
# Trees at other places

A tree keeps its form when its places are changed. Two trees that were read from one file and differ
in their places only become equal when every place is moved to the start of its file.

* `Stmt.relocate`: a tree with its places changed; `Fault.relocate`, `Event.relocate` likewise.
* `Stmt.relocate_relocate`, `Stmt.relocate_id`, `Stmt.outline_eq`: changes in a row, no change, and
  all places made one.
* `relocate_congr_of_derives`: only the places of tokens count.
* `relocate_home_of_outline`: trees read from one file.
-/

namespace DrawLang

/-! ## Changes of places -/

section Relocate

variable (f : Position → Position)

def Word.relocate (w : Word) : Word := ⟨w.text, f w.start, f w.stop⟩

mutual

/-- An expression with its places changed. -/
def Expr.relocate : Expr → Expr
  | .literal digits => .literal digits
  | .name word => .name (word.relocate f)
  | .binary op left right place => .binary op left.relocate right.relocate (f place)
  | .call word args => .call (word.relocate f) (Expr.relocateAll args)

def Expr.relocateAll : List Expr → List Expr
  | [] => []
  | e :: es => e.relocate :: Expr.relocateAll es

end

mutual

def Stmt.relocate : Stmt → Stmt
  | .paper ink => .paper (ink.relocate f)
  | .pen ink => .pen (ink.relocate f)
  | .line x₁ y₁ x₂ y₂ => .line (x₁.relocate f) (y₁.relocate f) (x₂.relocate f) (y₂.relocate f)
  | .assign name result => .assign name (result.relocate f)
  | .setPixel x y ink => .setPixel (x.relocate f) (y.relocate f) (ink.relocate f)
  | .readPixel name x y => .readPixel name (x.relocate f) (y.relocate f)
  | .block body => .block (Stmt.relocateAll body)
  | .loop name first last body =>
    .loop name (first.relocate f) (last.relocate f) (Stmt.relocateAll body)
  | .test relation left right body =>
    .test relation (left.relocate f) (right.relocate f) (Stmt.relocateAll body)
  | .define role name params body => .define role name params (Stmt.relocateAll body)
  | .call word args => .call (word.relocate f) (Expr.relocateAll f args)
  | .value result => .value (result.relocate f)
  | .load path => .load (path.relocate f)

def Stmt.relocateAll : List Stmt → List Stmt
  | [] => []
  | s :: ss => s.relocate :: Stmt.relocateAll ss

end

def Fault.relocate : Fault → Fault
  | .misplacedToken place => .misplacedToken (f place)
  | .unknownName place name => .unknownName (f place) name
  | .unknownCommand place name => .unknownCommand (f place) name
  | .unknownNumber place name => .unknownNumber (f place) name
  | .divisionByZero place => .divisionByZero (f place)
  | .unavailable place reason => .unavailable (f place) reason
  | .unreadable name reason => .unreadable name reason

def Event.relocate : Event → Event
  | .valueIgnored result => .valueIgnored (result.relocate f)
  | event => event

end Relocate

/-! ## Changes in a row -/

section Laws

variable (f g : Position → Position)

mutual

theorem Expr.relocate_relocate : ∀ e : Expr, (e.relocate f).relocate g = e.relocate (g ∘ f)
  | .literal _ | .name _ => rfl
  | .binary _ l r _ => by
    simp only [Expr.relocate, Expr.relocate_relocate l, Expr.relocate_relocate r,
      Function.comp_apply]
  | .call _ args => by
    simp only [Expr.relocate, Expr.relocateAll_relocateAll args, Word.relocate,
      Function.comp_apply]

theorem Expr.relocateAll_relocateAll : ∀ es : List Expr,
    Expr.relocateAll g (Expr.relocateAll f es) = Expr.relocateAll (g ∘ f) es
  | [] => rfl
  | e :: es => by
    simp only [Expr.relocateAll, Expr.relocate_relocate e, Expr.relocateAll_relocateAll es]

end

mutual

theorem Stmt.relocate_relocate : ∀ s : Stmt, (s.relocate f).relocate g = s.relocate (g ∘ f)
  | .paper _ | .pen _ | .line _ _ _ _ | .assign _ _ | .setPixel _ _ _ | .readPixel _ _ _
  | .call _ _ | .value _ | .load _ => by
    simp only [Stmt.relocate, Expr.relocate_relocate, Expr.relocateAll_relocateAll, Word.relocate,
      Function.comp_apply]
  | .block body | .loop _ _ _ body | .test _ _ _ body | .define _ _ _ body => by
    simp only [Stmt.relocate, Expr.relocate_relocate, Stmt.relocateAll_relocateAll body]

theorem Stmt.relocateAll_relocateAll : ∀ ss : List Stmt,
    Stmt.relocateAll g (Stmt.relocateAll f ss) = Stmt.relocateAll (g ∘ f) ss
  | [] => rfl
  | s :: ss => by
    simp only [Stmt.relocateAll, Stmt.relocate_relocate s, Stmt.relocateAll_relocateAll ss]

end

mutual

theorem Expr.relocate_id : ∀ e : Expr, e.relocate id = e
  | .literal _ | .name _ => rfl
  | .binary _ l r _ => by
    simp only [Expr.relocate, Expr.relocate_id l, Expr.relocate_id r, id]
  | .call _ args => by
    simp only [Expr.relocate, Expr.relocateAll_id args, Word.relocate, id]

theorem Expr.relocateAll_id : ∀ es : List Expr, Expr.relocateAll id es = es
  | [] => rfl
  | e :: es => by simp only [Expr.relocateAll, Expr.relocate_id e, Expr.relocateAll_id es]

end

mutual

theorem Stmt.relocate_id : ∀ s : Stmt, s.relocate id = s
  | .paper _ | .pen _ | .line _ _ _ _ | .assign _ _ | .setPixel _ _ _ | .readPixel _ _ _
  | .call _ _ | .value _ | .load _ => by
    simp only [Stmt.relocate, Expr.relocate_id, Expr.relocateAll_id, Word.relocate, id]
  | .block body | .loop _ _ _ body | .test _ _ _ body | .define _ _ _ body => by
    simp only [Stmt.relocate, Expr.relocate_id, Stmt.relocateAll_id body]

theorem Stmt.relocateAll_id : ∀ ss : List Stmt, Stmt.relocateAll id ss = ss
  | [] => rfl
  | s :: ss => by simp only [Stmt.relocateAll, Stmt.relocate_id s, Stmt.relocateAll_id ss]

end

mutual

/-- A tree without its places is the tree with all its places made one. -/
theorem Expr.outline_eq : ∀ e : Expr, e.outline = e.relocate fun _ => .origin
  | .literal _ | .name _ => rfl
  | .binary _ l r _ => by
    simp only [Expr.outline, Expr.relocate, Expr.outline_eq l, Expr.outline_eq r]
  | .call _ args => by
    simp only [Expr.outline, Expr.relocate, Expr.outlineAll_eq args, Word.outline, Word.relocate]

theorem Expr.outlineAll_eq : ∀ es : List Expr,
    Expr.outlineAll es = Expr.relocateAll (fun _ => .origin) es
  | [] => rfl
  | e :: es => by
    simp only [Expr.outlineAll, Expr.relocateAll, Expr.outline_eq e, Expr.outlineAll_eq es]

end

mutual

theorem Stmt.outline_eq : ∀ s : Stmt, s.outline = s.relocate fun _ => .origin
  | .paper _ | .pen _ | .line _ _ _ _ | .assign _ _ | .setPixel _ _ _ | .readPixel _ _ _
  | .call _ _ | .value _ | .load _ => by
    simp only [Stmt.outline, Stmt.relocate, Expr.outline_eq, Expr.outlineAll_eq, Word.outline,
      Word.relocate]
  | .block body | .loop _ _ _ body | .test _ _ _ body | .define _ _ _ body => by
    simp only [Stmt.outline, Stmt.relocate, Expr.outline_eq, Stmt.outlineAll_eq body]

theorem Stmt.outlineAll_eq : ∀ ss : List Stmt,
    Stmt.outlineAll ss = Stmt.relocateAll (fun _ => .origin) ss
  | [] => rfl
  | s :: ss => by
    simp only [Stmt.outlineAll, Stmt.relocateAll, Stmt.outline_eq s, Stmt.outlineAll_eq ss]

end

theorem Fault.relocate_relocate (fault : Fault) :
    (fault.relocate f).relocate g = fault.relocate (g ∘ f) := by
  cases fault <;> rfl

theorem Fault.relocate_id (fault : Fault) : fault.relocate id = fault := by
  cases fault <;> rfl

theorem Event.relocate_id (event : Event) : event.relocate id = event := by
  cases event with
  | valueIgnored result => rw [Event.relocate, Expr.relocate_id]
  | _ => rfl

@[simp] theorem Stmt.length_relocateAll (ss : List Stmt) :
    (Stmt.relocateAll f ss).length = ss.length := by
  induction ss with
  | nil => rfl
  | cons s ss ih => simp only [Stmt.relocateAll, List.length_cons, ih]

/-- Places do not show in canonical text. -/
theorem Expr.render_relocate (e : Expr) : (e.relocate f).render = e.render := by
  rw [← Expr.render_outline, Expr.outline_eq, Expr.relocate_relocate, ← Expr.render_outline e,
    Expr.outline_eq e]
  rfl

/-- Places do not show in the list of events. -/
theorem Event.line_relocate (event : Event) : (event.relocate f).line = event.line := by
  cases event with
  | valueIgnored result =>
    have htext (e : Expr) : (Event.valueIgnored e).message =
        "`Value` outside a number body is ignored: " ++ e.render := rfl
    have hmessage : (Event.valueIgnored (result.relocate f)).message =
        (Event.valueIgnored result).message := by
      rw [htext, htext, Expr.render_relocate]
    exact congrArg (Level.warning.name ++ ": " ++ ·) hmessage
  | _ => simp only [Event.relocate]

end Laws

/-! ## Trees of one file -/

/-- Whether two changes agree on the places of a token. -/
def AgreeAt (f g : Position → Position) (t : Token) : Prop :=
  f t.start = g t.start ∧ f t.stop = g t.stop

def AgreeOn (f g : Position → Position) (ts : List Token) : Prop := ∀ t ∈ ts, AgreeAt f g t

def Grammar.Phrase.Agree (f g : Position → Position) : Phrase → Prop
  | .atom e | .term e | .expr e => e.relocate f = e.relocate g
  | .exprs es => Expr.relocateAll f es = Expr.relocateAll g es
  | .stmt s => s.relocate f = s.relocate g
  | .lines ss | .stmts ss | .block ss => Stmt.relocateAll f ss = Stmt.relocateAll g ss

section Agree

open Grammar

variable {f g : Position → Position}

theorem agreeOn_cons {t : Token} {ts : List Token} :
    AgreeOn f g (t :: ts) ↔ AgreeAt f g t ∧ AgreeOn f g ts :=
  List.forall_mem_cons

theorem agreeOn_append {ts us : List Token} :
    AgreeOn f g (ts ++ us) ↔ AgreeOn f g ts ∧ AgreeOn f g us :=
  List.forall_mem_append

theorem relocate_word_of_agree {t : Token} (h : AgreeAt f g t) :
    t.word.relocate f = t.word.relocate g := by
  simp only [Token.word, Word.relocate, h.1, h.2]

/-- Changes that agree on the places of the tokens agree on the tree. -/
theorem relocate_congr_of_derives {ph : Phrase} {ts : List Token} (h : Derives ph ts)
    (hts : AgreeOn f g ts) : ph.Agree f g := by
  induction h with
  | literal | noExprs | noStmts => rfl
  | name => exact congrArg Expr.name (relocate_word_of_agree (agreeOn_cons.1 hts).1)
  | load =>
    simp only [agreeOn_cons] at hts
    exact congrArg Stmt.load (relocate_word_of_agree hts.2.1)
  | factor _ ih | summand _ ih => exact ih hts
  | nested _ ih => exact congrArg Stmt.block (ih hts)
  | oneLine _ ih => exact congrArg (fun s => [s]) (ih hts)
  | parens _ _ _ ih | block _ _ _ ih =>
    simp only [agreeOn_cons, agreeOn_append] at hts
    exact ih hts.2.1
  | someStmts _ _ _ ih =>
    simp only [agreeOn_append] at hts
    exact ih hts.2.1
  | paper _ _ ih => exact congrArg Stmt.paper (ih (agreeOn_cons.1 hts).2)
  | pen _ _ ih => exact congrArg Stmt.pen (ih (agreeOn_cons.1 hts).2)
  | value _ _ ih => exact congrArg Stmt.value (ih (agreeOn_cons.1 hts).2)
  | numberCall _ _ _ _ ih =>
    simp only [agreeOn_cons, agreeOn_append] at hts
    obtain ⟨-, hname, hargs, -⟩ := hts
    exact congrArg₂ Expr.call (relocate_word_of_agree hname) (ih hargs)
  | commandCall _ _ ih =>
    obtain ⟨hname, hargs⟩ := agreeOn_cons.1 hts
    exact congrArg₂ Stmt.call (relocate_word_of_agree hname) (ih hargs)
  | product _ _ _ _ ihl ihr | sum _ _ _ _ ihl ihr =>
    simp only [agreeOn_cons, agreeOn_append] at hts
    obtain ⟨hleft, hsign, hright⟩ := hts
    have hl : _ = _ := ihl hleft
    have hr : _ = _ := ihr hright
    simp only [Phrase.Agree, Expr.relocate, hl, hr, hsign.2]
  | moreExprs _ _ ihe ihes =>
    obtain ⟨he, hes⟩ := agreeOn_append.1 hts
    exact congrArg₂ List.cons (ihe he) (ihes hes)
  | line _ _ _ _ _ iha ihb ihc ihd =>
    simp only [agreeOn_cons, agreeOn_append] at hts
    obtain ⟨-, ha, hb, hc, hd⟩ := hts
    have hx₁ : _ = _ := iha ha
    have hy₁ : _ = _ := ihb hb
    have hx₂ : _ = _ := ihc hc
    have hy₂ : _ = _ := ihd hd
    simp only [Phrase.Agree, Stmt.relocate, hx₁, hy₁, hx₂, hy₂]
  | assign _ _ _ ih =>
    simp only [agreeOn_cons] at hts
    exact congrArg (Stmt.assign _) (ih hts.2.2)
  | setPixel _ _ _ _ _ _ ihx ihy ih =>
    simp only [agreeOn_cons, agreeOn_append] at hts
    obtain ⟨-, -, hxs, hys, -, hts⟩ := hts
    have hx : _ = _ := ihx hxs
    have hy : _ = _ := ihy hys
    have hink : _ = _ := ih hts
    simp only [Phrase.Agree, Stmt.relocate, hx, hy, hink]
  | readPixel _ _ _ _ _ _ ihx ihy =>
    simp only [agreeOn_cons, agreeOn_append] at hts
    obtain ⟨-, -, -, hxs, hys, -⟩ := hts
    exact congrArg₂ (Stmt.readPixel _) (ihx hxs) (ihy hys)
  | loop _ _ _ _ _ iha ihb ihss =>
    simp only [agreeOn_cons, agreeOn_append] at hts
    obtain ⟨-, -, has, hbs, hts⟩ := hts
    have ha : _ = _ := iha has
    have hb : _ = _ := ihb hbs
    have hss : _ = _ := ihss hts
    simp only [Phrase.Agree, Stmt.relocate, ha, hb, hss]
  | test _ _ _ _ iha ihb ihss =>
    simp only [agreeOn_cons, agreeOn_append] at hts
    obtain ⟨-, has, hbs, hts⟩ := hts
    have ha : _ = _ := iha has
    have hb : _ = _ := ihb hbs
    have hss : _ = _ := ihss hts
    simp only [Phrase.Agree, Stmt.relocate, ha, hb, hss]
  | define _ _ _ _ ihss =>
    simp only [agreeOn_cons, agreeOn_append] at hts
    exact congrArg (Stmt.define _ _ _) (ihss hts.2.2.2)
  | moreLines _ _ _ _ ih ihss =>
    simp only [agreeOn_append] at hts
    exact congrArg₂ List.cons (ih hts.1) (ihss hts.2.2)

end Agree

/-- Where the file of a place begins. -/
def Position.home (p : Position) : Position := .start p.file

theorem Position.home_comp_home : home ∘ home = home := rfl

/-- All tokens of a text lie in its file. -/
theorem file_of_mem_tokensFrom {n : Nat} {p : Position} {cs : List Char} {t : Token}
    (h : t ∈ tokensFrom n p cs) : t.start.file = p.file ∧ t.stop.file = p.file := by
  induction n generalizing p cs with
  | zero => cases h
  | succ n ih =>
    simp only [tokensFrom] at h
    split at h
    · obtain rfl := List.mem_singleton.1 h
      simp only [Position.file_advance, and_self]
    · rcases List.mem_cons.1 h with rfl | h
      · simp only [Position.file_advance, and_self]
      · simpa only [Position.file_advance] using ih h

/-- All places of what is read lie in its file. -/
theorem relocate_home_of_parse {name source : String} {p : Program}
    (h : parse? name source = .ok p) :
    Stmt.relocateAll Position.home p = Stmt.relocateAll (fun _ => .start name) p := by
  obtain ⟨used, rest, htokens, hd⟩ := derives_of_parse h
  refine relocate_congr_of_derives hd fun t ht => ?_
  have hmem : t ∈ tokenize name source := htokens ▸ List.mem_append_left rest ht
  obtain ⟨hstart, hstop⟩ := file_of_mem_tokensFrom hmem
  exact ⟨congrArg Position.start hstart, congrArg Position.start hstop⟩

/-- Trees that were read from one file and are the same without their places are the same with all
places at the start of the file. -/
theorem relocate_home_of_outline {name s t : String} {p q : Program} (hp : parse? name s = .ok p)
    (hq : parse? name t = .ok q) (h : q.outline = p.outline) :
    Stmt.relocateAll Position.home q = Stmt.relocateAll Position.home p := by
  have hstart (r : Program) :
      Stmt.relocateAll (fun _ => .start name) r.outline =
        Stmt.relocateAll (fun _ => .start name) r := by
    rw [Program.outline, Stmt.outlineAll_eq, Stmt.relocateAll_relocateAll]
    rfl
  rw [relocate_home_of_parse hp, relocate_home_of_parse hq, ← hstart p, ← hstart q, h]

end DrawLang
