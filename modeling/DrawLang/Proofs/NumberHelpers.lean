import DrawLang.Proofs.LibraryBindings
import DrawLang.Proofs.Readings
import Mathlib.Algebra.Order.Group.Unbundled.Int

/-!
# The numbers of the library

The library has four numbers that help in computing: the larger and the smaller of two numbers, the
amount of a number without its sign, and a number brought between two others. A call of a helper
gives what its name says wherever its name still means the definition of the library. Its arguments
are evaluated before its parameters are bound, so that it makes no difference what the caller uses
the names of the parameters for.

* `Helper.Computes`: what the helpers are to compute, in unbounded numbers.
* `Helper.result`, `computes_iff`: the only number that meets this.
* `Helper.decides`: the bodies of the helpers.
* `Denotes`: expressions that call helpers.
* `helpers_compute`: what calls of helpers give.
-/

namespace DrawLang

/-! ## What the helpers compute -/

inductive Helper where
  | maximum | minimum | absolute | clamped
  deriving DecidableEq, Repr

namespace Helper

def definition : Helper → Definition
  | maximum => Library.maximum
  | minimum => Library.minimum
  | absolute => Library.absolute
  | clamped => Library.clamped

def name (h : Helper) : String := h.definition.name

/-- The arguments that a helper is meant for: the smallest number has no counterpart without its
sign, and there must be something between two bounds. -/
inductive Accepts : Helper → List Int64 → Prop where
  | maximum (a b : Int64) : Accepts maximum [a, b]
  | minimum (a b : Int64) : Accepts minimum [a, b]
  | absolute {a : Int64} : a ≠ Int64.minValue → Accepts absolute [a]
  | clamped (v : Int64) {l h : Int64} : l ≤ h → Accepts clamped [v, l, h]

/-- What a helper is to compute: the larger or the smaller of two numbers, a number without its
sign, or what is nearest to a number between two bounds. -/
inductive Computes : Helper → List Int64 → Int64 → Prop where
  | maximum {a b n : Int64} : n.toInt = max a.toInt b.toInt → Computes maximum [a, b] n
  | minimum {a b n : Int64} : n.toInt = min a.toInt b.toInt → Computes minimum [a, b] n
  | absolute {a n : Int64} : n.toInt = |a.toInt| → Computes absolute [a] n
  | clamped {v l h n : Int64} : l ≤ n → n ≤ h →
      (∀ k : Int64, l ≤ k → k ≤ h → |v.toInt - n.toInt| ≤ |v.toInt - k.toInt|) →
      Computes clamped [v, l, h] n

/-- What a helper comes to, by the tests of its body. -/
def result : Helper → List Int64 → Int64
  | maximum, [a, b] => if a < b then b else a
  | minimum, [a, b] => if a < b then a else b
  | absolute, [a] => if a < 0 then 0 - a else a
  | clamped, [v, l, h] => if v < l then l else if h < v then h else v
  | _, _ => 0

variable {h : Helper} {values : List Int64} {n : Int64}

theorem Accepts.length (haccepts : h.Accepts values) :
    values.length = h.definition.params.length := by
  cases haccepts <;> rfl

theorem toInt_zero_sub {a : Int64} (ha : a ≠ Int64.minValue) : (0 - a).toInt = -a.toInt := by
  have hleast := a.le_toInt
  have hgreatest := a.toInt_lt
  have hne := mt Int64.toInt_inj.1 ha
  rw [Int64.toInt_minValue] at hne
  rw [Int64.toInt_sub, Int64.toInt_zero, Int.zero_sub]
  exact Int.bmod_eq_of_le (by omega) (by omega)

theorem computes_result (haccepts : h.Accepts values) : h.Computes values (h.result values) := by
  cases haccepts with
  | maximum a b =>
    refine .maximum ?_
    simp only [result, Int64.lt_iff_toInt_lt]
    split <;> omega
  | minimum a b =>
    refine .minimum ?_
    simp only [result, Int64.lt_iff_toInt_lt]
    split <;> omega
  | @absolute a ha =>
    refine .absolute ?_
    simp only [result, Int64.lt_iff_toInt_lt, Int64.toInt_zero]
    split
    · rw [toInt_zero_sub ha, abs_of_neg ‹_›]
    · rw [abs_of_nonneg (by omega)]
  | @clamped v l h hle =>
    have hclamped {n : Int64} (hn : l.toInt ≤ n.toInt ∧ n.toInt ≤ h.toInt)
        (hnearest : ∀ k : Int64, l.toInt ≤ k.toInt → k.toInt ≤ h.toInt →
          (v.toInt - n.toInt).natAbs ≤ (v.toInt - k.toInt).natAbs) :
        Computes clamped [v, l, h] n := by
      simp only [← Int64.le_iff_toInt_le] at hn hnearest
      refine .clamped hn.1 hn.2 fun k hlow hhigh => ?_
      rw [Int.abs_eq_natAbs, Int.abs_eq_natAbs]
      exact Int.ofNat_le.2 (hnearest k hlow hhigh)
    rw [Int64.le_iff_toInt_le] at hle
    simp only [result, Int64.lt_iff_toInt_lt]
    split
    · exact hclamped (by omega) fun k _ _ => by omega
    · split
      · exact hclamped (by omega) fun k _ _ => by omega
      · exact hclamped (by omega) fun k _ _ => by omega

/-- What a helper is to compute can be had for the arguments that it is meant for only. -/
theorem Computes.accepts (hn : h.Computes values n) : h.Accepts values := by
  cases hn with
  | maximum hn => exact .maximum _ _
  | minimum hn => exact .minimum _ _
  | absolute hn =>
    refine .absolute ?_
    rintro rfl
    have hlt := n.toInt_lt
    rw [hn] at hlt
    exact absurd hlt (by decide)
  | clamped hlow hhigh hnearest => exact .clamped _ (Int64.le_trans hlow hhigh)

/-- There is no other number that a helper could compute. -/
theorem Computes.unique {k : Int64} (hn : h.Computes values n) (hk : h.Computes values k) :
    n = k := by
  cases hn with
  | maximum hn =>
    cases hk with
    | maximum hk => exact Int64.toInt_inj.1 (hn.trans hk.symm)
  | minimum hn =>
    cases hk with
    | minimum hk => exact Int64.toInt_inj.1 (hn.trans hk.symm)
  | absolute hn =>
    cases hk with
    | absolute hk => exact Int64.toInt_inj.1 (hn.trans hk.symm)
  | @clamped v _ _ _ hlow hhigh hnearest =>
    cases hk with
    | clamped hlow' hhigh' hnearest' =>
      have hle := hnearest k hlow' hhigh'
      have hge := hnearest' n hlow hhigh
      -- Two numbers as near as each other are on both sides of `v`, so that `v` is between them.
      have hself := hnearest v
      rw [← Int64.toInt_inj]
      simp only [Int64.le_iff_toInt_le, Int.abs_eq_natAbs] at *
      omega

theorem computes_iff (haccepts : h.Accepts values) :
    h.Computes values n ↔ n = h.result values := by
  constructor
  · intro hn
    exact hn.unique (computes_result haccepts)
  · rintro rfl
    exact computes_result haccepts

end Helper

/-! ## The bodies of the helpers -/

section Bodies

variable {s : Scope}

/-- In a frame, a parameter reads as the value that it is bound to. -/
theorem reads_param {params : List String} {values : List Int64} (hparams : params.Nodup)
    {name : String} {v : Int64} (h : (name, v) ∈ params.zip values) :
    ReadsAs (s.setAll params values) (.named name) v :=
  .name (Scope.get?_setAll_of_mem hparams h s)

theorem decides_smaller {l r : Expr} {a b v w : Int64} {body rest : List Stmt} (hl : ReadsAs s l a)
    (hr : ReadsAs s r b) (hbody : Decides s body v) (hrest : Decides s rest w) :
    Decides s (.test .smaller l r body :: rest) (if a < b then v else w) := by
  split
  · rename_i hlt
    exact .taken hl hr (decide_eq_true hlt) hbody
  · rename_i hlt
    exact .passed hl hr (decide_eq_false hlt) hrest

/-- In a frame with its arguments, the body of a helper comes to its result. -/
theorem Helper.decides (h : Helper) {values : List Int64}
    (hlength : values.length = h.definition.params.length) (s : Scope) :
    Decides (s.push.setAll h.definition.params values) h.definition.body (h.result values) := by
  cases h with
  | maximum =>
    obtain ⟨a, b, rfl⟩ := List.length_eq_two.1 hlength
    have ha : ReadsAs (s.push.setAll ["A", "B"] [a, b]) (.named "A") a :=
      reads_param (by decide) (.head _)
    have hb : ReadsAs (s.push.setAll ["A", "B"] [a, b]) (.named "B") b :=
      reads_param (by decide) (.tail _ (.head _))
    exact decides_smaller ha hb (.value hb) (.value ha)
  | minimum =>
    obtain ⟨a, b, rfl⟩ := List.length_eq_two.1 hlength
    have ha : ReadsAs (s.push.setAll ["A", "B"] [a, b]) (.named "A") a :=
      reads_param (by decide) (.head _)
    have hb : ReadsAs (s.push.setAll ["A", "B"] [a, b]) (.named "B") b :=
      reads_param (by decide) (.tail _ (.head _))
    exact decides_smaller ha hb (.value ha) (.value hb)
  | absolute =>
    obtain ⟨a, rfl⟩ := List.length_eq_one_iff.1 hlength
    have ha : ReadsAs (s.push.setAll ["A"] [a]) (.named "A") a :=
      reads_param (by decide) (.head _)
    have hzero : ReadsAs (s.push.setAll ["A"] [a]) (.literal "0") 0 := .literal "0"
    exact decides_smaller ha hzero (.value (.binary hzero ha rfl)) (.value ha)
  | clamped =>
    obtain ⟨v, l, h, rfl⟩ := List.length_eq_three.1 hlength
    have hv : ReadsAs (s.push.setAll ["V", "L", "H"] [v, l, h]) (.named "V") v :=
      reads_param (by decide) (.head _)
    have hl : ReadsAs (s.push.setAll ["V", "L", "H"] [v, l, h]) (.named "L") l :=
      reads_param (by decide) (.tail _ (.head _))
    have hh : ReadsAs (s.push.setAll ["V", "L", "H"] [v, l, h]) (.named "H") h :=
      reads_param (by decide) (.tail _ (.tail _ (.head _)))
    exact decides_smaller hv hl (.value hl) (decides_smaller hh hv (.value hh) (.value hv))

end Bodies

/-! ## Calls of the helpers -/

section Calls

variable {opener : Opener} {depth : Nat} {m m₁ : Machine}

theorem Helper.mem_standardDefinitions (h : Helper) :
    (.number, h.definition) ∈ Library.standardDefinitions := by
  refine List.mem_append_right _ ?_
  cases h <;> simp [definition, Library.graphicsDefinitions]

/-- A call of a helper gives its result, and has no effect beyond that of its arguments. -/
theorem Helper.eval_call (h : Helper) {word : Word} {args : List Expr} {values : List Int64}
    (hword : word.text = h.name) (hstandard : m.scope.Standard h.name) (hnone : m.pending = none)
    (hargs : Expr.evalAll (execAt opener (depth + 1)) args m = some (values, m₁))
    (hlength : values.length = h.definition.params.length) :
    (Expr.call word args).eval (execAt opener (depth + 1)) m = some (h.result values, m₁) := by
  have hrun := execAt_keeps opener (depth + 1)
  rw [← hword] at hstandard
  obtain ⟨body, hfind, hbody⟩ := findDefinition_standard h.mem_standardDefinitions hword hstandard
  have houtline : Stmt.outlineAll h.definition.body = h.definition.body := by cases h <;> rfl
  have hdecides := h.decides hlength m₁.scope
  rw [← houtline, ← hbody] at hdecides
  obtain ⟨hscope, hnumber, hpending⟩ := evalAll_keeps hrun args hargs
  refine (numberCall_eq_some_iff hrun hfind).2
    ⟨values, m₁, _, hargs, hdecides.of_outline.execAll rfl (hpending hnone) rfl, rfl, ?_⟩
  cases m₁
  simp_all [Machine.enter]

end Calls

/-! ## Expressions that call helpers -/

mutual

/-- Whether an expression, which may call helpers of the library, stands for a number under some
bindings. The arguments of a call are taken under the bindings of the caller. -/
inductive Denotes (s : Scope) : Expr → Int64 → Prop where
  | plain {e v} : ReadsAs s e v → Denotes s e v
  | binary {op l r place a b v} : Denotes s l a → Denotes s r b → op.apply a b = some v →
      Denotes s (.binary op l r place) v
  | call {word args values v} (h : Helper) : word.text = h.name → s.Standard h.name →
      DenoteAll s args values → h.Computes values v → Denotes s (.call word args) v

/-- Whether expressions stand for numbers, one by one. -/
inductive DenoteAll (s : Scope) : List Expr → List Int64 → Prop where
  | nil : DenoteAll s [] []
  | cons {e es v vs} : Denotes s e v → DenoteAll s es vs → DenoteAll s (e :: es) (v :: vs)

end

section Denotes

variable {opener : Opener} {depth : Nat} {m : Machine}

mutual

/-- The evaluation of such an expression gives its number and has no effect. -/
theorem eval_of_denotes (hnone : m.pending = none) : ∀ (e : Expr) {v : Int64},
    Denotes m.scope e v → e.eval (execAt opener (depth + 1)) m = some (v, m)
  | .literal _, _, h => by
    cases h with
    | plain h => exact h.eval rfl
  | .name _, _, h => by
    cases h with
    | plain h => exact h.eval rfl
  | .binary op l r place, _, h => by
    cases h with
    | plain h => exact h.eval rfl
    | binary hl hr hop =>
      rw [Expr.eval, bind_of_eq_some (eval_of_denotes hnone l hl),
        bind_of_eq_some (eval_of_denotes hnone r hr)]
      exact operate_of_apply hop place
  | .call word args, v, h => by
    cases h with
    | plain h => cases h
    | @call _ _ values _ h hword hstandard hargs hv =>
      obtain rfl : v = h.result values := (h.computes_iff hv.accepts).1 hv
      exact h.eval_call hword hstandard hnone (evalAll_of_denoteAll hnone args hargs)
        hv.accepts.length

theorem evalAll_of_denoteAll (hnone : m.pending = none) : ∀ (es : List Expr) {vs : List Int64},
    DenoteAll m.scope es vs → Expr.evalAll (execAt opener (depth + 1)) es m = some (vs, m)
  | [], _, h => by
    cases h
    rfl
  | e :: es, _, h => by
    cases h with
    | cons he hes =>
      rw [Expr.evalAll, bind_of_eq_some (eval_of_denotes hnone e he),
        bind_of_eq_some (evalAll_of_denoteAll hnone es hes)]
      rfl

end

mutual

theorem Denotes.of_outline {s : Scope} : ∀ (e : Expr) {v : Int64},
    Denotes s e.outline v → Denotes s e v
  | .literal digits, _, h => by
    cases h with
    | plain h => exact .plain (ReadsAs.of_outline (e := .literal digits) h)
  | .name word, _, h => by
    cases h with
    | plain h => exact .plain (ReadsAs.of_outline (e := .name word) h)
  | .binary op l r place, _, h => by
    cases h with
    | plain h => exact .plain (ReadsAs.of_outline (e := .binary op l r place) h)
    | binary hl hr hop => exact .binary (Denotes.of_outline l hl) (Denotes.of_outline r hr) hop
  | .call word args, _, h => by
    cases h with
    | plain h => cases h
    | call h hword hstandard hargs hv =>
      exact .call h hword hstandard (DenoteAll.of_outlineAll args hargs) hv

theorem DenoteAll.of_outlineAll {s : Scope} : ∀ (es : List Expr) {vs : List Int64},
    DenoteAll s (Expr.outlineAll es) vs → DenoteAll s es vs
  | [], _, h => by
    cases h
    exact .nil
  | e :: es, _, h => by
    cases h with
    | cons he hes => exact .cons (Denotes.of_outline e he) (DenoteAll.of_outlineAll es hes)

end

end Denotes

/-- **The helpers compute what they are named for.** Take a state in which no result is pending,
whatever its bindings are. There a call of a helper whose name means the definition of the library
gives the number that the helper is to compute from its arguments, which is the only such number,
and leads to the state that the arguments have led to. An expression made of numbers, names,
operators and calls of helpers, nested in any way, gives the number that it stands for under the
bindings of that state, and changes nothing. -/
theorem helpers_compute (opener : Opener) (depth : Nat) (m : Machine)
    (hpending : m.pending = none) :
    (∀ (h : Helper) (word : Word) (args : List Expr) (values : List Int64) (m₁ : Machine),
      word.text = h.name → m.scope.Standard h.name →
      Expr.evalAll (execAt opener (depth + 1)) args m = some (values, m₁) → h.Accepts values →
      ∃ v, (h.Computes values v ∧ ∀ w, h.Computes values w → w = v) ∧
        (Expr.call word args).eval (execAt opener (depth + 1)) m = some (v, m₁) ∧
        m₁.scope = m.scope ∧ m₁.pending = none) ∧
    ∀ (e : Expr) (v : Int64), Denotes m.scope e v →
      e.eval (execAt opener (depth + 1)) m = some (v, m) := by
  refine ⟨fun h word args values m₁ hword hstandard hargs haccepts => ?_,
    fun e v he => eval_of_denotes hpending e he⟩
  obtain ⟨hscope, -, hnone⟩ := evalAll_keeps (execAt_keeps opener (depth + 1)) args hargs
  exact ⟨h.result values,
    ⟨Helper.computes_result haccepts, fun w => (Helper.computes_iff haccepts).1⟩,
    h.eval_call hword hstandard hpending hargs haccepts.length, hscope, hnone hpending⟩

/-- A caller that uses the names of the parameters of the larger of two numbers the other way round,
and nests calls of all helpers. -/
theorem helpers_in_swapped_roles : ∃ m : Machine, m.pending = none ∧
    m.scope.get? "A" = some (.value 3) ∧ m.scope.get? "B" = some (.value (-7)) ∧
    (∀ h : Helper, m.scope.Standard h.name) ∧
    (Expr.call (.ofText "Max") [.named "B", .named "A"]).eval (execAt .none 1) m = some (3, m) ∧
    (Expr.call (.ofText "Clamp") [.call (.ofText "Abs") [.named "B"], .named "A",
      .call (.ofText "Max") [.literal "5", .call (.ofText "Min") [.named "A", .named "B"]]]).eval
        (execAt .none 1) m = some (5, m) := by
  obtain ⟨m₀, -, -, hnone₀, hstandard⟩ := exists_standard 5
  let m : Machine := { m₀ with
    scope := (m₀.scope.set "A" (.value 3)).set "B" (.value (-7)) }
  have hnone : m.pending = none := hnone₀
  have hA : m.scope.get? "A" = some (.value 3) := by simp [m, Scope.get?_set]
  have hB : m.scope.get? "B" = some (.value (-7)) := by simp [m, Scope.get?_set]
  have hhelpers : ∀ h : Helper, m.scope.Standard h.name := by
    intro h
    have hne : h.name ≠ "A" ∧ h.name ≠ "B" := by cases h <;> decide
    exact ((hstandard h.name).set hne.1 _).set hne.2 _
  have ha : Denotes m.scope (.named "A") 3 := .plain (.name hA)
  have hb : Denotes m.scope (.named "B") (-7) := .plain (.name hB)
  obtain ⟨hcall, hdenotes⟩ := helpers_compute .none 0 m hnone
  refine ⟨m, hnone, hA, hB, hhelpers, ?_, hdenotes _ _ ?_⟩
  · have hargs : Expr.evalAll (execAt .none 1) [.named "B", .named "A"] m = some ([-7, 3], m) :=
      evalAll_of_denoteAll hnone _ (.cons hb (.cons ha .nil))
    obtain ⟨v, ⟨-, honly⟩, heval, -⟩ :=
      hcall .maximum (.ofText "Max") _ _ m rfl (hhelpers .maximum) hargs (.maximum _ _)
    obtain rfl : 3 = v := honly 3 (.maximum (by decide))
    exact heval
  · have habs : Denotes m.scope (.call (.ofText "Abs") [.named "B"]) 7 :=
      .call .absolute rfl (hhelpers .absolute) (.cons hb .nil) (.absolute (by decide))
    have hmin : Denotes m.scope (.call (.ofText "Min") [.named "A", .named "B"]) (-7) :=
      .call .minimum rfl (hhelpers .minimum) (.cons ha (.cons hb .nil)) (.minimum (by decide))
    have hmax : Denotes m.scope (.call (.ofText "Max")
        [.literal "5", .call (.ofText "Min") [.named "A", .named "B"]]) 5 :=
      .call .maximum rfl (hhelpers .maximum) (.cons (.plain (.literal "5")) (.cons hmin .nil))
        (.maximum (by decide))
    exact .call .clamped rfl (hhelpers .clamped) (.cons habs (.cons ha (.cons hmax .nil)))
      (Helper.computes_result (.clamped 7 (by decide)))

end DrawLang
