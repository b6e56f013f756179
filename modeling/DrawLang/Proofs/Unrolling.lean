import DrawLang.Proofs.Unwinding

/-!
# Loops unrolled

A loop reads its bound before every pass. If it reads the same bound each time, and reading has no
effect, the loop is a row of passes: one for every number from the first to the bound, in order. The
count of the loop is kept apart from the name that its body sees, so nothing that the body binds can
change it. Only a pass that leaves a result pending cuts the row short.

* `countUp`: the numbers of a loop.
* `passEach`: the row of passes for some numbers.
* `Passes`: passes for some numbers, all of them made.
* `Steady`: the same bound whenever it is read.
* `repeatFrom_eq_passEach`, `passEach_eq_some_iff`, `loops_unroll`.
-/

namespace DrawLang

/-! ## The numbers of a loop -/

def countUp (a b : Int64) : List Int64 := (interval a.toInt b.toInt).map Int64.ofInt

theorem interval_cons {first last : Int} (h : first ≤ last) :
    interval first last = first :: interval (first + 1) last := by
  have hcount : (last + 1 - first).toNat = (last + 1 - (first + 1)).toNat + 1 := by omega
  unfold interval
  rw [hcount, List.range_succ_eq_map, List.map_cons, List.map_map]
  congr 1
  · simp
  · apply List.map_congr_left
    intro k _
    simp only [Function.comp_apply, Nat.succ_eq_add_one]
    omega

theorem interval_of_lt {first last : Int} (h : last < first) : interval first last = [] := by
  unfold interval
  rw [Int.toNat_of_nonpos (by omega)]
  rfl

section Numbers

variable {a b i : Int64}

theorem length_countUp (a b : Int64) :
    ((countUp a b).length : Int) = max 0 (b.toInt - a.toInt + 1) := by
  rw [countUp, List.length_map, length_interval]
  omega

theorem toInt_getElem_countUp (k : Nat) (h : k < (countUp a b).length) :
    (countUp a b)[k].toInt = a.toInt + k := by
  have hlength := length_countUp a b
  have hleast := a.le_toInt
  have hgreatest := b.toInt_lt
  simp only [countUp, interval, List.getElem_map, List.getElem_range]
  exact Int64.toInt_ofInt_of_le (by omega) (by omega)

theorem countUp_of_lt (h : b < a) : countUp a b = [] := by
  rw [countUp, interval_of_lt (Int64.lt_iff_toInt_lt.1 h)]
  rfl

theorem countUp_greatest : countUp Int64.maxValue Int64.maxValue = [Int64.maxValue] := by decide

/-- There is no number past the greatest, and past any other there is its successor. -/
theorem numbersPast_eq_zero_iff : numbersPast i = 0 ↔ i = Int64.maxValue := by
  have hle := i.toInt_le
  rw [← Int64.toInt_inj, numbersPast]
  omega

theorem toInt_succ (h : i ≠ Int64.maxValue) : (i + 1).toInt = i.toInt + 1 := by
  have hne := mt Int64.toInt_inj.1 h
  have hleast := i.le_toInt
  have hgreatest := i.toInt_le
  rw [Int64.toInt_maxValue] at hne hgreatest
  rw [Int64.toInt_add, Int64.toInt_one]
  exact Int.bmod_eq_of_le (by omega) (by omega)

theorem numbersPast_succ (h : i ≠ Int64.maxValue) : numbersPast i = numbersPast (i + 1) + 1 := by
  have hne := mt Int64.toInt_inj.1 h
  have hgreatest := i.toInt_le
  rw [numbersPast, numbersPast, toInt_succ h]
  omega

theorem countUp_of_le (h : a ≤ b) (hmax : a ≠ Int64.maxValue) :
    countUp a b = a :: countUp (a + 1) b := by
  rw [countUp, interval_cons (Int64.le_iff_toInt_le.1 h), List.map_cons, Int64.ofInt_toInt,
    countUp, toInt_succ hmax]

end Numbers

/-! ## Passes -/

/-- Passes for the numbers of a list, in order, for as long as no result is pending after one. -/
def passEach (pass : Int64 → Exec Unit) : List Int64 → Exec Unit
  | [] => return ()
  | i :: is => do
    pass i
    if ← isPending then
      return ()
    else
      passEach pass is

/-- From the state before some passes to the state after them, when all of them are made and none
leaves a result pending. -/
inductive Passes (pass : Int64 → Exec Unit) : List Int64 → Machine → Machine → Prop where
  | nil {m} : Passes pass [] m m
  | cons {i is m m₁ m'} : pass i m = some ((), m₁) → m₁.pending = none → Passes pass is m₁ m' →
      Passes pass (i :: is) m m'

/-- The bound of a loop from `a` to `b` reads as `b` and has no effect, whenever the loop reads it:
at the start, and after every pass but the one for the greatest number that there is. -/
def Steady (bound : Exec Int64) (pass : Int64 → Exec Unit) (a b : Int64) (m : Machine) : Prop :=
  ∀ is m', is <+: countUp a b → Int64.maxValue ∉ is → Passes pass is m m' →
    bound m' = some (b, m')

section Passes

variable {bound : Exec Int64} {pass : Int64 → Exec Unit} {a b i : Int64} {is : List Int64}
  {m m₁ m' : Machine}

theorem passEach_cons (pass : Int64 → Exec Unit) (i : Int64) (is : List Int64) (m : Machine) :
    passEach pass (i :: is) m = (pass i m).bind fun r =>
      if r.2.pending.isSome then some ((), r.2) else passEach pass is r.2 :=
  unlessPending_apply _ _ m

/-- A row of passes ends after the last one, or after the first one that leaves a result pending. -/
theorem passEach_eq_some_iff :
    passEach pass is m = some ((), m') ↔
      Passes pass is m m' ∨ ∃ before i rest m₁, is = before ++ i :: rest ∧
        Passes pass before m m₁ ∧ pass i m₁ = some ((), m') ∧ m'.pending.isSome = true := by
  induction is generalizing m with
  | nil =>
    constructor
    · intro h
      cases h
      exact .inl .nil
    · rintro (h | ⟨before, i, rest, m₁, h, -⟩)
      · cases h
        rfl
      · simp at h
  | cons i is ih =>
    rw [passEach_cons, Option.bind_eq_some_iff]
    constructor
    · rintro ⟨⟨_, m₁⟩, hpass, h⟩
      cases hpending : m₁.pending with
      | some n =>
        simp only [hpending] at h
        cases h
        exact .inr ⟨[], i, is, m, rfl, .nil, hpass, by rw [hpending]; rfl⟩
      | none =>
        simp only [hpending] at h
        rcases ih.1 h with h | ⟨before, j, rest, m₂, rfl, hbefore, hlast⟩
        · exact .inl (.cons hpass hpending h)
        · exact .inr ⟨i :: before, j, rest, m₂, rfl, .cons hpass hpending hbefore, hlast⟩
    · rintro (h | ⟨before, j, rest, m₂, h, hbefore, hlast, hpending⟩)
      · cases h with
        | cons hpass hnone h =>
          refine ⟨_, hpass, ?_⟩
          simp only [hnone]
          exact ih.2 (.inl h)
      · cases hbefore with
        | nil =>
          obtain ⟨rfl, rfl⟩ := List.cons.inj h
          exact ⟨_, hlast, if_pos hpending⟩
        | cons hpass hnone hbefore =>
          obtain ⟨rfl, rfl⟩ := List.cons.inj h
          refine ⟨_, hpass, ?_⟩
          simp only [hnone]
          exact ih.2 (.inr ⟨_, j, rest, m₂, rfl, hbefore, hlast, hpending⟩)

/-! ### Loops as rows of passes -/

theorem Steady.start (h : Steady bound pass a b m) : bound m = some (b, m) :=
  h [] m List.nil_prefix (by simp) .nil

theorem Steady.next (h : Steady bound pass a b m) (hle : a ≤ b) (hmax : a ≠ Int64.maxValue)
    (hpass : pass a m = some ((), m₁)) (hnone : m₁.pending = none) :
    Steady bound pass (a + 1) b m₁ := by
  intro is m' his hnotMem hpasses
  apply h (a :: is) m'
  · rw [countUp_of_le hle hmax]
    exact List.prefix_cons_inj a |>.2 his
  · simp only [List.mem_cons, not_or]
    exact ⟨hmax.symm, hnotMem⟩
  · exact .cons hpass hnone hpasses

/-- A bound that always reads the same is steady. -/
theorem steady_of_forall (h : ∀ m, bound m = some (b, m)) : Steady bound pass a b m :=
  fun _ m' _ _ _ => h m'

/-- A loop with a steady bound is the row of passes for its numbers. The induction is on how many
numbers there are past the first, which is what the loop counts down. -/
theorem repeatFrom_eq_passEach (h : Steady bound pass a b m) :
    repeatFrom bound pass (numbersPast a) a m = passEach pass (countUp a b) m := by
  induction hn : numbersPast a generalizing a m with
  | zero =>
    obtain rfl := numbersPast_eq_zero_iff.1 hn
    rw [repeatFrom_of_bound h.start]
    split
    · rename_i hle
      obtain rfl : b = Int64.maxValue := Int64.le_antisymm b.le_maxValue hle
      rw [countUp_greatest, passEach_cons]
      rfl
    · rename_i hlt
      rw [countUp_of_lt (Int64.not_le.1 hlt)]
      rfl
  | succ n ih =>
    have hmax : a ≠ Int64.maxValue := by
      rintro rfl
      rw [numbersPast_eq_zero_iff.2 rfl] at hn
      cases hn
    have hpast := numbersPast_succ hmax
    rw [repeatFrom_of_bound h.start]
    split
    · rename_i hle
      rw [countUp_of_le hle hmax, passEach_cons]
      apply Option.bind_congr
      rintro ⟨_, m₁⟩ hpass
      cases hpending : m₁.pending with
      | some result => rfl
      | none =>
        exact ih (h.next hle hmax hpass hpending) (by omega)
    · rename_i hlt
      rw [countUp_of_lt (Int64.not_le.1 hlt)]
      rfl

end Passes

/-! ## Loops unrolled -/

/-- A loop whose bound is steady passes through the numbers from the first one to the bound, once
each, and stops early only after a pass that leaves a result pending. If the first number is past
the bound, it does nothing. -/
theorem loops_unroll (opener : Opener) (run : BodyRunner) (name : String) (first last : Expr)
    (body : List Stmt) (m m₁ : Machine) (a b : Int64) (hfirst : first.eval run m = some (a, m₁))
    (hlast : Steady (last.eval run) (passOnce opener run name body) a b m₁) :
    let loop := (Stmt.loop name first last body).exec opener run m
    let pass := passOnce opener run name body
    loop = passEach pass (countUp a b) m₁ ∧
    (∀ m', loop = some ((), m') ↔
      Passes pass (countUp a b) m₁ m' ∨ ∃ before i rest m₂, countUp a b = before ++ i :: rest ∧
        Passes pass before m₁ m₂ ∧ pass i m₂ = some ((), m') ∧ m'.pending.isSome = true) ∧
    ((countUp a b).length : Int) = max 0 (b.toInt - a.toInt + 1) ∧
    (∀ k (h : k < (countUp a b).length), (countUp a b)[k].toInt = a.toInt + k) ∧
    (b < a → loop = some ((), m₁)) := by
  have hloop : (Stmt.loop name first last body).exec opener run m =
      passEach (passOnce opener run name body) (countUp a b) m₁ := by
    rw [← repeatFrom_eq_passEach hlast]
    exact bind_of_eq_some hfirst
  refine ⟨hloop, fun m' => ?_, length_countUp a b, toInt_getElem_countUp, fun hlt => ?_⟩
  · rw [hloop]
    exact passEach_eq_some_iff
  · rw [hloop, countUp_of_lt hlt]
    rfl

/-- A loop up to the greatest number that there is, with a body that sets `I` back to 0. -/
theorem loop_reaches_greatest :
    let first : Expr := .literal "9223372036854775806"
    let last : Expr := .literal "9223372036854775807"
    let body : List Stmt := [.assign "I" (.literal "0")]
    let run := execAt .none 0
    let pass := passOnce .none run "I" body
    let m := Machine.start 1 (.new false 0 1)
    first.eval run m = some (9223372036854775806, m) ∧
    Steady (last.eval run) pass 9223372036854775806 9223372036854775807 m ∧
    (Stmt.loop "I" first last body).exec .none run m =
      passEach pass [9223372036854775806, 9223372036854775807] m := by
  intro first last body run pass m
  have hvalue : literalValue "9223372036854775806" = 9223372036854775806 := by decide
  have hbound : literalValue "9223372036854775807" = 9223372036854775807 := by decide
  have hfirst : first.eval run m = some (9223372036854775806, m) := by
    rw [← hvalue]
    rfl
  have hlast : Steady (last.eval run) pass 9223372036854775806 9223372036854775807 m := by
    apply steady_of_forall
    intro m
    rw [← hbound]
    rfl
  have hnumbers : countUp 9223372036854775806 9223372036854775807 =
      [9223372036854775806, 9223372036854775807] := by decide
  have h := (loops_unroll .none run "I" first last body m m _ _ hfirst hlast).1
  rw [hnumbers] at h
  exact ⟨hfirst, hlast, h⟩

end DrawLang
