import DrawLang.Machine
import DrawLang.Source
import DrawLang.Syntax.Parser
import DrawLang.Text.Utf8

/-!
# Running programs

Expressions and statements are run by recursion on their trees. Where a body has to be run that is no
part of the tree, the body of a definition or of a loaded source, the run goes one level deeper;
`execAt n` goes less than `n` levels deep and has no result if more are needed.

* `Expr.eval`: the number of an expression.
* `Stmt.exec`, `Stmt.execAll`: the effect of statements.
* `execAt`: statements run to a depth.
-/

namespace DrawLang

/-- How a body is run that lies outside the tree at hand. -/
abbrev BodyRunner := List Stmt → Exec Unit

/-! ## Expressions -/

/-- The number that a name stands for. A name that stands for none is a fault and counts as 0. -/
def readName (word : Word) : Exec Int64 := do
  match ((← get).scope.get? word.text).bind Binding.value? with
  | some n => return n
  | none =>
    report (.unknownName word.stop word.text)
    return 0

/-- The result of an operator. A division by zero is a fault and counts as 0. -/
def operate (op : Operator) (a b : Int64) (place : Position) : Exec Int64 := do
  match op.apply a b with
  | some n => return n
  | none =>
    report (.divisionByZero place)
    return 0

/-- The definition that a name stands for in a role. -/
def findDefinition (role : Role) (name : String) : Exec (Option Definition) := do
  return ((← get).scope.get? name).bind (Binding.definition? role)

mutual

/-- The number of an expression. The arguments of a call are evaluated in the scope of the caller,
once the callee is found; surplus ones are dropped, and parameters without one stay unbound. -/
def Expr.eval (run : BodyRunner) : Expr → Exec Int64
  | .literal digits => return literalValue digits
  | .name word => readName word
  | .binary op left right place => do
    let a ← left.eval run
    let b ← right.eval run
    operate op a b place
  | .call word args => do
    match ← findDefinition .number word.text with
    | none =>
      report (.unknownNumber word.stop word.text)
      return 0
    | some d =>
      let values ← Expr.evalAll run args
      inFrame true d.params values (run d.body)
      takePending

def Expr.evalAll (run : BodyRunner) : List Expr → Exec (List Int64)
  | [] => return []
  | e :: es => do
    let n ← e.eval run
    let ns ← Expr.evalAll run es
    return n :: ns

end

/-! ## Statements -/

/-- Passes through the numbers from `i` on, at most `n` times on, for as long as they do not exceed
the bound, which is evaluated anew before every pass, and no result is pending. -/
def repeatFrom (bound : Exec Int64) (pass : Int64 → Exec Unit) : Nat → Int64 → Exec Unit
  | n, i => do
    if i ≤ (← bound) then
      pass i
      if ← isPending then
        return ()
      else
        match n with
        | 0 => return ()
        | n + 1 => repeatFrom bound pass n (i + 1)
    else
      return ()

/-- How many numbers there are past `i`. -/
def numbersPast (i : Int64) : Nat := (Int64.maxValue.toInt - i.toInt).toNat

/-- Runs a further source in the scope at hand. A source that cannot be had or parsed is a fault, and
the run goes on without it. -/
def loadSource (opener : Opener) (run : BodyRunner) (path : Word) : Exec Unit := do
  match opener path.text with
  | .unopened _ message => report (.unavailable path.stop message)
  | .unreadable cause =>
    report (.unavailable path.stop ("read " ++ path.text ++ ": " ++ cause.message))
  | .contents bytes =>
    match parse? path.text (Text.decode bytes) with
    | .error place => report (.misplacedToken place)
    | .ok program =>
      tell (.sourceLoaded path.text program.length)
      run program

mutual

def Stmt.exec (opener : Opener) (run : BodyRunner) : Stmt → Exec Unit
  | .paper ink => do
    let color := Rgba.ofInk (← ink.eval run)
    draw fun canvas _ => canvas.fill color
  | .pen ink => do
    let color := Rgba.ofInk (← ink.eval run)
    modify fun m => { m with pen := color }
  | .line x₁ y₁ x₂ y₂ => do
    let x₁ ← x₁.eval run
    let y₁ ← y₁.eval run
    let x₂ ← x₂.eval run
    let y₂ ← y₂.eval run
    let m ← get
    let p := m.point x₁ y₁
    let q := m.point x₂ y₂
    draw fun canvas pen => canvas.line p q pen
  | .assign name result => do
    bindName name (.value (← result.eval run))
  | .setPixel x y ink => do
    let x ← x.eval run
    let y ← y.eval run
    let color := Rgba.ofInk (← ink.eval run)
    let p := (← get).point x y
    draw fun canvas _ => canvas.set p color
  | .readPixel name x y => do
    let x ← x.eval run
    let y ← y.eval run
    let m ← get
    bindName name (.value (m.canvas.pixel (m.point x y)).ink)
  | .block body => Stmt.execAll opener run body
  | .loop name first last body => do
    let i ← first.eval run
    repeatFrom (last.eval run)
      (fun i => do
        bindName name (.value i)
        Stmt.execAll opener run body)
      (numbersPast i) i
  | .test relation left right body => do
    let a ← left.eval run
    let b ← right.eval run
    if relation.holds a b then
      Stmt.execAll opener run body
    else
      return ()
  | .define role name params body =>
    bindName name (.routine role ⟨name, params, body⟩)
  | .call word args => do
    match ← findDefinition .command word.text with
    | none => report (.unknownCommand word.stop word.text)
    | some d =>
      let values ← Expr.evalAll run args
      inFrame false d.params values (run d.body)
  | .value result => do
    if (← get).inNumber then
      setPending (← result.eval run)
    else
      tell (.valueIgnored result)
  | .load path => loadSource opener run path

/-- Runs statements in order, for as long as no result is pending. -/
def Stmt.execAll (opener : Opener) (run : BodyRunner) : List Stmt → Exec Unit
  | [] => return ()
  | s :: ss => do
    s.exec opener run
    if ← isPending then
      return ()
    else
      Stmt.execAll opener run ss

end

/-! ## Depth -/

/-- Runs statements, with calls and loads nested less than `n` deep. -/
def execAt (opener : Opener) : Nat → BodyRunner
  | 0 => fun _ => failure
  | n + 1 => fun body => Stmt.execAll opener (execAt opener n) body

end DrawLang
