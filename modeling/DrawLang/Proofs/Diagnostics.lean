import DrawLang.Proofs.Origins

/-!
# Faults point at what they are about

A place is read off a token, kept in a tree, bound with the body of a definition, and listed much
later, maybe while another text is being run. It still is a place of the text that the tree was read
from, under the name of that text, and what stands in front of it there is what the fault is about.

* `Parsed`: the texts that a run comes by.
* `Outcome.Points`: all faults of an outcome point at such texts.
* `faults_point_at_texts`: so do those of every run.
-/

namespace DrawLang

/-- The texts that are parsed in the run of a text, each with the name of its file: the text itself,
and if that can be read, the sources of the library, and the texts that are there under the paths of
the loads that are reached. -/
inductive Parsed (settings : Settings) (depth : Nat) (name text : String) :
    String → String → Prop where
  | program : Parsed settings depth name text name text
  | library {program : Program} {source : LibrarySource} : parse? name text = .ok program →
      source ∈ settings.library → Parsed settings depth name text source.name source.text
  | loaded {program : Program} {M : Moment} {path : Word} {bytes : List UInt8} :
      parse? name text = .ok program → Reached settings depth name program M →
      M.activity = .stmt (.load path) → settings.opener path.text = .contents bytes →
      Parsed settings depth name text path.text (Text.decode bytes)

/-- Whether every fault of an outcome that has a place points at a text that was parsed in the run,
under the name of its file. -/
def Outcome.Points (o : Outcome) (settings : Settings) (depth : Nat) (name text : String) : Prop :=
  ∀ f ∈ o.faults, ∀ place, f.position? = some place →
    ∃ parsed, Parsed settings depth name text place.file parsed ∧
      f.PointsAt settings.opener place.file parsed

theorem points_of_runText? {settings : Settings} {depth : Nat} {name text : String} {o : Outcome}
    (ho : runText? settings depth name text = some o) : o.Points settings depth name text := by
  let G (f : Fault) : Prop := ∀ place, f.position? = some place →
    ∃ parsed, Parsed settings depth name text place.file parsed ∧
      f.PointsAt settings.opener place.file parsed
  have hparsed {file parsed : String} (h : Parsed settings depth name text file parsed) :
      TextFaultsIn settings.opener G file parsed := by
    refine textFaultsIn_of_pointsAt fun f hf place hplace => ?_
    obtain ⟨before, after, happend, hposition, hfits⟩ := hf
    -- the file of the place is that of the text
    rw [hposition] at hplace
    obtain rfl := Option.some.inj hplace
    exact ⟨parsed, h, before, after, happend, hposition, hfits⟩
  have htext : TextFaultsIn settings.opener G name text := hparsed .program
  show ∀ f ∈ o.faults, G f
  unfold TextFaultsIn at htext
  unfold runText? at ho
  cases hparse : parse? name text with
  | error place =>
    rw [hparse] at htext ho
    obtain ⟨-, rfl⟩ := unexecuted?_eq_some_iff.1 ho
    intro f hf
    obtain rfl : f = .misplacedToken place := by simpa [Outcome.unexecuted] using hf
    exact htext
  | ok program =>
    rw [hparse] at htext ho
    refine faultsIn_of_run htext (fun source hsource => ?_)
      (fun M path bytes hM hload hopener => ?_) ho
    · exact hparsed (.library hparse hsource)
    · exact hparsed (.loaded hparse hM hload hopener)

/-- **Faults point at what they are about.** In every run that ends, of a text, of bytes or of what
came in their place, every fault that has a place points at a text that was parsed in that run. A
program that cannot be had is the only fault without a place. -/
theorem faults_point_at_texts (settings : Settings) (depth : Nat) (name : String) :
    (∀ text o, runText? settings depth name text = some o → o.Points settings depth name text) ∧
    (∀ bytes o, run? settings depth name (.ok bytes) = some o →
      o.Points settings depth name (Text.decode bytes)) ∧
    ∀ cause o, run? settings depth name (.error cause) = some o →
      o.faults = #[.unreadable name cause.message] := by
  refine ⟨fun text o ho => points_of_runText? ho, fun bytes o ho => points_of_runText? ho,
    fun cause o ho => ?_⟩
  obtain ⟨-, rfl⟩ := unexecuted?_eq_some_iff.1 ho
  rfl

/-- A text that defines a command with a division by zero, behind a comment that is two lines long
and has a character of two bytes. -/
def failingBytes : List UInt8 :=
  let ascii (text : String) : List UInt8 := text.toList.map fun c => UInt8.ofNat c.toNat
  ascii "/* " ++ [0xC3, 0xA9] ++ ascii "\n */ Command Fail \x7b Paper 1 / 0 \x7d"

def failingSettings : Settings :=
  { length := 1, opener := .ofList [("sub", .contents failingBytes)], library := [] }

theorem failing_points : ∃ o, runText? failingSettings 3 "main" "Load \"sub\"\nFail\nPaper Nix" =
      some o ∧
    o.faults = #[.divisionByZero ⟨"sub", 2, 29⟩, .unknownName ⟨"main", 3, 10⟩ "Nix"] ∧
    o.Points failingSettings 3 "main" "Load \"sub\"\nFail\nPaper Nix" := by
  have hfaults : (runText? failingSettings 3 "main" "Load \"sub\"\nFail\nPaper Nix").map
      (·.faults) =
        some #[.divisionByZero ⟨"sub", 2, 29⟩, .unknownName ⟨"main", 3, 10⟩ "Nix"] := by
    decide +kernel
  obtain ⟨o, ho, hlist⟩ := Option.map_eq_some_iff.1 hfaults
  exact ⟨o, ho, hlist, (faults_point_at_texts failingSettings 3 "main").1 _ o ho⟩

end DrawLang
