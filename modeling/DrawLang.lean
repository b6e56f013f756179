import DrawLang.Arguments
import DrawLang.FileTree
import DrawLang.Image.Files
import DrawLang.Main
import DrawLang.Proofs.Grammar
import DrawLang.Proofs.Grammar.Soundness
import DrawLang.Proofs.Grammar.Completeness
import DrawLang.Proofs.Grammar.Completable
import DrawLang.Proofs.Grammar.Blame
import DrawLang.Proofs.Grammar.Cursor
import DrawLang.Proofs.Grammar.InPlace
import DrawLang.Proofs.Grammar.Progress
import DrawLang.Proofs.Spelling
import DrawLang.Proofs.Lexemes
import DrawLang.Proofs.Tiling
import DrawLang.Proofs.Spacing
import DrawLang.Proofs.Canonical
import DrawLang.Proofs.RoundTrip
import DrawLang.Proofs.Pointing
import DrawLang.Proofs.PlainWalk
import DrawLang.Proofs.ScopeHistory
import DrawLang.Proofs.Calls
import DrawLang.Proofs.Unwinding
import DrawLang.Proofs.Unrolling
import DrawLang.Proofs.Moments
import DrawLang.Proofs.Origins
import DrawLang.Proofs.Diagnostics
import DrawLang.Proofs.Steps
import DrawLang.Proofs.Palette
import DrawLang.Proofs.OnePass
import DrawLang.Proofs.Quantising
import DrawLang.Proofs.Animation
import DrawLang.Proofs.Scaling
import DrawLang.Proofs.Pictures
import DrawLang.Proofs.Relocation
import DrawLang.Proofs.LineComposition
import DrawLang.Proofs.Lockstep
import DrawLang.Proofs.Recording
import DrawLang.Proofs.Inclusion
import DrawLang.Proofs.Fillings
import DrawLang.Proofs.FailingLoads
import DrawLang.Proofs.Rendering
import DrawLang.Proofs.GaplessWalk
import DrawLang.Proofs.FarLines
import DrawLang.Proofs.LineBoxes
import DrawLang.Proofs.Sections
import DrawLang.Proofs.Preamble
import DrawLang.Proofs.LibraryBindings
import DrawLang.Proofs.Readings
import DrawLang.Proofs.NumberHelpers
import DrawLang.Proofs.Painting
import DrawLang.Proofs.FilledRectangles
import DrawLang.Proofs.LetterCells
import DrawLang.Proofs.Files
import DrawLang.Proofs.ImageFiles
import DrawLang.Proofs.LoadPaths
import DrawLang.Proofs.ToolRuns
import DrawLang.Proofs.Lookups
import DrawLang.Proofs.Trimming
import DrawLang.Proofs.Blanking
import DrawLang.Proofs.WordLines
