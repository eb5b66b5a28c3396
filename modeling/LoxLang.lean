import LoxLang.Grammar.Stepper
import LoxLang.Main
import LoxLang.Number.Numeral
import LoxLang.Run.Division
import LoxLang.Scope.Forest
import LoxLang.Proofs.Grammar.Fuel
import LoxLang.Proofs.Grammar.Completeness
import LoxLang.Proofs.Grammar.Acceptance
import LoxLang.Proofs.Source.Segmentation
import LoxLang.Proofs.Grammar.WellFormed
import LoxLang.Proofs.Run.Safety
import LoxLang.Proofs.Number.Nearest
import LoxLang.Proofs.Number.Shortest
import LoxLang.Proofs.Number.Bits
import LoxLang.Proofs.Number.Spelling
import LoxLang.Proofs.Json.RoundTrip
import LoxLang.Proofs.Tree.RoundTrip
import LoxLang.Proofs.Tree.File
import LoxLang.Proofs.Command.Disk
import LoxLang.Proofs.Command.Path
import LoxLang.Proofs.Command.Options
import LoxLang.Proofs.Run.Report
import LoxLang.Proofs.Command.SavedTree
import LoxLang.Proofs.Grammar.Relocation
import LoxLang.Proofs.Grammar.Sequence
import LoxLang.Proofs.Grammar.Blame
import LoxLang.Proofs.Grammar.Simple
import LoxLang.Proofs.Grammar.Recovery
import LoxLang.Proofs.Grammar.Containment
import LoxLang.Proofs.Run.FurtherDown
import LoxLang.Proofs.Run.Piecewise
import LoxLang.Proofs.Grammar.Salvage
import LoxLang.Proofs.Grammar.Termination
import LoxLang.Proofs.Run.Machine
import LoxLang.Proofs.Run.Resolution
import LoxLang.Proofs.Run.Renaming
import LoxLang.Proofs.Run.Frame
import LoxLang.Proofs.Run.Tracing
import LoxLang.Proofs.Tree.Reload
import LoxLang.Proofs.Source.Rendering
import LoxLang.Proofs.Run.Blanking
import LoxLang.Proofs.Command.ExitStatus
import LoxLang.Proofs.Tree.Overflow
import LoxLang.Proofs.Command.Unloadable
import LoxLang.Proofs.Grammar.Cascade
import LoxLang.Proofs.Run.Parentheses
import LoxLang.Proofs.Run.Transparency
import LoxLang.Proofs.Scope.Ownership
import LoxLang.Proofs.Number.Comparison
import LoxLang.Proofs.Value.Congruence
import LoxLang.Proofs.Number.Numeral
import LoxLang.Proofs.Value.Printing
