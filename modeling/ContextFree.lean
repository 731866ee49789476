import ContextFree.Derivation
import ContextFree.Grammar.Consistent
import ContextFree.Listing
import ContextFree.Normal.Conversion
import ContextFree.Normal.Form
import ContextFree.Operation
import ContextFree.Proofs.Attainability
import ContextFree.Proofs.Consistency
import ContextFree.Proofs.ConsistentEdits
import ContextFree.Proofs.Conversions
import ContextFree.Proofs.Copies
import ContextFree.Proofs.DeadEnds
import ContextFree.Proofs.DeclarationOrder
import ContextFree.Proofs.DerivationLengths
import ContextFree.Proofs.DiscoveryOrder
import ContextFree.Proofs.Eliminations
import ContextFree.Proofs.EpsilonErasure
import ContextFree.Proofs.FittingParts
import ContextFree.Proofs.FreshSymbols
import ContextFree.Proofs.LeavingOut
import ContextFree.Proofs.LivingRules
import ContextFree.Proofs.NameSearch
import ContextFree.Proofs.NewNames
import ContextFree.Proofs.NormalShapes
import ContextFree.Proofs.PlainLists
import ContextFree.Proofs.Pruning
import ContextFree.Proofs.QuotedKeys
import ContextFree.Proofs.ReadingBack
import ContextFree.Proofs.Refusals
import ContextFree.Proofs.Renaming
import ContextFree.Proofs.Rounds
import ContextFree.Proofs.RuleByRule
import ContextFree.Proofs.RuleSplitting
import ContextFree.Proofs.Runs
import ContextFree.Proofs.Sightings
import ContextFree.Proofs.SplitChains
import ContextFree.Proofs.StageConditions
import ContextFree.Proofs.StageFrames
import ContextFree.Proofs.StageResults
import ContextFree.Proofs.StartCopies
import ContextFree.Proofs.TerminalIsolation
import ContextFree.Proofs.UnitChains
import ContextFree.Proofs.Walks
import ContextFree.Proofs.WrittenLines
import ContextFree.Proofs.Yields
import ContextFree.Proofs.Variants
import ContextFree.Normal.Target
import ContextFree.Proofs.MissingGrammars
