import ContextFree.Chain.Drawing
import ContextFree.Chain.Elimination
import ContextFree.Closure.Stateful
import ContextFree.Grammar.Samples
import ContextFree.Grammar.Text
import ContextFree.Language.Saturation
import ContextFree.Nullable.Variants
import ContextFree.Rewriting.Queue
import ContextFree.Rewriting.Search
import ContextFree.Session.Run
import ContextFree.Proofs.SetSize
import ContextFree.Proofs.Derivation
import ContextFree.Proofs.Rounds
import ContextFree.Proofs.Stopping
import ContextFree.Proofs.LeastFixedPoint
import ContextFree.Proofs.Yield
import ContextFree.Proofs.NullableNames
import ContextFree.Proofs.ChainPath
import ContextFree.Proofs.ChainGraph
import ContextFree.Proofs.WordTable
import ContextFree.Proofs.Search
import ContextFree.Proofs.QueueSearch
import ContextFree.Proofs.Variants
import ContextFree.Proofs.VariantCount
import ContextFree.Proofs.EmptyRuleElimination
import ContextFree.Proofs.ChainRuleElimination
import ContextFree.Proofs.PassOrder
import ContextFree.Proofs.Build
import ContextFree.Proofs.Declared
import ContextFree.Proofs.ListedNames
import ContextFree.Proofs.MoreRules
import ContextFree.Proofs.Membership
import ContextFree.Proofs.ChainDistance
import ContextFree.Proofs.DerivationLength
import ContextFree.Proofs.NullableRounds
import ContextFree.Proofs.RoundEquation
import ContextFree.Proofs.Faultless
import ContextFree.Proofs.TableFilling
import ContextFree.Proofs.GivenNames
import ContextFree.Proofs.GivenPairs
import ContextFree.Proofs.AddedRules
import ContextFree.Proofs.NormalForms
import ContextFree.Proofs.PassCount
import ContextFree.Proofs.UnlimitedSearch
import ContextFree.Proofs.Reports
import ContextFree.Proofs.DashedEdges
import ContextFree.Proofs.GrammarText
import ContextFree.Proofs.Occurrences
import ContextFree.Proofs.PairJoin
