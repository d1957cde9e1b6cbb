import GrammarDoc.Bench
import GrammarDoc.Session
import GrammarDoc.Proofs.Postures
import GrammarDoc.Proofs.Concord
import GrammarDoc.Proofs.Build.Results
import GrammarDoc.Proofs.Acceptance
import GrammarDoc.Proofs.Untouched
import GrammarDoc.Proofs.Extension
import GrammarDoc.Proofs.BestEffort
import GrammarDoc.Proofs.Closure
import GrammarDoc.Proofs.Equality
import GrammarDoc.Proofs.RoundTrip
import GrammarDoc.Proofs.Copies
import GrammarDoc.Proofs.EmptyExtension
import GrammarDoc.Proofs.Interference
import GrammarDoc.Proofs.Persistence
import GrammarDoc.Proofs.Originals
import GrammarDoc.Proofs.Rebuilding
import GrammarDoc.Proofs.Build.Renaming
import GrammarDoc.Proofs.RuleOrder
import GrammarDoc.Proofs.Composition
import GrammarDoc.Proofs.Consistency
import GrammarDoc.Proofs.Attribution
import GrammarDoc.Proofs.Policies
import GrammarDoc.Proofs.Build.Likewise
import GrammarDoc.Proofs.Spellings
import GrammarDoc.Proofs.Styles
import GrammarDoc.Proofs.Interchange
import GrammarDoc.Proofs.Build.Reporting
import GrammarDoc.Proofs.NameSections
import GrammarDoc.Proofs.ExternalForms
import GrammarDoc.Proofs.Resolution
import GrammarDoc.Proofs.Definitions
import GrammarDoc.Proofs.PrecedenceGroups
import GrammarDoc.Proofs.FixedPoints
import GrammarDoc.Proofs.Reading
import GrammarDoc.Proofs.Refusals
import GrammarDoc.Proofs.Reports
import GrammarDoc.Proofs.References
import GrammarDoc.Proofs.Calls
import GrammarDoc.Proofs.Guards
import GrammarDoc.Proofs.Symbols
