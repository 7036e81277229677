import SchemaCompiler.Options.FromToml
import SchemaCompiler.Script.Definition
import SchemaCompiler.Validator
import SchemaCompiler.Json.Reader
import SchemaCompiler.Proofs.Collecting
import SchemaCompiler.Proofs.FirstFailure
import SchemaCompiler.Proofs.Policies
import SchemaCompiler.Proofs.Courses
import SchemaCompiler.Proofs.Verdicts
import SchemaCompiler.Proofs.Visits
import SchemaCompiler.Proofs.Placements
import SchemaCompiler.Proofs.Snapshots
import SchemaCompiler.Proofs.AbsentValues
import SchemaCompiler.Proofs.Closed
import SchemaCompiler.Proofs.Expansions
import SchemaCompiler.Proofs.Origins
import SchemaCompiler.Proofs.Endings
import SchemaCompiler.Proofs.Passages
import SchemaCompiler.Proofs.Arguments
import SchemaCompiler.Proofs.RecordLocations
import SchemaCompiler.Proofs.Writings
import SchemaCompiler.Proofs.Quiet
import SchemaCompiler.Proofs.Ledger
import SchemaCompiler.Proofs.Logging
import SchemaCompiler.Proofs.SyncRules
import SchemaCompiler.Proofs.Scripts
import SchemaCompiler.Proofs.References
import SchemaCompiler.Proofs.DeadCode
import SchemaCompiler.Proofs.InstructionTrees
import SchemaCompiler.Proofs.Scopes
import SchemaCompiler.Proofs.Isolation
import SchemaCompiler.Proofs.Encounters
import SchemaCompiler.Proofs.PresentValues
import SchemaCompiler.Proofs.Registry
import SchemaCompiler.Proofs.Grammar
import SchemaCompiler.Proofs.Outcomes
import SchemaCompiler.Proofs.Muting
import SchemaCompiler.Proofs.Wording
import SchemaCompiler.Proofs.Whereabouts
import SchemaCompiler.Proofs.DataPointers
import SchemaCompiler.Proofs.Replacements
import SchemaCompiler.Proofs.Primitives
import SchemaCompiler.Proofs.MadeNames
import SchemaCompiler.Proofs.DeepEquality
import SchemaCompiler.Proofs.ExactIntegers
import SchemaCompiler.Proofs.Messages
import SchemaCompiler.Proofs.ReferenceTokens
import SchemaCompiler.Proofs.PathPointers
