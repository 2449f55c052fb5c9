import Crossing.Config.Reading
import Crossing.Proofs.LiveHandles
import Crossing.Proofs.Transparency
import Crossing.Proofs.Batches
import Crossing.Proofs.KeyHistories
import Crossing.Proofs.Failures
import Crossing.Proofs.DataTexts
import Crossing.Proofs.Quiet
import Crossing.Proofs.Exchanges
import Crossing.Proofs.CallForms
import Crossing.Proofs.Building
import Crossing.Proofs.Crossings
import Crossing.Proofs.Renderings
import Crossing.Proofs.Returns
import Crossing.Proofs.WrappedValues
import Crossing.Proofs.Confinement
import Crossing.Proofs.DynamicBindings
import Crossing.Proofs.Literals
import Crossing.Proofs.BufferScopes
import Crossing.Proofs.ReservedNames
import Crossing.Proofs.LookupLaw
import Crossing.Proofs.NamedCalls
import Crossing.Proofs.NumberCache
import Crossing.Proofs.PrintedObjects
import Crossing.Proofs.Successes
import Crossing.Proofs.Services
import Crossing.Proofs.Splices
import Crossing.Proofs.Assignments
import Crossing.Proofs.Addresses
import Crossing.Proofs.Continuations
import Crossing.Proofs.JoinedTexts
import Crossing.Proofs.StructuralEquality
import Crossing.Proofs.Tables
import Crossing.Proofs.PlainData
import Crossing.Proofs.Functions
import Crossing.Proofs.Passages
import Crossing.Proofs.Wrappings
import Crossing.Proofs.BoundVariables
import Crossing.Proofs.Calculations
import Crossing.Proofs.CurrentBuffers
import Crossing.Proofs.TemporaryBuffers
import Crossing.Proofs.LiveBuffers
import Crossing.Proofs.EscapedTexts
import Crossing.Proofs.Applications
import Crossing.Proofs.KeyedFields
import Crossing.Proofs.SequentialLets
import Crossing.Proofs.Chains
import Crossing.Proofs.KeptObjects
import Crossing.Proofs.Nesting
import Crossing.Proofs.ListAssignments
import Crossing.Proofs.TableForms
