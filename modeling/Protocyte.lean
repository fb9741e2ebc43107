import Protocyte.Runtime.HashMap.History
import Protocyte.Runtime.Reader.History
import Protocyte.Runtime.UnknownFields.Agreement
import Protocyte.Runtime.UnknownFields.Canonical
import Protocyte.Runtime.UnknownFields.Edits
import Protocyte.Codec.Size
import Protocyte.Codec.FieldRuns
import Protocyte.Codec.Recursion
import Protocyte.Codec.ScalarRoundTrip
import Protocyte.Codec.PackedValues
import Protocyte.Codec.WellFormedUtf8
import Protocyte.Constants.Conformance
import Protocyte.Constants.Order
import Protocyte.Foundation.Durable
import Protocyte.ManagedEnvironment.Transaction
import Protocyte.Constants.StringLiteral
import Protocyte.Constants.FloatDefault
import Protocyte.Layout.RecursiveBoxes
import Protocyte.Paths.Distinct
import Protocyte.Descriptors.Order
import Protocyte.DeterministicMath.Power
import Protocyte.ImportScanner.Tokens
import Protocyte.ManagedEnvironment.Driver
import Protocyte.ManagedEnvironment.Run
import Protocyte.OutputCoordinator.State
import Protocyte.OutputCoordinator.Ownership
import Protocyte.Names.ClassNames
import Protocyte.Names.Distinct
import Protocyte.Descriptors.ReservedRanges
import Protocyte.Constants.RoundF32
import Protocyte.OutputPlan.RoundTrip
