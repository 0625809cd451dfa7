import Xdr.Config.Json
import Xdr.Config.Wire
import Xdr.FixedOpaque
import Xdr.Message
import Xdr.Session
import Xdr.Proofs.Acceptance
import Xdr.Proofs.Layout
import Xdr.Proofs.References
import Xdr.Proofs.Acceptance.Items
import Xdr.Proofs.Stream.Layout
import Xdr.Proofs.Stream.Encoding
import Xdr.Proofs.Stream.Decoding
import Xdr.Proofs.Acceptance.Filters
import Xdr.Proofs.Runs
import Xdr.Proofs.Stream.RoundTrip
import Xdr.Proofs.Model.Layout
import Xdr.Proofs.Model.Encoding
import Xdr.Proofs.Model.Acceptance
import Xdr.Proofs.Model.Decoding
import Xdr.Proofs.Model.RoundTrip
import Xdr.Proofs.Stream.Canonical
import Xdr.Proofs.Model.Canonical
import Xdr.Proofs.Canonical
import Xdr.Proofs.Faults
import Xdr.Proofs.Stream.Faults
import Xdr.Proofs.Model.Faults
import Xdr.Proofs.Poison
import Xdr.Proofs.Refusal
import Xdr.Proofs.Stream.Refusal
import Xdr.Proofs.Frozen
import Xdr.Proofs.Model.Refusal
import Xdr.Proofs.Delivery
import Xdr.Proofs.Delivery.Encoding
import Xdr.Proofs.Delivery.Reading
import Xdr.Proofs.Agreement
import Xdr.Proofs.Stream.Budget
import Xdr.Proofs.Model.Budget
import Xdr.Proofs.Delivery.Decoding
import Xdr.Proofs.Comparison
import Xdr.Proofs.Delivery.Consumption
import Xdr.Proofs.Model.Narrowing
import Xdr.Proofs.Narrowing
import Xdr.Proofs.Model.Streamed
import Xdr.Proofs.Stream.Standard
import Xdr.Proofs.Layers
import Xdr.Proofs.Alignment
import Xdr.Proofs.Stream.Leaves
import Xdr.Proofs.Chunks
import Xdr.Proofs.Destination
import Xdr.Proofs.Stream.Targets
import Xdr.Proofs.Stops
import Xdr.Proofs.Stream.Reach
import Xdr.Proofs.Stream.Remains
import Xdr.Proofs.Charges
import Xdr.Proofs.Growth
import Xdr.Proofs.Stream.Charges
import Xdr.Proofs.Sizes
import Xdr.Proofs.InFull
import Xdr.Proofs.Serving
import Xdr.Proofs.Fetches
import Xdr.Proofs.Stream.Fetches
import Xdr.Proofs.Model.Fetches
import Xdr.Proofs.Model.Leaves
import Xdr.Proofs.Calls
import Xdr.Proofs.Lengths
import Xdr.Proofs.Stream.Lengths
import Xdr.Proofs.Model.Lengths
import Xdr.Proofs.Log
import Xdr.Proofs.Access
import Xdr.Proofs.Model.Access
import Xdr.Proofs.Json
import Xdr.Proofs.Conversions
