import Mandate.Access
import Mandate.Delegation.Archive
import Mandate.Delegation.Draft
import Mandate.Json
import Mandate.Schema.Record
import Mandate.Proofs.Cache
import Mandate.Proofs.Window
import Mandate.Proofs.Citation
import Mandate.Proofs.Match
import Mandate.Proofs.Walk
import Mandate.Proofs.Steps
import Mandate.Proofs.Soundness
import Mandate.Proofs.Acyclic
import Mandate.Proofs.Depth
import Mandate.Proofs.History
import Mandate.Proofs.Completeness
import Mandate.Proofs.Union
import Mandate.Proofs.Coverage
import Mandate.Proofs.Segments
import Mandate.Proofs.Ipld
import Mandate.Proofs.Line
import Mandate.Proofs.Escalation
import Mandate.Proofs.Attenuation
import Mandate.Proofs.Binary64
import Mandate.Proofs.Written
import Mandate.Proofs.Limit
import Mandate.Proofs.Reading
import Mandate.Proofs.Head
import Mandate.Proofs.Link
import Mandate.Proofs.Value
import Mandate.Proofs.Did
import Mandate.Proofs.Payload
import Mandate.Proofs.Canonical
import Mandate.Proofs.Built
import Mandate.Proofs.Archive
import Mandate.Proofs.Locator
import Mandate.Proofs.Below
import Mandate.Proofs.Wildcard
import Mandate.Proofs.Leaves
import Mandate.Proofs.Accounting
import Mandate.Proofs.Denial
import Mandate.Proofs.Bare
import Mandate.Proofs.Store
import Mandate.Proofs.Attached
import Mandate.Proofs.Supply
import Mandate.Proofs.Representation
import Mandate.Proofs.Valid
import Mandate.Proofs.Lifetime
import Mandate.Proofs.Pruned
import Mandate.Proofs.Parts
import Mandate.Proofs.Derived
import Mandate.Proofs.Report
import Mandate.Proofs.FirstCitation
import Mandate.Proofs.Chain
import Mandate.Proofs.Blame
import Mandate.Proofs.Together
import Mandate.Proofs.Resolved
import Mandate.Proofs.Base58
import Mandate.Proofs.Key
import Mandate.Proofs.Finite
import Mandate.Proofs.Received
import Mandate.Proofs.Obtained
import Mandate.Proofs.Insertion
import Mandate.Proofs.Timeline
import Mandate.Proofs.Language
import Mandate.Proofs.Caveats
import Mandate.Proofs.Declared
import Mandate.Proofs.Lines
import Mandate.Proofs.Message
import Mandate.Proofs.Outline
import Mandate.Proofs.Description
