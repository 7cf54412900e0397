import HttpStream.Bench.Sample
import HttpStream.Session
import HttpStream.Proofs.Bodies
import HttpStream.Proofs.BodyFraming
import HttpStream.Proofs.Budget
import HttpStream.Proofs.ChunkedReadings
import HttpStream.Proofs.CodingLines
import HttpStream.Proofs.FieldSections
import HttpStream.Proofs.Fragments
import HttpStream.Proofs.Grammar
import HttpStream.Proofs.HeldText
import HttpStream.Proofs.HostFields
import HttpStream.Proofs.HostForms
import HttpStream.Proofs.Hosts
import HttpStream.Proofs.Insertions
import HttpStream.Proofs.KnownTokens
import HttpStream.Proofs.LastLengths
import HttpStream.Proofs.LengthLines
import HttpStream.Proofs.Lifetime
import HttpStream.Proofs.LineCuts
import HttpStream.Proofs.RecallLife
import HttpStream.Proofs.RememberedLines
import HttpStream.Proofs.Renewal
import HttpStream.Proofs.Resumption
import HttpStream.Proofs.RoundTrip
import HttpStream.Proofs.Safety
import HttpStream.Proofs.StartLineEnds
import HttpStream.Proofs.StatusLines
import HttpStream.Proofs.TrailerFields
import HttpStream.Proofs.Transparency
import HttpStream.Proofs.Truncation
