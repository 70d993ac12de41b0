import QuadSession.Blank.Fresh
import QuadSession.Blank.Label
import QuadSession.Change.Replay
import QuadSession.Dataset.Damage
import QuadSession.Iri.Grammar
import QuadSession.Session.Command
import QuadSession.Proofs.Indexed
import QuadSession.Proofs.References
import QuadSession.Proofs.Cascade
import QuadSession.Proofs.Replay
import QuadSession.Proofs.Reach
import QuadSession.Proofs.Commuting
import QuadSession.Proofs.Mutations
import QuadSession.Proofs.Baseline
import QuadSession.Proofs.Recording
import QuadSession.Proofs.Faithful
import QuadSession.Proofs.Copies
import QuadSession.Proofs.PlainSet
import QuadSession.Proofs.Rollback
import QuadSession.ChangeLog.Command
import QuadSession.ChangeLog.Numbered
import QuadSession.Proofs.Regrouping
import QuadSession.Proofs.Numbering
import QuadSession.Proofs.Segments
import QuadSession.Proofs.Strays
import QuadSession.Proofs.Configurations
import QuadSession.Proofs.InPlace
import QuadSession.Proofs.Refusals
import QuadSession.Session.InPlace
import QuadSession.Proofs.Replacing
import QuadSession.Proofs.Records
import QuadSession.Proofs.Repeating
import QuadSession.Proofs.NetChange
import QuadSession.Proofs.NormalForm
import QuadSession.Proofs.Audit
import QuadSession.Proofs.Recursion
import QuadSession.Proofs.Confinement
import QuadSession.Proofs.Ordering
import QuadSession.Proofs.Locales
