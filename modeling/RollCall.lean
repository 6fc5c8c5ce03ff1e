import RollCall.Main
import RollCall.Proofs.Acceptance
import RollCall.Proofs.Arguments
import RollCall.Proofs.Calls
import RollCall.Proofs.Damage
import RollCall.Proofs.Deliveries
import RollCall.Proofs.Digests
import RollCall.Proofs.Endings
import RollCall.Proofs.Evenness
import RollCall.Proofs.Events
import RollCall.Proofs.Exclusion
import RollCall.Proofs.Fairness
import RollCall.Proofs.Faultless
import RollCall.Proofs.Histories
import RollCall.Proofs.Malformed
import RollCall.Proofs.Messages
import RollCall.Proofs.ModelAnswers
import RollCall.Proofs.Places
import RollCall.Proofs.Pools
import RollCall.Proofs.Publishing
import RollCall.Proofs.Requests
import RollCall.Proofs.Resumption
import RollCall.Proofs.Retracing
import RollCall.Proofs.RoundTrip
import RollCall.Proofs.Selection
