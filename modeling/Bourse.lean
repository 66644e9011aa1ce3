import Bourse.Main
import Bourse.Proofs.Reconciliation
import Bourse.Proofs.Refusal
import Bourse.Proofs.Preservation
import Bourse.Proofs.Listing
import Bourse.Proofs.Allotment
import Bourse.Proofs.OpenInterest
import Bourse.Proofs.History
import Bourse.Proofs.Spread
import Bourse.Proofs.Lifetime
import Bourse.Proofs.Finality
import Bourse.Proofs.Independence
import Bourse.Proofs.Chronicle
import Bourse.Proofs.Expiry
import Bourse.Proofs.Mirror
import Bourse.Proofs.RoundTrip
import Bourse.Proofs.Access
import Bourse.Proofs.Additivity
import Bourse.Proofs.Atomicity
import Bourse.Proofs.Strangers
import Bourse.Proofs.Pruning
import Bourse.Proofs.DeadPrefix
import Bourse.Proofs.Replies
import Bourse.Proofs.Buffering
import Bourse.Proofs.Tally
import Bourse.Proofs.AccountReports
import Bourse.Proofs.Credentials
import Bourse.Proofs.Consumption
