import Bourse.Wire.Request
import Bourse.Wire.Response

/-!
# `Bourse.Wire.Range` — messages that their text can carry

On the wire, ids, hashes and quantities are unsigned words and prices and sums signed ones. A message
`Fits` when all its numbers do; only such a message comes back from its text.
-/

namespace Bourse

/-- Every number of the request is one that its field can hold. -/
def Request.Fits : Request → Prop
  | .register _ passwordHash => Word.Unsigned passwordHash
  | .login _ passwordHash => Word.Unsigned passwordHash
  | .balance user => Word.Unsigned user
  | .activeOffers user => Word.Unsigned user
  | .closedDeals user => Word.Unsigned user
  | .postOffer user _ price amount =>
    Word.Unsigned user ∧ Word.Signed price ∧ Word.Unsigned amount
  | .quotes user => Word.Unsigned user
  | .cancel user offer => Word.Unsigned user ∧ Word.Unsigned offer
  | .deposit user _ amount => Word.Unsigned user ∧ Word.Unsigned amount

/-- Every number of the line is one that its field can hold. -/
def OfferLine.Fits (entry : OfferLine) : Prop :=
  Word.Unsigned entry.offer ∧ Word.Signed entry.price ∧ Word.Unsigned entry.amount

/-- Every number of the line is one that its field can hold. -/
def DealLine.Fits (entry : DealLine) : Prop :=
  Word.Signed entry.price ∧ Word.Unsigned entry.amount

/-- Every number of the response is one that its field can hold, and there is no spread, which is not
    read back. -/
def Response.Fits : Response → Prop
  | .registration _ user => ∀ u ∈ user, Word.Unsigned u
  | .login _ user => ∀ u ∈ user, Word.Unsigned u
  | .balance usd rub => Word.Signed usd ∧ Word.Signed rub
  | .activeOffers buy sell => (∀ e ∈ buy, e.Fits) ∧ ∀ e ∈ sell, e.Fits
  | .closedDeals buy sell both =>
    (∀ e ∈ buy, e.Fits) ∧ (∀ e ∈ sell, e.Fits) ∧ ∀ e ∈ both, e.Fits
  | .quotes last ask bid spread =>
    (∀ p ∈ last, Word.Signed p) ∧ (∀ p ∈ ask, Word.Signed p) ∧ (∀ p ∈ bid, Word.Signed p) ∧
      spread = none
  | .cancel _ => True
  | .postOffer offer => Word.Unsigned offer
  | .deposit usd rub => Word.Signed usd ∧ Word.Signed rub
  | .error _ => True

end Bourse
