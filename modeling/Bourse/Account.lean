import Bourse.Balance
import Bourse.Offer
import Bourse.SortedMap

/-!
# `Bourse.Account` — what the exchange keeps for one user

An account owns the user's active offers and closed deals, each by ascending id. A change of the balance
that would leave the range is refused with the account's own id.
-/

namespace Bourse

/-- The account of one user. -/
structure Account where
  id : UserId
  username : String
  balance : Balance := {}
  /-- The offers of the user that rest in the book. -/
  activeOffers : SortedMap OfferId Offer := .empty
  /-- The deals in which the user was buyer, seller or both. -/
  closedDeals : SortedMap DealId Deal := .empty
deriving DecidableEq

namespace Account

/-! ## Balance -/

/-- The account with the given balance, if there is one. -/
def withBalance (account : Account) : Option Balance → Except TradeError Account
  | some balance => .ok { account with balance }
  | none => .error (.balanceOutOfRange account.id)

/-- Shifts both sums of the balance, or neither. -/
def shift (account : Account) (usd rub : Int) : Except TradeError Account :=
  account.withBalance (account.balance.shifted? usd rub)

/-- The buyer's part of a settlement: `usd` comes in, `rub` goes out. -/
def buy (account : Account) (usd rub : Int) : Except TradeError Account :=
  account.withBalance (account.balance.bought? usd rub)

/-- The seller's part of a settlement: `usd` goes out, `rub` comes in. -/
def sell (account : Account) (usd rub : Int) : Except TradeError Account :=
  account.withBalance (account.balance.sold? usd rub)

/-! ## Offers and deals -/

/-- Adds an active offer, in place of one with the same id. -/
def addOffer (account : Account) (offer : Offer) : Account :=
  { account with activeOffers := account.activeOffers.insert offer.id offer }

/-- Takes an offer out of the active ones. -/
def removeOffer (account : Account) (id : OfferId) : Account :=
  { account with activeOffers := account.activeOffers.erase id }

/-- Replaces the active offer `id`, if there is one. -/
def updateOffer (account : Account) (id : OfferId) (offer : Offer) : Account :=
  { account with activeOffers := account.activeOffers.modify id fun _ => offer }

/-- The active offer with this id. -/
def activeOffer? (account : Account) (id : OfferId) : Option Offer := account.activeOffers.get? id

/-- The offer is active. -/
def isActive (account : Account) (id : OfferId) : Bool := account.activeOffers.contains id

/-- Adds a closed deal, in place of one with the same id. -/
def addDeal (account : Account) (deal : Deal) : Account :=
  { account with closedDeals := account.closedDeals.insert deal.id deal }

end Account

end Bourse
