import Bourse.Account
import Bourse.Attempt
import Bourse.Book
import Bourse.Numbering
import Bourse.Store

/-!
# `Bourse.Market` — the state of the market and its accounts

Offers are owned by their owner's account; the two books only name them. An entry of a book is live as
long as its offer is active in its owner's account.

## Contents
- **Ledger.** The accounts by user, `activeOffer?` behind an entry, and `update` of one account.
- **Market.** The state, `book` / `withBook`, and the operations on accounts: `register`, `deposit`,
  `cancel` and the queries.
-/

namespace Bourse

/-! ## The accounts -/

/-- The accounts by user. -/
abbrev Ledger := SortedMap UserId Account

namespace Ledger

/-- The account of a user. -/
def account (ledger : Ledger) (user : UserId) : Except TradeError Account :=
  match ledger.get? user with
  | none => .error (.unknownUser user)
  | some account => .ok account

/-- The active offer that an entry names. -/
def activeOffer? (ledger : Ledger) (entry : QueueEntry) : Option Offer :=
  (ledger.get? entry.owner).bind (·.activeOffer? entry.offer)

/-- The offer of the entry is active. -/
def isLive (ledger : Ledger) (entry : QueueEntry) : Bool := (ledger.activeOffer? entry).isSome

/-- Changes one account, unless there is none or the change is refused. -/
def update (ledger : Ledger) (user : UserId) (change : Account → Except TradeError Account) :
    Attempt Ledger Unit :=
  match ledger.get? user with
  | none => (.error (.unknownUser user), ledger)
  | some account =>
    match change account with
    | .error e => (.error e, ledger)
    | .ok changed => (.ok (), ledger.modify user fun _ => changed)

end Ledger

/-! ## The market -/

/-- A market for one currency in terms of another, which reports to a store of type `σ`. -/
structure Market (σ : Type) where
  accounts : Ledger := .empty
  books : Books := {}
  /-- The price of the last deal. -/
  quote : Option Price := none
  userIds : Numbering := {}
  offerIds : Numbering := {}
  dealIds : Numbering := {}
  store : σ
deriving DecidableEq

namespace Market

variable {σ : Type}

/-- The book of one side. -/
def book (market : Market σ) (side : Side) : Book side := market.books.get side

/-- The market with the book of one side replaced. -/
def withBook (market : Market σ) {side : Side} (book : Book side) : Market σ :=
  { market with books := market.books.set book }

/-- The number of users. -/
def userCount (market : Market σ) : Nat := market.accounts.size

/-! ## Operations on accounts -/

/-- Opens an account without money. Several accounts may have the same name. -/
def register (market : Market σ) (username : String) : UserId × Market σ :=
  let id := market.userIds.next
  (id, { market with
    userIds := market.userIds.advance
    accounts := market.accounts.insert id { id, username } })

/-- Adds money to an account. An amount out of range is refused before the user is looked up. -/
def deposit (market : Market σ) (user : UserId) (currency : Currency) (amount : Nat) :
    Attempt (Market σ) Unit :=
  if Amount.InRange amount then
    let attempt := market.accounts.update user fun account =>
      match currency with
      | .usd => account.shift amount 0
      | .rub => account.shift 0 amount
    (attempt.1, { market with accounts := attempt.2 })
  else (.error (.balanceOutOfRange user), market)

/-- Withdraws an active offer of the user; tells whether there was one with this id. Its entry stays in
    the book and has expired. -/
def cancel (market : Market σ) (user : UserId) (offer : OfferId) :
    Attempt (Market σ) Bool :=
  match market.accounts.get? user with
  | none => (.error (.unknownUser user), market)
  | some account =>
    (.ok (account.isActive offer),
      { market with accounts := market.accounts.modify user (·.removeOffer offer) })

/-! ## Queries -/

/-- The account of a user. -/
def account (market : Market σ) (user : UserId) : Except TradeError Account :=
  market.accounts.account user

/-- The balance of a user. -/
def balance (market : Market σ) (user : UserId) : Except TradeError Balance :=
  (market.account user).map (·.balance)

/-- The active offers of a user, by ascending id. -/
def activeOffers (market : Market σ) (user : UserId) : Except TradeError (List Offer) :=
  (market.account user).map (·.activeOffers.values)

/-- The closed deals of a user, by ascending id. -/
def closedDeals (market : Market σ) (user : UserId) : Except TradeError (List Deal) :=
  (market.account user).map (·.closedDeals.values)

end Market

end Bourse
