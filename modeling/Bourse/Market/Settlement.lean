import Bourse.Market

/-!
# `Bourse.Market.Settlement` — what a deal does to the accounts

The buyer gains the quantity and pays the notional, the seller the reverse, so each currency keeps its
total. The seller is looked at before the buyer's balance changes. A deal of a user with themselves
moves no money. A settled deal is entered with both parties and reported to the store.
-/

namespace Bourse

namespace Ledger

/-- Moves the money of a deal between its two parties. -/
def transfer (ledger : Ledger) (deal : Deal) : Attempt Ledger Unit :=
  match deal.notional? with
  | none => (.error (.balanceOutOfRange deal.buyer), ledger)
  | some cost =>
    match ledger.get? deal.seller with
    | none => (.error (.unknownUser deal.seller), ledger)
    | some seller =>
      -- looked at now, so that a refusal finds the buyer's balance unchanged
      if (seller.balance.sold? deal.quantity cost).isNone then
        (.error (.balanceOutOfRange deal.seller), ledger)
      else
        (ledger.update deal.buyer (·.buy deal.quantity cost)).andThen fun _ ledger =>
          ledger.update deal.seller (·.sell deal.quantity cost)

/-- Enters a deal with its buyer and its seller. -/
def enter (ledger : Ledger) (deal : Deal) : Attempt Ledger Unit :=
  (ledger.update deal.buyer fun account => .ok (account.addDeal deal)).andThen fun _ ledger =>
    ledger.update deal.seller fun account => .ok (account.addDeal deal)

/-- Moves the money, if two users trade, and enters the deal. -/
def settle (ledger : Ledger) (deal : Deal) : Attempt Ledger Unit :=
  if deal.isSelfTrade then ledger.enter deal
  else (ledger.transfer deal).andThen fun _ ledger => ledger.enter deal

end Ledger

namespace Market

variable {σ : Type} [RecordStore σ]

/-- Settles a deal and reports it to the store. -/
def settle (market : Market σ) (deal : Deal) : Attempt (Market σ) Unit :=
  match market.accounts.settle deal with
  | (.error cause, accounts) => (.error cause, { market with accounts })
  | (.ok (), accounts) =>
    (.ok (), { market with accounts, store := RecordStore.notify market.store deal.toRecord })

/-- A settlement leaves the books alone. -/
@[simp] theorem books_settle (market : Market σ) (deal : Deal) :
    (market.settle deal).2.books = market.books := by
  unfold settle
  split <;> rfl

end Market

end Bourse
