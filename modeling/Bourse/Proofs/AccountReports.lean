import Bourse.Proofs.Reconciliation
import Bourse.Proofs.Reports

/-!
# `Bourse.Proofs.AccountReports` — what users are told of their accounts

The report of a user's deals takes every deal with another user that is not a purchase for a sale, whoever
sold it. It is right because an account lists no deal but its user's own: in every reachable state there is
one row of deals of which all accounts list their part (`Exchange.Reachable.chronicled`). So the lists of a
report are the parts of what the account lists, each line in its place and in order.
-/

namespace Bourse

/-! ## Deals by the user's part in them -/

namespace Deal

/-- The deals in which the user bought from themselves. -/
def ownBy (user : UserId) (deals : List Deal) : List Deal :=
  deals.filter fun deal => deal.buyer = user && deal.seller = user

theorem boughtBy_eq (user : UserId) (deals : List Deal) :
    boughtBy user deals =
      (deals.filter fun deal => !deal.isSelfTrade).filter (·.buyer = user) := by
  unfold boughtBy isSelfTrade
  rw [List.filter_filter]
  refine List.filter_congr fun deal _ => ?_
  grind

/-- What is neither a purchase nor a deal with themselves is a sale, if the user was a party of it. -/
theorem soldBy_eq {user : UserId} {deals : List Deal} (h : ∀ deal ∈ deals, deal.involves user = true) :
    soldBy user deals =
      (deals.filter fun deal => !deal.isSelfTrade).filter (·.buyer ≠ user) := by
  unfold soldBy isSelfTrade
  rw [List.filter_filter]
  refine List.filter_congr fun deal hdeal => ?_
  have hparty := involves_iff.mp (h deal hdeal)
  grind

theorem ownBy_eq {user : UserId} {deals : List Deal} (h : ∀ deal ∈ deals, deal.involves user = true) :
    ownBy user deals = deals.filter (·.isSelfTrade) := by
  unfold ownBy isSelfTrade
  refine List.filter_congr fun deal hdeal => ?_
  have hparty := involves_iff.mp (h deal hdeal)
  grind

/-- **A user's deals are purchases, sales, and deals with themselves**, each of one kind only. -/
theorem perm_parts {user : UserId} {deals : List Deal} (h : ∀ deal ∈ deals, deal.involves user = true) :
    (boughtBy user deals ++ soldBy user deals ++ ownBy user deals).Perm deals := by
  have hothers : (boughtBy user deals ++ soldBy user deals).Perm
      (deals.filter fun deal => !deal.isSelfTrade) := by
    rw [boughtBy_eq, soldBy_eq h]
    simp only [ne_eq, decide_not]
    exact List.filter_append_perm _ _
  rw [ownBy_eq h]
  exact (hothers.append_right _).trans
    (List.perm_append_comm.trans (List.filter_append_perm (·.isSelfTrade) deals))

end Deal

/-- Every offer is on one side. -/
theorem Offer.perm_sides (offers : List Offer) :
    (offers.filter (·.side = .buy) ++ offers.filter (·.side = .sell)).Perm offers := by
  have hsell : offers.filter (·.side = .sell) =
      offers.filter fun offer => !decide (offer.side = .buy) :=
    List.filter_congr fun offer _ => by cases offer.side <;> rfl
  rw [hsell]
  exact List.filter_append_perm _ _

/-- The report of deals that the user was a party of. -/
theorem Response.ofDeals_eq {user : UserId} {deals : List Deal}
    (h : ∀ deal ∈ deals, deal.involves user = true) :
    Response.ofDeals user deals =
      .closedDeals ((Deal.boughtBy user deals).map (·.toLine)) ((Deal.soldBy user deals).map (·.toLine))
        ((Deal.ownBy user deals).map (·.toLine)) := by
  rw [Deal.boughtBy_eq, Deal.soldBy_eq h, Deal.ownBy_eq h]
  rfl

/-! ## Chronicled exchanges -/

variable {σ : Type} [RecordStore σ]

theorem Market.Reachable.chronicled {market : Market σ} (h : market.Reachable) :
    ∃ deals, market.Chronicled deals :=
  h.invariant (P := fun market => ∃ deals, market.Chronicled deals)
    (fun hstart => ⟨[], chronicled_start hstart⟩)
    fun h ⟨_, hdeals⟩ operation => ⟨_, hdeals.apply h.sound operation⟩

namespace Exchange

theorem Step.chronicled {exchange after : Exchange σ} {rows : List Record} (h : exchange.Step rows after)
    (hs : exchange.market.Sound) {deals : List Deal} (hdeals : exchange.market.Chronicled deals) :
    ∃ more, after.market.Chronicled (deals ++ more) := by
  cases h with
  | quiet => exact ⟨[], hdeals.keep hdeals.accounts rfl rfl⟩
  | market operation => exact ⟨_, hdeals.apply hs operation⟩
  | register username passwordHash =>
    exact ⟨[], hdeals.keep (hdeals.accounts.insert_new hs.next_user_new username) rfl rfl⟩

/-- **In every reachable state there is a row of deals of which every account lists its part.** -/
theorem Reachable.chronicled {exchange : Exchange σ} (h : exchange.Reachable) :
    ∃ deals, exchange.market.Chronicled deals := by
  induction h with
  | start hs => exact hs.chronicled
  | apply hreachable event ih =>
    obtain ⟨deals, hdeals⟩ := ih
    obtain ⟨more, hmore⟩ := (step_apply _ event).chronicled hreachable.sound hdeals
    exact ⟨deals ++ more, hmore⟩

/-! ## Reports -/

theorem handle_closedDeals {exchange : Exchange σ} {user : UserId} {account : Account}
    (hget : exchange.market.account user = .ok account) :
    exchange.handle (.closedDeals user) = (.ofDeals user account.closedDeals.values, exchange) := by
  unfold handle perform Market.closedDeals
  dsimp only
  rw [hget]
  rfl

theorem handle_activeOffers {exchange : Exchange σ} {user : UserId} {account : Account}
    (hget : exchange.market.account user = .ok account) :
    exchange.handle (.activeOffers user) = (.ofOffers account.activeOffers.values, exchange) := by
  unfold handle perform Market.activeOffers
  dsimp only
  rw [hget]
  rfl

/-- **Reports of accounts are lossless.** In every reachable state, the report of a user's deals lists each
    deal that the user's account has closed once, by ascending id: among the purchases if the user bought from
    somebody else, among the sales if the user sold to somebody else, and among the rest if the user was both.
    The account has closed those of the deals in all accounts that the user was a party of. The report of the
    user's offers lists each active one once, by ascending id, under its side, with its price and with what is
    left of it, which is something. -/
theorem Reachable.reports_lossless {exchange : Exchange σ} (h : exchange.Reachable) {user : UserId}
    {account : Account} (hget : exchange.market.accounts.get? user = some account) :
    let deals := account.closedDeals.values
    let bought := deals.filter fun deal => deal.buyer = user && deal.seller ≠ user
    let sold := deals.filter fun deal => deal.seller = user && deal.buyer ≠ user
    let own := deals.filter fun deal => deal.buyer = user && deal.seller = user
    let offers := account.activeOffers.values
    let buying := offers.filter (·.side = .buy)
    let selling := offers.filter (·.side = .sell)
    exchange.handle (.closedDeals user) =
        (.closedDeals (bought.map fun deal => ⟨deal.price, deal.quantity⟩)
          (sold.map fun deal => ⟨deal.price, deal.quantity⟩)
          (own.map fun deal => ⟨deal.price, deal.quantity⟩), exchange) ∧
      (bought ++ sold ++ own).Perm deals ∧
      bought.Pairwise (·.id < ·.id) ∧ sold.Pairwise (·.id < ·.id) ∧ own.Pairwise (·.id < ·.id) ∧
      (∀ other account', exchange.market.accounts.get? other = some account' →
        ∀ deal ∈ account'.closedDeals.values,
          deal ∈ deals ↔ user = deal.buyer ∨ user = deal.seller) ∧
      exchange.handle (.activeOffers user) =
        (.activeOffers (buying.map fun offer => ⟨offer.id, offer.price, offer.remaining⟩)
          (selling.map fun offer => ⟨offer.id, offer.price, offer.remaining⟩), exchange) ∧
      (buying ++ selling).Perm offers ∧
      buying.Pairwise (·.id < ·.id) ∧ selling.Pairwise (·.id < ·.id) ∧
      ∀ offer ∈ offers, offer.owner = user ∧ 0 < offer.remaining := by
  intro deals bought sold own offers buying selling
  have haccount : exchange.market.account user = .ok account := by
    unfold Market.account Ledger.account
    rw [hget]
  obtain ⟨history, hhistory⟩ := h.chronicled
  have hdeals : deals = history.filter (·.involves user) := hhistory.accounts.values_eq hget
  have hparty : ∀ deal ∈ deals, deal.involves user = true := by
    intro deal hdeal
    rw [hdeals] at hdeal
    exact (List.mem_filter.mp hdeal).2
  have hordered : deals.Pairwise (·.id < ·.id) := by
    rw [hdeals]
    exact hhistory.ordered.filter _
  have hresting : ∀ {id offer}, account.activeOffers.get? id = some offer → offer.Resting user id :=
    (h.sound.accounts hget).resting
  have hoffers : offers.Pairwise (·.id < ·.id) :=
    SortedMap.pairwise_values fun hoffer => (hresting hoffer).id_eq
  refine ⟨?_, Deal.perm_parts hparty, hordered.filter _, hordered.filter _, hordered.filter _, ?_,
    handle_activeOffers haccount, Offer.perm_sides offers, hoffers.filter _, hoffers.filter _, ?_⟩
  · rw [handle_closedDeals haccount, Response.ofDeals_eq hparty]
    rfl
  · intro other account' hget' deal hdeal
    rw [hhistory.accounts.values_eq hget'] at hdeal
    rw [hdeals, List.mem_filter, Deal.involves_iff]
    exact and_iff_right (List.mem_filter.mp hdeal).1
  · intro offer hoffer
    obtain ⟨id, hid⟩ := SortedMap.mem_values_iff.mp hoffer
    exact ⟨(hresting hid).owner_eq, (hresting hid).remaining_pos⟩

/-- A user who bought from and sold to others and once to themselves, on a market with a deal of two others,
    and with an offer on either side that was filled in part. -/
theorem Reachable.reports_lossless_of_self_trade :
    let start : Exchange VoidStore := { market := { store := {} } }
    let exchange := (start.run [.market (.register "a"), .register "b" 1, .register "c" 1,
      .market (.post 1 .sell 5 3), .request (.postOffer 0 .buy 5 2), .request (.postOffer 2 .buy 5 1),
      .request (.postOffer 0 .sell 6 4), .request (.postOffer 0 .buy 6 1),
      .request (.postOffer 2 .buy 7 1), .request (.postOffer 0 .buy 4 5),
      .request (.postOffer 1 .sell 4 2)]).2
    exchange.Reachable ∧
      (exchange.market.accounts.get? 0).map (·.closedDeals.values) =
        some [⟨0, 1, 0, 0, 1, 5, 2⟩, ⟨2, 0, 0, 3, 4, 6, 1⟩, ⟨3, 0, 2, 3, 5, 6, 1⟩, ⟨4, 1, 0, 6, 7, 4, 2⟩] ∧
      exchange.handle (.closedDeals 0) =
        (.closedDeals [⟨5, 2⟩, ⟨4, 2⟩] [⟨6, 1⟩] [⟨6, 1⟩], exchange) ∧
      exchange.handle (.activeOffers 0) = (.activeOffers [⟨6, 4, 3⟩] [⟨3, 6, 2⟩], exchange) := by
  intro start exchange
  have hreachable : exchange.Reachable :=
    Reachable.run (.start (.start (rfl : Market.start start.market.store false = _))) _
  have hdeals : (exchange.market.accounts.get? 0).map (·.closedDeals.values) =
      some [⟨0, 1, 0, 0, 1, 5, 2⟩, ⟨2, 0, 0, 3, 4, 6, 1⟩, ⟨3, 0, 2, 3, 5, 6, 1⟩, ⟨4, 1, 0, 6, 7, 4, 2⟩] := by
    decide +kernel
  have hoffers : (exchange.market.accounts.get? 0).map (·.activeOffers.values) =
      some [⟨3, 0, .sell, 6, 4, 2, .active⟩, ⟨6, 0, .buy, 4, 5, 3, .active⟩] := by decide +kernel
  obtain ⟨account, hget, hclosed⟩ := Option.map_eq_some_iff.mp hdeals
  obtain ⟨hreport, -, -, -, -, -, hactive, -⟩ := hreachable.reports_lossless hget
  rw [hget, Option.map_some, Option.some.injEq] at hoffers
  rw [hclosed] at hreport
  rw [hoffers] at hactive
  exact ⟨hreachable, hdeals, hreport, hactive⟩

end Exchange

end Bourse
