import Bourse.Proofs.Posting
import Bourse.Proofs.Trade
import Mathlib.Data.List.Range

/-!
# `Bourse.Proofs.Outcome` — what a posting leaves, its books apart

A posting goes through the book to find its deals, but which deals are due is settled by the accounts. Once
they are known, so is everything that the posting leaves except for the books: the accounts after the deals,
one by one (`Ledger.dealt`), the last price, the numbers, and what the store has been told. `Dealt` says so
of a matching, `Outcome` of a whole posting (`Sound.outcome_cases`).
-/

namespace Bourse

/-- The resting offer of a deal, as an incoming offer of the given side found it in the book. -/
def Deal.makerEntry (deal : Deal) (side : Side) : QueueEntry where
  offer := deal.maker
  owner :=
    match side with
    | .buy => deal.seller
    | .sell => deal.buyer

theorem Offer.makerEntry_dealWith (taker maker : Offer) (id : DealId) (quantity : Quantity) :
    (taker.dealWith maker id quantity).makerEntry taker.side = ⟨maker.id, maker.owner⟩ := by
  unfold dealWith Deal.makerEntry
  cases taker.side <;> rfl

namespace Ledger

/-- The accounts after a deal of an incoming offer of the given side: what is left of the maker is back in
    its account, and the deal is settled. -/
def dealt (side : Side) (ledger : Ledger) (deal : Deal) : Ledger :=
  (match ledger.activeOffer? (deal.makerEntry side) with
    | none => ledger
    | some maker => ledger.returned (deal.makerEntry side) (maker.fill deal.quantity)).settled deal

theorem dealt_eq {ledger : Ledger} {taker maker : Offer} {entry : QueueEntry}
    (hlive : ledger.activeOffer? entry = some maker) (hmaker : maker.Resting entry.owner entry.offer)
    (id : DealId) (quantity : Quantity) :
    ledger.dealt taker.side (taker.dealWith maker id quantity) =
      (ledger.returned entry (maker.fill quantity)).settled (taker.dealWith maker id quantity) := by
  have hentry : (taker.dealWith maker id quantity).makerEntry taker.side = entry := by
    rw [Offer.makerEntry_dealWith, hmaker.id_eq, hmaker.owner_eq]
  unfold dealt
  rw [hentry, hlive]
  rfl

theorem isSome_dealt (side : Side) (ledger : Ledger) (deal : Deal) (user : UserId) :
    ((ledger.dealt side deal).get? user).isSome = (ledger.get? user).isSome := by
  unfold dealt
  rw [isSome_settled]
  split
  · rfl
  · exact isSome_returned _ _ _ _

/-- A deal is entered with its parties and nobody else. -/
theorem closedDeals_dealt (side : Side) (ledger : Ledger) (deal : Deal) (user : UserId) :
    ((ledger.dealt side deal).get? user).map (·.closedDeals) =
      ((ledger.get? user).map (·.closedDeals)).map fun deals =>
        if user = deal.buyer ∨ user = deal.seller then deals.insert deal.id deal else deals := by
  unfold dealt
  rw [closedDeals_settled]
  cases ledger.activeOffer? (deal.makerEntry side) with
  | none => rfl
  | some maker =>
    dsimp only
    rw [closedDeals_returned]

/-- The accounts after an offer has made its deals and what is left of it has come to rest. -/
def posted (ledger : Ledger) (offer : Offer) (deals : List Deal) : Ledger :=
  let last := offer.fill (Deal.traded deals)
  let dealt := deals.foldl (Ledger.dealt offer.side) ledger
  if last.isFulfilled then dealt else dealt.modify last.owner (·.addOffer last)

end Ledger

/-- The rows that a store keeps of an accepted posting: the offer with its whole quantity, and then its
    deals. -/
def Posting.rows (posting : Posting) (user : UserId) (side : Side) (price : Price)
    (quantity : Quantity) : List Record :=
  .offer posting.offer user side quantity price :: posting.deals.map Deal.toRecord

namespace Market

variable {σ : Type} [RecordStore σ]

/-! ## Matching -/

/-- What deals of an incoming offer of the given side leave of a market, its books apart. -/
structure Dealt (market : Market σ) (side : Side) (deals : List Deal) (after : Market σ) : Prop where
  accounts_eq : after.accounts = deals.foldl (Ledger.dealt side) market.accounts
  quote_eq : after.quote = (deals.getLast?.map (·.price)).or market.quote
  userIds_eq : after.userIds = market.userIds
  offerIds_eq : after.offerIds = market.offerIds
  dealIds_eq : after.dealIds = ⟨market.dealIds.next + deals.length⟩
  /-- The store was told of the deals and of nothing else. -/
  store_eq : after.store = (deals.map Deal.toRecord).foldl RecordStore.notify market.store
  /-- The deals have the next numbers. -/
  ids_eq : deals.map (·.id) = List.range' market.dealIds.next deals.length
  parties : ∀ deal ∈ deals,
    (market.accounts.get? deal.buyer).isSome ∧ (market.accounts.get? deal.seller).isSome

theorem dealt_nil (market : Market σ) (side : Side) : market.Dealt side [] market :=
  ⟨rfl, rfl, rfl, rfl, rfl, rfl, rfl, nofun⟩

/-- One deal, and then the others. -/
theorem Dealt.struck {market after : Market σ} {taker maker : Offer} {entry : QueueEntry}
    {deals : List Deal} (h : (market.struck taker entry maker).Dealt taker.side deals after)
    (hlive : market.accounts.activeOffer? entry = some maker)
    (hmaker : maker.Resting entry.owner entry.offer)
    (hbear : market.accounts.CanSettle (market.nextDeal taker maker)) :
    market.Dealt taker.side (market.nextDeal taker maker :: deals) after := by
  -- apart from the books, a trade that fulfils the maker leaves what any other leaves
  obtain ⟨hquote, huserIds, hofferIds, hdealIds, hstore⟩ :
      (market.struck taker entry maker).quote = some maker.price ∧
        (market.struck taker entry maker).userIds = market.userIds ∧
        (market.struck taker entry maker).offerIds = market.offerIds ∧
        (market.struck taker entry maker).dealIds = market.dealIds.advance ∧
        (market.struck taker entry maker).store =
          RecordStore.notify market.store (market.nextDeal taker maker).toRecord := by
    unfold Market.struck
    dsimp only
    split <;> exact ⟨rfl, rfl, rfl, rfl, rfl⟩
  have haccounts : (market.struck taker entry maker).accounts =
      market.accounts.dealt taker.side (market.nextDeal taker maker) := by
    rw [accounts_struck]
    exact (Ledger.dealt_eq hlive hmaker _ _).symm
  constructor
  case accounts_eq => rw [h.accounts_eq, haccounts, List.foldl_cons]
  case quote_eq =>
    rw [h.quote_eq, hquote, List.getLast?_cons]
    cases deals.getLast? <;> rfl
  case userIds_eq => exact h.userIds_eq.trans huserIds
  case offerIds_eq => exact h.offerIds_eq.trans hofferIds
  case dealIds_eq =>
    rw [h.dealIds_eq, hdealIds, List.length_cons]
    exact congrArg Numbering.mk (Nat.add_right_comm _ _ _)
  case store_eq => rw [h.store_eq, hstore, List.map_cons, List.foldl_cons]
  case ids_eq =>
    rw [List.map_cons, h.ids_eq, hdealIds, List.length_cons, List.range'_succ]
    rfl
  case parties =>
    intro deal hdeal
    rcases List.mem_cons.mp hdeal with rfl | hdeal
    · exact ⟨hbear.buyer, hbear.seller⟩
    · have hparties := h.parties deal hdeal
      rw [haccounts, Ledger.isSome_dealt, Ledger.isSome_dealt] at hparties
      exact hparties

/-- **A matching leaves what its deals make of the market.** -/
theorem Matching.dealt {market after : Market σ} {taker last : Offer} {deals : List Deal}
    (h : Matching market taker deals last after) (hs : market.Sound) :
    market.Dealt taker.side deals after := by
  induction h with
  | fulfilled => exact dealt_nil _ _
  | blocked => exact dealt_nil _ _
  | expired _ hr _ hdead _ ih =>
    -- the book has an entry less, and nothing else has changed
    obtain ⟨haccounts, hquote, huserIds, hofferIds, hdealIds, hstore, hids, hparties⟩ :=
      ih (hs.expired hr hdead)
    exact ⟨haccounts, hquote, huserIds, hofferIds, hdealIds, hstore, hids, hparties⟩
  | traded _ hr _ hlive hbear _ ih =>
    exact (ih (hs.struck hr hlive hbear)).struck hlive (hs.resting hlive) hbear

/-! ## Postings -/

/-- The answer to an offer that is posted now, if it is accepted. -/
def duePosting (market : Market σ) (user : UserId) (side : Side) (price : Price)
    (quantity : Quantity) : Posting where
  offer := market.offerIds.next
  deals := market.dueDeals user side price quantity
  remaining := quantity - Deal.traded (market.dueDeals user side price quantity)

/-- What an accepted posting leaves of a market, its books apart. -/
structure Outcome (market : Market σ) (user : UserId) (side : Side) (price : Price)
    (quantity : Quantity) (after : Market σ) : Prop where
  accounts_eq : after.accounts =
    market.accounts.posted (Offer.post market.offerIds.next user side price quantity)
      (market.dueDeals user side price quantity)
  quote_eq : after.quote =
    ((market.dueDeals user side price quantity).getLast?.map (·.price)).or market.quote
  userIds_eq : after.userIds = market.userIds
  offerIds_eq : after.offerIds = market.offerIds.advance
  dealIds_eq : after.dealIds =
    ⟨market.dealIds.next + (market.dueDeals user side price quantity).length⟩
  store_eq : after.store =
    ((market.duePosting user side price quantity).rows user side price quantity).foldl
      RecordStore.notify market.store
  ids_eq : (market.dueDeals user side price quantity).map (·.id) =
    List.range' market.dealIds.next (market.dueDeals user side price quantity).length
  parties : ∀ deal ∈ market.dueDeals user side price quantity,
    (market.accounts.get? deal.buyer).isSome ∧ (market.accounts.get? deal.seller).isSome

omit [RecordStore σ] in
/-- What comes to rest changes its owner's account and a book. -/
theorem Rests.eq {matched after : Market σ} {last : Offer} (h : Rests matched last after) :
    after.accounts = (if last.isFulfilled then matched.accounts
        else matched.accounts.modify last.owner (·.addOffer last)) ∧
      after.quote = matched.quote ∧ after.userIds = matched.userIds ∧
      after.offerIds = matched.offerIds ∧ after.dealIds = matched.dealIds ∧
      after.store = matched.store := by
  cases h with
  | nothing hdone =>
    rw [if_pos hdone]
    exact ⟨rfl, rfl, rfl, rfl, rfl, rfl⟩
  | rest hopen hget =>
    rw [if_neg (by simp [hopen]), SortedMap.modify_eq_insert hget]
    exact ⟨rfl, rfl, rfl, rfl, rfl, rfl⟩

/-- **A posting is refused without a trace, or it has its outcome.** Which of the two, and what the outcome
    is, follows from the accounts and the next numbers. -/
theorem Sound.outcome_cases {market : Market σ} (h : market.Sound) (user : UserId) (side : Side)
    (price : Price) (quantity : Quantity) :
    (∃ cause, market.objection? user side price quantity = some cause ∧
      market.post user side price quantity = (.error cause, market)) ∨
    (market.objection? user side price quantity = none ∧ ∃ after,
      market.post user side price quantity = (.ok (market.duePosting user side price quantity), after) ∧
      market.Outcome user side price quantity after) := by
  rcases h.post_cases user side price quantity with
    hrefused | ⟨hobjection, last, matched, after, hmatching, hrests, hp⟩
  · exact .inl hrefused
  · obtain ⟨-, hquantity, -, -, -⟩ := objection?_eq_none_iff.mp hobjection
    have hdealt := hmatching.dealt (h.announced _)
    obtain ⟨hlast, -⟩ := hmatching.last_eq (Offer.consistent_post hquantity)
    obtain ⟨haccounts, hquote, huserIds, hofferIds, hdealIds, hstore⟩ := hrests.eq
    subst hlast
    refine .inr ⟨hobjection, after, hp, ?_⟩
    constructor
    case accounts_eq => rw [haccounts, hdealt.accounts_eq]; rfl
    case quote_eq => exact hquote.trans hdealt.quote_eq
    case userIds_eq => exact huserIds.trans hdealt.userIds_eq
    case offerIds_eq => exact hofferIds.trans hdealt.offerIds_eq
    case dealIds_eq => exact hdealIds.trans hdealt.dealIds_eq
    case store_eq => exact hstore.trans hdealt.store_eq
    case ids_eq => exact hdealt.ids_eq
    case parties => exact hdealt.parties

end Market

end Bourse
