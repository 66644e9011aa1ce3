import Bourse.Market.Setup
import Bourse.Proofs.Coherence

/-!
# `Bourse.Proofs.Soundness` — a market in order

A market is in order if its books and its accounts agree on the offers (`Market.Coherent`) and if, besides,
the accounts are: each is filed under its own id, its balance is in range, none of its offers is too dear to
settle, and the ids of users and of deals that were given out are below the next one. `Market.Sound` is both
at once.

A change of the accounts keeps this if every account that is left `Succeeds` what it was, that is if it
lists no offer that it did not list before (`Sound.withAccounts`); a change of a book if it drops expired
entries only (`Sound.pop`, `Sound.prune`). All operations but a posting are of these two kinds, and a posting
adds one more: an offer comes to rest that is younger than all that rest already (`Sound.rest`).
-/

namespace Bourse

/-! ## Offers -/

namespace Offer

/-- An offer as its owner's account lists it: open, and no part of it too dear to settle. -/
structure Resting (offer : Offer) (owner : UserId) (id : OfferId) : Prop where
  id_eq : offer.id = id
  owner_eq : offer.owner = owner
  consistent : offer.Consistent
  remaining_pos : 0 < offer.remaining
  remaining_le : offer.remaining ≤ offer.quantity
  quantity_inRange : Amount.InRange offer.quantity
  cost_inRange : Amount.InRange (offer.price * offer.quantity)

theorem Resting.outstanding {offer : Offer} {owner : UserId} {id : OfferId}
    (h : offer.Resting owner id) : offer.Outstanding owner id :=
  ⟨h.id_eq, h.owner_eq, h.consistent, h.remaining_pos, h.remaining_le⟩

/-- A resting offer that was not exhausted rests on. -/
theorem Resting.fill {offer : Offer} {owner : UserId} {id : OfferId} (h : offer.Resting owner id)
    {quantity : Quantity} (hopen : (offer.fill quantity).isFulfilled = false) :
    (offer.fill quantity).Resting owner id := by
  obtain ⟨hid, howner, hconsistent, hpos, hle⟩ := h.outstanding.fill hopen
  exact ⟨hid, howner, hconsistent, hpos, hle, h.quantity_inRange, h.cost_inRange⟩

end Offer

/-! ## Accounts -/

/-- The balance with an amount of one currency added. -/
def Balance.plus (balance : Balance) (currency : Currency) (amount : Int) : Balance :=
  match currency with
  | .usd => { balance with usd := balance.usd + amount }
  | .rub => { balance with rub := balance.rub + amount }

namespace Account

/-- An account in order: it is filed under its own id, it is in range, and its offers are open. -/
structure Sound (account : Account) (user : UserId) : Prop where
  id_eq : account.id = user
  balance_inRange : account.balance.InRange
  resting : ∀ {id : OfferId} {offer : Offer}, account.activeOffers.get? id = some offer →
    offer.Resting user id

/-- An account stays in order when an offer that rests is added to it. -/
theorem Sound.addOffer {account : Account} {user : UserId} (h : account.Sound user)
    {offer : Offer} (hresting : offer.Resting user offer.id) : (account.addOffer offer).Sound user where
  id_eq := h.id_eq
  balance_inRange := h.balance_inRange
  resting := by
    intro id o ho
    unfold Account.addOffer at ho
    rw [SortedMap.get?_insert] at ho
    by_cases hi : id = offer.id
    · rw [if_pos hi] at ho
      cases ho
      rw [hi]
      exact hresting
    · rw [if_neg hi] at ho
      exact h.resting ho

/-- An account that can take the place of `old` in a market whose next deal has the number `nextDeal`. -/
structure Succeeds (account old : Account) (user : UserId) (nextDeal : DealId) : Prop where
  sound : account.Sound user
  deals_lt : ∀ {id : DealId} {deal : Deal}, account.closedDeals.get? id = some deal → id < nextDeal
  /-- Every active offer was active before, on its side and at its price. -/
  offers : ∀ {id : OfferId} {offer : Offer}, account.activeOffers.get? id = some offer →
    ∃ before, old.activeOffers.get? id = some before ∧ before.side = offer.side ∧
      before.price = offer.price

end Account

/-! ## Markets -/

namespace Market

variable {σ : Type}

/-- The books and the accounts agree, and no id that is in use will be given out again. -/
structure Sound (market : Market σ) : Prop where
  accounts : ∀ {user : UserId} {account : Account}, market.accounts.get? user = some account →
    account.Sound user
  users_lt : ∀ {user : UserId} {account : Account}, market.accounts.get? user = some account →
    user < market.userIds.next
  deals_lt : ∀ {user : UserId} {account : Account} {id : DealId} {deal : Deal},
    market.accounts.get? user = some account → account.closedDeals.get? id = some deal →
      id < market.dealIds.next
  wellFormed : ∀ side, (market.book side).WellFormed
  /-- In every queue the older entry stands in front. -/
  age : ∀ side price, ((market.book side).queueAt price).Pairwise (·.offer < ·.offer)
  entries_lt : ∀ {side : Side} {price : Price} {entry : QueueEntry},
    entry ∈ (market.book side).queueAt price → entry.offer < market.offerIds.next
  /-- An offer waits in one queue only. -/
  one_queue : ∀ {side side' : Side} {price price' : Price} {entry entry' : QueueEntry},
    entry ∈ (market.book side).queueAt price → entry' ∈ (market.book side').queueAt price' →
      entry.offer = entry'.offer → side = side' ∧ price = price'
  /-- Every active offer waits in the queue of its side and price. -/
  queued : ∀ {entry : QueueEntry} {offer : Offer}, market.accounts.activeOffer? entry = some offer →
    entry ∈ (market.book offer.side).queueAt offer.price

theorem Sound.resting {market : Market σ} (h : market.Sound) {entry : QueueEntry} {offer : Offer}
    (ha : market.accounts.activeOffer? entry = some offer) :
    offer.Resting entry.owner entry.offer := by
  obtain ⟨account, haccount, hoffer⟩ := Ledger.activeOffer?_eq_some_iff.mp ha
  exact (h.accounts haccount).resting hoffer

/-- The books and the accounts of a sound market agree. -/
theorem Sound.coherent {market : Market σ} (h : market.Sound) : market.Coherent where
  outstanding ho := (h.resting ho).outstanding
  wellFormed := h.wellFormed
  age := h.age
  entries_lt := h.entries_lt
  one_queue := h.one_queue
  queued := h.queued

/-- A coherent market is sound if its accounts are in order and no number that is in use will be given out
    again. -/
theorem Coherent.sound {market : Market σ} (h : market.Coherent)
    (haccounts : ∀ {user : UserId} {account : Account}, market.accounts.get? user = some account →
      account.Sound user)
    (husers : ∀ {user : UserId} {account : Account}, market.accounts.get? user = some account →
      user < market.userIds.next)
    (hdeals : ∀ {user : UserId} {account : Account} {id : DealId} {deal : Deal},
      market.accounts.get? user = some account → account.closedDeals.get? id = some deal →
        id < market.dealIds.next) :
    market.Sound where
  accounts := haccounts
  users_lt := husers
  deals_lt := hdeals
  wellFormed := h.wellFormed
  age := h.age
  entries_lt := h.entries_lt
  one_queue := h.one_queue
  queued := h.queued

/-! ### The next numbers -/

/-- The next user has no account yet. -/
theorem Sound.next_user_new {market : Market σ} (h : market.Sound) :
    market.accounts.get? market.userIds.next = none := by
  cases hget : market.accounts.get? market.userIds.next with
  | none => rfl
  | some account => exact absurd (h.users_lt hget) (Nat.lt_irrefl _)

/-- Nobody has an offer under the next number. -/
theorem Sound.next_offer_new {market : Market σ} (h : market.Sound) (user : UserId) :
    market.accounts.activeOffer? ⟨market.offerIds.next, user⟩ = none := by
  cases hlive : market.accounts.activeOffer? ⟨market.offerIds.next, user⟩ with
  | none => rfl
  | some offer => exact absurd (h.entries_lt (h.queued hlive)) (Nat.lt_irrefl _)

/-- No account has closed the next deal. -/
theorem Sound.next_deal_new {market : Market σ} (h : market.Sound) {user : UserId} {account : Account}
    (hget : market.accounts.get? user = some account) :
    account.closedDeals.get? market.dealIds.next = none := by
  cases hdeal : account.closedDeals.get? market.dealIds.next with
  | none => rfl
  | some deal => exact absurd (h.deals_lt hget hdeal) (Nat.lt_irrefl _)

/-! ### Changed accounts -/

/-- **A market stays sound if every account it is left with can take the place of what it was.** -/
theorem Sound.withAccounts {market : Market σ} (h : market.Sound) {accounts : Ledger}
    {dealIds : Numbering}
    (hall : ∀ {user : UserId} {account : Account}, accounts.get? user = some account →
      ∃ old, market.accounts.get? user = some old ∧ account.Succeeds old user dealIds.next) :
    { market with accounts, dealIds }.Sound := by
  have hcoherent : { market with accounts, dealIds }.Coherent := by
    refine h.coherent.of_offers rfl (Nat.le_refl _) fun {entry offer} ho => ?_
    obtain ⟨account, hget, hoffer⟩ := Ledger.activeOffer?_eq_some_iff.mp ho
    obtain ⟨old, hold, hs⟩ := hall hget
    obtain ⟨before, hbefore, hside, hprice⟩ := hs.offers hoffer
    exact ⟨(hs.sound.resting hoffer).outstanding, before,
      Ledger.activeOffer?_eq_some_iff.mpr ⟨old, hold, hbefore⟩, hside, hprice⟩
  refine hcoherent.sound (fun hget => ?_) (fun hget => ?_) fun hget hdeal => ?_
  · obtain ⟨old, -, hs⟩ := hall hget
    exact hs.sound
  · obtain ⟨old, hold, -⟩ := hall hget
    exact h.users_lt hold
  · obtain ⟨old, -, hs⟩ := hall hget
    exact hs.deals_lt hdeal

/-- An account can take its own place. -/
theorem Sound.succeeds_self {market : Market σ} (h : market.Sound) {user : UserId}
    {account : Account} (hget : market.accounts.get? user = some account) :
    account.Succeeds account user market.dealIds.next where
  sound := h.accounts hget
  deals_lt := h.deals_lt hget
  offers hoffer := ⟨_, hoffer, rfl, rfl⟩

/-- A market stays sound if one account is changed into one that can take its place. -/
theorem Sound.modify {market : Market σ} (h : market.Sound) {user : UserId}
    {change : Account → Account}
    (hchange : ∀ {account : Account}, market.accounts.get? user = some account →
      (change account).Succeeds account user market.dealIds.next) :
    { market with accounts := market.accounts.modify user change }.Sound := by
  refine h.withAccounts fun {u account} hget => ?_
  rw [SortedMap.get?_modify] at hget
  by_cases hu : u = user
  · rw [if_pos hu] at hget
    obtain ⟨old, hold, rfl⟩ := Option.map_eq_some_iff.mp hget
    subst hu
    exact ⟨old, hold, hchange hold⟩
  · rw [if_neg hu] at hget
    exact ⟨account, hget, h.succeeds_self hget⟩

/-- An account is that of the new user or was there before. -/
theorem get?_register {market : Market σ} {username : String} {user : UserId} {account : Account}
    (hget : (market.register username).2.accounts.get? user = some account) :
    (user = market.userIds.next ∧ account = { id := market.userIds.next, username }) ∨
      market.accounts.get? user = some account := by
  have hnew : (market.register username).2.accounts =
      market.accounts.insert market.userIds.next { id := market.userIds.next, username } := rfl
  rw [hnew, SortedMap.get?_insert] at hget
  by_cases hu : user = market.userIds.next
  · rw [if_pos hu] at hget
    exact .inl ⟨hu, (Option.some.inj hget).symm⟩
  · rw [if_neg hu] at hget
    exact .inr hget

/-- A new account is in order, and it has no deal. -/
theorem Sound.register {market : Market σ} (h : market.Sound) (username : String) :
    (market.register username).2.Sound := by
  refine (h.coherent.register username).sound (fun hget => ?_) (fun hget => ?_) fun hget hdeal => ?_
  · rcases get?_register hget with ⟨rfl, rfl⟩ | hold
    · exact ⟨rfl, (by decide : ({} : Balance).InRange), nofun⟩
    · exact h.accounts hold
  · rcases get?_register hget with ⟨rfl, -⟩ | hold
    · exact Nat.lt_succ_self _
    · exact Nat.lt_succ_of_lt (h.users_lt hold)
  · rcases get?_register hget with ⟨-, rfl⟩ | hold
    · cases hdeal
    · exact h.deals_lt hold hdeal

/-! ### Changed books -/

/-- Popping an expired entry keeps a market sound. -/
theorem Sound.pop {market : Market σ} (h : market.Sound) {side : Side} {price : Price}
    {entry : QueueEntry} (hfront : (market.book side).front? price = some entry)
    (hdead : market.accounts.activeOffer? entry = none) :
    (market.withBook ((market.book side).pop price)).Sound :=
  (h.coherent.pop hfront hdead).sound h.accounts h.users_lt h.deals_lt

/-- Pruning a book keeps a market sound. -/
theorem Sound.prune {market : Market σ} (h : market.Sound) (side : Side) (priceEnd : PriceEnd) :
    (market.withBook ((market.book side).prune priceEnd market.accounts.isLive).2).Sound :=
  (h.coherent.prune side priceEnd).sound h.accounts h.users_lt h.deals_lt

/-! ### The operations -/

/-- A new market has no users and nothing in its books. -/
theorem start_eq [RecordStore σ] {store : σ} {seed : Bool} {market : Market σ}
    (h : start store seed = .ok market) :
    ∃ userIds offerIds dealIds, market = { userIds, offerIds, dealIds, store } := by
  unfold start at h
  split at h
  · unfold seeded at h
    simp only [bind, Except.bind] at h
    split at h
    · cases h
    case h_2 userIds _ =>
      split at h
      · cases h
      case h_2 offerIds _ =>
        split at h
        · cases h
        case h_2 dealIds _ =>
          cases h
          exact ⟨userIds, offerIds, dealIds, rfl⟩
  · cases h
    exact ⟨{}, {}, {}, rfl⟩

theorem sound_start [RecordStore σ] {store : σ} {seed : Bool} {market : Market σ}
    (h : start store seed = .ok market) : market.Sound := by
  obtain ⟨userIds, offerIds, dealIds, rfl⟩ := start_eq h
  have hnone : ∀ {side : Side} {price : Price} {entry : QueueEntry},
      entry ∉ (({ userIds, offerIds, dealIds, store } : Market σ).book side).queueAt price := by
    intro side price entry he
    cases side <;> cases he
  refine ⟨nofun, nofun, nofun, ?_, ?_, fun he => absurd he hnone, fun he => absurd he hnone, nofun⟩
  · intro side
    cases side <;> exact Book.wellFormed_empty
  · intro side price
    cases side <;> exact List.Pairwise.nil

/-- An account that kept its id, its deals and no offer but old ones can take the place of the old one. -/
theorem Sound.succeeds_of_offers {market : Market σ} (h : market.Sound) {user : UserId}
    {account old : Account} (hget : market.accounts.get? user = some old) (hid : account.id = old.id)
    (hbalance : account.balance.InRange) (hdeals : account.closedDeals = old.closedDeals)
    (hoffers : ∀ {id : OfferId} {offer : Offer}, account.activeOffers.get? id = some offer →
      old.activeOffers.get? id = some offer) :
    account.Succeeds old user market.dealIds.next where
  sound := ⟨hid.trans (h.accounts hget).id_eq, hbalance, fun ho => (h.accounts hget).resting (hoffers ho)⟩
  deals_lt hdeal := h.deals_lt hget (hdeals ▸ hdeal)
  offers ho := ⟨_, hoffers ho, rfl, rfl⟩

theorem deposit_eq {market : Market σ} {user : UserId} {currency : Currency} {amount : Nat}
    (h : Amount.InRange amount) :
    market.deposit user currency amount =
      ((market.accounts.update user fun account =>
          account.withBalance (account.balance.plus currency amount).checked?).1,
        { market with accounts := (market.accounts.update user fun account =>
          account.withBalance (account.balance.plus currency amount).checked?).2 }) := by
  unfold Market.deposit
  rw [if_pos h]
  cases currency <;> simp only [Account.shift, Balance.shifted?, Balance.plus, Int.add_zero]

/-- A deposit is refused without a trace or changes the balance of one account. -/
theorem deposit_cases (market : Market σ) (user : UserId) (currency : Currency) (amount : Nat) :
    (∃ cause, market.deposit user currency amount = (.error cause, market)) ∨
      ∃ account, market.accounts.get? user = some account ∧
        (account.balance.plus currency amount).InRange ∧
        market.deposit user currency amount =
          (.ok (), { market with accounts := market.accounts.modify user fun account =>
            { account with balance := account.balance.plus currency amount } }) := by
  by_cases hamount : Amount.InRange amount
  · rw [deposit_eq hamount]
    rcases market.accounts.update_cases user fun account =>
        account.withBalance (account.balance.plus currency amount).checked? with
      ⟨cause, hu⟩ | ⟨account, changed, hget, hchange, hu⟩
    · rw [hu]
      exact .inl ⟨cause, rfl⟩
    · rw [hu]
      by_cases hrange : (account.balance.plus currency amount).InRange
      · rw [Balance.checked?_eq_some_iff.mpr ⟨hrange, rfl⟩] at hchange
        cases hchange
        refine .inr ⟨account, hget, hrange, ?_⟩
        rw [SortedMap.modify_eq_insert hget]
      · rw [show (account.balance.plus currency amount).checked? = none from if_neg hrange] at hchange
        cases hchange
  · unfold Market.deposit
    rw [if_neg hamount]
    exact .inl ⟨_, rfl⟩

theorem Sound.deposit {market : Market σ} (h : market.Sound) (user : UserId) (currency : Currency)
    (amount : Nat) : (market.deposit user currency amount).2.Sound := by
  rcases market.deposit_cases user currency amount with ⟨cause, hd⟩ | ⟨account, hget, hrange, hd⟩
  · rw [hd]
    exact h
  · rw [hd]
    refine h.modify fun {old} hold => h.succeeds_of_offers hold rfl ?_ rfl id
    rw [Option.some.inj (hold.symm.trans hget)]
    exact hrange

theorem Sound.cancel {market : Market σ} (h : market.Sound) (user : UserId) (offer : OfferId) :
    (market.cancel user offer).2.Sound := by
  unfold Market.cancel
  split
  · exact h
  · refine h.modify fun {account} hget =>
      h.succeeds_of_offers hget rfl (h.accounts hget).balance_inRange rfl fun {id o} ho => ?_
    unfold Account.removeOffer at ho
    rw [SortedMap.get?_erase] at ho
    by_cases hid : id = offer
    · rw [if_pos hid] at ho
      cases ho
    · rw [if_neg hid] at ho
      exact ho

theorem Sound.quotes {market : Market σ} (h : market.Sound) : market.quotes.2.Sound :=
  (h.prune .buy _).prune .sell _

/-! ### A new entry -/

/-- An account is that of the owner with the offer in it, or it was there before. -/
theorem get?_rested {market : Market σ} {offer : Offer} {account a : Account} {user : UserId}
    (ha : (market.rested offer account).accounts.get? user = some a) :
    (user = offer.owner ∧ a = account.addOffer offer) ∨ market.accounts.get? user = some a := by
  have hledger : (market.rested offer account).accounts =
      market.accounts.insert offer.owner (account.addOffer offer) := rfl
  rw [hledger, SortedMap.get?_insert] at ha
  by_cases hu : user = offer.owner
  · rw [if_pos hu] at ha
    exact .inl ⟨hu, (Option.some.inj ha).symm⟩
  · rw [if_neg hu] at ha
    exact .inr ha

/-- **A market stays sound if an offer comes to rest that is younger than all entries.** -/
theorem Sound.rest {market : Market σ} (h : market.Sound) {offer : Offer} {account : Account}
    (hget : market.accounts.get? offer.owner = some account)
    (hresting : offer.Resting offer.owner offer.id) (hid : offer.id < market.offerIds.next)
    (hyoung : ∀ {side : Side} {price : Price} {entry : QueueEntry},
      entry ∈ (market.book side).queueAt price → entry.offer < offer.id) :
    (market.rested offer account).Sound := by
  refine (h.coherent.rested hget hresting.outstanding hid hyoung).sound (fun ha => ?_) (fun ha => ?_)
    fun ha hdeal => ?_
  · rcases get?_rested ha with ⟨rfl, rfl⟩ | hold
    · exact (h.accounts hget).addOffer hresting
    · exact h.accounts hold
  · rcases get?_rested ha with ⟨rfl, -⟩ | hold
    · exact h.users_lt hget
    · exact h.users_lt hold
  · rcases get?_rested ha with ⟨rfl, rfl⟩ | hold
    · exact h.deals_lt hget hdeal
    · exact h.deals_lt hold hdeal

end Market

end Bourse
