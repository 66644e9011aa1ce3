import Bourse.Market.Posting
import Bourse.Market.Quotes
import Bourse.Proofs.ActiveOffers
import Bourse.Proofs.Ranking
import Mathlib.Data.List.Nodup
import Mathlib.Data.List.TakeWhile

/-!
# `Bourse.Proofs.Coherence` — the books name what the accounts own

Offers live in the accounts and the books only name them, so the two have to agree. `Market.Coherent` says
how: every active offer waits in the queue of its side and price, under an id that no other entry of
either book has; queues are in order of age; and every id that a book names was given out.

Money plays no part in this, and so nothing here asks whether anything can be paid. There are three kinds of
change that a market goes through, and each keeps it coherent:

* accounts lose offers or parts of them (`Coherent.of_offers`);
* a book loses expired entries (`Coherent.withBook`, and with it `Coherent.pop` and `Coherent.prune`);
* an offer comes to rest that is younger than all that rest already (`Coherent.rested`).

All operations but a posting are of the first two kinds (`Coherent.register`, `Coherent.deposit`,
`Coherent.cancel`, `Coherent.quotes`).
-/

namespace Bourse

/-! ## Offers -/

namespace Offer

/-- The status says whether anything is left of the offer. -/
def Consistent (offer : Offer) : Prop := offer.isFulfilled = true ↔ offer.remaining = 0

/-- An offer that its owner may list under the number `id`: something is left of it. -/
structure Outstanding (offer : Offer) (owner : UserId) (id : OfferId) : Prop where
  id_eq : offer.id = id
  owner_eq : offer.owner = owner
  consistent : offer.Consistent
  remaining_pos : 0 < offer.remaining
  remaining_le : offer.remaining ≤ offer.quantity

theorem Consistent.isFulfilled_fill {offer : Offer} (h : offer.Consistent) (quantity : Quantity) :
    (offer.fill quantity).isFulfilled = true ↔ offer.remaining ≤ quantity := by
  have hstatus : (offer.fill quantity).isFulfilled =
      decide ((if offer.remaining - quantity = 0 then .fulfilled else offer.status) =
        OfferStatus.fulfilled) := rfl
  rw [hstatus, decide_eq_true_eq, ← Nat.sub_eq_zero_iff_le]
  by_cases hzero : offer.remaining - quantity = 0
  · rw [if_pos hzero]
    exact iff_of_true rfl hzero
  · rw [if_neg hzero]
    refine iff_of_false (fun hdone => hzero ?_) hzero
    have hnil : offer.remaining = 0 := h.mp (decide_eq_true hdone)
    rw [hnil]
    exact Nat.zero_sub quantity

theorem Consistent.fill {offer : Offer} (h : offer.Consistent) (quantity : Quantity) :
    (offer.fill quantity).Consistent := by
  unfold Consistent
  rw [h.isFulfilled_fill quantity, ← Nat.sub_eq_zero_iff_le]
  rfl

/-- What is left of an offer that was not exhausted is outstanding, if it comes of one that had no more
    than its quantity left. -/
theorem Consistent.outstanding_fill {offer : Offer} (h : offer.Consistent)
    (hle : offer.remaining ≤ offer.quantity) {quantity : Quantity}
    (hopen : (offer.fill quantity).isFulfilled = false) :
    (offer.fill quantity).Outstanding offer.owner offer.id where
  id_eq := rfl
  owner_eq := rfl
  consistent := h.fill quantity
  remaining_pos := by
    have hlt : ¬offer.remaining ≤ quantity := by
      intro hdone
      rw [(h.isFulfilled_fill quantity).mpr hdone] at hopen
      cases hopen
    exact Nat.sub_pos_of_lt (Nat.lt_of_not_le hlt)
  remaining_le := Nat.le_trans (Nat.sub_le _ _) hle

theorem Outstanding.fill {offer : Offer} {owner : UserId} {id : OfferId}
    (h : offer.Outstanding owner id) {quantity : Quantity}
    (hopen : (offer.fill quantity).isFulfilled = false) :
    (offer.fill quantity).Outstanding owner id := by
  obtain ⟨rfl, rfl, hconsistent, -, hle⟩ := h
  exact hconsistent.outstanding_fill hle hopen

theorem Outstanding.status_eq {offer : Offer} {owner : UserId} {id : OfferId}
    (h : offer.Outstanding owner id) : offer.status = .active := by
  cases hs : offer.status with
  | active => rfl
  | fulfilled =>
    have hnil : offer.remaining = 0 := h.consistent.mp (decide_eq_true hs)
    have hpos := h.remaining_pos
    simp [hnil] at hpos

end Offer

/-! ## Markets -/

namespace Market

variable {σ : Type}

/-- The books name every active offer where it belongs, and nothing twice. -/
structure Coherent (market : Market σ) : Prop where
  outstanding : ∀ {entry : QueueEntry} {offer : Offer},
    market.accounts.activeOffer? entry = some offer → offer.Outstanding entry.owner entry.offer
  wellFormed : ∀ side, (market.book side).WellFormed
  /-- In every queue the older entry stands in front. -/
  age : ∀ side price, ((market.book side).queueAt price).Pairwise (·.offer < ·.offer)
  entries_lt : ∀ {side : Side} {price : Price} {entry : QueueEntry},
    entry ∈ (market.book side).queueAt price → entry.offer < market.offerIds.next
  /-- An offer waits in one queue only. -/
  one_queue : ∀ {side side' : Side} {price price' : Price} {entry entry' : QueueEntry},
    entry ∈ (market.book side).queueAt price → entry' ∈ (market.book side').queueAt price' →
      entry.offer = entry'.offer → side = side' ∧ price = price'
  /-- Every active offer waits in the queue of its side and price. -/
  queued : ∀ {entry : QueueEntry} {offer : Offer}, market.accounts.activeOffer? entry = some offer →
    entry ∈ (market.book offer.side).queueAt offer.price

/-- Two entries for one offer are the same. -/
theorem Coherent.entry_eq {market : Market σ} (h : market.Coherent) {side side' : Side}
    {price price' : Price} {entry entry' : QueueEntry}
    (he : entry ∈ (market.book side).queueAt price)
    (he' : entry' ∈ (market.book side').queueAt price') (heq : entry.offer = entry'.offer) :
    entry = entry' := by
  obtain ⟨rfl, rfl⟩ := h.one_queue he he' heq
  have hnodup : (((market.book side).queueAt price).map (·.offer)).Nodup :=
    List.pairwise_map.mpr ((h.age side price).imp Nat.ne_of_lt)
  exact List.inj_on_of_nodup_map hnodup he he' heq

/-- No offer is active twice. -/
theorem Coherent.eq_of_active {market : Market σ} (h : market.Coherent) {entry entry' : QueueEntry}
    {offer offer' : Offer} (hlive : market.accounts.activeOffer? entry = some offer)
    (hlive' : market.accounts.activeOffer? entry' = some offer') (hid : entry.offer = entry'.offer) :
    entry = entry' :=
  h.entry_eq (h.queued hlive) (h.queued hlive') hid

/-- An entry of a queue that is live names an offer of that side and price. -/
theorem Coherent.eq_of_queued {market : Market σ} (h : market.Coherent) {side : Side} {price : Price}
    {entry : QueueEntry} {offer : Offer} (hentry : entry ∈ (market.book side).queueAt price)
    (hlive : market.accounts.activeOffer? entry = some offer) :
    offer.side = side ∧ offer.price = price :=
  h.one_queue (h.queued hlive) hentry rfl

/-- No account lists an offer under a number that was not given out yet. -/
theorem Coherent.active_lt {market : Market σ} (h : market.Coherent) {entry : QueueEntry}
    {offer : Offer} (hlive : market.accounts.activeOffer? entry = some offer) :
    entry.offer < market.offerIds.next :=
  h.entries_lt (h.queued hlive)

/-! ### Changed accounts -/

/-- **A market stays coherent if all that its accounts list was listed before**, on the same side and at the
    same price. -/
theorem Coherent.of_offers {market after : Market σ} (h : market.Coherent)
    (hbooks : after.books = market.books) (hids : market.offerIds.next ≤ after.offerIds.next)
    (hoffers : ∀ {entry : QueueEntry} {offer : Offer}, after.accounts.activeOffer? entry = some offer →
      offer.Outstanding entry.owner entry.offer ∧
        ∃ before, market.accounts.activeOffer? entry = some before ∧ before.side = offer.side ∧
          before.price = offer.price) :
    after.Coherent := by
  have hbook : ∀ side, after.book side = market.book side := fun side => by
    unfold Market.book
    rw [hbooks]
  constructor
  case outstanding => exact fun ho => (hoffers ho).1
  case wellFormed =>
    intro side
    rw [hbook]
    exact h.wellFormed side
  case age =>
    intro side price
    rw [hbook]
    exact h.age side price
  case entries_lt =>
    intro side price entry he
    rw [hbook] at he
    exact Nat.lt_of_lt_of_le (h.entries_lt he) hids
  case one_queue =>
    intro side side' price price' entry entry' he he'
    rw [hbook] at he he'
    exact h.one_queue he he'
  case queued =>
    intro entry offer ho
    obtain ⟨-, before, hbefore, hside, hprice⟩ := hoffers ho
    rw [hbook, ← hside, ← hprice]
    exact h.queued hbefore

/-- A market stays coherent if its offers and its books stay as they are. -/
theorem Coherent.congr {market after : Market σ} (h : market.Coherent)
    (hbooks : after.books = market.books) (hids : market.offerIds.next ≤ after.offerIds.next)
    (hoffers : ∀ entry, after.accounts.activeOffer? entry = market.accounts.activeOffer? entry) :
    after.Coherent := by
  refine h.of_offers hbooks hids fun {entry offer} ho => ?_
  rw [hoffers] at ho
  exact ⟨h.outstanding ho, offer, ho, rfl, rfl⟩

/-! ### Changed books -/

theorem queueAt_withBook (market : Market σ) {side : Side} (book : Book side) (side' : Side)
    (price : Price) :
    ((market.withBook book).book side').queueAt price =
      if side' = side then book.queueAt price else (market.book side').queueAt price := by
  cases side <;> cases side' <;> rfl

theorem wellFormed_withBook {market : Market σ} (h : ∀ side, (market.book side).WellFormed)
    {side : Side} {book : Book side} (hw : book.WellFormed) (side' : Side) :
    ((market.withBook book).book side').WellFormed := by
  cases side <;> cases side'
  · exact hw
  · exact h .sell
  · exact h .buy
  · exact hw

theorem queueAt_withBook_sublist {market : Market σ} {side : Side} {book : Book side}
    (hsub : ∀ price, (book.queueAt price).Sublist ((market.book side).queueAt price))
    (side' : Side) (price : Price) :
    (((market.withBook book).book side').queueAt price).Sublist
      ((market.book side').queueAt price) := by
  rw [queueAt_withBook]
  by_cases hs : side' = side
  · rw [if_pos hs, hs]
    exact hsub price
  · rw [if_neg hs]

/-- **A market stays coherent if a book loses expired entries only.** -/
theorem Coherent.withBook {market : Market σ} (h : market.Coherent) {side : Side} {book : Book side}
    (hw : book.WellFormed)
    (hsub : ∀ price, (book.queueAt price).Sublist ((market.book side).queueAt price))
    (hlive : ∀ {price : Price} {entry : QueueEntry}, market.accounts.isLive entry = true →
      entry ∈ (market.book side).queueAt price → entry ∈ book.queueAt price) :
    (market.withBook book).Coherent where
  outstanding := h.outstanding
  wellFormed := wellFormed_withBook h.wellFormed hw
  age side' price := (h.age side' price).sublist (queueAt_withBook_sublist hsub side' price)
  entries_lt he := h.entries_lt ((queueAt_withBook_sublist hsub _ _).subset he)
  one_queue he he' heq := h.one_queue ((queueAt_withBook_sublist hsub _ _).subset he)
    ((queueAt_withBook_sublist hsub _ _).subset he') heq
  queued := by
    intro entry offer ha
    have hq := h.queued ha
    rw [queueAt_withBook]
    by_cases hs : offer.side = side
    · rw [if_pos hs]
      rw [hs] at hq
      exact hlive (Ledger.isLive_eq_true_iff.mpr ⟨offer, ha⟩) hq
    · rw [if_neg hs]
      exact hq

/-- Popping an expired entry keeps a market coherent. -/
theorem Coherent.pop {market : Market σ} (h : market.Coherent) {side : Side} {price : Price}
    {entry : QueueEntry} (hfront : (market.book side).front? price = some entry)
    (hdead : market.accounts.activeOffer? entry = none) :
    (market.withBook ((market.book side).pop price)).Coherent := by
  refine h.withBook ((h.wellFormed side).pop price)
    (fun p => Book.queueAt_pop_sublist _ price p) fun {p e} he hm => ?_
  rw [Book.queueAt_pop]
  by_cases hp : p = price
  · rw [if_pos hp]
    subst hp
    rw [Book.front?_eq_head?] at hfront
    obtain ⟨tail, hq⟩ := List.head?_eq_some_iff.mp hfront
    rw [hq] at hm ⊢
    rcases List.mem_cons.mp hm with rfl | hm
    · rw [Ledger.isLive, hdead] at he
      cases he
    · exact hm
  · rw [if_neg hp]
    exact hm

/-- Pruning a book keeps a market coherent. -/
theorem Coherent.prune {market : Market σ} (h : market.Coherent) (side : Side)
    (priceEnd : PriceEnd) :
    (market.withBook
      ((market.book side).prune priceEnd market.accounts.isLive).2).Coherent := by
  refine h.withBook ((h.wellFormed side).prune _ _)
    (fun p => Book.queueAt_prune_sublist _ priceEnd _ p) fun {p e} he hm => ?_
  rcases Book.queueAt_prune (market.book side) priceEnd market.accounts.isLive p with hq | hq
  · rw [hq]
    exact hm
  · rw [hq]
    -- what was dropped had expired
    rw [← List.takeWhile_append_dropWhile (p := fun entry => !market.accounts.isLive entry)
      (l := (market.book side).queueAt p), List.mem_append] at hm
    rcases hm with hdropped | hkept
    · have := List.mem_takeWhile_imp hdropped
      rw [he] at this
      cases this
    · exact hkept

/-! ### A new entry -/

/-- The market after an offer of the owner of `account` has come to rest. -/
def rested (market : Market σ) (offer : Offer) (account : Account) : Market σ :=
  let entry := { offer := offer.id, owner := offer.owner }
  { market.withBook ((market.book offer.side).insert offer.price entry) with
    accounts := market.accounts.insert offer.owner (account.addOffer offer) }

/-- An offer whose owner has an account comes to rest. -/
theorem rest_eq_ok {market : Market σ} {offer : Offer} {account : Account}
    (hget : market.accounts.get? offer.owner = some account) :
    market.rest offer = (.ok (), market.rested offer account) := by
  have hupdate : market.accounts.update offer.owner (fun account => .ok (account.addOffer offer)) =
      (.ok (), market.accounts.insert offer.owner (account.addOffer offer)) :=
    Ledger.update_eq_ok hget rfl
  unfold Market.rest
  rw [hupdate]
  rfl

theorem queueAt_rested (market : Market σ) (offer : Offer) (account : Account) (side : Side)
    (price : Price) :
    ((market.rested offer account).book side).queueAt price =
      if side = offer.side ∧ price = offer.price then
        (market.book side).queueAt price ++ [{ offer := offer.id, owner := offer.owner }]
      else (market.book side).queueAt price := by
  have hbook : ((market.rested offer account).book side).queueAt price =
      if side = offer.side then
        ((market.book offer.side).insert offer.price ⟨offer.id, offer.owner⟩).queueAt price
      else (market.book side).queueAt price := queueAt_withBook market _ side price
  rw [hbook]
  by_cases hs : side = offer.side
  · rw [if_pos hs, Book.queueAt_insert, hs]
    simp only [true_and]
  · rw [if_neg hs, if_neg fun h => hs h.1]

/-- An entry is that of the offer that came to rest or was there before. -/
theorem mem_queueAt_rested {market : Market σ} {offer : Offer} {account : Account} {side : Side}
    {price : Price} {entry : QueueEntry}
    (h : entry ∈ ((market.rested offer account).book side).queueAt price) :
    (side = offer.side ∧ price = offer.price ∧ entry = ⟨offer.id, offer.owner⟩) ∨
      entry ∈ (market.book side).queueAt price := by
  rw [queueAt_rested] at h
  by_cases hat : side = offer.side ∧ price = offer.price
  · rw [if_pos hat] at h
    rcases List.mem_append.mp h with hold | hnew
    · exact .inr hold
    · exact .inl ⟨hat.1, hat.2, List.mem_singleton.mp hnew⟩
  · rw [if_neg hat] at h
    exact .inr h

/-- Of the active offers only the one that came to rest is new. -/
theorem activeOffer?_rested {market : Market σ} {offer : Offer} {account : Account}
    (hget : market.accounts.get? offer.owner = some account) (entry : QueueEntry) :
    (market.rested offer account).accounts.activeOffer? entry =
      if entry = ⟨offer.id, offer.owner⟩ then some offer else market.accounts.activeOffer? entry := by
  have hledger : (market.rested offer account).accounts =
      market.accounts.insert offer.owner (account.addOffer offer) := rfl
  have heq : entry = ⟨offer.id, offer.owner⟩ ↔ entry.owner = offer.owner ∧ entry.offer = offer.id := by
    cases entry
    simp only [QueueEntry.mk.injEq]
    exact and_comm
  rw [hledger]
  unfold Ledger.activeOffer?
  rw [SortedMap.get?_insert]
  by_cases howner : entry.owner = offer.owner
  · rw [if_pos howner, howner, hget, Option.bind_some, Option.bind_some]
    unfold Account.activeOffer? Account.addOffer
    rw [SortedMap.get?_insert]
    by_cases hid : entry.offer = offer.id
    · rw [if_pos hid, if_pos (heq.mpr ⟨howner, hid⟩)]
    · rw [if_neg hid, if_neg fun he => hid (heq.mp he).2]
  · rw [if_neg howner, if_neg fun he => howner (heq.mp he).1]

/-- **A market stays coherent if an offer comes to rest that is younger than all entries.** -/
theorem Coherent.rested {market : Market σ} (h : market.Coherent) {offer : Offer} {account : Account}
    (hget : market.accounts.get? offer.owner = some account)
    (houtstanding : offer.Outstanding offer.owner offer.id) (hid : offer.id < market.offerIds.next)
    (hyoung : ∀ {side : Side} {price : Price} {entry : QueueEntry},
      entry ∈ (market.book side).queueAt price → entry.offer < offer.id) :
    (market.rested offer account).Coherent where
  outstanding := by
    intro entry o ho
    rw [activeOffer?_rested hget] at ho
    by_cases he : entry = ⟨offer.id, offer.owner⟩
    · rw [if_pos he] at ho
      cases ho
      rw [he]
      exact houtstanding
    · rw [if_neg he] at ho
      exact h.outstanding ho
  wellFormed := wellFormed_withBook h.wellFormed ((h.wellFormed offer.side).insert _ _)
  age := by
    intro side price
    rw [queueAt_rested]
    by_cases hat : side = offer.side ∧ price = offer.price
    · rw [if_pos hat, List.pairwise_append]
      refine ⟨h.age side price, List.pairwise_singleton _ _, ?_⟩
      intro old hold new hnew
      rw [List.mem_singleton.mp hnew]
      exact hyoung hold
    · rw [if_neg hat]
      exact h.age side price
  entries_lt := by
    intro side price entry he
    rcases mem_queueAt_rested he with ⟨-, -, rfl⟩ | hold
    · exact hid
    · exact h.entries_lt hold
  one_queue := by
    intro side side' price price' entry entry' he he' heq
    rcases mem_queueAt_rested he with ⟨rfl, rfl, rfl⟩ | hold
    · rcases mem_queueAt_rested he' with ⟨rfl, rfl, rfl⟩ | hold'
      · exact ⟨rfl, rfl⟩
      · exact absurd heq.symm (Nat.ne_of_lt (hyoung hold'))
    · rcases mem_queueAt_rested he' with ⟨rfl, rfl, rfl⟩ | hold'
      · exact absurd heq (Nat.ne_of_lt (hyoung hold))
      · exact h.one_queue hold hold' heq
  queued := by
    intro entry o ha
    rw [activeOffer?_rested hget] at ha
    rw [queueAt_rested]
    by_cases he : entry = ⟨offer.id, offer.owner⟩
    · rw [if_pos he] at ha
      cases ha
      rw [if_pos ⟨rfl, rfl⟩, he]
      exact List.mem_append_right _ List.mem_cons_self
    · rw [if_neg he] at ha
      have hold := h.queued ha
      split
      · exact List.mem_append_left _ hold
      · exact hold

/-! ### Operations on accounts, and quotes -/

theorem Coherent.register {market : Market σ} (h : market.Coherent) (username : String) :
    (market.register username).2.Coherent := by
  refine h.of_offers rfl (Nat.le_refl _) fun {entry offer} ho => ?_
  rw [activeOffer?_register] at ho
  by_cases hnew : entry.owner = market.userIds.next
  · rw [if_pos hnew] at ho
    cases ho
  · rw [if_neg hnew] at ho
    exact ⟨h.outstanding ho, offer, ho, rfl, rfl⟩

theorem Coherent.deposit {market : Market σ} (h : market.Coherent) (user : UserId)
    (currency : Currency) (amount : Nat) : (market.deposit user currency amount).2.Coherent := by
  obtain ⟨hbooks, hids⟩ := market.books_offerIds_deposit user currency amount
  exact h.congr hbooks (Nat.le_of_eq (congrArg (·.next) hids.symm))
    (market.activeOffer?_deposit user currency amount)

theorem Coherent.cancel {market : Market σ} (h : market.Coherent) (user : UserId) (offer : OfferId) :
    (market.cancel user offer).2.Coherent := by
  obtain ⟨hbooks, hids⟩ := market.books_offerIds_cancel user offer
  refine h.of_offers hbooks (Nat.le_of_eq (congrArg (·.next) hids.symm)) fun {entry o} ho => ?_
  rw [activeOffer?_cancel] at ho
  by_cases he : entry = ⟨offer, user⟩
  · rw [if_pos he] at ho
    cases ho
  · rw [if_neg he] at ho
    exact ⟨h.outstanding ho, o, ho, rfl, rfl⟩

theorem Coherent.quotes {market : Market σ} (h : market.Coherent) : market.quotes.2.Coherent :=
  (h.prune .buy _).prune .sell _

end Market

end Bourse
