import Bourse.Proofs.Trade

/-!
# `Bourse.Proofs.Meeting` — one meeting of an incoming offer with the book

An incoming offer looks at the best entry of the other side. `meet` is read off that entry, the head of
the book in matching order (`Sound.meet_eq_nothing`, `Sound.meet_eq_expired`, `Sound.meet_eq_strike`): no
price crosses the limit, or the entry has expired, or there is a trade, and where both parties can bear the
deal the trade goes through and leaves the market `struck` (`Sound.meet_eq_traded`).

A trade puts the maker back, settles the deal and takes the entry of a fulfilled maker out of its book. Each
of the three steps keeps a market sound, and so does the trade (`Sound.struck`).
-/

namespace Bourse

namespace Market

variable {σ : Type}

/-! ## The best entry -/

/-- The deal that an incoming offer makes with the offer it meets. -/
def nextDeal (market : Market σ) (taker maker : Offer) : Deal :=
  taker.dealWith maker market.dealIds.next (min taker.remaining maker.remaining)

/-- No entry crosses the limit of the incoming offer, or there is none. -/
def Blocked (market : Market σ) (taker : Offer) : Prop :=
  ∀ x ∈ (market.book taker.side.opposite).ranked.head?,
    taker.side.crosses taker.price x.1 = false

/-- An entry of a queue that is live names an offer of that side and price. -/
theorem Sound.eq_of_queued {market : Market σ} (h : market.Sound) {side : Side} {price : Price}
    {entry : QueueEntry} {maker : Offer} (hentry : entry ∈ (market.book side).queueAt price)
    (hlive : market.accounts.activeOffer? entry = some maker) :
    maker.side = side ∧ maker.price = price :=
  h.coherent.eq_of_queued hentry hlive

theorem Sound.mem_queueAt_of_ranked {market : Market σ} (h : market.Sound) {side : Side}
    {price : Price} {entry : QueueEntry} {rest : List (Price × QueueEntry)}
    (hr : (market.book side).ranked = (price, entry) :: rest) :
    entry ∈ (market.book side).queueAt price :=
  (h.wellFormed side).mem_ranked_iff.mp (hr ▸ List.mem_cons_self)

theorem Sound.side_eq_of_ranked {market : Market σ} (h : market.Sound) {side : Side} {price : Price}
    {entry : QueueEntry} {rest : List (Price × QueueEntry)} {maker : Offer}
    (hr : (market.book side).ranked = (price, entry) :: rest)
    (hlive : market.accounts.activeOffer? entry = some maker) :
    maker.side = side ∧ maker.price = price :=
  h.eq_of_queued (h.mem_queueAt_of_ranked hr) hlive

/-- A book lists no entry twice. -/
theorem Sound.nodup_ranked {market : Market σ} (h : market.Sound) (side : Side) :
    ((market.book side).ranked.map (·.2)).Nodup := by
  have hw := h.wellFormed side
  refine List.pairwise_map.mpr
    ((hw.pairwise_ranked (h.age side)).imp_of_mem fun {a b} ha hb hab he => ?_)
  have hprice : a.1 = b.1 :=
    (h.one_queue (hw.mem_ranked_iff.mp ha) (hw.mem_ranked_iff.mp hb) (he ▸ rfl)).2
  rcases hab with hbetter | ⟨-, hlt⟩
  · rw [hprice, Side.isBetter_irrefl] at hbetter
    cases hbetter
  · rw [he] at hlt
    exact Nat.lt_irrefl _ hlt

/-- The best entry of a book comes in it once. -/
theorem Sound.ne_of_mem_rest {market : Market σ} (h : market.Sound) {side : Side} {price : Price}
    {entry : QueueEntry} {rest : List (Price × QueueEntry)}
    (hr : (market.book side).ranked = (price, entry) :: rest) {x : Price × QueueEntry}
    (hx : x ∈ rest) : x.2 ≠ entry := by
  have hnodup := h.nodup_ranked side
  rw [hr, List.map_cons, List.nodup_cons] at hnodup
  exact fun he => hnodup.1 (List.mem_map.mpr ⟨x, hx, he⟩)

/-- The next deal can be settled if it leaves its parties in range. -/
theorem Sound.canSettle_nextDeal {market : Market σ} (h : market.Sound) {taker maker : Offer}
    {entry : QueueEntry} (howner : (market.accounts.get? taker.owner).isSome)
    (hlive : market.accounts.activeOffer? entry = some maker)
    (hbuyer : ((market.nextDeal taker maker).balancesAfter market.accounts.balanceOf
      (market.nextDeal taker maker).buyer).InRange)
    (hseller : ((market.nextDeal taker maker).balancesAfter market.accounts.balanceOf
      (market.nextDeal taker maker).seller).InRange) :
    market.accounts.CanSettle (market.nextDeal taker maker) := by
  have hmaker : (market.accounts.get? maker.owner).isSome := by
    obtain ⟨account, hget, -⟩ := Ledger.activeOffer?_eq_some_iff.mp hlive
    rw [(h.resting hlive).owner_eq, hget]
    rfl
  have hamounts := (h.resting hlive).amounts_inRange (Nat.min_le_right taker.remaining maker.remaining)
  exact ⟨taker.isSome_buyer_dealWith _ _ howner hmaker, taker.isSome_seller_dealWith _ _ howner hmaker,
    fun _ => hamounts, fun _ => ⟨hbuyer, hseller⟩⟩

theorem Sound.expired {market : Market σ} (h : market.Sound) {side : Side} {price : Price}
    {entry : QueueEntry} {rest : List (Price × QueueEntry)}
    (hr : (market.book side).ranked = (price, entry) :: rest)
    (hdead : market.accounts.activeOffer? entry = none) :
    (market.withBook ((market.book side).pop price)).Sound :=
  h.pop ((h.wellFormed side).front?_of_ranked hr) hdead

theorem Sound.ranked_expired {market : Market σ} (h : market.Sound) {side : Side} {price : Price}
    {entry : QueueEntry} {rest : List (Price × QueueEntry)}
    (hr : (market.book side).ranked = (price, entry) :: rest) :
    ((market.withBook ((market.book side).pop price)).book side).ranked = rest := by
  rw [book_withBook]
  exact (h.wellFormed side).ranked_pop hr

/-! ## The steps of a trade -/

/-- What is left of a maker can take its place: it is open, and it is gone where it is not. -/
theorem Sound.returned {market : Market σ} (h : market.Sound) {maker : Offer} {entry : QueueEntry}
    (hlive : market.accounts.activeOffer? entry = some maker) (quantity : Quantity) :
    { market with
      accounts := market.accounts.returned entry (maker.fill quantity) }.Sound := by
  refine h.modify fun {old} hold => ?_
  have hmaker : old.activeOffers.get? entry.offer = some maker := by
    obtain ⟨owner, howner, hmaker⟩ := Ledger.activeOffer?_eq_some_iff.mp hlive
    rw [hold] at howner
    cases howner
    exact hmaker
  -- an offer is what is left of the maker, or an old one
  have hoffers : ∀ {id : OfferId} {offer : Offer},
      (old.returned entry.offer (maker.fill quantity)).activeOffers.get? id = some offer →
        (id = entry.offer ∧ offer = maker.fill quantity ∧ offer.isFulfilled = false) ∨
          old.activeOffers.get? id = some offer := by
    intro id offer ho
    rw [Account.activeOffers_returned] at ho
    by_cases hi : id = entry.offer
    · rw [if_pos hi, hmaker, Option.bind_some] at ho
      by_cases hdone : (maker.fill quantity).isFulfilled = true
      · rw [if_pos hdone] at ho
        cases ho
      · rw [if_neg hdone] at ho
        cases ho
        exact .inl ⟨hi, rfl, Bool.eq_false_iff.mpr hdone⟩
    · rw [if_neg hi] at ho
      exact .inr ho
  constructor
  case sound =>
    refine ⟨?_, ?_, fun {id offer} ho => ?_⟩
    · rw [Account.id_returned]
      exact (h.accounts hold).id_eq
    · rw [Account.balance_returned]
      exact (h.accounts hold).balance_inRange
    · rcases hoffers ho with ⟨rfl, rfl, hopen⟩ | ho
      · exact (h.resting hlive).fill hopen
      · exact (h.accounts hold).resting ho
  case deals_lt =>
    intro id deal hdeal
    rw [Account.closedDeals_returned] at hdeal
    exact h.deals_lt hold hdeal
  case offers =>
    intro id offer ho
    rcases hoffers ho with ⟨rfl, rfl, -⟩ | ho
    · exact ⟨maker, hmaker, rfl, rfl⟩
    · exact ⟨offer, ho, rfl, rfl⟩

/-- Settling a deal under the next number touches balances and closed deals only. -/
theorem Sound.settled {market : Market σ} (h : market.Sound) {deal : Deal}
    (hid : deal.id = market.dealIds.next) (hbear : market.accounts.CanSettle deal) :
    { market with
      accounts := market.accounts.settled deal
      dealIds := market.dealIds.advance }.Sound := by
  refine h.withAccounts fun {user account} hget => ?_
  rw [Ledger.get?_settled] at hget
  obtain ⟨old, hold, rfl⟩ := Option.map_eq_some_iff.mp hget
  refine ⟨old, hold, ?_⟩
  constructor
  case sound =>
    refine ⟨?_, ?_, fun {id offer} ho => ?_⟩
    · rw [Account.id_settled]
      exact (h.accounts hold).id_eq
    · rw [Account.balance_settled]
      exact hbear.balance_inRange hold (h.accounts hold).balance_inRange
    · rw [Account.activeOffers_settled] at ho
      exact (h.accounts hold).resting ho
  case deals_lt =>
    intro id d hd
    have hlt : ∀ {d : Deal}, old.closedDeals.get? id = some d → id < market.dealIds.advance.next :=
      fun hd => Nat.lt_succ_of_lt (h.deals_lt hold hd)
    rw [Account.closedDeals_settled] at hd
    split at hd
    · rw [SortedMap.get?_insert] at hd
      by_cases hi : id = deal.id
      · rw [hi, hid]
        exact Nat.lt_succ_self _
      · rw [if_neg hi] at hd
        exact hlt hd
    · exact hlt hd
  case offers =>
    intro id offer ho
    rw [Account.activeOffers_settled] at ho
    exact ⟨offer, ho, rfl, rfl⟩

/-- What is reported of a market does not matter to its soundness. -/
theorem Sound.reported {market : Market σ} (h : market.Sound) (quote : Option Price) (store : σ) :
    { market with quote, store }.Sound :=
  ⟨h.accounts, h.users_lt, h.deals_lt, h.wellFormed, h.age, h.entries_lt, h.one_queue, h.queued⟩

/-! ## A trade -/

variable [RecordStore σ]

/-- The market after an incoming offer has traded with the offer behind the best entry. -/
def struck (market : Market σ) (taker : Offer) (entry : QueueEntry) (maker : Offer) : Market σ :=
  let deal := market.nextDeal taker maker
  let left := maker.fill (min taker.remaining maker.remaining)
  let settled := { market with
    accounts := (market.accounts.returned entry left).settled deal
    quote := some maker.price
    dealIds := market.dealIds.advance
    store := RecordStore.notify market.store deal.toRecord }
  if left.isFulfilled then
    settled.withBook ((market.book taker.side.opposite).pop maker.price)
  else settled

theorem accounts_struck (market : Market σ) (taker : Offer) (entry : QueueEntry) (maker : Offer) :
    (market.struck taker entry maker).accounts =
      (market.accounts.returned entry (maker.fill (min taker.remaining maker.remaining))).settled
        (market.nextDeal taker maker) := by
  unfold struck
  dsimp only
  split <;> rfl

/-- Where a trade leaves something of the maker, it leaves the books alone; else it takes the best entry
    out of the one it was made in. -/
theorem book_struck (market : Market σ) (taker : Offer) (entry : QueueEntry) (maker : Offer) :
    (market.struck taker entry maker).book taker.side.opposite =
      if (maker.fill (min taker.remaining maker.remaining)).isFulfilled then
        (market.book taker.side.opposite).pop maker.price
      else market.book taker.side.opposite := by
  unfold struck
  dsimp only
  split
  · exact book_withBook _ _
  · rfl

theorem dealIds_struck (market : Market σ) (taker : Offer) (entry : QueueEntry) (maker : Offer) :
    (market.struck taker entry maker).dealIds = market.dealIds.advance := by
  unfold struck
  dsimp only
  split <;> rfl

/-- A trade does to the balances what its deal does in exact arithmetic. -/
theorem balanceOf_struck {market : Market σ} {taker maker : Offer}
    (hbear : market.accounts.CanSettle (market.nextDeal taker maker)) (entry : QueueEntry) :
    (market.struck taker entry maker).accounts.balanceOf =
      (market.nextDeal taker maker).balancesAfter market.accounts.balanceOf := by
  rw [accounts_struck, Ledger.balanceOf_settled (hbear.returned entry _), Ledger.balanceOf_returned]

theorem Sound.activeOffer?_struck {market : Market σ} (h : market.Sound) {taker maker : Offer}
    {entry : QueueEntry} (hlive : market.accounts.activeOffer? entry = some maker) (e : QueueEntry) :
    (market.struck taker entry maker).accounts.activeOffer? e =
      if e = entry then maker.leftAfter (min taker.remaining maker.remaining)
      else market.accounts.activeOffer? e := by
  rw [accounts_struck, Ledger.activeOffer?_settled,
    Ledger.activeOffer?_returned hlive (h.resting hlive).consistent]

/-- **A trade keeps a market sound.** -/
theorem Sound.struck {market : Market σ} (h : market.Sound) {taker maker : Offer}
    {entry : QueueEntry} {rest : List (Price × QueueEntry)}
    (hr : (market.book taker.side.opposite).ranked = (maker.price, entry) :: rest)
    (hlive : market.accounts.activeOffer? entry = some maker)
    (hbear : market.accounts.CanSettle (market.nextDeal taker maker)) :
    (market.struck taker entry maker).Sound := by
  have hid : (market.nextDeal taker maker).id = market.dealIds.next := rfl
  have hreturned := h.returned hlive (min taker.remaining maker.remaining)
  have hsettled := (hreturned.settled hid (hbear.returned entry _)).reported (some maker.price)
    (RecordStore.notify market.store (market.nextDeal taker maker).toRecord)
  have hdead : (market.struck taker entry maker).accounts.activeOffer? entry = _ :=
    h.activeOffer?_struck hlive entry
  unfold Market.struck at hdead ⊢
  dsimp only at hdead ⊢
  by_cases hdone : (maker.fill (min taker.remaining maker.remaining)).isFulfilled = true
  · rw [if_pos hdone] at hdead ⊢
    refine hsettled.pop ((h.wellFormed _).front?_of_ranked hr) ?_
    rw [(h.resting hlive).consistent.leftAfter_eq, if_pos rfl, if_pos hdone] at hdead
    exact hdead
  · rw [if_neg hdone]
    exact hsettled

/-- A trade that fulfils the maker takes its entry out of the book. -/
theorem Sound.ranked_struck {market : Market σ} (h : market.Sound) {taker maker : Offer}
    {entry : QueueEntry} {rest : List (Price × QueueEntry)}
    (hr : (market.book taker.side.opposite).ranked = (maker.price, entry) :: rest)
    (hmaker : (maker.fill (min taker.remaining maker.remaining)).isFulfilled = true) :
    ((market.struck taker entry maker).book taker.side.opposite).ranked = rest := by
  rw [book_struck, if_pos hmaker]
  exact (h.wellFormed _).ranked_pop hr

omit [RecordStore σ] in
/-- A trade that leaves something of the maker fulfils the incoming offer. -/
theorem Sound.isFulfilled_of_outlasted {market : Market σ} (h : market.Sound) {taker maker : Offer}
    {entry : QueueEntry} {rest : List (Price × QueueEntry)}
    (hr : (market.book taker.side.opposite).ranked = (maker.price, entry) :: rest)
    (hlive : market.accounts.activeOffer? entry = some maker)
    (hmaker : (maker.fill (min taker.remaining maker.remaining)).isFulfilled = false) :
    (taker.fill (min taker.remaining maker.remaining)).isFulfilled = true := by
  have hside := (h.side_eq_of_ranked hr hlive).1
  exact (Offer.trade_fulfils (Offer.trade_eq_ok hside market.dealIds.next)).resolve_right
    (by rw [hmaker]; nofun)

/-- Such a trade leaves the book as it is. -/
theorem ranked_struck_of_outlasted {market : Market σ} {taker maker : Offer} (entry : QueueEntry)
    (hmaker : (maker.fill (min taker.remaining maker.remaining)).isFulfilled = false) :
    ((market.struck taker entry maker).book taker.side.opposite).ranked =
      (market.book taker.side.opposite).ranked := by
  rw [book_struck, if_neg (by rw [hmaker]; nofun)]

/-! ## What an incoming offer meets -/

omit [RecordStore σ] in
theorem accounts_returnMaker (market : Market σ) (price : Price) (entry : QueueEntry) (left : Offer)
    (side : Side) :
    (market.returnMaker price entry left side).accounts = market.accounts.returned entry left := by
  unfold returnMaker Ledger.returned Account.returned
  split <;> rfl

theorem settle_eq_ok {market : Market σ} {deal : Deal} (h : market.accounts.CanSettle deal) :
    market.settle deal = (.ok (), { market with
      accounts := market.accounts.settled deal
      store := RecordStore.notify market.store deal.toRecord }) := by
  unfold Market.settle
  rw [Ledger.settle_eq_ok h]

theorem strike_eq_traded {market : Market σ} {taker maker : Offer} {entry : QueueEntry}
    (hside : maker.side = taker.side.opposite)
    (hbear : market.accounts.CanSettle (market.nextDeal taker maker)) :
    market.strike taker maker.price entry maker =
      .traded (market.nextDeal taker maker) (taker.fill (min taker.remaining maker.remaining))
        (market.struck taker entry maker) := by
  have hreturned : (({ market with dealIds := market.dealIds.advance }).returnMaker maker.price entry
      (maker.fill (min taker.remaining maker.remaining)) taker.side.opposite).accounts.CanSettle
        (market.nextDeal taker maker) := by
    rw [accounts_returnMaker]
    exact hbear.returned entry _
  have hsettle := settle_eq_ok hreturned
  unfold nextDeal at hsettle
  unfold strike
  rw [Offer.trade_eq_ok hside]
  dsimp only
  rw [hsettle, accounts_returnMaker]
  unfold returnMaker struck
  dsimp only
  cases (maker.fill (min taker.remaining maker.remaining)).isFulfilled <;> rfl

theorem Sound.meet_eq_nothing {market : Market σ} (h : market.Sound) {taker : Offer}
    (hblocked : market.Blocked taker) : market.meet taker = .nothing := by
  have hw := h.wellFormed taker.side.opposite
  unfold Blocked at hblocked
  unfold meet
  dsimp only
  cases hr : (market.book taker.side.opposite).ranked with
  | nil => rw [hw.bestPrice?_of_ranked_nil hr]
  | cons x rest =>
    have hno : taker.side.crosses taker.price x.1 = false := hblocked x (by rw [hr]; rfl)
    rw [hw.bestPrice?_of_ranked hr]
    dsimp only
    rw [if_neg (by rw [hno]; nofun)]

theorem Sound.meet_eq_expired {market : Market σ} (h : market.Sound) {taker : Offer} {price : Price}
    {entry : QueueEntry} {rest : List (Price × QueueEntry)}
    (hr : (market.book taker.side.opposite).ranked = (price, entry) :: rest)
    (hcross : taker.side.crosses taker.price price = true)
    (hdead : market.accounts.activeOffer? entry = none) :
    market.meet taker = .expired (market.withBook ((market.book taker.side.opposite).pop price)) := by
  have hw := h.wellFormed taker.side.opposite
  unfold meet
  dsimp only
  rw [hw.bestPrice?_of_ranked hr]
  dsimp only
  rw [if_pos hcross, hw.front?_of_ranked hr]
  dsimp only
  rw [hdead]

theorem Sound.meet_eq_strike {market : Market σ} (h : market.Sound) {taker maker : Offer}
    {price : Price} {entry : QueueEntry} {rest : List (Price × QueueEntry)}
    (hr : (market.book taker.side.opposite).ranked = (price, entry) :: rest)
    (hcross : taker.side.crosses taker.price price = true)
    (hlive : market.accounts.activeOffer? entry = some maker) :
    market.meet taker = market.strike taker price entry maker := by
  have hw := h.wellFormed taker.side.opposite
  unfold meet
  dsimp only
  rw [hw.bestPrice?_of_ranked hr]
  dsimp only
  rw [if_pos hcross, hw.front?_of_ranked hr]
  dsimp only
  rw [hlive]

/-- **A live entry is traded with** where both parties can bear the deal. -/
theorem Sound.meet_eq_traded {market : Market σ} (h : market.Sound) {taker maker : Offer}
    {entry : QueueEntry} {rest : List (Price × QueueEntry)}
    (hr : (market.book taker.side.opposite).ranked = (maker.price, entry) :: rest)
    (hcross : taker.side.crosses taker.price maker.price = true)
    (hlive : market.accounts.activeOffer? entry = some maker)
    (hbear : market.accounts.CanSettle (market.nextDeal taker maker)) :
    market.meet taker = .traded (market.nextDeal taker maker)
      (taker.fill (min taker.remaining maker.remaining)) (market.struck taker entry maker) :=
  (h.meet_eq_strike hr hcross hlive).trans
    (strike_eq_traded (h.side_eq_of_ranked hr hlive).1 hbear)

end Market

end Bourse
