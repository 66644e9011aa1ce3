import Bourse.Proofs.Meeting

/-!
# `Bourse.Proofs.Matching` — matching as a sequence of meetings

`matchTaker` is a loop over the book that settles deals on the way and can be refused in the middle of
them. `Market.Matching` relates the state before a loop that goes through to the state after it, one
constructor for each kind of meeting, so that what the loop does to a market is an induction over its
meetings.

* `Matching.matchTaker_eq`: a matching is what the loop computes.
* `Sound.exists_matching`: on a sound market there is one that makes the deals the book has for the incoming
  offer, `bookDeals`, if these keep every balance in range.
* `Matching.sound`, `Matching.activeOffer?_eq` and `Matching.last_eq`: what it makes of the market, of the
  offers that rest in it and of the incoming offer.
-/

namespace Bourse

/-! ## The offers that are met -/

namespace Ledger

/-- The active offers that an incoming offer meets on its way through the entries of a book. -/
def met (ledger : Ledger) (side : Side) (limit : Price) : List (Price × QueueEntry) → List Offer
  | [] => []
  | (price, entry) :: rest =>
    if side.crosses limit price then
      match ledger.activeOffer? entry with
      | none => ledger.met side limit rest
      | some maker => maker :: ledger.met side limit rest
    else []

theorem met_of_not_crosses {ledger : Ledger} {side : Side} {limit price : Price} {entry : QueueEntry}
    {rest : List (Price × QueueEntry)} (h : side.crosses limit price = false) :
    ledger.met side limit ((price, entry) :: rest) = [] := by
  rw [met, if_neg (by rw [h]; nofun)]

theorem met_of_expired {ledger : Ledger} {side : Side} {limit price : Price} {entry : QueueEntry}
    {rest : List (Price × QueueEntry)} (hcross : side.crosses limit price = true)
    (hdead : ledger.activeOffer? entry = none) :
    ledger.met side limit ((price, entry) :: rest) = ledger.met side limit rest := by
  rw [met, if_pos hcross, hdead]

theorem met_of_live {ledger : Ledger} {side : Side} {limit price : Price} {entry : QueueEntry}
    {rest : List (Price × QueueEntry)} {maker : Offer} (hcross : side.crosses limit price = true)
    (hlive : ledger.activeOffer? entry = some maker) :
    ledger.met side limit ((price, entry) :: rest) = maker :: ledger.met side limit rest := by
  rw [met, if_pos hcross, hlive]

theorem met_congr {ledger ledger' : Ledger} (side : Side) (limit : Price)
    {entries : List (Price × QueueEntry)}
    (h : ∀ x ∈ entries, ledger.activeOffer? x.2 = ledger'.activeOffer? x.2) :
    ledger.met side limit entries = ledger'.met side limit entries := by
  induction entries with
  | nil => rfl
  | cons x rest ih =>
    rw [met, met, h x List.mem_cons_self, ih fun y hy => h y (List.mem_cons_of_mem _ hy)]

end Ledger

namespace Market

variable {σ : Type}

/-! ## The deals that the book has -/

/-- The deals that the book has for an incoming offer. -/
def bookDeals (market : Market σ) (taker : Offer) : List Deal :=
  taker.dealsOf market.dealIds.next (Offer.allot taker.remaining
    (market.accounts.met taker.side taker.price (market.book taker.side.opposite).ranked))

theorem bookDeals_of_fulfilled {market : Market σ} {taker : Offer} (hc : taker.Consistent)
    (hdone : taker.isFulfilled = true) : market.bookDeals taker = [] := by
  unfold bookDeals
  rw [hc.mp hdone, Offer.allot_zero]
  rfl

theorem bookDeals_of_blocked {market : Market σ} {taker : Offer} (hblocked : market.Blocked taker) :
    market.bookDeals taker = [] := by
  unfold Blocked at hblocked
  unfold bookDeals
  cases hr : (market.book taker.side.opposite).ranked with
  | nil => rfl
  | cons x rest =>
    rw [hr] at hblocked
    rw [Ledger.met_of_not_crosses (hblocked x rfl)]
    rfl

theorem Sound.bookDeals_of_expired {market : Market σ} (h : market.Sound) {taker : Offer}
    {price : Price} {entry : QueueEntry} {rest : List (Price × QueueEntry)}
    (hr : (market.book taker.side.opposite).ranked = (price, entry) :: rest)
    (hcross : taker.side.crosses taker.price price = true)
    (hdead : market.accounts.activeOffer? entry = none) :
    market.bookDeals taker =
      (market.withBook ((market.book taker.side.opposite).pop price)).bookDeals taker := by
  unfold bookDeals
  rw [hr, Ledger.met_of_expired hcross hdead, h.ranked_expired hr]
  rfl

variable [RecordStore σ]

/-- **A trade takes the first of the deals that the book has for an incoming offer** and leaves the
    others. -/
theorem Sound.bookDeals_of_live {market : Market σ} (h : market.Sound) {taker maker : Offer}
    {entry : QueueEntry} {rest : List (Price × QueueEntry)} (hwanted : taker.remaining ≠ 0)
    (hr : (market.book taker.side.opposite).ranked = (maker.price, entry) :: rest)
    (hcross : taker.side.crosses taker.price maker.price = true)
    (hlive : market.accounts.activeOffer? entry = some maker) :
    market.bookDeals taker = market.nextDeal taker maker ::
      (market.struck taker entry maker).bookDeals
        (taker.fill (min taker.remaining maker.remaining)) := by
  have hleft : (taker.fill (min taker.remaining maker.remaining)).remaining =
      taker.remaining - min taker.remaining maker.remaining := rfl
  unfold bookDeals
  rw [hr, Ledger.met_of_live hcross hlive, Offer.allot_cons hwanted, Offer.dealsOf_cons,
    Offer.dealsOf_fill, dealIds_struck, hleft]
  refine congrArg (List.cons _) (congrArg (Offer.dealsOf taker _) ?_)
  by_cases hmaker : (maker.fill (min taker.remaining maker.remaining)).isFulfilled = true
  · -- the entries behind this one name the offers that they did
    have hsame : ∀ x ∈ rest, market.accounts.activeOffer? x.2 =
        (market.struck taker entry maker).accounts.activeOffer? x.2 := by
      intro x hx
      rw [h.activeOffer?_struck hlive, if_neg (h.ne_of_mem_rest hr hx)]
    rw [Ledger.met_congr _ _ hsame]
    exact congrArg (fun entries => Offer.allot _ (Ledger.met _ _ _ entries))
      (h.ranked_struck hr hmaker).symm
  · have hmin := (h.resting hlive).consistent.min_eq_of_outlasts (Bool.eq_false_iff.mpr hmaker)
    rw [hmin, Nat.sub_self, Offer.allot_zero, Offer.allot_zero]

/-! ## The whole loop -/

/-- An incoming offer, matched from one state to another: the deals it makes and what is left of it. -/
inductive Matching : Market σ → Offer → List Deal → Offer → Market σ → Prop
  | fulfilled {market : Market σ} {taker : Offer} (hdone : taker.isFulfilled = true) :
      Matching market taker [] taker market
  | blocked {market : Market σ} {taker : Offer} (hblocked : market.Blocked taker) :
      Matching market taker [] taker market
  | expired {market after : Market σ} {taker last : Offer} {deals : List Deal} {price : Price}
      {entry : QueueEntry} {rest : List (Price × QueueEntry)} (hopen : taker.isFulfilled = false)
      (hr : (market.book taker.side.opposite).ranked = (price, entry) :: rest)
      (hcross : taker.side.crosses taker.price price = true)
      (hdead : market.accounts.activeOffer? entry = none)
      (hmore : Matching (market.withBook ((market.book taker.side.opposite).pop price)) taker deals
        last after) :
      Matching market taker deals last after
  | traded {market after : Market σ} {taker maker last : Offer} {deals : List Deal}
      {entry : QueueEntry} {rest : List (Price × QueueEntry)} (hopen : taker.isFulfilled = false)
      (hr : (market.book taker.side.opposite).ranked = (maker.price, entry) :: rest)
      (hcross : taker.side.crosses taker.price maker.price = true)
      (hlive : market.accounts.activeOffer? entry = some maker)
      (hbear : market.accounts.CanSettle (market.nextDeal taker maker))
      (hmore : Matching (market.struck taker entry maker)
        (taker.fill (min taker.remaining maker.remaining)) deals last after) :
      Matching market taker (market.nextDeal taker maker :: deals) last after

/-- **A matching keeps a market sound.** -/
theorem Matching.sound {market after : Market σ} {taker last : Offer} {deals : List Deal}
    (h : Matching market taker deals last after) (hs : market.Sound) : after.Sound := by
  induction h with
  | fulfilled => exact hs
  | blocked => exact hs
  | expired _ hr _ hdead _ ih => exact ih (hs.expired hr hdead)
  | traded _ hr _ hlive hbear _ ih => exact ih (hs.struck hr hlive hbear)

theorem matchTaker_of_nothing {market : Market σ} {taker : Offer}
    (hmeet : market.meet taker = .nothing) :
    market.matchTaker taker = (.ok (taker, []), market) := by
  rw [matchTaker]
  split
  · rfl
  · split <;> simp_all

theorem matchTaker_of_emptyLevel {market : Market σ} {taker : Offer}
    (hmeet : market.meet taker = .emptyLevel) :
    market.matchTaker taker = (.ok (taker, []), market) := by
  rw [matchTaker]
  split
  · rfl
  · split <;> simp_all

theorem matchTaker_of_expired {market after : Market σ} {taker : Offer}
    (hopen : taker.isFulfilled = false) (hmeet : market.meet taker = .expired after) :
    market.matchTaker taker = after.matchTaker taker := by
  rw [matchTaker, dif_neg (by rw [hopen]; nofun)]
  split <;> simp_all

theorem matchTaker_of_refused {market after : Market σ} {taker : Offer} {cause : TradeError}
    (hopen : taker.isFulfilled = false) (hmeet : market.meet taker = .refused cause after) :
    market.matchTaker taker = (.error cause, after) := by
  rw [matchTaker, dif_neg (by rw [hopen]; nofun)]
  split <;> simp_all

theorem matchTaker_of_traded {market after : Market σ} {taker left : Offer} {deal : Deal}
    (hopen : taker.isFulfilled = false) (hmeet : market.meet taker = .traded deal left after) :
    market.matchTaker taker = (after.matchTaker left).andThen fun (last, deals) market =>
      (.ok (last, deal :: deals), market) := by
  rw [matchTaker, dif_neg (by rw [hopen]; nofun)]
  split <;> simp_all

/-- **A matching is what the loop computes**: it makes the deals and refuses none. -/
theorem Matching.matchTaker_eq {market after : Market σ} {taker last : Offer} {deals : List Deal}
    (h : Matching market taker deals last after) (hs : market.Sound) :
    market.matchTaker taker = (.ok (last, deals), after) := by
  induction h with
  | fulfilled hdone => rw [matchTaker, dif_pos hdone]
  | blocked hblocked => exact matchTaker_of_nothing (hs.meet_eq_nothing hblocked)
  | expired hopen hr hcross hdead _ ih =>
    rw [matchTaker_of_expired hopen (hs.meet_eq_expired hr hcross hdead)]
    exact ih (hs.expired hr hdead)
  | traded hopen hr hcross hlive hbear _ ih =>
    rw [matchTaker_of_traded hopen (hs.meet_eq_traded hr hcross hlive hbear),
      ih (hs.struck hr hlive hbear)]
    rfl

/-- **Deals that keep every balance in range are made.** -/
theorem Sound.exists_matching {market : Market σ} (h : market.Sound) {taker : Offer}
    (hc : taker.Consistent) (howner : (market.accounts.get? taker.owner).isSome)
    (hfit : Deal.firstOutOfRange? market.accounts.balanceOf (market.bookDeals taker) = none) :
    ∃ last after, Matching market taker (market.bookDeals taker) last after := by
  -- by the entries of the book, of which every meeting but the last takes one
  induction hr : (market.book taker.side.opposite).ranked generalizing market taker with
  | nil =>
    have hblocked : market.Blocked taker := by
      intro x hx
      rw [hr] at hx
      cases hx
    rw [bookDeals_of_blocked hblocked]
    exact ⟨taker, market, .blocked hblocked⟩
  | cons x rest ih =>
    obtain ⟨price, entry⟩ := x
    by_cases hdone : taker.isFulfilled = true
    · rw [bookDeals_of_fulfilled hc hdone]
      exact ⟨taker, market, .fulfilled hdone⟩
    have hopen : taker.isFulfilled = false := Bool.eq_false_iff.mpr hdone
    by_cases hcross : taker.side.crosses taker.price price = true
    · cases hlive : market.accounts.activeOffer? entry with
      | none =>
        rw [h.bookDeals_of_expired hr hcross hlive] at hfit ⊢
        obtain ⟨last, after, hmore⟩ :=
          ih (h.expired hr hlive) hc howner hfit (h.ranked_expired hr)
        exact ⟨last, after, .expired hopen hr hcross hlive hmore⟩
      | some maker =>
        obtain ⟨-, rfl⟩ := h.side_eq_of_ranked hr hlive
        have hwanted : taker.remaining ≠ 0 := fun hzero => hdone (hc.mpr hzero)
        rw [h.bookDeals_of_live hwanted hr hcross hlive] at hfit ⊢
        obtain ⟨hbuyer, hseller, hfit⟩ := Deal.firstOutOfRange?_cons_eq_none_iff.mp hfit
        have hbear : market.accounts.CanSettle (market.nextDeal taker maker) :=
          h.canSettle_nextDeal howner hlive hbuyer hseller
        by_cases hmaker : (maker.fill (min taker.remaining maker.remaining)).isFulfilled = true
        · have howner' : ((market.struck taker entry maker).accounts.get? taker.owner).isSome := by
            rw [accounts_struck, Ledger.isSome_settled, Ledger.isSome_returned]
            exact howner
          rw [← balanceOf_struck hbear entry] at hfit
          obtain ⟨last, after, hmore⟩ := ih (h.struck hr hlive hbear) (hc.fill _) howner' hfit
            (h.ranked_struck hr hmaker)
          exact ⟨last, after, .traded hopen hr hcross hlive hbear hmore⟩
        · have hdone' := h.isFulfilled_of_outlasted hr hlive (Bool.eq_false_iff.mpr hmaker)
          rw [bookDeals_of_fulfilled (hc.fill _) hdone']
          exact ⟨_, _, .traded hopen hr hcross hlive hbear (.fulfilled hdone')⟩
    · have hblocked : market.Blocked taker := by
        intro x hx
        rw [hr] at hx
        cases hx
        exact Bool.eq_false_iff.mpr hcross
      rw [bookDeals_of_blocked hblocked]
      exact ⟨taker, market, .blocked hblocked⟩

/-! ## What a matching makes of the offers -/

/-- **The incoming offer loses what the deals traded.** -/
theorem Matching.last_eq {market after : Market σ} {taker last : Offer} {deals : List Deal}
    (h : Matching market taker deals last after) (hc : taker.Consistent) :
    last = taker.fill (Deal.traded deals) ∧ Deal.traded deals ≤ taker.remaining := by
  induction h with
  | fulfilled => exact ⟨hc.fill_zero.symm, Nat.zero_le _⟩
  | blocked => exact ⟨hc.fill_zero.symm, Nat.zero_le _⟩
  | expired _ _ _ _ _ ih => exact ih hc
  | @traded market after taker maker last deals entry rest _ _ _ _ _ _ ih =>
    obtain ⟨hlast, hle⟩ := ih (hc.fill _)
    have hquantity : (market.nextDeal taker maker).quantity = min taker.remaining maker.remaining := rfl
    have hleft : (taker.fill (min taker.remaining maker.remaining)).remaining =
        taker.remaining - min taker.remaining maker.remaining := rfl
    rw [Deal.traded_cons, hquantity]
    constructor
    · rw [hlast, Offer.fill_fill]
    · rw [hleft] at hle
      exact Nat.add_le_of_le_sub' (Nat.min_le_left _ _) hle

/-- **A resting offer loses what the deals took from it**, and goes with the last of it. -/
theorem Matching.activeOffer?_eq {market after : Market σ} {taker last : Offer} {deals : List Deal}
    (h : Matching market taker deals last after) (hs : market.Sound) (entry : QueueEntry) :
    after.accounts.activeOffer? entry = (market.accounts.activeOffer? entry).bind
      (·.leftAfter (Deal.takenFrom deals entry.offer)) := by
  -- without deals every offer stays
  have hnone : ∀ {market : Market σ}, market.Sound → market.accounts.activeOffer? entry =
      (market.accounts.activeOffer? entry).bind (·.leftAfter (Deal.takenFrom [] entry.offer)) := by
    intro market hs
    cases hlive : market.accounts.activeOffer? entry with
    | none => rfl
    | some offer => exact (hs.resting hlive).leftAfter_zero.symm
  induction h with
  | fulfilled => exact hnone hs
  | blocked => exact hnone hs
  | expired _ hr _ hdead _ ih => exact ih (hs.expired hr hdead)
  | @traded market after taker maker last deals found rest _ hr _ hlive hbear _ ih =>
    have hmaker : (market.nextDeal taker maker).maker = found.offer := (hs.resting hlive).id_eq
    rw [ih (hs.struck hr hlive hbear), hs.activeOffer?_struck hlive, Deal.takenFrom_cons, hmaker]
    by_cases he : entry = found
    · rw [if_pos he, he, if_pos rfl, hlive]
      exact maker.leftAfter_bind _ _
    · rw [if_neg he]
      cases hother : market.accounts.activeOffer? entry with
      | none => rfl
      | some offer =>
        have hid : found.offer ≠ entry.offer := fun hid =>
          he (hs.coherent.eq_of_active hother hlive hid.symm)
        rw [if_neg hid, Nat.zero_add]

/-! ## What a matching leaves alone -/

theorem Matching.offerIds_eq {market after : Market σ} {taker last : Offer} {deals : List Deal}
    (h : Matching market taker deals last after) : after.offerIds = market.offerIds := by
  induction h with
  | fulfilled => rfl
  | blocked => rfl
  | expired _ _ _ _ _ ih => exact ih
  | @traded market _ taker maker _ _ entry _ _ _ _ _ _ _ ih =>
    rw [ih]
    unfold struck
    dsimp only
    split <;> rfl

/-- A matching opens no account and closes none. -/
theorem Matching.isSome_account {market after : Market σ} {taker last : Offer} {deals : List Deal}
    (h : Matching market taker deals last after) (user : UserId) :
    (after.accounts.get? user).isSome = (market.accounts.get? user).isSome := by
  induction h with
  | fulfilled => rfl
  | blocked => rfl
  | expired _ _ _ _ _ ih => exact ih
  | traded _ _ _ _ _ _ ih => rw [ih, accounts_struck, Ledger.isSome_settled, Ledger.isSome_returned]

/-- A matching queues nothing. -/
theorem Matching.queueAt_sublist {market after : Market σ} {taker last : Offer} {deals : List Deal}
    (h : Matching market taker deals last after) (side : Side) (price : Price) :
    ((after.book side).queueAt price).Sublist ((market.book side).queueAt price) := by
  -- an entry less is a queue less
  have hpop : ∀ (market : Market σ) (s : Side) (p : Price),
      (((market.withBook ((market.book s).pop p)).book side).queueAt price).Sublist
        ((market.book side).queueAt price) :=
    fun _ _ p => queueAt_withBook_sublist (Book.queueAt_pop_sublist _ p) side price
  induction h with
  | fulfilled => exact .refl _
  | blocked => exact .refl _
  | expired _ _ _ _ _ ih => exact ih.trans (hpop _ _ _)
  | @traded market _ taker maker _ _ entry _ _ _ _ _ _ _ ih =>
    refine ih.trans ?_
    unfold struck
    dsimp only
    split
    · exact hpop _ _ _
    · exact .refl _

end Market

end Bourse
