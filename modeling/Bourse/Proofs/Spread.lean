import Bourse.Proofs.History

/-!
# `Bourse.Proofs.Spread` — the two books never cross

Every price of the buy book is below every price of the sell book, expired entries included
(`Market.Uncrossed`). Dropping entries cannot change that, so it is a matter of postings alone: what is left
of an offer comes to rest only when the loop has ended at a best price outside its limit
(`Matching.blocked`), and then every price of the other side is outside of it (`Sound.not_crosses`).
-/

namespace Bourse

/-- Two offers of different sides cross each other or neither does. -/
theorem Side.crosses_comm (side : Side) (price other : Price) :
    side.opposite.crosses other price = side.crosses price other := by
  cases side <;> rfl

namespace Market

variable {σ : Type}

/-- No price of either book is within the limit of an entry of the other. -/
def Uncrossed (market : Market σ) : Prop :=
  ∀ side price, ∀ entry ∈ (market.book side).queueAt price,
    ∀ other, ∀ entry' ∈ (market.book side.opposite).queueAt other, side.crosses price other = false

/-- Books stay uncrossed if they lose entries only. -/
theorem Uncrossed.of_sublist {market after : Market σ} (h : market.Uncrossed)
    (hsub : ∀ side price,
      ((after.book side).queueAt price).Sublist ((market.book side).queueAt price)) :
    after.Uncrossed :=
  fun _ _ _ he _ _ he' => h _ _ _ ((hsub _ _).subset he) _ _ ((hsub _ _).subset he')

/-- Books stay uncrossed if an offer comes to rest whose limit admits no price of the other side. -/
theorem Uncrossed.rested {market : Market σ} (h : market.Uncrossed) {offer : Offer} {account : Account}
    (hlimit : ∀ {other : Price} {entry : QueueEntry},
      entry ∈ (market.book offer.side.opposite).queueAt other →
        offer.side.crosses offer.price other = false) :
    (market.rested offer account).Uncrossed := by
  intro side price entry he other entry' he'
  rcases mem_queueAt_rested he with ⟨rfl, rfl, -⟩ | hold
  · rcases mem_queueAt_rested he' with ⟨hside, -, -⟩ | hold'
    · -- one offer does not rest on both sides
      cases hs : offer.side <;> simp [hs, Side.opposite] at hside
    · exact hlimit hold'
  · rcases mem_queueAt_rested he' with ⟨hside, rfl, -⟩ | hold'
    · have hown : side = offer.side.opposite := by
        rw [← hside, Side.opposite_opposite]
      subst hown
      rw [Side.crosses_comm]
      exact hlimit hold
    · exact h _ _ _ hold _ _ hold'

/-- Where the best price is outside the limit of an offer, every price is. -/
theorem Sound.not_crosses {market : Market σ} (h : market.Sound) {taker : Offer}
    (hblocked : market.Blocked taker) {price : Price} {entry : QueueEntry}
    (he : entry ∈ (market.book taker.side.opposite).queueAt price) :
    taker.side.crosses taker.price price = false := by
  have hw := h.wellFormed taker.side.opposite
  have hmem := hw.mem_ranked_iff.mpr he
  have horder := hw.pairwise_ranked (h.age _)
  unfold Blocked at hblocked
  cases hr : (market.book taker.side.opposite).ranked with
  | nil =>
    rw [hr] at hmem
    cases hmem
  | cons best rest =>
    rw [hr] at hblocked hmem horder
    have hbest : taker.side.crosses taker.price best.1 = false := hblocked best rfl
    rcases List.mem_cons.mp hmem with heq | hrest
    · rw [← heq] at hbest
      exact hbest
    · rw [← Bool.not_eq_true] at hbest ⊢
      intro hcross
      rcases (List.pairwise_cons.mp horder).1 _ hrest with hbetter | ⟨hprice, -⟩
      · exact hbest (Side.crosses_of_isBetter hbetter hcross)
      · rw [hprice] at hbest
        exact hbest hcross

/-! ## Levels, offers and quotes -/

/-- Two levels of different sides do not cross. -/
theorem Uncrossed.level_lt {market : Market σ} (hu : market.Uncrossed) (h : market.Sound)
    {low high : Price} {level level' : Level} (hlow : (market.book .buy).levels.get? low = some level)
    (hhigh : (market.book .sell).levels.get? high = some level') : low < high := by
  obtain ⟨entry, hentry⟩ := List.exists_mem_of_ne_nil _ ((h.wellFormed .buy).nonempty hlow)
  obtain ⟨entry', hentry'⟩ := List.exists_mem_of_ne_nil _ ((h.wellFormed .sell).nonempty hhigh)
  rw [← Book.queueAt_of_get? hlow] at hentry
  rw [← Book.queueAt_of_get? hhigh] at hentry'
  have hno := hu .buy low entry hentry high entry' hentry'
  exact Int.not_le.mp (of_decide_eq_false hno)

/-- The price that is quoted for a side is one of that side's book. -/
theorem mem_queueAt_of_sideQuote {market : Market σ} {side : Side} {price : Price}
    (h : (market.sideQuote side).1 = some price) :
    ∃ entry, entry ∈ (market.book side).queueAt price := by
  obtain ⟨entry, hfront, -⟩ := Book.front?_of_prune h
  exact ⟨entry, (Book.queueAt_prune_sublist _ _ _ price).subset (Book.mem_queueAt_of_front? hfront)⟩

/-- What is left of an accepted posting waits in the book of its side, at its limit. -/
theorem Posted.mem_queueAt {market after : Market σ} {user : UserId} {side : Side} {price : Price}
    {quantity : Quantity} {posting : Posting}
    (h : market.Posted user side price quantity posting after) (hafter : after.Sound)
    (hrest : posting.remaining ≠ 0) :
    ⟨posting.offer, user⟩ ∈ (after.book side).queueAt price := by
  have hopen : ¬(Offer.post posting.offer user side price quantity).remaining ≤
      Deal.traded posting.deals := by
    intro hle
    have hsum : posting.remaining + Deal.traded posting.deals ≤ 0 + Deal.traded posting.deals := by
      rw [h.remaining_eq, Nat.zero_add]
      exact hle
    exact hrest (Nat.le_zero.mp (Nat.le_of_add_le_add_right hsum))
  have hlive := h.activeOffer?_new
  unfold Offer.leftAfter at hlive
  rw [if_neg hopen] at hlive
  exact hafter.queued hlive

/-! ## Markets over time -/

variable [RecordStore σ]

/-- **An offer that matching leaves something of is blocked in the end.** -/
theorem Matching.blocked_of_open {market after : Market σ} {taker last : Offer} {deals : List Deal}
    (h : Matching market taker deals last after) (hopen : last.isFulfilled = false) :
    after.Blocked last := by
  induction h with
  | fulfilled hdone =>
    rw [hdone] at hopen
    cases hopen
  | blocked hblocked => exact hblocked
  | expired _ _ _ _ _ ih => exact ih hopen
  | traded _ _ _ _ _ _ ih => exact ih hopen

/-- **A posting keeps the books uncrossed.** -/
theorem Sound.uncrossed_post {market : Market σ} (h : market.Sound) (hu : market.Uncrossed)
    (user : UserId) (side : Side) (price : Price) (quantity : Quantity) :
    (market.post user side price quantity).2.Uncrossed := by
  rcases h.post_cases user side price quantity with
    ⟨cause, -, hp⟩ | ⟨-, last, matched, after, hmatching, hrests, hp⟩
  · rw [hp]
    exact hu
  · rw [hp]
    have hmatched : matched.Uncrossed := hu.of_sublist hmatching.queueAt_sublist
    cases hrests with
    | nothing => exact hmatched
    | rest hopen hget =>
      have hsound := hmatching.sound (h.announced _)
      exact hmatched.rested fun he => hsound.not_crosses (hmatching.blocked_of_open hopen) he

theorem Sound.uncrossed_apply {market : Market σ} (h : market.Sound) (hu : market.Uncrossed)
    (operation : Operation) : (market.apply operation).2.Uncrossed := by
  -- all but a posting leave the books alone or drop entries
  have hsame : ∀ {after : Market σ}, after.books = market.books → after.Uncrossed := by
    intro after hbooks
    refine hu.of_sublist fun side price => ?_
    unfold Market.book
    rw [hbooks]
  cases operation with
  | register username => exact hsame rfl
  | deposit user currency amount =>
    exact hsame (market.books_offerIds_deposit user currency amount).1
  | post user side price quantity => exact h.uncrossed_post hu user side price quantity
  | cancel user offer => exact hsame (market.books_offerIds_cancel user offer).1
  | quotes =>
    refine hu.of_sublist fun side price => ?_
    refine (queueAt_withBook_sublist (fun p => Book.queueAt_prune_sublist _ _ _ p) side price).trans ?_
    exact queueAt_withBook_sublist (fun p => Book.queueAt_prune_sublist _ _ _ p) side price

theorem Reachable.uncrossed {market : Market σ} (h : market.Reachable) : market.Uncrossed := by
  refine h.invariant (fun hstart => ?_) fun hreachable hu operation =>
    hreachable.sound.uncrossed_apply hu operation
  obtain ⟨userIds, offerIds, dealIds, rfl⟩ := start_eq hstart
  intro side price entry he
  cases side <;> cases he

/-- **The books never cross.** Every price of the buy book is below every price of the sell book, expired
    entries included. So what a posting leaves to rest crosses no active offer of the other side, whoever
    owns it, and the spread of the quotes is positive where there is one. -/
theorem buy_lt_sell {market : Market σ} (h : market.Reachable) :
    (∀ {low high : Price} {level level' : Level},
      (market.book .buy).levels.get? low = some level →
        (market.book .sell).levels.get? high = some level' → low < high) ∧
    (∀ {user : UserId} {side : Side} {price : Price} {quantity : Quantity} {posting : Posting}
      {after : Market σ}, market.post user side price quantity = (.ok posting, after) →
        posting.remaining ≠ 0 → ∀ {entry : QueueEntry} {offer : Offer},
          after.accounts.activeOffer? entry = some offer → offer.side = side.opposite →
            side.crosses price offer.price = false) ∧
    ∀ {ask bid : Price}, market.quotes.1 = ⟨some ask, some bid⟩ →
      market.quotes.1.spread = some (bid - ask) ∧ 0 < bid - ask := by
  refine ⟨h.uncrossed.level_lt h.sound, ?_, ?_⟩
  · intro user side price quantity posting after hpost hrest entry offer hlive hside
    have hafter : after.Reachable := by
      have hreached : (market.post user side price quantity).2.Reachable :=
        h.apply (.post user side price quantity)
      rw [hpost] at hreached
      exact hreached
    have hnew : ⟨posting.offer, user⟩ ∈ (after.book side).queueAt price := by
      rcases h.sound.posted_cases user side price quantity with ⟨cause, hp⟩ | ⟨p, a, hp, hposted⟩
      · rw [hp] at hpost
        cases hpost
      · rw [hp] at hpost
        cases hpost
        exact hposted.mem_queueAt hafter.sound hrest
    have hqueued := hafter.sound.queued hlive
    rw [hside] at hqueued
    exact hafter.uncrossed side price _ hnew offer.price entry hqueued
  · intro ask bid hquotes
    have hask : (market.sideQuote .buy).1 = some ask := congrArg (·.ask) hquotes
    have hbid : ((market.sideQuote .buy).2.sideQuote .sell).1 = some bid := congrArg (·.bid) hquotes
    obtain ⟨entry, hentry⟩ := mem_queueAt_of_sideQuote hask
    obtain ⟨entry', hentry'⟩ := mem_queueAt_of_sideQuote hbid
    have hno := h.uncrossed .buy ask entry hentry bid entry' hentry'
    have hlt : ask < bid := Int.not_le.mp (of_decide_eq_false hno)
    rw [hquotes]
    exact ⟨rfl, Int.sub_pos.mpr hlt⟩

/-- A market with an expired entry on either side, in which an offer comes to rest between the two. -/
theorem buy_lt_sell_of_expired :
    ∃ (market after : Market VoidStore) (posting : Posting),
      market.Reachable ∧ market.post 1 .buy 5 4 = (.ok posting, after) ∧ posting.remaining = 1 ∧
        after.quotes.1 = ⟨some 4, some 7⟩ ∧ after.quotes.1.spread = some (7 - 4) ∧
        (4 : Price) < 7 ∧ (0 : Int) < 7 - 4 ∧ Side.buy.crosses 5 7 = false := by
  let start : Market VoidStore := { store := {} }
  let operations : List Operation := [.register "a", .register "b", .post 0 .sell 5 3,
    .post 0 .sell 5 3, .post 0 .sell 7 1, .post 0 .sell 9 1, .post 1 .buy 4 1, .post 1 .buy 4 1,
    .cancel 0 0, .cancel 0 3, .cancel 1 4]
  obtain ⟨market, hreachable, hanswer, hquotes, hlow, hhigh, offer, hoffer, hside, hprice⟩ :
      ∃ market : Market VoidStore, market.Reachable ∧
        (market.post 1 .buy 5 4).1 = .ok ⟨6, [⟨0, 0, 1, 1, 6, 5, 3⟩], 1⟩ ∧
        (market.post 1 .buy 5 4).2.quotes.1 = ⟨some 4, some 7⟩ ∧
        ((market.post 1 .buy 5 4).2.book .buy).levels.get? 4 = some ⟨4, [⟨4, 1⟩, ⟨5, 1⟩]⟩ ∧
        ((market.post 1 .buy 5 4).2.book .sell).levels.get? 7 = some ⟨7, [⟨2, 0⟩]⟩ ∧
        ∃ offer, (market.post 1 .buy 5 4).2.accounts.activeOffer? ⟨2, 0⟩ = some offer ∧
          offer.side = .sell ∧ offer.price = 7 :=
    ⟨(start.run operations).2, Reachable.run (.start (rfl : Market.start _ false = _)) _,
      by decide +kernel, by decide +kernel, by decide +kernel, by decide +kernel, by decide +kernel⟩
  have hpost : market.post 1 .buy 5 4 =
      (.ok ⟨6, [⟨0, 0, 1, 1, 6, 5, 3⟩], 1⟩, (market.post 1 .buy 5 4).2) := by
    rw [← hanswer]
  have hafter : (market.post 1 .buy 5 4).2.Reachable := hreachable.apply (.post 1 .buy 5 4)
  obtain ⟨hspread, hpositive⟩ := (buy_lt_sell hafter).2.2 hquotes
  have hno := (buy_lt_sell hreachable).2.1 hpost Nat.one_ne_zero hoffer hside
  rw [hprice] at hno
  exact ⟨market, _, _, hreachable, hpost, rfl, hquotes, hspread, (buy_lt_sell hafter).1 hlow hhigh,
    hpositive, hno⟩

end Market

end Bourse
