import Bourse.Market.Run
import Bourse.Proofs.DryRun

/-!
# `Bourse.Proofs.Posting` — what becomes of a posted offer

A posting is refused with the objection to it and changes nothing, or it goes through: the offer is
announced, matched with the offers it is due to meet, and what is left of it comes to rest
(`Sound.post_cases`). On a sound market there is nothing in between, so every reachable market is sound
(`Reachable.sound`) and what is proved of sound markets holds of every market there can be.
-/

namespace Bourse

namespace Offer

theorem consistent_post {id : OfferId} {owner : UserId} {side : Side} {price : Price}
    {quantity : Quantity} (h : quantity ≠ 0) : (post id owner side price quantity).Consistent :=
  iff_of_false nofun h

theorem resting_post {id : OfferId} {owner : UserId} {side : Side} {price : Price}
    {quantity : Quantity} (h : quantity ≠ 0) (hquantity : Amount.InRange quantity)
    (hcost : Amount.InRange (price * quantity)) :
    (post id owner side price quantity).Resting owner id where
  id_eq := rfl
  owner_eq := rfl
  consistent := consistent_post h
  remaining_pos := Nat.pos_of_ne_zero h
  remaining_le := Nat.le_refl _
  quantity_inRange := hquantity
  cost_inRange := hcost

end Offer

namespace Market

variable {σ : Type}

/-- There is no objection to an offer of a registered user for some units at a cost in range whose deals
    keep every balance in range. -/
theorem objection?_eq_none_iff {market : Market σ} {user : UserId} {side : Side} {price : Price}
    {quantity : Quantity} :
    market.objection? user side price quantity = none ↔
      (market.accounts.get? user).isSome ∧ quantity ≠ 0 ∧ Amount.InRange quantity ∧
        Amount.InRange (price * quantity) ∧
          Deal.firstOutOfRange? market.balanceOf (market.dueDeals user side price quantity) = none := by
  unfold objection?
  by_cases huser : (market.accounts.get? user).isNone = true
  · rw [if_pos huser]
    refine iff_of_false nofun fun h => ?_
    rw [Option.isNone_iff_eq_none.mp huser] at h
    cases h.1
  · rw [if_neg huser]
    have hsome : (market.accounts.get? user).isSome :=
      Option.isSome_iff_ne_none.mpr fun hnone => huser (Option.isNone_iff_eq_none.mpr hnone)
    by_cases hquantity : quantity = 0
    · rw [if_pos hquantity]
      exact iff_of_false nofun fun h => h.2.1 hquantity
    · rw [if_neg hquantity]
      by_cases hcost : Amount.InRange quantity ∧ Amount.InRange (price * quantity)
      · rw [if_neg (not_not_intro hcost), Option.map_eq_none_iff]
        exact ⟨fun h => ⟨hsome, hquantity, hcost.1, hcost.2, h⟩, fun h => h.2.2.2.2⟩
      · rw [if_pos hcost]
        exact iff_of_false nofun fun h => hcost ⟨h.2.2.1, h.2.2.2.1⟩

variable [RecordStore σ]

/-- The market that has given an offer its number and told the store of it. -/
def announced (market : Market σ) (offer : Offer) : Market σ :=
  { market with
    offerIds := market.offerIds.advance
    store := RecordStore.notify market.store offer.toRecord }

/-- What is left of a matched offer comes to rest, if anything is. -/
inductive Rests (market : Market σ) (last : Offer) : Market σ → Prop
  | nothing (hdone : last.isFulfilled = true) : Rests market last market
  | rest {account : Account} (hopen : last.isFulfilled = false)
      (hget : market.accounts.get? last.owner = some account) :
      Rests market last (market.rested last account)

theorem Sound.announced {market : Market σ} (h : market.Sound) (offer : Offer) :
    (market.announced offer).Sound :=
  ⟨h.accounts, h.users_lt, h.deals_lt, h.wellFormed, h.age,
    fun he => Nat.lt_succ_of_lt (h.entries_lt he), h.one_queue, h.queued⟩

/-- The deals that are due by the rule of price and time are those that the book has. -/
theorem Sound.dueDeals_eq {market : Market σ} (h : market.Sound) (user : UserId) (side : Side)
    (price : Price) (quantity : Quantity) :
    market.dueDeals user side price quantity =
      (market.announced (Offer.post market.offerIds.next user side price quantity)).bookDeals
        (Offer.post market.offerIds.next user side price quantity) := by
  unfold dueDeals
  rw [h.counterparts_eq]
  rfl

/-- **An offer that takes no balance out of range is matched**: its due deals are made. -/
theorem Sound.exists_matching_post {market : Market σ} (h : market.Sound) {user : UserId} {side : Side}
    {price : Price} {quantity : Quantity} (huser : (market.accounts.get? user).isSome)
    (hquantity : quantity ≠ 0)
    (hfit : Deal.firstOutOfRange? market.balanceOf (market.dueDeals user side price quantity) = none) :
    ∃ last matched,
      Matching (market.announced (Offer.post market.offerIds.next user side price quantity))
        (Offer.post market.offerIds.next user side price quantity)
        (market.dueDeals user side price quantity) last matched := by
  rw [h.dueDeals_eq] at hfit ⊢
  exact (h.announced _).exists_matching (Offer.consistent_post hquantity) huser hfit

/-- The owner of an offer keeps an account while it is matched. -/
theorem Matching.exists_owner {market matched : Market σ} {taker last : Offer} {deals : List Deal}
    (h : Matching market taker deals last matched) (hc : taker.Consistent)
    (howner : (market.accounts.get? taker.owner).isSome) :
    ∃ account, matched.accounts.get? last.owner = some account := by
  have hlast : last.owner = taker.owner := congrArg (·.owner) (h.last_eq hc).1
  rw [hlast]
  exact Option.isSome_iff_exists.mp ((h.isSome_account _).trans howner)

/-- **A posting is refused without a trace, or it is matched and what is left of it comes to rest.** -/
theorem Sound.post_cases {market : Market σ} (h : market.Sound) (user : UserId) (side : Side)
    (price : Price) (quantity : Quantity) :
    (∃ cause, market.objection? user side price quantity = some cause ∧
      market.post user side price quantity = (.error cause, market)) ∨
    (market.objection? user side price quantity = none ∧ ∃ last matched after,
      Matching (market.announced (Offer.post market.offerIds.next user side price quantity))
        (Offer.post market.offerIds.next user side price quantity)
        (market.dueDeals user side price quantity) last matched ∧
      Rests matched last after ∧
      market.post user side price quantity = (.ok {
        offer := market.offerIds.next
        deals := market.dueDeals user side price quantity
        remaining := last.remaining }, after)) := by
  have hvet := h.vet_eq user side price quantity
  cases hobjection : market.objection? user side price quantity with
  | some cause =>
    refine .inl ⟨cause, rfl, ?_⟩
    rw [hobjection] at hvet
    unfold Market.post
    rw [hvet]
  | none =>
    refine .inr ⟨rfl, ?_⟩
    obtain ⟨huser, hquantity, -, -, hfit⟩ := objection?_eq_none_iff.mp hobjection
    obtain ⟨last, matched, hmatching⟩ := h.exists_matching_post huser hquantity hfit
    have hloop := hmatching.matchTaker_eq (h.announced _)
    rw [hobjection] at hvet
    unfold Market.announced at hloop
    have hpost : market.post user side price quantity =
        if last.isFulfilled then (.ok ⟨market.offerIds.next,
          market.dueDeals user side price quantity, last.remaining⟩, matched)
        else (matched.rest last).andThen fun _ rested => (.ok ⟨market.offerIds.next,
          market.dueDeals user side price quantity, last.remaining⟩, rested) := by
      unfold Market.post
      rw [hvet]
      dsimp only
      rw [hloop]
      rfl
    rw [hpost]
    by_cases hdone : last.isFulfilled = true
    · rw [if_pos hdone]
      exact ⟨last, matched, matched, hmatching, .nothing hdone, rfl⟩
    · obtain ⟨account, hget⟩ :=
        hmatching.exists_owner (Offer.consistent_post hquantity) huser
      rw [if_neg hdone, rest_eq_ok hget]
      exact ⟨last, matched, _, hmatching, .rest (Bool.eq_false_iff.mpr hdone) hget, rfl⟩

theorem Sound.post {market : Market σ} (h : market.Sound) (user : UserId) (side : Side)
    (price : Price) (quantity : Quantity) : (market.post user side price quantity).2.Sound := by
  rcases h.post_cases user side price quantity with
    ⟨cause, -, hp⟩ | ⟨hobjection, last, matched, after, hmatching, hrests, hp⟩
  · rw [hp]
    exact h
  · rw [hp]
    have hmatched := hmatching.sound (h.announced _)
    cases hrests with
    | nothing => exact hmatched
    | rest hopen hget =>
      obtain ⟨-, hquantity, hinRange, hcost, -⟩ := objection?_eq_none_iff.mp hobjection
      obtain ⟨hlast, -⟩ := hmatching.last_eq (Offer.consistent_post hquantity)
      subst hlast
      refine hmatched.rest hget ((Offer.resting_post hquantity hinRange hcost).fill hopen) ?_ ?_
      · rw [hmatching.offerIds_eq]
        exact Nat.lt_succ_self _
      · intro side price entry he
        exact h.entries_lt ((hmatching.queueAt_sublist side price).subset he)

/-- Every operation keeps a market sound. -/
theorem Sound.apply {market : Market σ} (h : market.Sound) (operation : Operation) :
    (market.apply operation).2.Sound := by
  cases operation with
  | register username => exact h.register username
  | deposit user currency amount => exact h.deposit user currency amount
  | post user side price quantity => exact h.post user side price quantity
  | cancel user offer => exact h.cancel user offer
  | quotes => exact h.quotes

/-- **Every reachable market is sound.** -/
theorem Reachable.sound {market : Market σ} (h : market.Reachable) : market.Sound :=
  Reachable.invariant (fun hs => sound_start hs) (fun _ hs operation => hs.apply operation) h

/-! ## What a posting does -/

/-- **A posting is the greedy fill of its quantity over the rule of price and time.** Its deals are those
    that are due by the rule. Every offer is left with what the deals did not take from it: it is active
    while this is anything, and no other offer changes. -/
theorem post_eq_greedy_fill {market after : Market σ} (h : market.Reachable) {user : UserId}
    {side : Side} {price : Price} {quantity : Quantity} {posting : Posting}
    (hpost : market.post user side price quantity = (.ok posting, after)) :
    posting.offer = market.offerIds.next ∧
      posting.deals = market.dueDeals user side price quantity ∧
      posting.remaining + Deal.traded posting.deals = quantity ∧
      ∀ entry : QueueEntry, after.accounts.activeOffer? entry =
        if entry = ⟨posting.offer, user⟩ then
          (Offer.post posting.offer user side price quantity).leftAfter (Deal.traded posting.deals)
        else (market.accounts.activeOffer? entry).bind
          (·.leftAfter (Deal.takenFrom posting.deals entry.offer)) := by
  rcases h.sound.post_cases user side price quantity with
    ⟨cause, -, hp⟩ | ⟨hobjection, last, matched, after', hmatching, hrests, hp⟩
  · rw [hp] at hpost
    cases hpost
  rw [hp] at hpost
  cases hpost
  obtain ⟨-, hquantity, -, -, -⟩ := objection?_eq_none_iff.mp hobjection
  have hc : (Offer.post market.offerIds.next user side price quantity).Consistent :=
    Offer.consistent_post hquantity
  obtain ⟨rfl, hle⟩ := hmatching.last_eq hc
  refine ⟨rfl, rfl, Nat.sub_add_cancel hle, fun entry => ?_⟩
  have hactive := hmatching.activeOffer?_eq (h.sound.announced _) entry
  cases hrests with
  | nothing hdone =>
    by_cases he : entry = ⟨market.offerIds.next, user⟩
    · rw [if_pos he, hc.leftAfter_eq, if_pos hdone, hactive]
      show (market.accounts.activeOffer? entry).bind _ = none
      rw [he, h.sound.next_offer_new]
      rfl
    · rw [if_neg he]
      exact hactive
  | rest hopen hget =>
    have hleft := hc.leftAfter_eq (Deal.traded (market.dueDeals user side price quantity))
    rw [hopen, if_neg Bool.false_ne_true] at hleft
    rw [activeOffer?_rested hget, hactive, hleft]
    rfl

/-- An offer that takes a younger, cheaper maker before an older one. -/
theorem post_eq_greedy_fill_of_two_makers :
    ∃ (market after : Market VoidStore) (posting : Posting),
      market.Reachable ∧ market.post 1 .buy 5 3 = (.ok posting, after) ∧
        posting.deals = [⟨0, 0, 1, 1, 2, 4, 1⟩, ⟨1, 0, 1, 0, 2, 5, 2⟩] ∧
        posting.deals = market.dueDeals 1 .buy 5 3 ∧
        after.accounts.activeOffer? ⟨0, 0⟩ = (market.accounts.activeOffer? ⟨0, 0⟩).bind
          (·.leftAfter 2) := by
  let start : Market VoidStore := { store := {} }
  let market := (start.run [.register "a", .register "b", .post 0 .sell 5 3, .post 0 .sell 4 1]).2
  have hreachable : market.Reachable := Reachable.run (.start (rfl : Market.start _ false = _)) _
  have hpost : market.post 1 .buy 5 3 =
      (.ok ⟨2, [⟨0, 0, 1, 1, 2, 4, 1⟩, ⟨1, 0, 1, 0, 2, 5, 2⟩], 0⟩, (market.post 1 .buy 5 3).2) :=
    Prod.ext (by decide +kernel) rfl
  obtain ⟨-, hdeals, -, hactive⟩ := post_eq_greedy_fill hreachable hpost
  exact ⟨market, _, _, hreachable, hpost, rfl, hdeals, hactive ⟨0, 0⟩⟩

/-! ## When a posting is refused -/

/-- **The dry run agrees with the real run.** A posting is refused with the first objection to it. It goes
    through exactly if a registered user offers some units at a cost in range and settling the due deals one
    after the other keeps both parties of each in range. For a registered user and a positive quantity, if
    the walk over the deals finds nothing then neither matching the offer nor letting it rest is refused. -/
theorem post_refused_iff {market : Market σ} (h : market.Reachable) (user : UserId) (side : Side)
    (price : Price) (quantity : Quantity) :
    (∀ cause, (market.post user side price quantity).1 = .error cause ↔
      market.objection? user side price quantity = some cause) ∧
    ((∃ posting, (market.post user side price quantity).1 = .ok posting) ↔
      (market.accounts.get? user).isSome ∧ quantity ≠ 0 ∧ Amount.InRange quantity ∧
        Amount.InRange (price * quantity) ∧
          Deal.firstOutOfRange? market.balanceOf (market.dueDeals user side price quantity) = none) ∧
    ((market.accounts.get? user).isSome → quantity ≠ 0 →
      market.accounts.foresee user side price (market.book side.opposite).ranked quantity .empty =
        .ok () →
      ∃ last deals matched rested,
        (market.announced (Offer.post market.offerIds.next user side price quantity)).matchTaker
          (Offer.post market.offerIds.next user side price quantity) = (.ok (last, deals), matched) ∧
        matched.rest last = (.ok (), rested)) := by
  refine ⟨fun cause => ?_, ?_, fun huser hquantity hwalk => ?_⟩
  · rcases h.sound.post_cases user side price quantity with
      ⟨objection, hobjection, hp⟩ | ⟨hobjection, last, matched, after, -, -, hp⟩
    · rw [hobjection, hp]
      exact ⟨fun he => congrArg some (Except.error.inj he), fun he => congrArg _ (Option.some.inj he)⟩
    · rw [hobjection, hp]
      exact iff_of_false nofun nofun
  · rw [← objection?_eq_none_iff]
    rcases h.sound.post_cases user side price quantity with
      ⟨objection, hobjection, hp⟩ | ⟨hobjection, last, matched, after, -, -, hp⟩
    · rw [hobjection, hp]
      exact iff_of_false nofun nofun
    · rw [hobjection, hp]
      exact iff_of_true ⟨_, rfl⟩ rfl
  · rw [h.sound.foresee_eq huser] at hwalk
    have hfit : Deal.firstOutOfRange? market.balanceOf (market.dueDeals user side price quantity) =
        none := by
      cases hfirst : Deal.firstOutOfRange? market.balanceOf
        (market.dueDeals user side price quantity) with
      | none => rfl
      | some party =>
        rw [hfirst] at hwalk
        cases hwalk
    obtain ⟨last, matched, hmatching⟩ := h.sound.exists_matching_post huser hquantity hfit
    obtain ⟨account, hget⟩ := hmatching.exists_owner (Offer.consistent_post hquantity) huser
    exact ⟨last, _, matched, _, hmatching.matchTaker_eq (h.sound.announced _), rest_eq_ok hget⟩

/-- A user whose account is full cannot buy and can sell. -/
theorem post_refused_iff_of_full_account :
    ∃ market : Market VoidStore, market.Reachable ∧
      (market.post 1 .buy 5 2).1 = .error (.balanceOutOfRange 1) ∧
      (∃ posting, (market.post 1 .sell 6 2).1 = .ok posting) ∧
      ∃ last deals matched rested,
        (market.announced (Offer.post market.offerIds.next 1 .sell 6 2)).matchTaker
          (Offer.post market.offerIds.next 1 .sell 6 2) = (.ok (last, deals), matched) ∧
        matched.rest last = (.ok (), rested) := by
  let start : Market VoidStore := { store := {} }
  let market := (start.run [.register "a", .register "b", .deposit 1 .usd 0x7fffffffffffffff,
    .post 0 .sell 5 3]).2
  have hreachable : market.Reachable := Reachable.run (.start (rfl : Market.start _ false = _)) _
  have hbuy : market.objection? 1 .buy 5 2 = some (.balanceOutOfRange 1) := by decide +kernel
  have hsell : market.objection? 1 .sell 6 2 = none := by decide +kernel
  have hwalk : market.accounts.foresee 1 .sell 6 (market.book .buy).ranked 2 .empty = .ok () := by
    decide +kernel
  obtain ⟨huser, hquantity, hrest⟩ := objection?_eq_none_iff.mp hsell
  exact ⟨market, hreachable, ((post_refused_iff hreachable 1 .buy 5 2).1 _).mpr hbuy,
    (post_refused_iff hreachable 1 .sell 6 2).2.1.mpr ⟨huser, hquantity, hrest⟩,
    (post_refused_iff hreachable 1 .sell 6 2).2.2 huser hquantity hwalk⟩

end Market

end Bourse
