import Bourse.Proofs.Lifetime

/-!
# `Bourse.Proofs.Finality` — an offer that has gone does not come back

An offer leaves the accounts when it is withdrawn or traded entirely. Its entry may stay in a book for as long
as nothing comes across it, but its number is `Retired`, and no operation makes anything of a retired number:
no deal names it, no new offer gets it, nobody can withdraw it, and no quote is read off its entry.
-/

namespace Bourse

namespace Market

variable {σ : Type}

/-! ## Withdrawals -/

/-- An entry is live if its owner has an active offer with its number. -/
theorem Sound.isLive_iff {market : Market σ} (h : market.Sound) {id : OfferId} {user : UserId} :
    market.accounts.isLive ⟨id, user⟩ = true ↔
      ∃ offer ∈ market.accounts.activeOffers, offer.id = id ∧ offer.owner = user := by
  rw [Ledger.isLive_eq_true_iff]
  constructor
  · rintro ⟨offer, hlive⟩
    have hresting := h.resting hlive
    exact ⟨offer, Ledger.mem_activeOffers_iff.mpr ⟨_, hlive⟩, hresting.id_eq, hresting.owner_eq⟩
  · rintro ⟨offer, hmem, rfl, rfl⟩
    obtain ⟨entry, hlive⟩ := Ledger.mem_activeOffers_iff.mp hmem
    have hresting := h.resting hlive
    refine ⟨offer, ?_⟩
    rw [hresting.id_eq, hresting.owner_eq]
    exact hlive

/-- Withdrawing what is not active changes nothing. -/
theorem cancel_eq_self {market : Market σ} {user : UserId} {account : Account}
    (hget : market.accounts.get? user = some account) {id : OfferId}
    (hdead : market.accounts.activeOffer? ⟨id, user⟩ = none) :
    market.cancel user id = (.ok false, market) := by
  have hnone : account.activeOffers.get? id = none := by
    unfold Ledger.activeOffer? at hdead
    rw [hget] at hdead
    exact hdead
  rw [cancel_eq hget, Ledger.isLive, hdead]
  unfold Account.removeOffer
  rw [SortedMap.erase_eq_self hnone, SortedMap.insert_eq_self hget]
  rfl

/-- Nobody can withdraw a retired offer. -/
theorem Retired.cancel_eq {market : Market σ} {id : OfferId} (h : market.Retired id) (user : UserId) :
    market.cancel user id = ((market.account user).map fun _ => false, market) := by
  unfold Market.account Ledger.account
  cases hget : market.accounts.get? user with
  | none => exact cancel_of_unknown hget id
  | some account => exact cancel_eq_self hget (h.inactive user)

/-! ## Quotes -/

/-- The price of a side is read off the entry in front of a level, and that entry is live. -/
theorem Retired.sideQuote {market : Market σ} {id : OfferId} (h : market.Retired id) {side : Side}
    {price : Price} (hquote : (market.sideQuote side).1 = some price) :
    ∃ entry, ((market.sideQuote side).2.book side).front? price = some entry ∧
      market.accounts.isLive entry = true ∧ entry.offer ≠ id := by
  obtain ⟨entry, hfront, hlive⟩ := Book.front?_of_prune hquote
  refine ⟨entry, ?_, hlive, ?_⟩
  · unfold Market.sideQuote
    rw [book_withBook]
    exact hfront
  · obtain ⟨offer, hoffer⟩ := Ledger.isLive_eq_true_iff.mp hlive
    exact h.ne_of_active hoffer

/-- **No quote is read off the entry of a retired offer.** -/
theorem Retired.quotes {market : Market σ} {id : OfferId} (h : market.Retired id) :
    (∀ {ask : Price}, market.quotes.1.ask = some ask →
      ∃ entry, (market.quotes.2.book .buy).front? ask = some entry ∧
        market.accounts.isLive entry = true ∧ entry.offer ≠ id) ∧
    ∀ {bid : Price}, market.quotes.1.bid = some bid →
      ∃ entry, (market.quotes.2.book .sell).front? bid = some entry ∧
        market.accounts.isLive entry = true ∧ entry.offer ≠ id := by
  have hpruned : (market.sideQuote .buy).2.Retired id := ⟨h.lt, h.inactive⟩
  constructor
  · intro ask hask
    -- the buy side is pruned first, and the sell side after it
    exact h.sideQuote hask
  · intro bid hbid
    exact hpruned.sideQuote hbid

end Market

/-! ## Runs -/

/-- No deal of the history names the offer, and no offer was accepted under its number. -/
structure History.Spares (history : History) (id : OfferId) : Prop where
  deals : ∀ deal ∈ history.deals, deal.names id = false
  accepted : ∀ offer ∈ history.accepted, offer.id ≠ id

theorem History.Spares.append {first second : History} {id : OfferId} (h : first.Spares id)
    (h' : second.Spares id) : (first ++ second).Spares id where
  deals deal hdeal := by
    rcases List.mem_append.mp hdeal with hfirst | hsecond
    · exact h.deals deal hfirst
    · exact h'.deals deal hsecond
  accepted offer ho := by
    rcases List.mem_append.mp ho with hfirst | hsecond
    · exact h.accepted offer hfirst
    · exact h'.accepted offer hsecond

namespace Market

variable {σ : Type}

/-- **No effect makes anything of a retired number.** -/
theorem Retired.spares {market after : Market σ} {more : History} {id : OfferId} (h : market.Retired id)
    (hs : market.Sound) (heffect : market.Effect after more) : more.Spares id := by
  cases heffect with
  | quiet => exact ⟨nofun, nofun⟩
  | withdrawn => exact ⟨nofun, nofun⟩
  | @posted user side price quantity posting hposted =>
    have hnew : posting.offer ≠ id := Nat.ne_of_gt (hposted.lt h.lt)
    constructor
    case deals =>
      intro deal hdeal
      -- the maker is active, and the taker is new
      obtain ⟨entry, maker, _, _, hlive, hid, -, -, -, rfl⟩ := hposted.mem_deals hs hdeal
      have hmaker : maker.id ≠ id := hid.trans_ne (h.ne_of_active hlive)
      simp [Deal.names, Offer.dealWith, Offer.post, hmaker, hnew]
    case accepted =>
      intro offer ho
      rw [List.mem_singleton.mp ho]
      exact hnew

variable [RecordStore σ]

/-- **A run keeps a retired number retired** and makes nothing of it. -/
theorem Retired.run {market : Market σ} {id : OfferId} (h : market.Retired id) (hs : market.Sound)
    (operations : List Operation) :
    (market.run operations).2.Retired id ∧ (market.history operations).Spares id := by
  have hstart : market.Retired id ∧ ({} : History).Spares id := ⟨h, nofun, nofun⟩
  have hrun := hs.run_history (P := fun m history => m.Retired id ∧ history.Spares id) hstart
    (fun hs heffect hp => ⟨hp.1.effect heffect, hp.2.append (hp.1.spares hs heffect)⟩) operations
  rw [History.empty_append] at hrun
  exact hrun

/-- The offer of an accepted withdrawal is in the history. -/
theorem Sound.exists_withdrawn {market : Market σ} (h : market.Sound) {operations : List Operation}
    {user : UserId} {id : OfferId}
    (hmem : (.cancel user id, .canceled (.ok true)) ∈ operations.zip (market.run operations).1) :
    ∃ offer ∈ (market.history operations).withdrawn, offer.id = id := by
  induction operations generalizing market with
  | nil => cases hmem
  | cons operation rest ih =>
    rw [history_cons, History.withdrawn_append]
    rw [run_cons, List.zip_cons_cons] at hmem
    rcases List.mem_cons.mp hmem with heq | hlater
    · obtain ⟨rfl, hanswer⟩ := Prod.mk.inj heq
      have hok : (market.cancel user id).1 = .ok true := (Answer.canceled.inj hanswer).symm
      have hlive : market.accounts.isLive ⟨id, user⟩ = true := by
        cases hget : market.accounts.get? user with
        | none =>
          rw [cancel_of_unknown hget] at hok
          cases hok
        | some account =>
          rw [Market.cancel_eq hget] at hok
          exact Except.ok.inj hok
      obtain ⟨offer, hoffer⟩ := Ledger.isLive_eq_true_iff.mp hlive
      refine ⟨offer, List.mem_append_left _ ?_, (h.resting hoffer).id_eq⟩
      rw [← hanswer]
      show offer ∈ (market.accounts.activeOffer? ⟨id, user⟩).toList
      rw [hoffer]
      exact List.mem_cons_self
    · obtain ⟨offer, ho, hid⟩ := ih (h.apply operation) hlater
      exact ⟨offer, List.mem_append_right _ ho, hid⟩

omit [RecordStore σ] in
/-- An accepted offer that its deals have used up is active nowhere. -/
theorem Accounted.retired_of_traded {market : Market σ} {history : History}
    (h : market.Accounted history) (hs : market.Sound) {offer : Offer} (ho : offer ∈ history.accepted)
    (htraded : history.traded offer.id = offer.quantity) : market.Retired offer.id where
  lt := h.accepted_lt offer ho
  inactive := by
    intro user
    cases hlive : market.accounts.activeOffer? ⟨offer.id, user⟩ with
    | none => rfl
    | some active =>
      have hentry := (h.eq_of_active hlive ho rfl).1
      have hopen : market.accounts.openQuantity offer = active.remaining := by
        unfold Ledger.openQuantity
        rw [← hentry, hlive]
        rfl
      have hquantity := h.quantity_eq offer ho
      rw [hopen, htraded] at hquantity
      have hpos := (hs.resting hlive).remaining_pos
      have hmore : offer.quantity < offer.quantity + active.remaining + history.withdrawnOf offer.id :=
        Nat.lt_of_lt_of_le (Nat.lt_add_of_pos_right hpos) (Nat.le_add_right _ _)
      exact absurd hquantity (Nat.ne_of_lt hmore)

/-- **Leaving the active offers is final.** A registered user is told that an offer is withdrawn exactly if
    it is an active one of the user's, and nothing but that offer leaves the account. Once an offer was
    withdrawn, or traded entirely, whatever comes later: no deal names it and no offer gets its number, no
    account lists it, nobody can withdraw it, and no quote is read off its entry. -/
theorem leaving_is_final :
    (∀ {market : Market σ}, market.Reachable → ∀ {user : UserId} {account : Account},
      market.accounts.get? user = some account → ∀ id : OfferId,
        ((market.cancel user id).1 = .ok true ↔
          ∃ offer ∈ market.accounts.activeOffers, offer.id = id ∧ offer.owner = user) ∧
        ((market.cancel user id).1 = .ok true → (market.cancel user id).2 = { market with
          accounts := market.accounts.insert user
            { account with activeOffers := account.activeOffers.erase id } }) ∧
        ((market.cancel user id).1 ≠ .ok true → market.cancel user id = (.ok false, market))) ∧
    ∀ {store : σ} {seed : Bool} {market : Market σ}, start store seed = .ok market →
      ∀ (first : List Operation) (id : OfferId),
        ((∃ user, (.cancel user id, .canceled (.ok true)) ∈ first.zip (market.run first).1) ∨
          ∃ offer ∈ (market.history first).accepted, offer.id = id ∧
            (market.history first).traded id = offer.quantity) →
        ∀ second : List Operation,
          let later := (market.run first).2.history second
          let after := ((market.run first).2.run second).2
          (∀ deal ∈ later.deals, deal.maker ≠ id ∧ deal.taker ≠ id) ∧
          (∀ offer ∈ later.accepted, offer.id ≠ id) ∧
          (∀ offer ∈ after.accounts.activeOffers, offer.id ≠ id) ∧
          (∀ user, after.cancel user id = ((after.account user).map fun _ => false, after)) ∧
          (∀ {ask : Price}, after.quotes.1.ask = some ask →
            ∃ entry, (after.quotes.2.book .buy).front? ask = some entry ∧
              after.accounts.isLive entry = true ∧ entry.offer ≠ id) ∧
          ∀ {bid : Price}, after.quotes.1.bid = some bid →
            ∃ entry, (after.quotes.2.book .sell).front? bid = some entry ∧
              after.accounts.isLive entry = true ∧ entry.offer ≠ id := by
  refine ⟨fun {market} h {user account} hget id => ?_, ?_⟩
  · have hanswer : (market.cancel user id).1 = .ok (market.accounts.isLive ⟨id, user⟩) := by
      rw [cancel_eq hget]
    refine ⟨?_, fun _ => ?_, fun hno => ?_⟩
    · rw [← h.sound.isLive_iff, hanswer]
      exact ⟨Except.ok.inj, congrArg _⟩
    · rw [cancel_eq hget]
      rfl
    · refine cancel_eq_self hget ?_
      cases hlive : market.accounts.activeOffer? ⟨id, user⟩ with
      | none => rfl
      | some offer =>
        rw [hanswer, Ledger.isLive, hlive] at hno
        exact absurd rfl hno
  · intro store seed market hstart first id hleft second later after
    have hsound : (market.run first).2.Sound := (Reachable.run (.start hstart) first).sound
    have haccounted := accounted_run hstart first
    have hretired : (market.run first).2.Retired id := by
      rcases hleft with ⟨user, hmem⟩ | ⟨offer, ho, rfl, htraded⟩
      · obtain ⟨offer, ho, rfl⟩ := (sound_start hstart).exists_withdrawn hmem
        exact haccounted.retired offer ho
      · exact haccounted.retired_of_traded hsound ho htraded
    obtain ⟨hafter, hspares⟩ := hretired.run hsound second
    refine ⟨fun deal hdeal => ?_, hspares.accepted, fun offer ho hid => ?_, hafter.cancel_eq,
      hafter.quotes.1, hafter.quotes.2⟩
    · have hnot := hspares.deals deal hdeal
      simpa [Deal.names] using hnot
    · obtain ⟨entry, hlive⟩ := Ledger.mem_activeOffers_iff.mp ho
      have hsafter : after.Sound := (Reachable.run (.start hstart) first).run second |>.sound
      exact hafter.ne_of_active hlive ((hsafter.resting hlive).id_eq.symm.trans hid)

/-- Of two offers that have gone one was withdrawn, and its entry is still in the book, and the other was
    traded. -/
theorem leaving_is_final_of_expired :
    ∃ (market : Market VoidStore) (first second : List Operation) (account : Account),
      start {} false = .ok market ∧
      (market.run [.register "a", .post 0 .buy 3 1]).2.accounts.get? 0 = some account ∧
      ((market.run [.register "a", .post 0 .buy 3 1]).2.cancel 0 0).2.accounts =
        SortedMap.insert (market.run [.register "a", .post 0 .buy 3 1]).2.accounts 0
          { account with activeOffers := account.activeOffers.erase 0 } ∧
      (((market.run first).2.run second).2.book .buy).front? 3 = some ⟨0, 0⟩ ∧
      (∃ entry, (((market.run first).2.run second).2.quotes.2.book .buy).front? 4 = some entry ∧
        ((market.run first).2.run second).2.accounts.isLive entry = true ∧ entry.offer ≠ 0) ∧
      (((market.run first).2.run second).2.cancel 0 0).2 = ((market.run first).2.run second).2 ∧
      (⟨1, 0, 1, 4, 5, 5, 1⟩ : Deal) ∈ ((market.run first).2.history second).deals ∧
      ∀ deal ∈ ((market.run first).2.history second).deals, deal.maker ≠ 1 ∧ deal.taker ≠ 1 := by
  obtain ⟨market, first, second, hstart, hsome, htrue, hcanceled, htraded, hask, hfront, hdeal⟩ :
      ∃ (market : Market VoidStore) (first second : List Operation),
        start {} false = .ok market ∧
        ((market.run [.register "a", .post 0 .buy 3 1]).2.accounts.get? 0).isSome ∧
        ((market.run [.register "a", .post 0 .buy 3 1]).2.cancel 0 0).1 = .ok true ∧
        (.cancel 0 0, .canceled (.ok true)) ∈ first.zip (market.run first).1 ∧
        (∃ offer ∈ (market.history first).accepted, offer.id = 1 ∧
          (market.history first).traded 1 = offer.quantity) ∧
        ((market.run first).2.run second).2.quotes.1.ask = some 4 ∧
        (((market.run first).2.run second).2.book .buy).front? 3 = some ⟨0, 0⟩ ∧
        (⟨1, 0, 1, 4, 5, 5, 1⟩ : Deal) ∈ ((market.run first).2.history second).deals :=
    ⟨{ store := {} }, [.register "a", .register "b", .post 0 .buy 3 1, .post 0 .sell 5 2,
        .post 1 .buy 5 2, .cancel 0 0],
      [.post 1 .buy 4 1, .post 0 .sell 5 1, .post 1 .buy 5 1], rfl, by decide +kernel⟩
  have hbefore : (market.run [.register "a", .post 0 .buy 3 1]).2.Reachable :=
    Reachable.run (.start hstart) _
  obtain ⟨account, hget⟩ := Option.isSome_iff_exists.mp hsome
  obtain ⟨-, hremoved, -⟩ := leaving_is_final.1 hbefore hget 0
  obtain ⟨-, -, -, hcancel, hquote, -⟩ := leaving_is_final.2 hstart first 0 (.inl ⟨0, hcanceled⟩) second
  obtain ⟨hspared, -⟩ := leaving_is_final.2 hstart first 1 (.inr htraded) second
  exact ⟨market, first, second, account, hstart, hget, congrArg (·.accounts) (hremoved htrue), hfront,
    hquote hask, congrArg (·.2) (hcancel 0), hdeal, hspared⟩

end Market

end Bourse
