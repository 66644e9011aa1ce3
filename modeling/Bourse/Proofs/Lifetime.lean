import Bourse.Proofs.History

/-!
# `Bourse.Proofs.Lifetime` — every offer is accounted for

An offer is posted and trades at once, may rest and trade with later ones, and in the end it is traded
entirely or withdrawn. Whatever happens, its quantity is what its deals traded, what is still open and what
was withdrawn of it, and every deal that names it keeps to its terms.

`Market.Accounted` says this of a market and the history that led to it. Each of the three effects keeps it
(`Accounted.quiet`, `Accounted.withdraw`, `Accounted.post`), and so does a run. What was withdrawn is
`Retired`, so it is never counted as active again.
-/

namespace Bourse

/-! ## What is still open -/

/-- What is left of an offer in its owner's account, if it is still active. -/
def Ledger.openQuantity (ledger : Ledger) (offer : Offer) : Quantity :=
  ((ledger.activeOffer? ⟨offer.id, offer.owner⟩).map (·.remaining)).getD 0

theorem Offer.remaining_leftAfter (offer : Offer) (taken : Quantity) :
    ((offer.leftAfter taken).map (·.remaining)).getD 0 = offer.remaining - taken := by
  unfold leftAfter
  by_cases hle : offer.remaining ≤ taken
  · rw [if_pos hle, Nat.sub_eq_zero_of_le hle]
    rfl
  · rw [if_neg hle]
    rfl

/-- Nothing else changes of an offer when something is taken from it. -/
theorem Offer.eq_of_leftAfter {offer after : Offer} {taken : Quantity}
    (h : offer.leftAfter taken = some after) : after = { offer with remaining := after.remaining } := by
  unfold leftAfter at h
  split at h
  · cases h
  · cases h
    rfl

namespace Market

variable {σ : Type}

/-! ## Histories that account for every offer -/

/-- The history accounts for every offer that the market has given a number to. -/
structure Accounted (market : Market σ) (history : History) : Prop where
  accepted_lt : ∀ offer ∈ history.accepted, offer.id < market.offerIds.next
  nodup : (history.accepted.map (·.id)).Nodup
  deals_lt : ∀ deal ∈ history.deals,
    deal.maker < market.offerIds.next ∧ deal.taker < market.offerIds.next
  /-- What was withdrawn is not active, -/
  retired : ∀ offer ∈ history.withdrawn, market.Retired offer.id
  /-- and was withdrawn once. -/
  withdrawn_nodup : (history.withdrawn.map (·.id)).Nodup
  /-- An active offer was accepted, and is as it was posted but for what is left of it. -/
  active : ∀ {entry : QueueEntry} {offer : Offer}, market.accounts.activeOffer? entry = some offer →
    ∃ posted ∈ history.accepted, posted.id = entry.offer ∧ posted.owner = entry.owner ∧
      offer = { posted with remaining := offer.remaining }
  quantity_eq : ∀ offer ∈ history.accepted,
    offer.quantity = history.traded offer.id + market.accounts.openQuantity offer +
      history.withdrawnOf offer.id
  terms : ∀ offer ∈ history.accepted, ∀ deal ∈ history.deals,
    deal.names offer.id = true → deal.KeepsTo offer

/-- An accepted offer and an active one with the same number are one. -/
theorem Accounted.eq_of_active {market : Market σ} {history : History} (h : market.Accounted history)
    {entry : QueueEntry} {offer posted : Offer} (hlive : market.accounts.activeOffer? entry = some offer)
    (hposted : posted ∈ history.accepted) (hid : posted.id = entry.offer) :
    entry = ⟨posted.id, posted.owner⟩ ∧ offer = { posted with remaining := offer.remaining } := by
  obtain ⟨found, hfound, hfoundId, howner, hsame⟩ := h.active hlive
  have heq : found = posted :=
    List.inj_on_of_nodup_map h.nodup hfound hposted (hfoundId.trans hid.symm)
  subst heq
  refine ⟨?_, hsame⟩
  rw [hfoundId, howner]

/-- The offers may stay as they are. -/
theorem Accounted.quiet {market after : Market σ} {past : History} (h : market.Accounted past)
    (hids : after.offerIds = market.offerIds)
    (hoffers : ∀ entry, after.accounts.activeOffer? entry = market.accounts.activeOffer? entry) :
    after.Accounted past where
  accepted_lt offer ho := hids ▸ h.accepted_lt offer ho
  nodup := h.nodup
  deals_lt deal hdeal := hids ▸ h.deals_lt deal hdeal
  retired offer ho := (h.retired offer ho).effect (.quiet hids hoffers)
  withdrawn_nodup := h.withdrawn_nodup
  active := by
    intro entry offer hlive
    rw [hoffers] at hlive
    exact h.active hlive
  quantity_eq := by
    intro offer ho
    unfold Ledger.openQuantity
    rw [hoffers]
    exact h.quantity_eq offer ho
  terms := h.terms

/-! ### A withdrawal -/

section Withdrawn

variable {market after : Market σ} {past : History} {entry : QueueEntry} {offer : Offer}

/-- What was open of the withdrawn offer is withdrawn, and of the others nothing. -/
theorem Accounted.quantity_withdrawn (h : market.Accounted past) (hid : offer.id = entry.offer)
    (hlive : market.accounts.activeOffer? entry = some offer)
    (hoffers : ∀ e, after.accounts.activeOffer? e =
      if e = entry then none else market.accounts.activeOffer? e)
    {posted : Offer} (hposted : posted ∈ past.accepted) :
    posted.quantity = past.traded posted.id + after.accounts.openQuantity posted +
      (past.withdrawnOf posted.id + History.withdrawnOf { withdrawn := [offer] } posted.id) := by
  have hquantity := h.quantity_eq posted hposted
  unfold Ledger.openQuantity at hquantity ⊢
  rw [hoffers]
  by_cases hsame : posted.id = entry.offer
  · obtain ⟨he, -⟩ := h.eq_of_active hlive hposted hsame
    have hwithdrawn : History.withdrawnOf { withdrawn := [offer] } posted.id = offer.remaining := by
      simp [History.withdrawnOf, Offer.left, hid, hsame]
    rw [← he, hlive] at hquantity
    rw [← he, if_pos rfl, hwithdrawn, hquantity]
    show past.traded posted.id + offer.remaining + past.withdrawnOf posted.id =
      past.traded posted.id + (past.withdrawnOf posted.id + offer.remaining)
    rw [Nat.add_assoc, Nat.add_comm offer.remaining]
  · have he : (⟨posted.id, posted.owner⟩ : QueueEntry) ≠ entry :=
      fun he => hsame (congrArg (·.offer) he)
    have hnone : History.withdrawnOf { withdrawn := [offer] } posted.id = 0 := by
      refine History.withdrawnOf_eq_zero fun w hw => ?_
      rw [List.mem_singleton.mp hw, hid]
      exact fun heq => hsame heq.symm
    rw [if_neg he, hnone]
    exact hquantity

/-- One of the offers may be withdrawn. -/
theorem Accounted.withdraw (h : market.Accounted past) (hs : market.Sound)
    (hids : after.offerIds = market.offerIds)
    (hlive : market.accounts.activeOffer? entry = some offer)
    (hoffers : ∀ e, after.accounts.activeOffer? e =
      if e = entry then none else market.accounts.activeOffer? e) :
    after.Accounted (past ++ { withdrawn := [offer] }) := by
  have hid : offer.id = entry.offer := (hs.resting hlive).id_eq
  have heffect : market.Effect after { withdrawn := [offer] } := .withdrawn hids hlive hoffers
  have haccepted : (past ++ { withdrawn := [offer] }).accepted = past.accepted := List.append_nil _
  have hdeals : (past ++ { withdrawn := [offer] }).deals = past.deals := List.append_nil _
  constructor
  case accepted_lt =>
    rw [haccepted, hids]
    exact h.accepted_lt
  case nodup =>
    rw [haccepted]
    exact h.nodup
  case deals_lt =>
    rw [hdeals, hids]
    exact h.deals_lt
  case retired =>
    intro o ho
    rcases List.mem_append.mp ho with hold | hnew
    · exact (h.retired o hold).effect heffect
    · rw [List.mem_singleton.mp hnew]
      exact hs.retired_withdrawn hids hlive hoffers
  case withdrawn_nodup =>
    rw [History.withdrawn_append, List.map_append, List.nodup_append]
    refine ⟨h.withdrawn_nodup, List.nodup_singleton _, ?_⟩
    intro id hold id' hnew heq
    obtain ⟨w, hw, rfl⟩ := List.mem_map.mp hold
    have hsame : w.id = offer.id := heq.trans (List.mem_singleton.mp hnew)
    exact (h.retired w hw).ne_of_active hlive (hsame.trans hid).symm
  case active =>
    intro e o ho
    rw [hoffers] at ho
    split at ho
    · cases ho
    · rw [haccepted]
      exact h.active ho
  case quantity_eq =>
    intro o ho
    rw [haccepted] at ho
    have huntraded : History.traded { withdrawn := [offer] } o.id = 0 := History.traded_eq_zero nofun
    rw [History.traded_append, History.withdrawnOf_append, huntraded]
    exact h.quantity_withdrawn hid hlive hoffers ho
  case terms =>
    rw [haccepted, hdeals]
    exact h.terms

end Withdrawn

/-! ### A new offer -/

section Posted

variable {market after : Market σ} {past : History} {user : UserId} {side : Side} {price : Price}
  {quantity : Quantity} {posting : Posting} {offer : Offer}

/-- What is open of an older offer is less by what the deals took from it. -/
theorem Posted.openQuantity_old (hposted : market.Posted user side price quantity posting after)
    (hs : market.Sound) (h : market.Accounted past) (ho : offer ∈ past.accepted) :
    market.accounts.openQuantity offer =
      Deal.takenFrom posting.deals offer.id + after.accounts.openQuantity offer := by
  unfold Ledger.openQuantity
  rw [hposted.activeOffer?_old (hposted.old_ne (h.accepted_lt offer ho) offer.owner)]
  cases hlive : market.accounts.activeOffer? ⟨offer.id, offer.owner⟩ with
  | some active =>
    have hle : Deal.takenFrom posting.deals offer.id ≤ active.remaining := by
      rw [hposted.deals_eq]
      exact hs.takenFrom_dueDeals_le hlive user side price quantity
    show active.remaining = _ + ((active.leftAfter _).map (·.remaining)).getD 0
    rw [Offer.remaining_leftAfter]
    exact (Nat.add_sub_cancel' hle).symm
  | none =>
    -- the makers are active, and no other active offer has the number of this one
    have hnone : Deal.takenFrom posting.deals offer.id = 0 := by
      refine Deal.takenFrom_eq_zero fun deal hdeal hmaker => ?_
      obtain ⟨entry, maker, id, amount, hmakerLive, hid, -, -, -, rfl⟩ := hposted.mem_deals hs hdeal
      have hentry := (h.eq_of_active hmakerLive ho (hmaker.symm.trans hid)).1
      rw [hentry, hlive] at hmakerLive
      cases hmakerLive
    rw [hnone]
    rfl

theorem Posted.quantity_old (hposted : market.Posted user side price quantity posting after)
    (hs : market.Sound) (h : market.Accounted past) (ho : offer ∈ past.accepted) :
    offer.quantity =
      past.traded offer.id + (History.ofPosting user side price quantity posting).traded offer.id +
        after.accounts.openQuantity offer + past.withdrawnOf offer.id := by
  have hquantity := h.quantity_eq offer ho
  rw [hposted.openQuantity_old hs h ho, ← Nat.add_assoc] at hquantity
  rw [hposted.traded_old hs (h.accepted_lt offer ho)]
  exact hquantity

/-- What is open of the new offer is what its deals have left of it. -/
theorem Posted.quantity_new (hposted : market.Posted user side price quantity posting after)
    (hs : market.Sound) :
    quantity = (History.ofPosting user side price quantity posting).traded posting.offer +
      after.accounts.openQuantity (Offer.post posting.offer user side price quantity) := by
  have hopen : after.accounts.openQuantity (Offer.post posting.offer user side price quantity) =
      quantity - Deal.traded posting.deals := by
    show ((after.accounts.activeOffer? ⟨posting.offer, user⟩).map (·.remaining)).getD 0 = _
    rw [hposted.activeOffer?_new, Offer.remaining_leftAfter]
    rfl
  have hle : Deal.traded posting.deals ≤ quantity := hposted.remaining_eq ▸ Nat.le_add_left _ _
  rw [hposted.traded_new hs, hopen, Nat.add_sub_cancel' hle]

/-- The deals of a posting keep to the terms of the new offer and of the accepted ones. -/
theorem Posted.keepsTo (hposted : market.Posted user side price quantity posting after)
    (hs : market.Sound) (h : market.Accounted past) {deal : Deal} (hdeal : deal ∈ posting.deals) :
    deal.KeepsTo (Offer.post posting.offer user side price quantity) ∧
      ∀ offer ∈ past.accepted, deal.names offer.id = true → deal.KeepsTo offer := by
  have holder := hposted.maker_lt hs hdeal
  obtain ⟨entry, maker, id, amount, hlive, hid, hside, hcross, hamount, rfl⟩ :=
    hposted.mem_deals hs hdeal
  refine ⟨Offer.dealWith_keepsTo_taker hamount (Nat.ne_of_lt holder) hcross id, ?_⟩
  intro offer ho hnames
  rcases Deal.names_iff.mp hnames with heq | heq
  · have hmaker := (h.eq_of_active hlive ho (heq.symm.trans hid)).2
    refine Offer.dealWith_keepsTo_maker hamount hside ?_ ?_ ?_ id
    · rw [hmaker]
    · rw [hmaker]
    · rw [hmaker]
  · -- the new offer is younger than the accepted ones
    exact absurd heq.symm (Nat.ne_of_lt (hposted.lt (h.accepted_lt offer ho)))

/-- Nothing in the past has the number of a new offer: no deal, -/
theorem Accounted.names_new (h : market.Accounted past)
    (hposted : market.Posted user side price quantity posting after) {deal : Deal}
    (hdeal : deal ∈ past.deals) : deal.names posting.offer = false := by
  obtain ⟨hmaker, htaker⟩ := h.deals_lt deal hdeal
  simp [Deal.names, Nat.ne_of_lt (hposted.lt hmaker), Nat.ne_of_lt (hposted.lt htaker)]

/-- and nothing that was withdrawn. -/
theorem Accounted.withdrawnOf_new (h : market.Accounted past)
    (hposted : market.Posted user side price quantity posting after) :
    past.withdrawnOf posting.offer = 0 :=
  History.withdrawnOf_eq_zero fun w hw => Nat.ne_of_lt (hposted.lt (h.retired w hw).lt)

/-- A new offer may be posted. -/
theorem Accounted.post (h : market.Accounted past) (hs : market.Sound)
    (hposted : market.Posted user side price quantity posting after) :
    after.Accounted (past ++ .ofPosting user side price quantity posting) := by
  have hnext : after.offerIds.next = posting.offer + 1 := by
    rw [hposted.offerIds_eq, hposted.offer_eq]
    rfl
  have hwithdrawn : (past ++ .ofPosting user side price quantity posting).withdrawn =
    past.withdrawn := List.append_nil _
  constructor
  case accepted_lt =>
    intro offer ho
    rw [hnext]
    rcases List.mem_append.mp ho with hold | hnew
    · exact Nat.lt_succ_of_lt (hposted.lt (h.accepted_lt offer hold))
    · rw [List.mem_singleton.mp hnew]
      exact Nat.lt_succ_self _
  case nodup =>
    rw [History.accepted_append, List.map_append, List.nodup_append]
    refine ⟨h.nodup, List.nodup_singleton _, ?_⟩
    intro id hold id' hnew
    obtain ⟨offer, ho, rfl⟩ := List.mem_map.mp hold
    rw [List.mem_singleton.mp hnew]
    exact Nat.ne_of_lt (hposted.lt (h.accepted_lt offer ho))
  case deals_lt =>
    intro deal hdeal
    rw [hnext]
    rcases List.mem_append.mp hdeal with hold | hnew
    · obtain ⟨hmaker, htaker⟩ := h.deals_lt deal hold
      exact ⟨Nat.lt_succ_of_lt (hposted.lt hmaker), Nat.lt_succ_of_lt (hposted.lt htaker)⟩
    · refine ⟨Nat.lt_succ_of_lt (hposted.maker_lt hs hnew), ?_⟩
      rw [hposted.taker_eq hs hnew]
      exact Nat.lt_succ_self _
  case retired =>
    rw [hwithdrawn]
    exact fun offer ho => (h.retired offer ho).effect (.posted hposted)
  case withdrawn_nodup =>
    rw [hwithdrawn]
    exact h.withdrawn_nodup
  case active =>
    intro entry offer hlive
    by_cases he : entry = ⟨posting.offer, user⟩
    · rw [he, hposted.activeOffer?_new] at hlive
      rw [he]
      exact ⟨_, List.mem_append_right _ List.mem_cons_self, rfl, rfl, Offer.eq_of_leftAfter hlive⟩
    · rw [hposted.activeOffer?_old he] at hlive
      obtain ⟨before, hbefore, hleft⟩ := Option.bind_eq_some_iff.mp hlive
      obtain ⟨posted, hmem, hid, howner, hsame⟩ := h.active hbefore
      refine ⟨posted, List.mem_append_left _ hmem, hid, howner, ?_⟩
      rw [Offer.eq_of_leftAfter hleft, hsame]
  case quantity_eq =>
    intro offer ho
    have hnone : (History.ofPosting user side price quantity posting).withdrawnOf offer.id = 0 :=
      History.withdrawnOf_eq_zero nofun
    rw [History.traded_append, History.withdrawnOf_append, hnone]
    rcases List.mem_append.mp ho with hold | hnew
    · exact hposted.quantity_old hs h hold
    · have hpast : past.traded posting.offer = 0 :=
        History.traded_eq_zero fun deal hdeal => h.names_new hposted hdeal
      rw [List.mem_singleton.mp hnew]
      show quantity = past.traded posting.offer + _ + _ + (past.withdrawnOf posting.offer + 0)
      rw [hpast, h.withdrawnOf_new hposted, Nat.zero_add]
      exact hposted.quantity_new hs
  case terms =>
    intro offer ho deal hdeal hnames
    rcases List.mem_append.mp hdeal with holdDeal | hnewDeal
    · rcases List.mem_append.mp ho with hold | hnew
      · exact h.terms offer hold deal holdDeal hnames
      · have hother : deal.names offer.id = false := by
          rw [List.mem_singleton.mp hnew]
          exact h.names_new hposted holdDeal
        exact absurd hnames (Bool.eq_false_iff.mp hother)
    · obtain ⟨hkeeps, hkeepsOld⟩ := hposted.keepsTo hs h hnewDeal
      rcases List.mem_append.mp ho with hold | hnew
      · exact hkeepsOld offer hold hnames
      · rw [List.mem_singleton.mp hnew]
        exact hkeeps

end Posted

/-- **Every effect keeps the offers accounted for.** -/
theorem Accounted.effect {market after : Market σ} {past more : History} (h : market.Accounted past)
    (hs : market.Sound) (heffect : market.Effect after more) : after.Accounted (past ++ more) := by
  cases heffect with
  | quiet hids hoffers =>
    rw [History.append_empty]
    exact h.quiet hids hoffers
  | withdrawn hids hlive hoffers => exact h.withdraw hs hids hlive hoffers
  | posted hposted => exact h.post hs hposted

/-! ## Markets over time -/

variable [RecordStore σ]

/-- A new market has no offers to account for. -/
theorem accounted_start {store : σ} {seed : Bool} {market : Market σ}
    (h : start store seed = .ok market) : market.Accounted {} := by
  obtain ⟨userIds, offerIds, dealIds, rfl⟩ := start_eq h
  exact ⟨nofun, .nil, nofun, nofun, .nil, nofun, nofun, nofun⟩

/-- **A run accounts for every offer that was accepted in it.** -/
theorem accounted_run {store : σ} {seed : Bool} {market : Market σ}
    (h : start store seed = .ok market) (operations : List Operation) :
    (market.run operations).2.Accounted (market.history operations) := by
  have hrun := (sound_start h).run_history (P := Accounted) (accounted_start h)
    (fun hs heffect hp => hp.effect hs heffect) operations
  rw [History.empty_append] at hrun
  exact hrun

/-- **Every offer is accounted for over its whole life.** The quantity of an accepted offer is what all deals
    that name it traded, what is still active of it, and what was withdrawn; so one that is neither active
    nor withdrawn was traded entirely. Every deal that names it keeps to its terms. An active offer is an
    accepted one of which its deals so far have traded what is filled. -/
theorem run_accounts_for_offers {store : σ} {seed : Bool} {market : Market σ}
    (hstart : start store seed = .ok market) (operations : List Operation) :
    let after := (market.run operations).2
    let history := market.history operations
    (∀ offer ∈ history.accepted,
      offer.quantity = history.traded offer.id + after.accounts.openQuantity offer +
        history.withdrawnOf offer.id ∧
      (after.accounts.activeOffer? ⟨offer.id, offer.owner⟩ = none →
        (∀ withdrawn ∈ history.withdrawn, withdrawn.id ≠ offer.id) →
          history.traded offer.id = offer.quantity) ∧
      ∀ deal ∈ history.deals, deal.names offer.id = true → deal.KeepsTo offer) ∧
    (history.withdrawn.map (·.id)).Nodup ∧
    ∀ {entry : QueueEntry} {offer : Offer}, after.accounts.activeOffer? entry = some offer →
      (∃ posted ∈ history.accepted, posted.id = entry.offer ∧ posted.owner = entry.owner ∧
        offer = { posted with remaining := offer.remaining }) ∧
      offer.remaining ≤ offer.quantity ∧ offer.filled = history.traded offer.id := by
  intro after history
  have h : after.Accounted history := accounted_run hstart operations
  have hs : after.Sound := (Reachable.run (.start hstart) operations).sound
  refine ⟨fun offer ho => ⟨h.quantity_eq offer ho, ?_, h.terms offer ho⟩, h.withdrawn_nodup, ?_⟩
  · intro hinactive hkept
    have hquantity := h.quantity_eq offer ho
    unfold Ledger.openQuantity at hquantity
    rw [hinactive, History.withdrawnOf_eq_zero hkept] at hquantity
    exact hquantity.symm
  · intro entry offer hlive
    obtain ⟨posted, hposted, hid, howner, hsame⟩ := h.active hlive
    have hle := (hs.resting hlive).remaining_le
    refine ⟨⟨posted, hposted, hid, howner, hsame⟩, hle, ?_⟩
    -- what is active was not withdrawn
    have hkept : history.withdrawnOf posted.id = 0 := by
      refine History.withdrawnOf_eq_zero fun w hw hsame => ?_
      exact (h.retired w hw).ne_of_active hlive (hsame.trans hid).symm
    have hopen : after.accounts.openQuantity posted = offer.remaining := by
      unfold Ledger.openQuantity
      rw [← (h.eq_of_active hlive hposted hid).1, hlive]
      rfl
    have hquantity := h.quantity_eq posted hposted
    rw [hkept, hopen, Nat.add_zero] at hquantity
    have hterms : offer.quantity = posted.quantity ∧ offer.id = posted.id := by
      rw [hsame]
      exact ⟨rfl, rfl⟩
    unfold Offer.filled
    rw [hterms.1, hterms.2, hquantity, Nat.add_sub_cancel]

/-- An offer that is traded with a stranger and with its own owner and then withdrawn, and a later one that
    is traded in part and rests on. -/
theorem run_accounts_for_offers_of_withdrawn :
    ∃ (market : Market VoidStore) (operations : List Operation),
      start {} false = .ok market ∧
      (market.history operations).traded 0 = 7 ∧ (market.history operations).withdrawnOf 0 = 3 ∧
      10 = 7 + (market.run operations).2.accounts.openQuantity (Offer.post 0 0 .sell 5 10) + 3 ∧
      (⟨1, 0, 0, 0, 2, 5, 3⟩ : Deal).KeepsTo (Offer.post 0 0 .sell 5 10) ∧
      (market.history operations).traded 2 = 3 ∧
      ∃ offer, (market.run operations).2.accounts.activeOffer? ⟨3, 1⟩ = some offer ∧
        offer.filled = (market.history operations).traded offer.id := by
  let market : Market VoidStore := { store := {} }
  let operations : List Operation := [.register "a", .register "b", .post 0 .sell 5 10, .post 1 .buy 6 4,
    .post 0 .buy 5 3, .cancel 0 0, .post 1 .sell 7 2, .post 0 .buy 8 1]
  have hstart : start VoidStore.mk false = .ok market := rfl
  obtain ⟨haccepted, -, hactive⟩ := run_accounts_for_offers hstart operations
  have hfirst : Offer.post 0 0 .sell 5 10 ∈ (market.history operations).accepted := by decide +kernel
  have hthird : Offer.post 2 0 .buy 5 3 ∈ (market.history operations).accepted := by decide +kernel
  have hdeal : (⟨1, 0, 0, 0, 2, 5, 3⟩ : Deal) ∈ (market.history operations).deals := by decide +kernel
  have htraded : (market.history operations).traded 0 = 7 := by decide +kernel
  have hwithdrawn : (market.history operations).withdrawnOf 0 = 3 := by decide +kernel
  have hinactive : (market.run operations).2.accounts.activeOffer? ⟨2, 0⟩ = none := by decide +kernel
  have hkept : ∀ w ∈ (market.history operations).withdrawn, w.id ≠ 2 := by decide +kernel
  have hlive : ((market.run operations).2.accounts.activeOffer? ⟨3, 1⟩).isSome := by decide +kernel
  obtain ⟨hquantity, -, hterms⟩ := haccepted _ hfirst
  obtain ⟨-, hfulfilled, -⟩ := haccepted _ hthird
  obtain ⟨offer, hoffer⟩ := Option.isSome_iff_exists.mp hlive
  obtain ⟨-, -, hfilled⟩ := hactive hoffer
  refine ⟨market, operations, hstart, htraded, hwithdrawn, ?_, hterms _ hdeal (by decide),
    hfulfilled hinactive hkept, offer, hoffer, hfilled⟩
  calc 10 = (market.history operations).traded 0 +
        (market.run operations).2.accounts.openQuantity (Offer.post 0 0 .sell 5 10) +
          (market.history operations).withdrawnOf 0 := hquantity
    _ = _ := by rw [htraded, hwithdrawn]

/-- The owner of an offer to sell is the buyer as well, where a user trades with themselves. -/
theorem not_forall_buyer_iff_buy :
    ¬∀ operations : List Operation,
      ∀ offer ∈ ({ store := {} } : Market VoidStore).history operations |>.accepted,
        ∀ deal ∈ ({ store := {} } : Market VoidStore).history operations |>.deals,
          deal.names offer.id = true →
            ((deal.buyer = offer.owner ↔ offer.side = .buy) ∧
              (deal.seller = offer.owner ↔ offer.side = .sell)) := by
  intro h
  have hself := (h [.register "a", .post 0 .sell 80 10, .post 0 .buy 80 10]
    (Offer.post 0 0 .sell 80 10) (by decide +kernel) ⟨0, 0, 0, 0, 1, 80, 10⟩ (by decide +kernel)
    (by decide)).1.mp rfl
  cases hself

end Market

end Bourse
