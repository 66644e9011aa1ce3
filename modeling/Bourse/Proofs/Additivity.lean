import Bourse.Proofs.Cutting
import Bourse.Proofs.Lifetime
import Bourse.Proofs.Outcome

/-!
# `Bourse.Proofs.Additivity` — an offer posted whole or in two parts

What an offer trades does not depend on whether it is posted whole or in two parts, one after the other.

* `Market.Accepted` says what an accepted posting makes of the accounts and the last price, in terms of its
  deals alone.
* The first part leaves its counterparts without what it took from them (`Posted.counterparts_eq`), so the
  deals of both parts are those of the whole, cut (`Posted.cut_dueDeals`). Cut deals do what whole ones do.
* Of the offers of its own side a posting changes none, and adds what is left of its own
  (`Posted.activeSince_perm`), so the two parts add as much as the whole.
* `Reachable.post_additive` is the result. Either way of posting is refused where the other is, because the
  balances at the cut lie between those before and after the deal that is cut.
-/

namespace Bourse

namespace Offer

theorem left_perm {l m : List Offer} (h : l.Perm m) : left l = left m :=
  h.foldr_eq' (fun a _ b _ sum => Nat.add_left_comm b.remaining a.remaining sum) 0

theorem left_toList (offer? : Option Offer) :
    left offer?.toList = (offer?.map (·.remaining)).getD 0 := by
  cases offer? <;> rfl

end Offer

namespace Market

variable {σ : Type}

/-! ## What an accepted posting makes of a market -/

/-- An offer that comes to rest leaves each account with its balance. -/
theorem Rests.map_balance {matched after : Market σ} {last : Offer} (h : Rests matched last after)
    (user : UserId) :
    (after.accounts.get? user).map (·.balance) = (matched.accounts.get? user).map (·.balance) := by
  cases h with
  | nothing => rfl
  | @rest account hopen hget =>
    unfold rested
    dsimp only
    rw [SortedMap.get?_insert]
    by_cases huser : user = last.owner
    · rw [if_pos huser, huser, hget]
      rfl
    · rw [if_neg huser]

theorem Rests.balanceOf_eq {matched after : Market σ} {last : Offer} (h : Rests matched last after) :
    after.balanceOf = matched.balanceOf :=
  funext fun user => congrArg (·.getD {}) (h.map_balance user)

theorem Rests.isSome_account {matched after : Market σ} {last : Offer} (h : Rests matched last after)
    (user : UserId) : (after.accounts.get? user).isSome = (matched.accounts.get? user).isSome := by
  rw [← Option.isSome_map, h.map_balance, Option.isSome_map]

/-- The balance of a user is told if there is an account. -/
theorem balance_congr {market other : Market σ} {user : UserId}
    (haccount : (market.accounts.get? user).isSome = (other.accounts.get? user).isSome)
    (hbalance : market.balanceOf user = other.balanceOf user) :
    market.balance user = other.balance user := by
  unfold balanceOf at hbalance
  unfold balance Market.account Ledger.account
  cases hget : market.accounts.get? user with
  | none =>
    cases hget' : other.accounts.get? user with
    | none => rfl
    | some account' =>
      rw [hget, hget'] at haccount
      cases haccount
  | some account =>
    cases hget' : other.accounts.get? user with
    | none =>
      rw [hget, hget'] at haccount
      cases haccount
    | some account' =>
      rw [hget, hget'] at hbalance
      exact congrArg Except.ok hbalance

variable [RecordStore σ]

theorem Matching.balanceOf_eq {market after : Market σ} {taker last : Offer} {deals : List Deal}
    (h : Matching market taker deals last after) :
    after.balanceOf = Deal.balancesAfterAll market.balanceOf deals := by
  induction h with
  | fulfilled => rfl
  | blocked => rfl
  | expired _ _ _ _ _ ih => exact ih
  | traded _ _ _ _ hbear _ ih =>
    rw [ih]
    exact congrArg (Deal.balancesAfterAll · _) (balanceOf_struck hbear _)

omit [RecordStore σ] in
/-- What an accepted posting makes of the accounts and of the last price. -/
structure Accepted (market : Market σ) (user : UserId) (side : Side) (price : Price)
    (quantity : Quantity) (posting : Posting) (after : Market σ) : Prop
    extends market.Posted user side price quantity posting after where
  balanceOf_eq : after.balanceOf = Deal.balancesAfterAll market.balanceOf posting.deals
  isSome_account : ∀ u, (after.accounts.get? u).isSome = (market.accounts.get? u).isSome
  quote_eq : after.quote = (posting.deals.getLast?.map (·.price)).or market.quote

theorem Sound.accepted {market after : Market σ} (h : market.Sound) {user : UserId} {side : Side}
    {price : Price} {quantity : Quantity} {posting : Posting}
    (hpost : market.post user side price quantity = (.ok posting, after)) :
    market.Accepted user side price quantity posting after := by
  rcases h.posted_cases user side price quantity with ⟨cause, hp⟩ | ⟨_, _, hp, hposted⟩
  · rw [hp] at hpost
    cases hpost
  rw [hp] at hpost
  cases hpost
  rcases h.post_cases user side price quantity with
    ⟨cause, -, hp'⟩ | ⟨-, last, matched, _, hmatching, hrests, hp'⟩
  · rw [hp] at hp'
    cases hp'
  rw [hp] at hp'
  cases hp'
  refine ⟨hposted, ?_, fun u => ?_, ?_⟩
  · rw [hrests.balanceOf_eq, hmatching.balanceOf_eq]
    rfl
  · rw [hrests.isSome_account, hmatching.isSome_account]
    rfl
  · rw [hrests.eq.2.1, (hmatching.dealt (h.announced _)).quote_eq]
    rfl

/-- An offer is accepted exactly if there is no objection to it. -/
theorem Sound.exists_post_iff {market : Market σ} (h : market.Sound) (user : UserId) (side : Side)
    (price : Price) (quantity : Quantity) :
    (∃ posting after, market.post user side price quantity = (.ok posting, after)) ↔
      market.objection? user side price quantity = none := by
  rcases h.post_cases user side price quantity with
    ⟨cause, hobjection, hp⟩ | ⟨hobjection, last, matched, after, -, -, hp⟩
  · rw [hobjection, hp]
    exact iff_of_false nofun nofun
  · rw [hobjection, hp]
    exact iff_of_true ⟨_, _, rfl⟩ rfl

/-! ## The queue that is left -/

omit [RecordStore σ] in
/-- A posting takes nothing from an offer of its own side. -/
theorem Posted.activeOffer?_of_side {market after : Market σ} {user : UserId} {side : Side}
    {price : Price} {quantity : Quantity} {posting : Posting}
    (h : market.Posted user side price quantity posting after) (hs : market.Sound) {entry : QueueEntry}
    {offer : Offer} (hlive : market.accounts.activeOffer? entry = some offer) (hside : offer.side = side) :
    after.accounts.activeOffer? entry = some offer := by
  have hnone : Deal.takenFrom posting.deals entry.offer = 0 := by
    refine Deal.takenFrom_eq_zero fun deal hdeal hmaker => ?_
    obtain ⟨entry', maker, id, amount, hlive', hid, hopposite, -, -, rfl⟩ := h.mem_deals hs hdeal
    have hsame : maker = offer := hs.eq_of_id_eq hlive' hlive (hmaker.trans (hs.resting hlive).id_eq.symm)
    rw [hsame, hside] at hopposite
    cases side <;> cases hopposite
  rw [h.activeOffer?_old (h.old_ne (hs.coherent.active_lt hlive) entry.owner), hlive, hnone]
  exact (hs.resting hlive).leftAfter_zero

omit [RecordStore σ] in
/-- **The counterparts after a posting** are those before it, each without what the deals took from it. -/
theorem Posted.counterparts_eq {market after : Market σ} {user : UserId} {side : Side} {price : Price}
    {quantity : Quantity} {posting : Posting}
    (h : market.Posted user side price quantity posting after) (hs : market.Sound) (hs' : after.Sound)
    (limit : Price) :
    after.accounts.counterparts side limit =
      (market.accounts.counterparts side limit).filterMap fun maker =>
        maker.leftAfter (Deal.takenFrom posting.deals maker.id) := by
  refine eq_of_pairwise_of_mem_iff (r := fun a b : Offer =>
    side.opposite.isBetter a.price b.price = true ∨ (a.price = b.price ∧ a.id < b.id))
    Side.not_before_of_before ?_ ?_ fun offer => ?_
  · rw [hs'.counterparts_eq]
    exact hs'.pairwise_met side limit
  · -- what is left of an offer has its price and its number
    rw [hs.counterparts_eq, List.pairwise_filterMap]
    refine (hs.pairwise_met side limit).imp fun hab a' ha' b' hb' => ?_
    rw [Offer.eq_of_leftAfter ha', Offer.eq_of_leftAfter hb']
    exact hab
  · rw [hs'.mem_counterparts_iff, List.mem_filterMap]
    constructor
    · rintro ⟨⟨entry, hlive⟩, hside, hcross⟩
      have hold : entry ≠ ⟨posting.offer, user⟩ := by
        rintro rfl
        rw [h.activeOffer?_new] at hlive
        have hsame := congrArg (·.side) (Offer.eq_of_leftAfter hlive)
        rw [hside] at hsame
        cases side <;> cases hsame
      rw [h.activeOffer?_old hold] at hlive
      obtain ⟨maker, hmaker, hleft⟩ := Option.bind_eq_some_iff.mp hlive
      rw [Offer.eq_of_leftAfter hleft] at hside hcross
      rw [← (hs.resting hmaker).id_eq] at hleft
      exact ⟨maker, hs.mem_counterparts_iff.mpr ⟨⟨entry, hmaker⟩, hside, hcross⟩, hleft⟩
    · rintro ⟨maker, hmaker, hleft⟩
      obtain ⟨⟨entry, hlive⟩, hside, hcross⟩ := hs.mem_counterparts_iff.mp hmaker
      have hafter := h.activeOffer?_old (h.old_ne (hs.coherent.active_lt hlive) entry.owner)
      rw [hlive, Option.bind_some, ← (hs.resting hlive).id_eq, hleft] at hafter
      rw [Offer.eq_of_leftAfter hleft]
      exact ⟨⟨_, hafter.trans (congrArg some (Offer.eq_of_leftAfter hleft))⟩, hside, hcross⟩

omit [RecordStore σ] in
/-- What an offer meets that is posted after another of its side and price. -/
theorem Posted.counterparts_afterAllot {market between : Market σ} {user : UserId} {side : Side}
    {price : Price} {quantity : Quantity} {posting : Posting}
    (h : market.Posted user side price quantity posting between) (hs : market.Sound)
    (hs' : between.Sound) :
    between.accounts.counterparts side price =
      Offer.afterAllot quantity (market.accounts.counterparts side price) := by
  rw [h.counterparts_eq hs hs', h.deals_eq]
  exact (Offer.afterAllot_eq (hs.nodup_counterparts side price)
    (fun _ hmaker => hs.remaining_pos_of_counterpart hmaker) _ _ _).symm

/-! ## What comes to rest -/

/-- The active offers of a side at a price that got their numbers from `first` on. -/
def activeSince (market : Market σ) (first : OfferId) (side : Side) (price : Price) : List Offer :=
  market.accounts.activeOffers.filter fun offer =>
    first ≤ offer.id && offer.side = side && offer.price = price

omit [RecordStore σ] in
theorem mem_activeSince_iff {market : Market σ} {first : OfferId} {side : Side} {price : Price}
    {offer : Offer} :
    offer ∈ market.activeSince first side price ↔
      (∃ entry, market.accounts.activeOffer? entry = some offer) ∧
        first ≤ offer.id ∧ offer.side = side ∧ offer.price = price := by
  unfold activeSince
  rw [List.mem_filter, Ledger.mem_activeOffers_iff]
  simp only [Bool.and_eq_true, decide_eq_true_eq, and_assoc]

omit [RecordStore σ] in
theorem Sound.nodup_activeSince {market : Market σ} (h : market.Sound) (first : OfferId) (side : Side)
    (price : Price) : (market.activeSince first side price).Nodup :=
  h.nodup_activeOffers.filter _

omit [RecordStore σ] in
/-- **A posting adds to the offers of its side and price what is left of its own**, and nothing else. -/
theorem Posted.activeSince_perm {market after : Market σ} {user : UserId} {side : Side} {price : Price}
    {quantity : Quantity} {posting : Posting}
    (h : market.Posted user side price quantity posting after) (hs : market.Sound) (hs' : after.Sound)
    {first : OfferId} (hfirst : first ≤ market.offerIds.next) :
    (after.activeSince first side price).Perm (market.activeSince first side price ++
      (after.accounts.activeOffer? ⟨posting.offer, user⟩).toList) := by
  have hnew : ∀ {offer : Offer}, after.accounts.activeOffer? ⟨posting.offer, user⟩ = some offer →
      offer.id = market.offerIds.next ∧ offer.side = side ∧ offer.price = price := by
    intro offer hlive
    rw [h.activeOffer?_new] at hlive
    rw [Offer.eq_of_leftAfter hlive, ← h.offer_eq]
    exact ⟨rfl, rfl, rfl⟩
  have hold : ∀ {offer : Offer}, offer ∈ market.activeSince first side price →
      offer.id < market.offerIds.next := by
    intro offer hoffer
    obtain ⟨⟨entry, hlive⟩, -⟩ := mem_activeSince_iff.mp hoffer
    rw [(hs.resting hlive).id_eq]
    exact hs.coherent.active_lt hlive
  refine (List.perm_ext_iff_of_nodup (hs'.nodup_activeSince _ _ _) ?_).mpr fun offer => ?_
  · refine List.nodup_append.mpr ⟨hs.nodup_activeSince _ _ _, ?_, fun offer hoffer new hlive => ?_⟩
    · cases after.accounts.activeOffer? ⟨posting.offer, user⟩
      · exact List.nodup_nil
      · exact List.nodup_singleton _
    · rintro rfl
      have hid := (hnew (Option.mem_toList.mp hlive)).1
      exact Nat.ne_of_lt (hold hoffer) hid
  · rw [List.mem_append, mem_activeSince_iff, mem_activeSince_iff, Option.mem_toList]
    constructor
    · rintro ⟨⟨entry, hlive⟩, hid, hside, hprice⟩
      by_cases he : entry = ⟨posting.offer, user⟩
      · exact .inr (he ▸ hlive)
      · -- an old offer of this side has kept what it had
        have hleft := hlive
        rw [h.activeOffer?_old he] at hleft
        obtain ⟨old, hactive, hleft⟩ := Option.bind_eq_some_iff.mp hleft
        have hsame : old.side = side := by
          rw [← hside, Offer.eq_of_leftAfter hleft]
        have hkept := (h.activeOffer?_of_side hs hactive hsame).symm.trans hlive
        cases hkept
        exact .inl ⟨⟨entry, hactive⟩, hid, hside, hprice⟩
    · rintro (⟨⟨entry, hlive⟩, hid, hside, hprice⟩ | hlive)
      · exact ⟨⟨entry, h.activeOffer?_of_side hs hlive hside⟩, hid, hside, hprice⟩
      · obtain ⟨hid, hside, hprice⟩ := hnew hlive
        exact ⟨⟨_, hlive⟩, hid ▸ hfirst, hside, hprice⟩

omit [RecordStore σ] in
theorem Posted.left_activeSince {market after : Market σ} {user : UserId} {side : Side} {price : Price}
    {quantity : Quantity} {posting : Posting}
    (h : market.Posted user side price quantity posting after) (hs : market.Sound) (hs' : after.Sound)
    {first : OfferId} (hfirst : first ≤ market.offerIds.next) :
    Offer.left (after.activeSince first side price) =
      Offer.left (market.activeSince first side price) + posting.remaining := by
  rw [Offer.left_perm (h.activeSince_perm hs hs' hfirst), Offer.left_append, Offer.left_toList,
    h.activeOffer?_new, Offer.remaining_leftAfter]
  exact congrArg (_ + ·) (Nat.sub_eq_of_eq_add h.remaining_eq.symm)

/-! ## Whole or in two parts -/

/-- What does not tell whether an offer was posted whole or in two parts. -/
structure SameTrade (market : Market σ) (user : UserId) (side : Side) (price : Price)
    (whole first second : Posting) (after parts : Market σ) : Prop where
  balance_eq : ∀ u, parts.balance u = after.balance u
  quote_eq : parts.quote = after.quote
  /-- The active offers are the same, those apart that were posted. -/
  activeOffer?_eq : ∀ entry : QueueEntry, entry ≠ ⟨whole.offer, user⟩ → entry ≠ ⟨first.offer, user⟩ →
    entry ≠ ⟨second.offer, user⟩ →
      parts.accounts.activeOffer? entry = after.accounts.activeOffer? entry
  /-- As much was dealt with each maker at each price. -/
  traded_eq : ∀ (maker : OfferId) (p : Price),
    Deal.traded ((first.deals ++ second.deals).filter fun deal => deal.maker = maker && deal.price = p) =
      Deal.traded (whole.deals.filter fun deal => deal.maker = maker && deal.price = p)
  /-- As much is left to rest, -/
  remaining_eq : first.remaining + second.remaining = whole.remaining
  /-- and rests at the price. -/
  resting_eq : Offer.left (parts.activeSince market.offerIds.next side price) =
    Offer.left (after.activeSince market.offerIds.next side price)

section Split

variable {market after between parts : Market σ} {user : UserId} {side : Side} {price : Price}
  {a b : Nat} {whole first second : Posting}

omit [RecordStore σ] in
/-- **Two parts make the deals of the whole**, one of them in two halves. -/
theorem Sound.cut_dueDeals (hs : market.Sound) (user : UserId) (side : Side) (price : Price) (a : Nat)
    {b : Nat} (hb : b ≠ 0) (i : OfferId) (k : DealId) :
    Deal.Cut (market.dueDeals user side price (a + b)) (market.dueDeals user side price a ++
      (Offer.post i user side price b).dealsOf k
        (Offer.allot b (Offer.afterAllot a (market.accounts.counterparts side price)))) := by
  unfold dueDeals
  refine Offer.cut_dealsOf ?_ ?_ ?_ ?_ (fun _ hmaker => hs.remaining_pos_of_counterpart hmaker) hb _ _ _
  all_goals rfl

omit [RecordStore σ] in
theorem Posted.cut_dueDeals (h : market.Posted user side price a first between) (hs : market.Sound)
    (hs' : between.Sound) (hb : b ≠ 0) :
    Deal.Cut (market.dueDeals user side price (a + b))
      (first.deals ++ between.dueDeals user side price b) := by
  unfold dueDeals at *
  rw [h.deals_eq, h.counterparts_afterAllot hs hs']
  exact hs.cut_dueDeals user side price a hb _ _

omit [RecordStore σ] in
/-- If there is no objection to the whole, there is none to the first part. -/
theorem Sound.objection?_part (hs : market.Sound) (ha : a ≠ 0) (hb : b ≠ 0)
    (h : market.objection? user side price (a + b) = none) :
    market.objection? user side price a = none := by
  obtain ⟨huser, -, hquantity, hcost, hfit⟩ := objection?_eq_none_iff.mp h
  have hrange := Amount.inRange_part (Nat.le_add_right a b) hquantity hcost
  have hcut := hs.cut_dueDeals user side price a hb market.offerIds.next market.dealIds.next
  rw [← hcut.firstOutOfRange?_eq_none_iff hs.balanceOf_inRange,
    Deal.firstOutOfRange?_append_eq_none_iff] at hfit
  exact objection?_eq_none_iff.mpr ⟨huser, ha, hrange.1, hrange.2, hfit.1⟩

omit [RecordStore σ] in
/-- Once the first part is accepted, there is an objection to the second exactly if there was one to the
    whole. -/
theorem Accepted.objection?_iff (h : market.Accepted user side price a first between)
    (hs : market.Sound) (hs' : between.Sound) (hb : b ≠ 0)
    (hquantity : Amount.InRange ↑(a + b)) (hcost : Amount.InRange (price * ↑(a + b)))
    (hfirst : market.objection? user side price a = none) :
    market.objection? user side price (a + b) = none ↔
      between.objection? user side price b = none := by
  obtain ⟨huser, ha, -, -, hfit⟩ := objection?_eq_none_iff.mp hfirst
  have hcut := h.cut_dueDeals hs hs' hb
  have hrange := Amount.inRange_part (Nat.le_add_left b a) hquantity hcost
  have hfits : Deal.firstOutOfRange? market.balanceOf (market.dueDeals user side price (a + b)) = none ↔
      Deal.firstOutOfRange? between.balanceOf (between.dueDeals user side price b) = none := by
    rw [← hcut.firstOutOfRange?_eq_none_iff hs.balanceOf_inRange,
      Deal.firstOutOfRange?_append_eq_none_iff, h.balanceOf_eq, h.deals_eq]
    exact and_iff_right hfit
  rw [objection?_eq_none_iff, objection?_eq_none_iff, hfits, h.isSome_account]
  exact ⟨fun hw => ⟨hw.1, hb, hrange.1, hrange.2, hw.2.2.2.2⟩,
    fun hw => ⟨hw.1, fun hzero => ha (Nat.add_eq_zero_iff.mp hzero).1, hquantity, hcost, hw.2.2.2.2⟩⟩

omit [RecordStore σ] in
/-- **Posting whole or in two parts leaves the same.** -/
theorem Accepted.sameTrade (hwhole : market.Accepted user side price (a + b) whole after)
    (hfirst : market.Accepted user side price a first between)
    (hsecond : between.Accepted user side price b second parts) (hs : market.Sound)
    (hafter : after.Sound) (hbetween : between.Sound) (hparts : parts.Sound) (hb : b ≠ 0) :
    SameTrade market user side price whole first second after parts := by
  have hcut : Deal.Cut whole.deals (first.deals ++ second.deals) := by
    rw [hwhole.deals_eq, hsecond.deals_eq]
    exact hfirst.cut_dueDeals hs hbetween hb
  have htaken : ∀ id, Deal.takenFrom first.deals id + Deal.takenFrom second.deals id =
      Deal.takenFrom whole.deals id := by
    intro id
    have hfilter := hcut.filter (p := fun deal => deal.maker = id) fun h => by rw [h.maker_eq]
    have htraded := hfilter.traded_eq
    rw [List.filter_append, Deal.traded_append] at htraded
    exact htraded
  have hremaining : first.remaining + second.remaining = whole.remaining := by
    have htraded := hcut.traded_eq
    rw [Deal.traded_append] at htraded
    refine Nat.add_right_cancel (m := Deal.traded whole.deals) ?_
    rw [hwhole.remaining_eq, ← htraded, Nat.add_add_add_comm, hfirst.remaining_eq, hsecond.remaining_eq]
  constructor
  case balance_eq =>
    intro u
    refine balance_congr ?_ ?_
    · rw [hsecond.isSome_account, hfirst.isSome_account, hwhole.isSome_account]
    · rw [hsecond.balanceOf_eq, hfirst.balanceOf_eq, hwhole.balanceOf_eq,
        ← Deal.balancesAfterAll_append, hcut.balancesAfterAll_eq]
  case quote_eq =>
    rw [hsecond.quote_eq, hfirst.quote_eq, hwhole.quote_eq, ← hcut.price_getLast?_eq,
      List.getLast?_append, Option.map_or, Option.or_assoc]
  case activeOffer?_eq =>
    intro entry hw hf hsd
    rw [hsecond.activeOffer?_old hsd, hfirst.activeOffer?_old hf, hwhole.activeOffer?_old hw,
      Option.bind_assoc]
    cases market.accounts.activeOffer? entry with
    | none => rfl
    | some offer => rw [Option.bind_some, Option.bind_some, offer.leftAfter_bind, htaken]
  case traded_eq =>
    intro maker p
    exact (hcut.filter (p := fun deal => deal.maker = maker && deal.price = p)
      fun h => by rw [h.maker_eq, h.price_eq]).traded_eq
  case remaining_eq => exact hremaining
  case resting_eq =>
    have hnext : market.offerIds.next ≤ between.offerIds.next := by
      rw [hfirst.offerIds_eq]
      exact Nat.le_succ _
    rw [hsecond.left_activeSince hbetween hparts hnext, hfirst.left_activeSince hs hbetween (Nat.le_refl _),
      hwhole.left_activeSince hs hafter (Nat.le_refl _), Nat.add_assoc, hremaining]

/-- **Posting is additive in the quantity.** On a reachable market, an offer whose quantity and cost are in
    range is accepted exactly if both of its parts are, the second after the first; and then nothing but the
    numbers tells whether it was posted whole or in two parts. -/
theorem Reachable.post_additive (h : market.Reachable) (user : UserId) (side : Side) (price : Price)
    (a b : Nat) (ha : 1 ≤ a) (hb : 1 ≤ b) (hquantity : Amount.InRange ↑(a + b))
    (hcost : Amount.InRange (price * ↑(a + b))) :
    ((∃ whole after, market.post user side price (a + b) = (.ok whole, after)) ↔
      ∃ first between second parts, market.post user side price a = (.ok first, between) ∧
        between.post user side price b = (.ok second, parts)) ∧
    ∀ {whole first second : Posting} {after between parts : Market σ},
      market.post user side price (a + b) = (.ok whole, after) →
      market.post user side price a = (.ok first, between) →
      between.post user side price b = (.ok second, parts) →
        SameTrade market user side price whole first second after parts := by
  have hs := h.sound
  have hb0 : b ≠ 0 := Nat.one_le_iff_ne_zero.mp hb
  -- what is posted on a sound market leaves a sound one
  have hnext : ∀ {m m' : Market σ} {q : Quantity} {posting : Posting}, m.Sound →
      m.post user side price q = (.ok posting, m') → m'.Sound := by
    intro m m' q posting hm hpost
    have hsound := hm.post user side price q
    rwa [hpost] at hsound
  refine ⟨⟨fun hwhole => ?_, ?_⟩, fun {whole first second after between parts} hwhole hfirst hsecond => ?_⟩
  · have hobjection := (hs.exists_post_iff user side price (a + b)).mp hwhole
    have hpart := hs.objection?_part (Nat.one_le_iff_ne_zero.mp ha) hb0 hobjection
    obtain ⟨first, between, hfirst⟩ := (hs.exists_post_iff user side price a).mpr hpart
    have hbetween := hnext hs hfirst
    have hrest := ((hs.accepted hfirst).objection?_iff hs hbetween hb0 hquantity hcost hpart).mp hobjection
    obtain ⟨second, parts, hsecond⟩ := (hbetween.exists_post_iff user side price b).mpr hrest
    exact ⟨first, between, second, parts, hfirst, hsecond⟩
  · rintro ⟨first, between, second, parts, hfirst, hsecond⟩
    have hbetween := hnext hs hfirst
    have hpart := (hs.exists_post_iff user side price a).mp ⟨_, _, hfirst⟩
    have hrest := (hbetween.exists_post_iff user side price b).mp ⟨_, _, hsecond⟩
    exact (hs.exists_post_iff user side price (a + b)).mpr
      (((hs.accepted hfirst).objection?_iff hs hbetween hb0 hquantity hcost hpart).mpr hrest)
  · have hbetween := hnext hs hfirst
    exact (hs.accepted hwhole).sameTrade (hs.accepted hfirst) (hbetween.accepted hsecond) hs
      (hnext hs hwhole) hbetween (hnext hbetween hsecond) hb0

end Split

/-- The first part ends within the best offer; the second goes on with it and meets an offer of its own
    owner, and something is left of it. -/
theorem post_additive_of_cut_maker :
    ∃ (market after between parts : Market VoidStore) (whole first second : Posting),
      market.Reachable ∧ market.post 1 .buy 6 (2 + 6) = (.ok whole, after) ∧
        market.post 1 .buy 6 2 = (.ok first, between) ∧ between.post 1 .buy 6 6 = (.ok second, parts) ∧
        whole.deals = [⟨0, 0, 1, 0, 3, 5, 3⟩, ⟨1, 1, 1, 1, 3, 6, 2⟩, ⟨2, 0, 1, 2, 3, 6, 1⟩] ∧
        first.deals = [⟨0, 0, 1, 0, 3, 5, 2⟩] ∧
        second.deals = [⟨1, 0, 1, 0, 4, 5, 1⟩, ⟨2, 1, 1, 1, 4, 6, 2⟩, ⟨3, 0, 1, 2, 4, 6, 1⟩] ∧
        SameTrade market 1 .buy 6 whole first second after parts := by
  let start : Market VoidStore := { store := {} }
  let operations : List Operation := [.register "a", .register "b", .post 0 .sell 5 3,
    .post 1 .sell 6 2, .post 0 .sell 6 1]
  let whole : Posting :=
    ⟨3, [⟨0, 0, 1, 0, 3, 5, 3⟩, ⟨1, 1, 1, 1, 3, 6, 2⟩, ⟨2, 0, 1, 2, 3, 6, 1⟩], 2⟩
  let first : Posting := ⟨3, [⟨0, 0, 1, 0, 3, 5, 2⟩], 0⟩
  let second : Posting :=
    ⟨4, [⟨1, 0, 1, 0, 4, 5, 1⟩, ⟨2, 1, 1, 1, 4, 6, 2⟩, ⟨3, 0, 1, 2, 4, 6, 1⟩], 2⟩
  obtain ⟨market, hreachable, hwhole, hfirst, hsecond⟩ :
      ∃ market : Market VoidStore, market.Reachable ∧
        (market.post 1 .buy 6 (2 + 6)).1 = .ok whole ∧ (market.post 1 .buy 6 2).1 = .ok first ∧
        ((market.post 1 .buy 6 2).2.post 1 .buy 6 6).1 = .ok second :=
    ⟨(start.run operations).2, Reachable.run (.start (rfl : Market.start _ false = _)) _,
      by decide +kernel, by decide +kernel, by decide +kernel⟩
  have hsame := (hreachable.post_additive 1 .buy 6 2 6 (by decide) (by decide) (by decide)
    (by decide)).2 (Prod.ext hwhole rfl) (Prod.ext hfirst rfl) (Prod.ext hsecond rfl)
  exact ⟨market, _, _, _, whole, first, second, hreachable, Prod.ext hwhole rfl, Prod.ext hfirst rfl,
    Prod.ext hsecond rfl, rfl, rfl, rfl, hsame⟩

end Market

end Bourse
