import Bourse.Proofs.Allotment

/-!
# `Bourse.Proofs.History` — what has become of the offers of a market

The history of a run tells which offers were accepted in it, which deals were made and which offers were
withdrawn. It is read off the operations and their answers (`Market.contribution`); only of a withdrawn offer
the market has to say what was left of it.

To the offers of a sound market an operation does one of three things (`Market.Effect`): nothing, it withdraws
one of them, or it posts a new one that trades with others, of which `Market.Posted` says what becomes of them
all. Each adds to the history what the operation contributes to it (`Sound.effect`), and what every effect
keeps a run keeps (`Sound.run_history`). So a number that no account lists any more stays `Retired`.
-/

namespace Bourse

/-! ## Histories -/

/-- What has become of the offers of a market. -/
structure History where
  /-- The offers that were accepted, as they were posted. -/
  accepted : List Offer := []
  /-- The deals that were made, in order. -/
  deals : List Deal := []
  /-- The offers that were withdrawn, as they were then. -/
  withdrawn : List Offer := []
deriving DecidableEq, Repr

/-- The deal was made by this offer, as its maker or its taker. -/
def Deal.names (deal : Deal) (offer : OfferId) : Bool := deal.maker = offer || deal.taker = offer

theorem Deal.names_iff {deal : Deal} {offer : OfferId} :
    deal.names offer = true ↔ deal.maker = offer ∨ deal.taker = offer := by
  simp [names]

/-- All deals of an incoming offer name it. -/
theorem Deal.traded_filter_names_taker {deals : List Deal} {offer : OfferId}
    (h : ∀ deal ∈ deals, deal.taker = offer) :
    traded (deals.filter (·.names offer)) = traded deals := by
  rw [List.filter_eq_self.mpr fun deal hdeal => names_iff.mpr (.inr (h deal hdeal))]

/-- Of the deals of another offer those name it that have it as their maker. -/
theorem Deal.traded_filter_names_maker {deals : List Deal} {offer : OfferId}
    (h : ∀ deal ∈ deals, deal.taker ≠ offer) :
    traded (deals.filter (·.names offer)) = takenFrom deals offer := by
  unfold takenFrom
  refine congrArg traded (List.filter_congr fun deal hdeal => ?_)
  simp [names, h deal hdeal]

/-- What is left of all these offers. -/
def Offer.left (offers : List Offer) : Quantity :=
  offers.foldr (fun offer sum => offer.remaining + sum) 0

theorem Offer.left_append (first second : List Offer) :
    left (first ++ second) = left first + left second := by
  induction first with
  | nil => exact (Nat.zero_add _).symm
  | cons offer rest ih =>
    show offer.remaining + left (rest ++ second) = offer.remaining + left rest + left second
    rw [ih, Nat.add_assoc]

namespace History

/-- One history after the other. -/
def append (first second : History) : History where
  accepted := first.accepted ++ second.accepted
  deals := first.deals ++ second.deals
  withdrawn := first.withdrawn ++ second.withdrawn

instance : Append History := ⟨append⟩

@[simp] theorem accepted_append (first second : History) :
    (first ++ second).accepted = first.accepted ++ second.accepted := rfl

@[simp] theorem deals_append (first second : History) :
    (first ++ second).deals = first.deals ++ second.deals := rfl

@[simp] theorem withdrawn_append (first second : History) :
    (first ++ second).withdrawn = first.withdrawn ++ second.withdrawn := rfl

theorem empty_append (history : History) : {} ++ history = history := rfl

theorem append_empty (history : History) : history ++ {} = history := by
  show append history {} = history
  simp [append]

theorem append_assoc (first second third : History) :
    first ++ second ++ third = first ++ (second ++ third) := by
  show append (append first second) third = append first (append second third)
  simp [append]

/-- The history of one accepted posting. -/
def ofPosting (user : UserId) (side : Side) (price : Price) (quantity : Quantity) (posting : Posting) :
    History where
  accepted := [Offer.post posting.offer user side price quantity]
  deals := posting.deals

/-- What the deals of an offer traded of it. -/
def traded (history : History) (offer : OfferId) : Quantity :=
  Deal.traded (history.deals.filter (·.names offer))

/-- What was left of an offer when it was withdrawn, if it was. -/
def withdrawnOf (history : History) (offer : OfferId) : Quantity :=
  Offer.left (history.withdrawn.filter (·.id = offer))

theorem traded_append (first second : History) (offer : OfferId) :
    (first ++ second).traded offer = first.traded offer + second.traded offer := by
  unfold traded
  rw [deals_append, List.filter_append, Deal.traded_append]

theorem withdrawnOf_append (first second : History) (offer : OfferId) :
    (first ++ second).withdrawnOf offer = first.withdrawnOf offer + second.withdrawnOf offer := by
  unfold withdrawnOf
  rw [withdrawn_append, List.filter_append, Offer.left_append]

theorem traded_eq_zero {history : History} {offer : OfferId}
    (h : ∀ deal ∈ history.deals, deal.names offer = false) : history.traded offer = 0 := by
  unfold traded
  rw [List.filter_eq_nil_iff.mpr fun deal hdeal => by simp [h deal hdeal]]
  rfl

theorem withdrawnOf_eq_zero {history : History} {offer : OfferId}
    (h : ∀ w ∈ history.withdrawn, w.id ≠ offer) : history.withdrawnOf offer = 0 := by
  unfold withdrawnOf
  rw [List.filter_eq_nil_iff.mpr fun w hw => by simp [h w hw]]
  rfl

end History

namespace Market

variable {σ : Type}

/-! ## Postings -/

/-- What an accepted posting makes of the offers of a market. -/
structure Posted (market : Market σ) (user : UserId) (side : Side) (price : Price)
    (quantity : Quantity) (posting : Posting) (after : Market σ) : Prop where
  offer_eq : posting.offer = market.offerIds.next
  offerIds_eq : after.offerIds = market.offerIds.advance
  deals_eq : posting.deals = market.dueDeals user side price quantity
  remaining_eq : posting.remaining + Deal.traded posting.deals = quantity
  /-- What is left of the posted offer is active. -/
  activeOffer?_new : after.accounts.activeOffer? ⟨posting.offer, user⟩ =
    (Offer.post posting.offer user side price quantity).leftAfter (Deal.traded posting.deals)
  /-- Every other offer loses what the deals took from it. -/
  activeOffer?_old : ∀ {entry : QueueEntry}, entry ≠ ⟨posting.offer, user⟩ →
    after.accounts.activeOffer? entry = (market.accounts.activeOffer? entry).bind
      (·.leftAfter (Deal.takenFrom posting.deals entry.offer))

/-- What comes to rest is active if anything is left of it. -/
theorem Rests.activeOffer?_eq {matched after : Market σ} {last : Offer} (h : Rests matched last after)
    (entry : QueueEntry) :
    after.accounts.activeOffer? entry =
      if last.isFulfilled = false ∧ entry = ⟨last.id, last.owner⟩ then some last
      else matched.accounts.activeOffer? entry := by
  cases h with
  | nothing hdone => rw [if_neg (by simp [hdone])]
  | rest hopen hget =>
    rw [activeOffer?_rested hget]
    simp only [hopen, true_and]

theorem Rests.offerIds_eq {matched after : Market σ} {last : Offer} (h : Rests matched last after) :
    after.offerIds = matched.offerIds := by
  cases h <;> rfl

section Posted

variable {market after : Market σ} {user : UserId} {side : Side} {price : Price} {quantity : Quantity}
  {posting : Posting}

/-- Every deal of an accepted posting is with an active offer of the other side. -/
theorem Posted.mem_deals (hposted : market.Posted user side price quantity posting after)
    (hs : market.Sound) {deal : Deal} (hdeal : deal ∈ posting.deals) :
    ∃ entry maker id amount, market.accounts.activeOffer? entry = some maker ∧
      maker.id = entry.offer ∧ maker.side = side.opposite ∧
        side.crosses price maker.price = true ∧ 0 < amount ∧
          deal = (Offer.post posting.offer user side price quantity).dealWith maker id amount := by
  rw [hposted.deals_eq] at hdeal
  obtain ⟨entry, maker, id, amount, hlive, hside, hcross, hamount, rfl⟩ := hs.mem_dueDeals hdeal
  rw [hposted.offer_eq]
  exact ⟨entry, maker, id, amount, hlive, (hs.resting hlive).id_eq, hside, hcross, hamount, rfl⟩

theorem Posted.taker_eq (hposted : market.Posted user side price quantity posting after)
    (hs : market.Sound) {deal : Deal} (hdeal : deal ∈ posting.deals) : deal.taker = posting.offer := by
  obtain ⟨_, _, _, _, _, _, _, _, _, rfl⟩ := hposted.mem_deals hs hdeal
  rfl

/-- The maker of such a deal is older than the offer. -/
theorem Posted.maker_lt (hposted : market.Posted user side price quantity posting after)
    (hs : market.Sound) {deal : Deal} (hdeal : deal ∈ posting.deals) : deal.maker < posting.offer := by
  obtain ⟨entry, maker, id, amount, hlive, hid, -, -, -, rfl⟩ := hposted.mem_deals hs hdeal
  rw [hposted.offer_eq]
  show maker.id < market.offerIds.next
  rw [hid]
  exact hs.coherent.active_lt hlive

/-- Its number is above all that were given out before. -/
theorem Posted.lt (hposted : market.Posted user side price quantity posting after) {id : OfferId}
    (hid : id < market.offerIds.next) : id < posting.offer := by
  rw [hposted.offer_eq]
  exact hid

theorem Posted.old_ne (hposted : market.Posted user side price quantity posting after) {id : OfferId}
    (hid : id < market.offerIds.next) (owner : UserId) :
    (⟨id, owner⟩ : QueueEntry) ≠ ⟨posting.offer, user⟩ :=
  fun heq => Nat.ne_of_lt (hposted.lt hid) (congrArg (·.offer) heq)

/-- All deals of a posting name its offer, -/
theorem Posted.traded_new (hposted : market.Posted user side price quantity posting after)
    (hs : market.Sound) :
    (History.ofPosting user side price quantity posting).traded posting.offer =
      Deal.traded posting.deals :=
  Deal.traded_filter_names_taker fun _ hdeal => hposted.taker_eq hs hdeal

/-- and they trade of an older one what they take from it. -/
theorem Posted.traded_old (hposted : market.Posted user side price quantity posting after)
    (hs : market.Sound) {id : OfferId} (hid : id < market.offerIds.next) :
    (History.ofPosting user side price quantity posting).traded id =
      Deal.takenFrom posting.deals id := by
  refine Deal.traded_filter_names_maker fun deal hdeal heq => ?_
  rw [hposted.taker_eq hs hdeal] at heq
  exact Nat.ne_of_gt (hposted.lt hid) heq

end Posted

/-! ## The effect of an operation on the offers -/

/-- What an operation adds to the history of the market that it is applied to. -/
def contribution (market : Market σ) : Operation → Answer → History
  | .post user side price quantity, .posted (.ok posting) =>
    .ofPosting user side price quantity posting
  | .cancel user offer, .canceled (.ok true) =>
    { withdrawn := (market.accounts.activeOffer? ⟨offer, user⟩).toList }
  | _, _ => {}

/-- What may happen to the offers of a market, and what the history will say of it. -/
inductive Effect (market after : Market σ) : History → Prop
  | quiet (hids : after.offerIds = market.offerIds)
      (hoffers : ∀ entry, after.accounts.activeOffer? entry = market.accounts.activeOffer? entry) :
      Effect market after {}
  | withdrawn {entry : QueueEntry} {offer : Offer} (hids : after.offerIds = market.offerIds)
      (hlive : market.accounts.activeOffer? entry = some offer)
      (hoffers : ∀ e, after.accounts.activeOffer? e =
        if e = entry then none else market.accounts.activeOffer? e) :
      Effect market after { withdrawn := [offer] }
  | posted {user : UserId} {side : Side} {price : Price} {quantity : Quantity} {posting : Posting}
      (hposted : market.Posted user side price quantity posting after) :
      Effect market after (.ofPosting user side price quantity posting)

/-- A registered user is told whether the offer was active, and it is taken out of the account. -/
theorem cancel_eq {market : Market σ} {user : UserId} {account : Account}
    (hget : market.accounts.get? user = some account) (offer : OfferId) :
    market.cancel user offer = (.ok (market.accounts.isLive ⟨offer, user⟩), { market with
      accounts := market.accounts.insert user (account.removeOffer offer) }) := by
  have hlive : market.accounts.isLive ⟨offer, user⟩ = account.isActive offer := by
    unfold Ledger.isLive Ledger.activeOffer?
    rw [hget]
    rfl
  unfold Market.cancel
  rw [hget, hlive]
  dsimp only
  rw [SortedMap.modify_eq_insert hget]

theorem cancel_of_unknown {market : Market σ} {user : UserId}
    (hget : market.accounts.get? user = none) (offer : OfferId) :
    market.cancel user offer = (.error (.unknownUser user), market) := by
  unfold Market.cancel
  rw [hget]

theorem effect_cancel (market : Market σ) (user : UserId) (offer : OfferId) :
    market.Effect (market.cancel user offer).2
      (market.contribution (.cancel user offer) (.canceled (market.cancel user offer).1)) := by
  cases hget : market.accounts.get? user with
  | none =>
    rw [cancel_of_unknown hget]
    exact .quiet rfl fun _ => rfl
  | some account =>
    have hids := (market.books_offerIds_cancel user offer).2
    have hoffers := market.activeOffer?_cancel user offer
    have hanswer : (market.cancel user offer).1 = .ok (market.accounts.isLive ⟨offer, user⟩) := by
      rw [cancel_eq hget]
    rw [hanswer]
    unfold Ledger.isLive
    cases hlive : market.accounts.activeOffer? ⟨offer, user⟩ with
    | none =>
      refine .quiet hids fun entry => ?_
      rw [hoffers]
      by_cases he : entry = ⟨offer, user⟩
      · rw [if_pos he, he, hlive]
      · rw [if_neg he]
    | some old =>
      show market.Effect _ { withdrawn := (market.accounts.activeOffer? ⟨offer, user⟩).toList }
      rw [hlive]
      exact .withdrawn hids hlive hoffers

/-! ## Numbers that nobody lists -/

/-- The number was given out, and no account lists an offer under it. -/
structure Retired (market : Market σ) (id : OfferId) : Prop where
  lt : id < market.offerIds.next
  inactive : ∀ user, market.accounts.activeOffer? ⟨id, user⟩ = none

theorem Retired.ne_of_active {market : Market σ} {id : OfferId} (h : market.Retired id)
    {entry : QueueEntry} {offer : Offer} (hlive : market.accounts.activeOffer? entry = some offer) :
    entry.offer ≠ id := by
  rintro rfl
  exact Option.some_ne_none _ (hlive.symm.trans (h.inactive entry.owner))

/-- **What is retired stays retired.** -/
theorem Retired.effect {market after : Market σ} {more : History} {id : OfferId}
    (h : market.Retired id) (heffect : market.Effect after more) : after.Retired id := by
  cases heffect with
  | quiet hids hoffers =>
    refine ⟨hids ▸ h.lt, fun user => ?_⟩
    rw [hoffers]
    exact h.inactive user
  | withdrawn hids hlive hoffers =>
    refine ⟨hids ▸ h.lt, fun user => ?_⟩
    rw [hoffers]
    split
    · rfl
    · exact h.inactive user
  | posted hposted =>
    constructor
    case lt =>
      rw [hposted.offerIds_eq]
      exact Nat.lt_succ_of_lt h.lt
    case inactive =>
      intro user
      rw [hposted.activeOffer?_old (hposted.old_ne h.lt user), h.inactive user]
      rfl

/-- A withdrawn offer is retired, for no other account lists it. -/
theorem Sound.retired_withdrawn {market after : Market σ} (h : market.Sound) {entry : QueueEntry}
    {offer : Offer} (hids : after.offerIds = market.offerIds)
    (hlive : market.accounts.activeOffer? entry = some offer)
    (hoffers : ∀ e, after.accounts.activeOffer? e =
      if e = entry then none else market.accounts.activeOffer? e) :
    after.Retired offer.id := by
  rw [(h.resting hlive).id_eq]
  constructor
  case lt =>
    rw [hids]
    exact h.coherent.active_lt hlive
  case inactive =>
    intro user
    rw [hoffers]
    by_cases he : (⟨entry.offer, user⟩ : QueueEntry) = entry
    · rw [if_pos he]
    · rw [if_neg he]
      cases hother : market.accounts.activeOffer? ⟨entry.offer, user⟩ with
      | none => rfl
      | some other => exact absurd (h.coherent.eq_of_active hother hlive rfl) he

/-! ## Runs -/

variable [RecordStore σ]

/-- The history of a run. -/
def history (market : Market σ) : List Operation → History
  | [] => {}
  | operation :: rest =>
    let applied := market.apply operation
    market.contribution operation applied.1 ++ applied.2.history rest

theorem history_cons (market : Market σ) (operation : Operation) (rest : List Operation) :
    market.history (operation :: rest) =
      market.contribution operation (market.apply operation).1 ++
        (market.apply operation).2.history rest := rfl

/-- **A posting on a sound market is refused without a trace or it does to the offers what its deals say.** -/
theorem Sound.posted_cases {market : Market σ} (h : market.Sound) (user : UserId) (side : Side)
    (price : Price) (quantity : Quantity) :
    (∃ cause, market.post user side price quantity = (.error cause, market)) ∨
      ∃ posting after, market.post user side price quantity = (.ok posting, after) ∧
        market.Posted user side price quantity posting after := by
  rcases h.post_cases user side price quantity with
    ⟨cause, -, hp⟩ | ⟨hobjection, last, matched, after, hmatching, hrests, hp⟩
  · exact .inl ⟨cause, hp⟩
  · refine .inr ⟨_, after, hp, ?_⟩
    obtain ⟨-, hquantity, -, -, -⟩ := objection?_eq_none_iff.mp hobjection
    have hc : (Offer.post market.offerIds.next user side price quantity).Consistent :=
      Offer.consistent_post hquantity
    obtain ⟨rfl, hle⟩ := hmatching.last_eq hc
    have hmatched := hmatching.activeOffer?_eq (h.announced _)
    -- the number of the posted offer is new to everybody
    have hnew : matched.accounts.activeOffer? ⟨market.offerIds.next, user⟩ = none := by
      rw [hmatched]
      exact congrArg (Option.bind · _) (h.next_offer_new user)
    constructor
    case offer_eq => rfl
    case offerIds_eq =>
      rw [hrests.offerIds_eq, hmatching.offerIds_eq]
      rfl
    case deals_eq => rfl
    case remaining_eq => exact Nat.sub_add_cancel hle
    case activeOffer?_new =>
      show after.accounts.activeOffer? ⟨market.offerIds.next, user⟩ = _
      rw [hrests.activeOffer?_eq, hc.leftAfter_eq, hnew]
      cases hdone : ((Offer.post market.offerIds.next user side price quantity).fill
        (Deal.traded (market.dueDeals user side price quantity))).isFulfilled
      · exact if_pos ⟨rfl, rfl⟩
      · simp
    case activeOffer?_old =>
      intro entry he
      rw [hrests.activeOffer?_eq, hmatched, if_neg fun hrest => he hrest.2]
      rfl

/-- **Every operation has one of the three effects on the offers of a sound market**, and contributes to the
    history accordingly. -/
theorem Sound.effect {market : Market σ} (h : market.Sound) (operation : Operation) :
    market.Effect (market.apply operation).2
      (market.contribution operation (market.apply operation).1) := by
  cases operation with
  | register username =>
    refine .quiet rfl fun entry => ?_
    show (market.register username).2.accounts.activeOffer? entry = _
    rw [activeOffer?_register]
    by_cases hnew : entry.owner = market.userIds.next
    · rw [if_pos hnew]
      unfold Ledger.activeOffer?
      rw [hnew, h.next_user_new]
      rfl
    · rw [if_neg hnew]
  | deposit user currency amount =>
    exact .quiet (market.books_offerIds_deposit user currency amount).2
      (market.activeOffer?_deposit user currency amount)
  | post user side price quantity =>
    rcases h.posted_cases user side price quantity with
      ⟨cause, hp⟩ | ⟨posting, after, hp, hposted⟩
    · unfold Market.apply
      dsimp only
      rw [hp]
      exact .quiet rfl fun _ => rfl
    · unfold Market.apply
      dsimp only
      rw [hp]
      exact .posted hposted
  | cancel user offer => exact market.effect_cancel user offer
  | quotes => exact .quiet rfl fun _ => rfl

/-- **What every effect keeps, with what it adds to the history, a run keeps** with its whole history. -/
theorem Sound.run_history {P : Market σ → History → Prop} {market : Market σ} (h : market.Sound)
    {past : History} (hp : P market past)
    (hstep : ∀ {before after : Market σ} {past more : History}, before.Sound →
      before.Effect after more → P before past → P after (past ++ more))
    (operations : List Operation) :
    P (market.run operations).2 (past ++ market.history operations) := by
  induction operations generalizing market past with
  | nil =>
    rw [run_nil, history, History.append_empty]
    exact hp
  | cons operation rest ih =>
    rw [run_cons, history_cons, ← History.append_assoc]
    exact ih (h.apply operation) (hstep h (h.effect operation) hp)

end Market

end Bourse
