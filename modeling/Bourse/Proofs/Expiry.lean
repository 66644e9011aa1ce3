import Bourse.Proofs.LiveEntries
import Bourse.Proofs.Reports

/-!
# `Bourse.Proofs.Expiry` — expired entries cannot be observed

A withdrawn or fulfilled offer leaves its entry in the book until somebody comes across it. Two markets may
therefore differ in their expired entries, `Market.Alike`, and it depends on who has read quotes or matched
at what time. No answer shows the difference, though the two may meet expired entries at different times, in
different levels and from different ends: a posting does what follows from the accounts, a quote is read off
the live entries, and the other operations do not look at the books (`Market.Twins.apply`).

Reading quotes only drops expired entries, so it may be left out of a run or put into it
(`Exchange.run_marked`); and an offer that has come to rest and is withdrawn leaves an expired entry and
nothing else (`Market.Sound.withdrawn`).
-/

namespace Bourse

variable {σ τ : Type}

namespace Market

/-! ## Markets that differ in expired entries -/

/-- The markets have the same accounts, the same last price, the same next ids and the same live entries in
    the same order. -/
structure Alike (market : Market σ) (other : Market τ) : Prop where
  accounts_eq : market.accounts = other.accounts
  quote_eq : market.quote = other.quote
  userIds_eq : market.userIds = other.userIds
  offerIds_eq : market.offerIds = other.offerIds
  dealIds_eq : market.dealIds = other.dealIds
  live_eq : ∀ side, market.liveEntries side = other.liveEntries side

/-- Two sound markets that only expired entries and the stores tell apart. -/
structure Twins (market : Market σ) (other : Market τ) : Prop extends Alike market other where
  sound : market.Sound
  sound_other : other.Sound

/-- Twins with the same store. -/
structure Doubles (market other : Market σ) : Prop extends Twins market other where
  store_eq : market.store = other.store

/-- The live entries are a matter of the accounts. -/
theorem Sound.twins {market : Market σ} {other : Market τ} (h : market.Sound) (h' : other.Sound)
    (haccounts : market.accounts = other.accounts) (hquote : market.quote = other.quote)
    (huserIds : market.userIds = other.userIds) (hofferIds : market.offerIds = other.offerIds)
    (hdealIds : market.dealIds = other.dealIds) : market.Twins other :=
  ⟨⟨haccounts, hquote, huserIds, hofferIds, hdealIds, h.liveEntries_congr h' haccounts⟩, h, h'⟩

variable {market : Market σ} {other : Market τ}

/-- The same deals are due on both. -/
theorem Alike.dueDeals_eq (h : market.Alike other) (user : UserId) (side : Side) (price : Price)
    (quantity : Quantity) :
    market.dueDeals user side price quantity = other.dueDeals user side price quantity := by
  unfold dueDeals
  rw [h.accounts_eq, h.offerIds_eq, h.dealIds_eq]

theorem Alike.objection?_eq (h : market.Alike other) (user : UserId) (side : Side) (price : Price)
    (quantity : Quantity) :
    market.objection? user side price quantity = other.objection? user side price quantity := by
  unfold objection?
  rw [h.dueDeals_eq, show market.balanceOf = other.balanceOf by unfold balanceOf; rw [h.accounts_eq],
    h.accounts_eq]

theorem Alike.duePosting_eq (h : market.Alike other) (user : UserId) (side : Side) (price : Price)
    (quantity : Quantity) :
    market.duePosting user side price quantity = other.duePosting user side price quantity := by
  unfold duePosting
  rw [h.dueDeals_eq, h.offerIds_eq]

/-! ### The operations -/

theorem Twins.register (h : market.Twins other) (username : String) :
    (market.register username).1 = (other.register username).1 ∧
      (market.register username).2.Twins (other.register username).2 := by
  have hsound := h.sound.register username
  have hsound' := h.sound_other.register username
  refine ⟨congrArg (·.next) h.userIds_eq, hsound.twins hsound' ?_ h.quote_eq ?_ h.offerIds_eq
    h.dealIds_eq⟩
  · unfold Market.register
    dsimp only
    rw [h.userIds_eq, h.accounts_eq]
  · exact congrArg Numbering.advance h.userIds_eq

theorem Twins.deposit (h : market.Twins other) (user : UserId) (currency : Currency) (amount : Nat) :
    (market.deposit user currency amount).1 = (other.deposit user currency amount).1 ∧
      (market.deposit user currency amount).2.Twins (other.deposit user currency amount).2 := by
  have hsound := h.sound.deposit user currency amount
  have hsound' := h.sound_other.deposit user currency amount
  unfold Market.deposit at hsound hsound' ⊢
  rw [h.accounts_eq] at hsound ⊢
  split
  · next hrange =>
    rw [if_pos hrange] at hsound hsound'
    exact ⟨rfl, hsound.twins hsound' rfl h.quote_eq h.userIds_eq h.offerIds_eq h.dealIds_eq⟩
  · exact ⟨rfl, h⟩

theorem Twins.cancel (h : market.Twins other) (user : UserId) (offer : OfferId) :
    (market.cancel user offer).1 = (other.cancel user offer).1 ∧
      (market.cancel user offer).2.Twins (other.cancel user offer).2 := by
  have hsound := h.sound.cancel user offer
  have hsound' := h.sound_other.cancel user offer
  unfold Market.cancel at hsound hsound' ⊢
  rw [h.accounts_eq] at hsound ⊢
  cases hget : other.accounts.get? user with
  | none => exact ⟨rfl, h⟩
  | some account =>
    rw [hget] at hsound hsound'
    exact ⟨rfl, hsound.twins hsound' rfl h.quote_eq h.userIds_eq h.offerIds_eq h.dealIds_eq⟩

/-- **Quotes are read off the live entries**, and what reading them drops does not matter. -/
theorem Twins.quotes (h : market.Twins other) :
    market.quotes.1 = other.quotes.1 ∧ market.quotes.2.Twins other.quotes.2 := by
  rw [h.sound.quotes_eq, h.sound_other.quotes_eq, h.live_eq, h.live_eq]
  exact ⟨rfl, h.sound.quotes.twins h.sound_other.quotes h.accounts_eq h.quote_eq h.userIds_eq
    h.offerIds_eq h.dealIds_eq⟩

/-- Reading quotes on one side only keeps the markets alike. -/
theorem Twins.quotes_left (h : market.Twins other) : market.quotes.2.Twins other :=
  h.sound.quotes.twins h.sound_other h.accounts_eq h.quote_eq h.userIds_eq h.offerIds_eq h.dealIds_eq

variable [RecordStore σ] [RecordStore τ]

/-- **A posting does the same on both**, whatever expired entries it comes across. -/
theorem Twins.post (h : market.Twins other) (user : UserId) (side : Side) (price : Price)
    (quantity : Quantity) :
    (market.post user side price quantity).1 = (other.post user side price quantity).1 ∧
      (market.post user side price quantity).2.Twins (other.post user side price quantity).2 := by
  have hobjection := h.objection?_eq user side price quantity
  have hsound := h.sound.post user side price quantity
  have hsound' := h.sound_other.post user side price quantity
  rcases h.sound.outcome_cases user side price quantity with
    ⟨cause, hcause, hp⟩ | ⟨hnone, after, hp, ho⟩
  · rcases h.sound_other.outcome_cases user side price quantity with
      ⟨cause', hcause', hp'⟩ | ⟨hnone', -⟩
    · rw [hcause, hcause'] at hobjection
      rw [hp, hp', Option.some.inj hobjection]
      exact ⟨rfl, h⟩
    · rw [hcause, hnone'] at hobjection
      cases hobjection
  · rcases h.sound_other.outcome_cases user side price quantity with
      ⟨cause', hcause', -⟩ | ⟨-, after', hp', ho'⟩
    · rw [hnone, hcause'] at hobjection
      cases hobjection
    · rw [hp] at hsound
      rw [hp'] at hsound'
      rw [hp, hp', h.duePosting_eq]
      refine ⟨rfl, hsound.twins hsound' ?_ ?_ ?_ ?_ ?_⟩
      · rw [ho.accounts_eq, ho'.accounts_eq, h.accounts_eq, h.offerIds_eq, h.dueDeals_eq]
      · rw [ho.quote_eq, ho'.quote_eq, h.dueDeals_eq, h.quote_eq]
      · rw [ho.userIds_eq, ho'.userIds_eq, h.userIds_eq]
      · rw [ho.offerIds_eq, ho'.offerIds_eq, h.offerIds_eq]
      · rw [ho.dealIds_eq, ho'.dealIds_eq, h.dealIds_eq, h.dueDeals_eq]

/-- **Every operation answers alike and leaves the markets alike.** -/
theorem Twins.apply (h : market.Twins other) (operation : Operation) :
    (market.apply operation).1 = (other.apply operation).1 ∧
      (market.apply operation).2.Twins (other.apply operation).2 := by
  cases operation with
  | register username => exact (h.register username).imp_left (congrArg Answer.registered)
  | deposit user currency amount =>
    exact (h.deposit user currency amount).imp_left (congrArg Answer.deposited)
  | post user side price quantity =>
    exact (h.post user side price quantity).imp_left (congrArg Answer.posted)
  | cancel user offer => exact (h.cancel user offer).imp_left (congrArg Answer.canceled)
  | quotes => exact h.quotes.imp_left (congrArg Answer.quoted)

/-- What a store is told does not matter. -/
theorem lockstep_twins : Lockstep fun (market : Market σ) (other : Market τ) => market.Twins other where
  answer_eq h operation := (h.apply operation).1
  apply h operation := (h.apply operation).2
  reported h _ := (h.sound.reported _ _).twins (h.sound_other.reported _ _) h.accounts_eq h.quote_eq
    h.userIds_eq h.offerIds_eq h.dealIds_eq
  accounts_eq h := h.accounts_eq
  quote_eq h := h.quote_eq

/-- Stores that are the same are told the same, and stay the same. -/
theorem lockstep_doubles : Lockstep fun market other : Market σ => market.Doubles other where
  answer_eq h operation := (h.toTwins.apply operation).1
  apply := by
    intro market other h operation
    obtain ⟨hanswer, hafter⟩ := h.toTwins.apply operation
    refine ⟨hafter, ?_⟩
    rw [h.sound.store_apply, h.sound_other.store_apply, told_congr hanswer, h.store_eq]
  reported h row := ⟨lockstep_twins.reported h.toTwins row, congrArg (RecordStore.notify · row) h.store_eq⟩
  accounts_eq h := h.accounts_eq
  quote_eq h := h.quote_eq

end Market

/-! ## An offer that is posted and withdrawn -/

/-- An account from which a new offer has been withdrawn is what it was. -/
theorem Account.removeOffer_addOffer {account : Account} {offer : Offer}
    (hnew : account.activeOffer? offer.id = none) :
    (account.addOffer offer).removeOffer offer.id = account := by
  unfold addOffer removeOffer
  dsimp only
  rw [SortedMap.erase_insert_of_new hnew]

namespace Ledger

/-- An offer that makes no deal comes to rest as it is. -/
theorem posted_nil (ledger : Ledger) (id : OfferId) (user : UserId) (side : Side) (price : Price)
    {quantity : Quantity} (hquantity : quantity ≠ 0) :
    ledger.posted (Offer.post id user side price quantity) [] =
      ledger.modify user (·.addOffer (Offer.post id user side price quantity)) := by
  have hfill : (Offer.post id user side price quantity).fill 0 =
      Offer.post id user side price quantity := by
    unfold Offer.fill Offer.post
    simp [hquantity]
  have hopen : (Offer.post id user side price quantity).isFulfilled = false := rfl
  have htraded : Deal.traded [] = 0 := rfl
  unfold posted
  dsimp only
  rw [htraded, hfill, if_neg (by rw [hopen]; nofun)]
  rfl

/-- Withdrawing a new offer undoes its posting. -/
theorem modify_removeOffer_addOffer {ledger : Ledger} {user : UserId} {offer : Offer}
    (hnew : ledger.activeOffer? ⟨offer.id, user⟩ = none) :
    (ledger.modify user (·.addOffer offer)).modify user (·.removeOffer offer.id) = ledger := by
  refine SortedMap.ext_get? fun u => ?_
  rw [SortedMap.get?_modify, SortedMap.get?_modify]
  by_cases hu : u = user
  · rw [if_pos hu, if_pos hu, hu, Option.map_map]
    unfold activeOffer? at hnew
    cases hget : ledger.get? user with
    | none => rfl
    | some account =>
      rw [hget] at hnew
      exact congrArg some (Account.removeOffer_addOffer hnew)
  · rw [if_neg hu, if_neg hu]

end Ledger

namespace Market

variable [RecordStore σ]

/-- **An offer that makes no deal and is withdrawn leaves an expired entry behind**, and the market is
    otherwise as if the id of the offer had been skipped. -/
theorem Sound.withdrawn {market posted : Market σ} (h : market.Sound) {user : UserId} {side : Side}
    {price : Price} {quantity : Quantity} {posting : Posting}
    (hpost : market.post user side price quantity = (.ok posting, posted)) (hdeals : posting.deals = []) :
    ∃ canceled, posted.cancel user posting.offer = (.ok true, canceled) ∧
      canceled.Twins { market with offerIds := market.offerIds.advance } := by
  rcases h.outcome_cases user side price quantity with ⟨cause, -, hp⟩ | ⟨hobjection, after, hp, ho⟩
  · rw [hp] at hpost
    cases hpost
  · rw [hp] at hpost
    cases hpost
    obtain ⟨huser, hquantity, -⟩ := objection?_eq_none_iff.mp hobjection
    obtain ⟨account, hget⟩ := Option.isSome_iff_exists.mp huser
    replace hdeals : market.dueDeals user side price quantity = [] := hdeals
    have haccounts := ho.accounts_eq
    have hquote := ho.quote_eq
    have hdealIds := ho.dealIds_eq
    rw [hdeals] at haccounts hquote hdealIds
    rw [Ledger.posted_nil _ _ _ _ _ hquantity] at haccounts
    have hsound : (posted.cancel user market.offerIds.next).2.Sound := by
      have hposted := h.post user side price quantity
      rw [hp] at hposted
      exact hposted.cancel _ _
    have hskipped : { market with offerIds := market.offerIds.advance }.Sound :=
      (h.announced (Offer.post 0 user side price quantity)).reported _ _
    have hresting : posted.accounts.get? user =
        some (account.addOffer (Offer.post market.offerIds.next user side price quantity)) := by
      rw [haccounts, SortedMap.get?_modify, if_pos rfl, hget]
      rfl
    have hactive : (account.addOffer
        (Offer.post market.offerIds.next user side price quantity)).isActive market.offerIds.next =
          true := by
      unfold Account.isActive Account.addOffer SortedMap.contains
      rw [SortedMap.get?_insert]
      exact congrArg Option.isSome (if_pos rfl)
    have hcancel : posted.cancel user market.offerIds.next =
        (.ok true, { posted with
          accounts := posted.accounts.modify user (·.removeOffer market.offerIds.next) }) := by
      unfold Market.cancel
      rw [hresting]
      dsimp only
      rw [hactive]
    rw [hcancel] at hsound
    refine ⟨_, hcancel, hsound.twins hskipped ?_ hquote ho.userIds_eq ho.offerIds_eq hdealIds⟩
    have hnew : market.accounts.activeOffer?
        ⟨(Offer.post market.offerIds.next user side price quantity).id, user⟩ = none :=
      h.next_offer_new user
    rw [haccounts]
    exact Ledger.modify_removeOffer_addOffer hnew

end Market

/-! ## Exchanges -/

namespace Exchange

open Market (Doubles lockstep_doubles)

/-- The event is a question for quotes. -/
def Event.readsQuotes : Event → Bool
  | .request (.quotes _) => true
  | .market .quotes => true
  | _ => false

/-- The exchanges have the same names and, up to expired entries, the same market, with the same store. -/
structure Alike (exchange other : Exchange σ) : Prop where
  market : exchange.market.Alike other.market
  store_eq : exchange.market.store = other.market.store
  credentials_eq : exchange.credentials = other.credentials

variable {exchange other : Exchange σ}

theorem Alike.lifted (h : exchange.Alike other) (hs : exchange.market.Sound)
    (hs' : other.market.Sound) :
    Lifted Doubles exchange other :=
  ⟨⟨⟨h.market, hs, hs'⟩, h.store_eq⟩, h.credentials_eq⟩

theorem Lifted.alike (h : Lifted Doubles exchange other) : exchange.Alike other :=
  ⟨h.market.toAlike, h.market.store_eq, h.credentials_eq⟩

variable [RecordStore σ]

/-- A question for quotes leaves the exchange, or what reading the quotes makes of it. -/
theorem apply_of_readsQuotes (exchange : Exchange σ) {event : Event} (h : event.readsQuotes = true) :
    (exchange.apply event).2 = exchange ∨
      (exchange.apply event).2 = { exchange with market := exchange.market.quotes.2 } := by
  cases event with
  | request r =>
    cases r with
    | quotes user =>
      show (exchange.handle (.quotes user)).2 = _ ∨ (exchange.handle (.quotes user)).2 = _
      rw [handle_snd]
      unfold perform
      dsimp only
      cases exchange.market.account user with
      | error cause => exact .inl rfl
      | ok account => exact .inr rfl
    | register | login | balance | activeOffers | closedDeals | postOffer | cancel | deposit => cases h
  | register username passwordHash => cases h
  | market operation =>
    cases operation with
    | quotes => exact .inr rfl
    | register | deposit | post | cancel => cases h

/-- The answers to those events of a run that are marked. -/
def answersTo (exchange : Exchange σ) (marked : List (Event × Bool)) : List EventAnswer :=
  (((exchange.run (marked.map (·.1))).1.zip marked).filter (·.2.2)).map (·.1)

theorem answersTo_cons (exchange : Exchange σ) (event : Event) (mark : Bool)
    (rest : List (Event × Bool)) :
    exchange.answersTo ((event, mark) :: rest) =
      if mark then (exchange.apply event).1 :: (exchange.apply event).2.answersTo rest
      else (exchange.apply event).2.answersTo rest := by
  cases mark <;> rfl

/-- **Quotes may be read at any time**: the other events of a run, and the quotes read besides, are answered
    as if nobody had read them in between. -/
theorem run_marked (h : Lifted Doubles exchange other) {marked : List (Event × Bool)}
    (hmarked : ∀ e ∈ marked, e.2 = false → e.1.readsQuotes = true) :
    exchange.answersTo marked = (other.run ((marked.filter (·.2)).map (·.1))).1 ∧
      Lifted Doubles (exchange.run (marked.map (·.1))).2
        (other.run ((marked.filter (·.2)).map (·.1))).2 := by
  induction marked generalizing exchange other with
  | nil => exact ⟨rfl, h⟩
  | cons e rest ih =>
    obtain ⟨event, mark⟩ := e
    have hrest : ∀ e ∈ rest, e.2 = false → e.1.readsQuotes = true := fun e he =>
      hmarked e (List.mem_cons_of_mem _ he)
    rw [answersTo_cons, List.map_cons, run_cons]
    cases mark with
    | true =>
      obtain ⟨hanswer, hnext⟩ := h.apply lockstep_doubles event
      obtain ⟨hanswers, hafter⟩ := ih hnext hrest
      rw [hanswer, hanswers]
      exact ⟨rfl, hafter⟩
    | false =>
      -- only the first of the two has read the quotes
      have hnext : Lifted Doubles (exchange.apply event).2 other := by
        rcases exchange.apply_of_readsQuotes (hmarked _ List.mem_cons_self rfl) with hsame | hread
        · rw [hsame]
          exact h
        · rw [hread]
          exact ⟨⟨h.market.quotes_left, h.market.store_eq⟩, h.credentials_eq⟩
      exact ih hnext hrest

/-- **Expired entries cannot be observed.**
    Of two exchanges that differ in expired entries only, every event gets the same answer, whichever they go
    through, and they are left differing in nothing else. Questions for quotes may be put into a run or left
    out of it: all that is marked is answered as without those that are not. And an offer that makes no deal
    and is withdrawn has no other effect on later answers than that its id is skipped. -/
theorem expired_unobservable :
    (∀ {exchange other : Exchange σ}, exchange.Reachable → other.Reachable → exchange.Alike other →
      ∀ events, (exchange.run events).1 = (other.run events).1 ∧
        (exchange.run events).2.Alike (other.run events).2) ∧
    (∀ {exchange : Exchange σ}, exchange.Reachable → ∀ {marked : List (Event × Bool)},
      (∀ e ∈ marked, e.2 = false → e.1.readsQuotes = true) →
        exchange.answersTo marked = (exchange.run ((marked.filter (·.2)).map (·.1))).1 ∧
          (exchange.run (marked.map (·.1))).2.Alike
            (exchange.run ((marked.filter (·.2)).map (·.1))).2) ∧
    (∀ {exchange : Exchange σ}, exchange.Reachable →
      ∀ {user side price quantity} {posting : Posting} {posted : Market σ},
        exchange.market.post user side price quantity = (.ok posting, posted) → posting.deals = [] →
          ∃ canceled, posted.cancel user posting.offer = (.ok true, canceled) ∧
            let withdrawn := { exchange with market := canceled }
            let skipped := { exchange with market :=
              { exchange.market with offerIds := exchange.market.offerIds.advance } }
            ∀ events, (withdrawn.run events).1 = (skipped.run events).1 ∧
              (withdrawn.run events).2.market.Alike (skipped.run events).2.market ∧
              (withdrawn.run events).2.credentials = (skipped.run events).2.credentials) := by
  refine ⟨?alike, ?marked, ?withdrawn⟩
  case alike =>
    intro exchange other h h' halike events
    obtain ⟨hanswers, hafter⟩ := (halike.lifted h.sound h'.sound).run lockstep_doubles events
    exact ⟨hanswers, hafter.alike⟩
  case marked =>
    intro exchange h marked hmarked
    have hsame : exchange.Alike exchange := ⟨⟨rfl, rfl, rfl, rfl, rfl, fun _ => rfl⟩, rfl, rfl⟩
    obtain ⟨hanswers, hafter⟩ := run_marked (hsame.lifted h.sound h.sound) hmarked
    exact ⟨hanswers, hafter.alike⟩
  case withdrawn =>
    intro exchange h user side price quantity posting posted hpost hdeals
    obtain ⟨canceled, hcancel, htwins⟩ := h.sound.withdrawn hpost hdeals
    refine ⟨canceled, hcancel, fun events => ?_⟩
    have hlifted : Lifted (fun market other : Market σ => market.Twins other)
        { exchange with market := canceled }
        { exchange with market :=
          { exchange.market with offerIds := exchange.market.offerIds.advance } } := ⟨htwins, rfl⟩
    obtain ⟨hanswers, hafter⟩ := hlifted.run Market.lockstep_twins events
    exact ⟨hanswers, hafter.market.toAlike, hafter.credentials_eq⟩

/-- The dearest offer is withdrawn; reading quotes drops its entry, and a buyer comes across it where it is
    still there. -/
theorem expired_unobservable_of_withdrawn_offer :
    ∃ market other : Market MemoryStore, market.Reachable ∧ other = market.quotes.2 ∧
      market.books ≠ other.books ∧
      (∀ events, (Exchange.run { market } events).1 = (Exchange.run { market := other } events).1) ∧
      Exchange.answersTo { market } [(.market .quotes, false), (.market (.post 1 .buy 7 4), true),
          (.request (.quotes 0), true), (.request (.quotes 1), false)] =
        (Exchange.run { market } [.market (.post 1 .buy 7 4), .request (.quotes 0)]).1 ∧
      ∃ posted canceled, market.post 1 .buy 4 2 = (.ok ⟨2, [], 2⟩, posted) ∧
        posted.cancel 1 2 = (.ok true, canceled) ∧
        ∀ events, (Exchange.run { market := canceled } events).1 =
          (Exchange.run { market := { market with offerIds := ⟨3⟩ } } events).1 := by
  obtain ⟨market, hreachable, hbooks, hposting, hnext⟩ : ∃ market : Market MemoryStore,
      market.Reachable ∧ market.books ≠ market.quotes.2.books ∧
        (market.post 1 .buy 4 2).1 = .ok ⟨2, [], 2⟩ ∧ market.offerIds.advance = ⟨3⟩ := by
    let start : Market MemoryStore := { store := {} }
    refine ⟨(start.run [.register "a", .register "b", .post 0 .sell 5 3, .post 0 .sell 7 3,
      .cancel 0 1]).2, .run (.start (rfl : Market.start _ false = _)) _, ?_, ?_, ?_⟩ <;> decide +kernel
  have hpruned : Exchange.Alike { market } { market := market.quotes.2 } :=
    ⟨⟨rfl, rfl, rfl, rfl, rfl, hreachable.sound.liveEntries_congr hreachable.sound.quotes rfl⟩, rfl, rfl⟩
  have hpost : market.post 1 .buy 4 2 = (.ok ⟨2, [], 2⟩, (market.post 1 .buy 4 2).2) :=
    Prod.ext hposting rfl
  obtain ⟨canceled, hcancel, hlater⟩ := expired_unobservable.2.2 (.start hreachable) hpost rfl
  rw [hnext] at hlater
  exact ⟨market, market.quotes.2, hreachable, rfl, hbooks,
    fun events => (expired_unobservable.1 (.start hreachable) (.start (hreachable.apply .quotes)) hpruned
      events).1,
    (expired_unobservable.2.1 (.start hreachable) (by decide)).1, _, canceled, hpost, hcancel,
    fun events => (hlater events).1⟩

end Exchange

end Bourse
