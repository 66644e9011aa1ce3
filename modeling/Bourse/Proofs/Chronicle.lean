import Bourse.Proofs.History
import Bourse.Proofs.Outcome
import Bourse.Store.Memory

/-!
# `Bourse.Proofs.Chronicle` — the deals of a run, and who keeps them

Numbers are given out one after the other: what a run gives out of each numbering is an interval that starts
where the numbering stood (`Sound.issued_eq`). So a deal has a number that is new to its parties, and adding
it to their accounts replaces none. An account therefore lists the deals of the run that its user was a party
of, in the order in which they were made, and the last price is that of the last deal (`Market.Chronicled`).
-/

namespace Bourse

/-! ## Numbers that are given out -/

/-- The user that an operation has registered. -/
def Answer.newUser? : Answer → Option UserId
  | .registered user => some user
  | _ => none

namespace Market

variable {σ : Type}

/-- The numbering of a table's rows. -/
def numbering (market : Market σ) : Table → Numbering
  | .user => market.userIds
  | .offer => market.offerIds
  | .deal => market.dealIds

/-- A withdrawal adds neither an offer nor a deal to the history. -/
theorem contribution_cancel (market : Market σ) (user : UserId) (offer : OfferId) (answer : Answer) :
    (market.contribution (.cancel user offer) answer).accepted = [] ∧
      (market.contribution (.cancel user offer) answer).deals = [] := by
  unfold contribution
  split
  case h_1 hposts => cases hposts
  case h_2 => exact ⟨rfl, rfl⟩
  case h_3 => exact ⟨rfl, rfl⟩

variable [RecordStore σ]

/-- The numbers that an operation gives out. -/
def issuedBy (market : Market σ) (operation : Operation) (table : Table) : List Nat :=
  let answer := (market.apply operation).1
  match table with
  | .user => answer.newUser?.toList
  | .offer => (market.contribution operation answer).accepted.map (·.id)
  | .deal => (market.contribution operation answer).deals.map (·.id)

/-- The numbers that a run gives out. -/
def issued (market : Market σ) (operations : List Operation) (table : Table) : List Nat :=
  match table with
  | .user => (market.run operations).1.filterMap Answer.newUser?
  | .offer => (market.history operations).accepted.map (·.id)
  | .deal => (market.history operations).deals.map (·.id)

theorem issued_cons (market : Market σ) (operation : Operation) (rest : List Operation)
    (table : Table) :
    market.issued (operation :: rest) table =
      market.issuedBy operation table ++ (market.apply operation).2.issued rest table := by
  cases table with
  | user =>
    show List.filterMap Answer.newUser? ((market.apply operation).1 :: _) =
      (market.apply operation).1.newUser?.toList ++ _
    rw [List.filterMap_cons]
    cases (market.apply operation).1.newUser? <;> rfl
  | offer =>
    show (market.history (operation :: rest)).accepted.map (·.id) = _
    rw [history_cons, History.accepted_append, List.map_append]
    rfl
  | deal =>
    show (market.history (operation :: rest)).deals.map (·.id) = _
    rw [history_cons, History.deals_append, List.map_append]
    rfl

/-- **An operation gives out the next numbers of a numbering, without a gap**, and a refused one none. -/
theorem Sound.issuedBy_eq {market : Market σ} (h : market.Sound) (operation : Operation)
    (table : Table) :
    market.issuedBy operation table =
        List.range' (market.numbering table).next (market.issuedBy operation table).length ∧
      (market.apply operation).2.numbering table =
        ⟨(market.numbering table).next + (market.issuedBy operation table).length⟩ := by
  -- all but registrations and postings leave the numberings alone
  have hquiet : market.issuedBy operation table = [] →
      (market.apply operation).2.numbering table = market.numbering table →
        market.issuedBy operation table =
            List.range' (market.numbering table).next (market.issuedBy operation table).length ∧
          (market.apply operation).2.numbering table =
            ⟨(market.numbering table).next + (market.issuedBy operation table).length⟩ := by
    intro hnone hsame
    rw [hnone, hsame]
    exact ⟨rfl, rfl⟩
  cases operation with
  | register username => cases table <;> exact ⟨rfl, rfl⟩
  | deposit user currency amount =>
    have hsame : (market.deposit user currency amount).2.numbering table = market.numbering table := by
      unfold Market.deposit
      split <;> rfl
    exact hquiet (by cases table <;> rfl) hsame
  | post user side price quantity =>
    rcases h.outcome_cases user side price quantity with ⟨cause, -, hp⟩ | ⟨-, after, hp, ho⟩
    · unfold issuedBy Market.apply
      dsimp only
      rw [hp]
      cases table <;> exact ⟨rfl, rfl⟩
    · unfold issuedBy Market.apply
      dsimp only
      rw [hp]
      cases table with
      | user => exact ⟨rfl, ho.userIds_eq⟩
      | offer => exact ⟨rfl, ho.offerIds_eq⟩
      | deal =>
        show (market.dueDeals user side price quantity).map (·.id) =
            List.range' _ ((market.dueDeals user side price quantity).map (·.id)).length ∧
          after.dealIds = ⟨_ + ((market.dueDeals user side price quantity).map (·.id)).length⟩
        rw [List.length_map]
        exact ⟨ho.ids_eq, ho.dealIds_eq⟩
  | cancel user offer =>
    have hsame : (market.cancel user offer).2.numbering table = market.numbering table := by
      unfold Market.cancel
      split <;> rfl
    obtain ⟨haccepted, hdeals⟩ :=
      market.contribution_cancel user offer (.canceled (market.cancel user offer).1)
    refine hquiet ?_ hsame
    cases table with
    | user => rfl
    | offer => exact congrArg (List.map fun offer : Offer => offer.id) haccepted
    | deal => exact congrArg (List.map fun deal : Deal => deal.id) hdeals
  | quotes => exact hquiet (by cases table <;> rfl) (by cases table <;> rfl)

/-- **A run gives out the numbers of every numbering one after the other.** -/
theorem Sound.issued_eq {market : Market σ} (h : market.Sound) (operations : List Operation)
    (table : Table) :
    market.issued operations table =
        List.range' (market.numbering table).next (market.issued operations table).length ∧
      (market.run operations).2.numbering table =
        ⟨(market.numbering table).next + (market.issued operations table).length⟩ := by
  induction operations generalizing market with
  | nil => cases table <;> exact ⟨rfl, rfl⟩
  | cons operation rest ih =>
    obtain ⟨hfirst, hnext⟩ := h.issuedBy_eq operation table
    obtain ⟨hmore, hlast⟩ := ih (h.apply operation)
    rw [hnext] at hmore hlast
    dsimp only at hmore hlast
    rw [issued_cons, List.length_append, ← List.range'_append_1, ← hfirst, ← hmore, run_cons]
    refine ⟨rfl, hlast.trans ?_⟩
    rw [Nat.add_assoc]

end Market

/-! ## Deals and accounts -/

/-- The user was a party of the deal. -/
def Deal.involves (deal : Deal) (user : UserId) : Bool := user = deal.buyer || user = deal.seller

theorem Deal.involves_iff {deal : Deal} {user : UserId} :
    deal.involves user = true ↔ user = deal.buyer ∨ user = deal.seller := by
  simp [involves]

namespace Ledger

/-- Every account lists the deals that its user was a party of, in order, and every party has an account. -/
structure Chronicled (ledger : Ledger) (deals : List Deal) : Prop where
  parties : ∀ deal ∈ deals, (ledger.get? deal.buyer).isSome ∧ (ledger.get? deal.seller).isSome
  closedDeals : ∀ {user : UserId} {account : Account}, ledger.get? user = some account →
    account.closedDeals.entries =
      (deals.filter (·.involves user)).map fun deal => (deal.id, deal)

theorem chronicled_empty : Chronicled .empty [] := ⟨nofun, nofun⟩

theorem Chronicled.values_eq {ledger : Ledger} {deals : List Deal} (h : ledger.Chronicled deals)
    {user : UserId} {account : Account} (hget : ledger.get? user = some account) :
    account.closedDeals.values = deals.filter (·.involves user) := by
  unfold SortedMap.values
  rw [h.closedDeals hget, List.map_map]
  exact List.map_id _

/-- Only the closed deals of an account matter. -/
theorem Chronicled.congr {ledger ledger' : Ledger} {deals : List Deal} (h : ledger.Chronicled deals)
    (hsame : ∀ user, (ledger'.get? user).map (·.closedDeals) =
      (ledger.get? user).map (·.closedDeals)) :
    ledger'.Chronicled deals where
  parties := by
    have hsome : ∀ user, (ledger'.get? user).isSome = (ledger.get? user).isSome := by
      intro user
      have hmapped := congrArg Option.isSome (hsame user)
      rwa [Option.isSome_map, Option.isSome_map] at hmapped
    intro deal hdeal
    rw [hsome, hsome]
    exact h.parties deal hdeal
  closedDeals := by
    intro user account hget
    have hdeals := hsame user
    rw [hget] at hdeals
    obtain ⟨old, hold, heq⟩ := Option.map_eq_some_iff.mp hdeals.symm
    have hlist := h.closedDeals hold
    rw [heq] at hlist
    exact hlist

/-- A change of one account that keeps its deals. -/
theorem Chronicled.modify {ledger : Ledger} {deals : List Deal} (h : ledger.Chronicled deals)
    (user : UserId) (change : Account → Account)
    (hkeep : ∀ account, (change account).closedDeals = account.closedDeals) :
    Chronicled (ledger.modify user change) deals :=
  h.congr (ledger.map_get?_modify hkeep user)

/-- A new user was a party of no deal. -/
theorem Chronicled.insert_new {ledger : Ledger} {deals : List Deal} (h : ledger.Chronicled deals)
    {user : UserId} (hnew : ledger.get? user = none) (username : String) :
    Chronicled (ledger.insert user { id := user, username }) deals where
  parties := by
    have hkept : ∀ u, (ledger.get? u).isSome →
        ((SortedMap.insert ledger user { id := user, username }).get? u).isSome := by
      intro u hu
      rw [SortedMap.get?_insert]
      split
      · rfl
      · exact hu
    exact fun deal hdeal => (h.parties deal hdeal).imp (hkept _) (hkept _)
  closedDeals := by
    intro u account hget
    rw [SortedMap.get?_insert] at hget
    by_cases hu : u = user
    · rw [if_pos hu] at hget
      cases hget
      have hnone : deals.filter (·.involves u) = [] := by
        refine List.filter_eq_nil_iff.mpr fun deal hdeal hparty => ?_
        obtain ⟨hbuyer, hseller⟩ := h.parties deal hdeal
        rcases Deal.involves_iff.mp hparty with hb | hs
        · rw [← hb, hu, hnew] at hbuyer
          cases hbuyer
        · rw [← hs, hu, hnew] at hseller
          cases hseller
      rw [hnone]
      rfl
    · rw [if_neg hu] at hget
      exact h.closedDeals hget

/-- **A deal with a new number comes last in the accounts of its parties** and in no other. -/
theorem Chronicled.dealt {ledger : Ledger} {deals : List Deal} (h : ledger.Chronicled deals)
    {deal : Deal} (hnew : ∀ old ∈ deals, old.id < deal.id)
    (hparties : (ledger.get? deal.buyer).isSome ∧ (ledger.get? deal.seller).isSome) (side : Side) :
    (ledger.dealt side deal).Chronicled (deals ++ [deal]) where
  parties := by
    intro d hd
    rw [isSome_dealt, isSome_dealt]
    rcases List.mem_append.mp hd with hold | hlast
    · exact h.parties d hold
    · rw [List.mem_singleton.mp hlast]
      exact hparties
  closedDeals := by
    intro user account hget
    have hdeals := ledger.closedDeals_dealt side deal user
    rw [hget, Option.map_map] at hdeals
    obtain ⟨old, hold, heq⟩ := Option.map_eq_some_iff.mp hdeals.symm
    replace heq : (if user = deal.buyer ∨ user = deal.seller then old.closedDeals.insert deal.id deal
        else old.closedDeals) = account.closedDeals := heq
    rw [← heq, List.filter_append]
    by_cases hparty : user = deal.buyer ∨ user = deal.seller
    · have hlt : ∀ e ∈ old.closedDeals.entries, e.1 < deal.id := by
        rw [h.closedDeals hold]
        intro e he
        obtain ⟨d, hd, rfl⟩ := List.mem_map.mp he
        exact hnew d (List.mem_filter.mp hd).1
      rw [if_pos hparty, SortedMap.entries_insert_of_lt hlt, h.closedDeals hold,
        List.filter_singleton, Deal.involves_iff.mpr hparty, cond_true, List.map_append]
      rfl
    · have hno : deal.involves user = false :=
        Bool.eq_false_iff.mpr fun hinvolved => hparty (Deal.involves_iff.mp hinvolved)
      rw [if_neg hparty, h.closedDeals hold, List.filter_singleton, hno, cond_false, List.append_nil]

/-- The same for the deals of a whole posting. -/
theorem Chronicled.foldl_dealt {ledger : Ledger} {deals more : List Deal} (h : ledger.Chronicled deals)
    (horder : (deals ++ more).Pairwise (·.id < ·.id))
    (hparties : ∀ deal ∈ more, (ledger.get? deal.buyer).isSome ∧ (ledger.get? deal.seller).isSome)
    (side : Side) : Chronicled (more.foldl (Ledger.dealt side) ledger) (deals ++ more) := by
  induction more generalizing ledger deals with
  | nil =>
    rw [List.append_nil]
    exact h
  | cons deal rest ih =>
    have hnew : ∀ old ∈ deals, old.id < deal.id := fun old hold =>
      (List.pairwise_append.mp horder).2.2 old hold deal List.mem_cons_self
    have hfirst := h.dealt hnew (hparties deal List.mem_cons_self) side
    rw [List.append_cons] at horder ⊢
    refine ih hfirst horder fun d hd => ?_
    rw [isSome_dealt, isSome_dealt]
    exact hparties d (List.mem_cons_of_mem _ hd)

theorem Chronicled.posted {ledger : Ledger} {deals more : List Deal} (h : ledger.Chronicled deals)
    (horder : (deals ++ more).Pairwise (·.id < ·.id))
    (hparties : ∀ deal ∈ more, (ledger.get? deal.buyer).isSome ∧ (ledger.get? deal.seller).isSome)
    (offer : Offer) : Chronicled (ledger.posted offer more) (deals ++ more) := by
  have hdealt := h.foldl_dealt horder hparties offer.side
  unfold Ledger.posted
  dsimp only
  split
  · exact hdealt
  · exact hdealt.modify _ _ fun _ => rfl

end Ledger

namespace Market

variable {σ : Type}

/-- The market knows these deals and no other. -/
structure Chronicled (market : Market σ) (deals : List Deal) : Prop where
  accounts : market.accounts.Chronicled deals
  /-- Later deals have greater numbers. -/
  ordered : deals.Pairwise (·.id < ·.id)
  ids_lt : ∀ deal ∈ deals, deal.id < market.dealIds.next
  quote_eq : market.quote = deals.getLast?.map (·.price)

/-- Without a new deal all stays as it is. -/
theorem Chronicled.keep {market after : Market σ} {deals : List Deal} (h : market.Chronicled deals)
    (haccounts : after.accounts.Chronicled deals) (hdealIds : after.dealIds = market.dealIds)
    (hquote : after.quote = market.quote) : after.Chronicled (deals ++ []) := by
  rw [List.append_nil]
  exact ⟨haccounts, h.ordered, hdealIds ▸ h.ids_lt, hquote.trans h.quote_eq⟩

variable [RecordStore σ]

/-- A market that starts knows no deal, whatever its store has kept. -/
theorem chronicled_start {store : σ} {seed : Bool} {market : Market σ}
    (hstart : start store seed = .ok market) : market.Chronicled [] := by
  obtain ⟨userIds, offerIds, dealIds, rfl⟩ := start_eq hstart
  exact ⟨Ledger.chronicled_empty, .nil, nofun, rfl⟩

/-- **An accepted posting adds its deals.** -/
theorem Chronicled.outcome {market after : Market σ} {deals : List Deal} (h : market.Chronicled deals)
    {user : UserId} {side : Side} {price : Price} {quantity : Quantity}
    (ho : market.Outcome user side price quantity after) :
    after.Chronicled (deals ++ market.dueDeals user side price quantity) := by
  -- the new deals have the next numbers
  have hbetween : ∀ deal ∈ market.dueDeals user side price quantity,
      market.dealIds.next ≤ deal.id ∧ deal.id < after.dealIds.next := by
    intro deal hdeal
    have hmem : deal.id ∈ (market.dueDeals user side price quantity).map (·.id) :=
      List.mem_map_of_mem hdeal
    rw [ho.ids_eq, List.mem_range'_1] at hmem
    rw [ho.dealIds_eq]
    exact hmem
  have hnew : ((market.dueDeals user side price quantity).map (·.id)).Pairwise (· < ·) := by
    rw [ho.ids_eq]
    exact List.pairwise_lt_range'
  have horder : (deals ++ market.dueDeals user side price quantity).Pairwise (·.id < ·.id) :=
    List.pairwise_append.mpr ⟨h.ordered, List.pairwise_map.mp hnew, fun old hold new hnew =>
      Nat.lt_of_lt_of_le (h.ids_lt old hold) (hbetween new hnew).1⟩
  constructor
  case accounts =>
    rw [ho.accounts_eq]
    exact h.accounts.posted horder ho.parties _
  case ordered => exact horder
  case ids_lt =>
    intro deal hdeal
    rcases List.mem_append.mp hdeal with hold | hnew
    · rw [ho.dealIds_eq]
      exact Nat.lt_add_right _ (h.ids_lt deal hold)
    · exact (hbetween deal hnew).2
  case quote_eq =>
    rw [ho.quote_eq, h.quote_eq, List.getLast?_append]
    cases (market.dueDeals user side price quantity).getLast? <;> rfl

/-- **One operation keeps the chronicle**, with the deals that it contributes to the history. -/
theorem Chronicled.apply {market : Market σ} {deals : List Deal} (h : market.Chronicled deals)
    (hs : market.Sound) (operation : Operation) :
    (market.apply operation).2.Chronicled
      (deals ++ (market.contribution operation (market.apply operation).1).deals) := by
  cases operation with
  | register username => exact h.keep (h.accounts.insert_new hs.next_user_new username) rfl rfl
  | deposit user currency amount =>
    show (market.deposit user currency amount).2.Chronicled (deals ++ [])
    rcases market.deposit_cases user currency amount with ⟨cause, hd⟩ | ⟨account, -, -, hd⟩
    · rw [hd]
      exact h.keep h.accounts rfl rfl
    · rw [hd]
      have hpaid := h.accounts.modify user (fun account =>
        { account with balance := account.balance.plus currency amount }) fun _ => rfl
      exact h.keep hpaid rfl rfl
  | post user side price quantity =>
    unfold Market.apply
    dsimp only
    rcases hs.outcome_cases user side price quantity with ⟨cause, -, hp⟩ | ⟨-, after, hp, ho⟩
    · rw [hp]
      exact h.keep h.accounts rfl rfl
    · rw [hp]
      exact h.outcome ho
  | cancel user offer =>
    rw [(market.contribution_cancel user offer _).2]
    show (market.cancel user offer).2.Chronicled (deals ++ [])
    unfold Market.cancel
    split
    · exact h.keep h.accounts rfl rfl
    · exact h.keep (h.accounts.modify user (·.removeOffer offer) fun _ => rfl) rfl rfl
  | quotes => exact h.keep h.accounts rfl rfl

/-- **A run keeps the chronicle**, with the deals of its history. -/
theorem Chronicled.run {market : Market σ} {deals : List Deal} (h : market.Chronicled deals)
    (hs : market.Sound) (operations : List Operation) :
    (market.run operations).2.Chronicled (deals ++ (market.history operations).deals) := by
  induction operations generalizing market deals with
  | nil => exact h.keep h.accounts rfl rfl
  | cons operation rest ih =>
    rw [run_cons, history_cons, History.deals_append, ← List.append_assoc]
    exact ih (h.apply hs operation) (hs.apply operation)

/-- **The deals of a run are complete, shared and without a gap.** After any run from a start, the accepted
    offers and the deals have consecutive numbers from those at which the market started. An account has
    closed exactly the deals that its user was the buyer or the seller of, each once and as it was made, and
    the buyer and the seller of every deal have accounts. The last price is that of the last deal, and there
    is none before the first. -/
theorem run_deals_shared {store : σ} {seed : Bool} {market : Market σ}
    (hstart : start store seed = .ok market) (operations : List Operation) :
    let after := (market.run operations).2
    let history := market.history operations
    history.accepted.map (·.id) = List.range' market.offerIds.next history.accepted.length ∧
      history.deals.map (·.id) = List.range' market.dealIds.next history.deals.length ∧
      after.offerIds.next = market.offerIds.next + history.accepted.length ∧
      after.dealIds.next = market.dealIds.next + history.deals.length ∧
      (∀ deal ∈ history.deals,
        (after.accounts.get? deal.buyer).isSome ∧ (after.accounts.get? deal.seller).isSome) ∧
      (∀ user account, after.accounts.get? user = some account →
        account.closedDeals.values =
          history.deals.filter fun deal => user = deal.buyer || user = deal.seller) ∧
      after.quote = history.deals.getLast?.map (·.price) := by
  intro after history
  have hs := sound_start hstart
  obtain ⟨haccounts, -, -, hquote⟩ := (chronicled_start hstart).run hs operations
  obtain ⟨hoffers, hofferIds⟩ := hs.issued_eq operations .offer
  obtain ⟨hdeals, hdealIds⟩ := hs.issued_eq operations .deal
  have hoffersLength : (market.issued operations .offer).length = history.accepted.length :=
    List.length_map _
  have hdealsLength : (market.issued operations .deal).length = history.deals.length :=
    List.length_map _
  rw [hoffersLength] at hoffers hofferIds
  rw [hdealsLength] at hdeals hdealIds
  refine ⟨hoffers, hdeals, congrArg (·.next) hofferIds, congrArg (·.next) hdealIds,
    haccounts.parties, fun user account hget => haccounts.values_eq hget, hquote⟩

/-- A market that goes on after the deals in its store. One deal is of a user with themselves, and one
    posting is refused. -/
theorem run_deals_shared_of_self_trade :
    ∃ market, start (MemoryStore.ofRecords [.offer 7 0 .buy 1 1, .deal 4 0 1 1 1]) true = .ok market ∧
      let operations : List Operation := [.register "a", .register "b", .post 0 .sell 5 3,
        .post 1 .buy 5 0, .post 0 .buy 5 1, .post 1 .buy 6 1]
      (market.history operations).accepted.map (·.id) = [8, 9, 10] ∧
        (market.history operations).deals = [⟨5, 0, 0, 8, 9, 5, 1⟩, ⟨6, 0, 1, 8, 10, 5, 1⟩] ∧
        (∀ account, (market.run operations).2.accounts.get? 0 = some account →
          account.closedDeals.values = [⟨5, 0, 0, 8, 9, 5, 1⟩, ⟨6, 0, 1, 8, 10, 5, 1⟩]) ∧
        (market.run operations).2.quote = some 5 := by
  let market : Market MemoryStore :=
    { offerIds := ⟨8⟩, dealIds := ⟨5⟩, store := .ofRecords [.offer 7 0 .buy 1 1, .deal 4 0 1 1 1] }
  let operations : List Operation := [.register "a", .register "b", .post 0 .sell 5 3,
    .post 1 .buy 5 0, .post 0 .buy 5 1, .post 1 .buy 6 1]
  have hstart : start (MemoryStore.ofRecords [.offer 7 0 .buy 1 1, .deal 4 0 1 1 1]) true =
      .ok market := by decide +kernel
  have hoffers : (market.history operations).accepted.length = 3 := by decide +kernel
  have hdeals : (market.history operations).deals =
      [⟨5, 0, 0, 8, 9, 5, 1⟩, ⟨6, 0, 1, 8, 10, 5, 1⟩] := by decide +kernel
  obtain ⟨hids, -, -, -, -, hclosed, hquote⟩ := run_deals_shared hstart operations
  rw [hoffers] at hids
  rw [hdeals] at hclosed hquote
  exact ⟨market, hstart, hids, hdeals, hclosed 0, hquote⟩

end Market

end Bourse
