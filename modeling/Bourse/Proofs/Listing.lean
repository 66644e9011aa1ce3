import Bourse.Proofs.Preservation

/-!
# `Bourse.Proofs.Listing` — the books list what the accounts own

Here the agreement of books and accounts is said in terms of what can be listed: the active offers of every
account, and the places of both books with the entry that waits at each, expired entries included. In these
terms `Market.Listed` asks for more than `Market.Coherent` does in its own, and the two come to the same
(`Market.listed_iff_coherent`), so every operation keeps a market listed.
-/

namespace Bourse

/-- An entry of a book, and where it waits. -/
structure Place where
  side : Side
  price : Price
  entry : QueueEntry
deriving DecidableEq, Repr

/-- The places of a book, by ascending price and then in the order of the queue. -/
def Book.places {side : Side} (book : Book side) : List Place :=
  book.levels.entries.flatMap fun (price, level) => level.queue.map ({ side, price, entry := · })

theorem Book.mem_places_iff {side : Side} {book : Book side} {place : Place} :
    place ∈ book.places ↔ place.side = side ∧ place.entry ∈ book.queueAt place.price := by
  unfold Book.places
  rw [List.mem_flatMap]
  constructor
  · rintro ⟨⟨price, level⟩, hlevel, hplace⟩
    obtain ⟨entry, hentry, rfl⟩ := List.mem_map.mp hplace
    refine ⟨rfl, ?_⟩
    rw [queueAt_of_get? (SortedMap.get?_eq_some_iff.mpr hlevel)]
    exact hentry
  · obtain ⟨s, price, entry⟩ := place
    rintro ⟨rfl, hentry⟩
    dsimp only at hentry
    cases hget : book.levels.get? price with
    | none => simp [queueAt, hget] at hentry
    | some level =>
      rw [queueAt_of_get? hget] at hentry
      exact ⟨(price, level), SortedMap.get?_eq_some_iff.mp hget, List.mem_map.mpr ⟨entry, hentry, rfl⟩⟩

namespace Market

variable {σ : Type}

/-- The places of both books. -/
def places (market : Market σ) : List Place := (market.book .buy).places ++ (market.book .sell).places

theorem mem_places_iff {market : Market σ} {place : Place} :
    place ∈ market.places ↔ place.entry ∈ (market.book place.side).queueAt place.price := by
  unfold places
  rw [List.mem_append, Book.mem_places_iff, Book.mem_places_iff]
  obtain ⟨side, price, entry⟩ := place
  cases side
  · simp
  · simp

/-- What the accounts own and what the books list agree. -/
structure Listed (market : Market σ) : Prop where
  /-- An active offer belongs to its account and something is left of it. -/
  owned : ∀ {user : UserId} {account : Account} {id : OfferId} {offer : Offer},
    market.accounts.get? user = some account → account.activeOffers.get? id = some offer →
      offer.id = id ∧ offer.owner = user ∧ offer.status = .active ∧ 0 < offer.remaining ∧
        offer.remaining ≤ offer.quantity
  /-- Its entry stands in one place of all: in the book of its side, at its price. -/
  placed : ∀ {user : UserId} {account : Account} {id : OfferId} {offer : Offer},
    market.accounts.get? user = some account → account.activeOffers.get? id = some offer →
      (market.places.map (·.entry)).count ⟨id, user⟩ = 1 ∧
        ⟨offer.side, offer.price, ⟨id, user⟩⟩ ∈ market.places
  /-- No offer has two entries, not even expired ones. -/
  nodup : (market.places.map (·.entry.offer)).Nodup
  places_lt : ∀ place ∈ market.places, place.entry.offer < market.offerIds.next
  active_lt : ∀ {user : UserId} {account : Account} {id : OfferId} {offer : Offer},
    market.accounts.get? user = some account → account.activeOffers.get? id = some offer →
      id < market.offerIds.next
  /-- No offer is active in two accounts. -/
  one_owner : ∀ {user user' : UserId} {account account' : Account} {id : OfferId},
    market.accounts.get? user = some account → market.accounts.get? user' = some account' →
      account.isActive id = true → account'.isActive id = true → user = user'
  /-- The order of a queue is the order in which the offers were posted. -/
  age : ∀ {side : Side} {price : Price} {level : Level},
    (market.book side).levels.get? price = some level → level.queue.Pairwise (·.offer < ·.offer)
  /-- A level is filed under its own price and has an entry. -/
  levels : ∀ {side : Side} {price : Price} {level : Level},
    (market.book side).levels.get? price = some level → level.queue ≠ [] ∧ level.price = price

/-! ## The two forms of the agreement -/

/-- The places of a book have different offers. -/
theorem Coherent.pairwise_places {market : Market σ} (h : market.Coherent) (side : Side) :
    (market.book side).places.Pairwise fun a b => a.entry.offer ≠ b.entry.offer := by
  have hlevel : ∀ {price : Price} {level : Level}, (price, level) ∈ (market.book side).levels.entries →
      level.queue = (market.book side).queueAt price := by
    intro price level hmem
    exact (Book.queueAt_of_get? (SortedMap.get?_eq_some_iff.mpr hmem)).symm
  unfold Book.places
  rw [List.pairwise_flatMap]
  constructor
  · -- within a queue the older offer has the smaller number
    rintro ⟨price, level⟩ hmem
    rw [List.pairwise_map, hlevel hmem]
    exact (h.age side price).imp Nat.ne_of_lt
  · -- and no offer waits at two prices
    refine (market.book side).levels.ascending.imp_of_mem ?_
    rintro ⟨price, level⟩ ⟨price', level'⟩ hmem hmem' hlt a ha b hb heq
    obtain ⟨entry, hentry, rfl⟩ := List.mem_map.mp ha
    obtain ⟨entry', hentry', rfl⟩ := List.mem_map.mp hb
    rw [hlevel hmem] at hentry
    rw [hlevel hmem'] at hentry'
    have hprice : price = price' := (h.one_queue hentry hentry' heq).2
    simp [hprice] at hlt

theorem Coherent.nodup_places {market : Market σ} (h : market.Coherent) :
    (market.places.map (·.entry.offer)).Nodup := by
  refine List.pairwise_map.mpr (List.pairwise_append.mpr
    ⟨h.pairwise_places .buy, h.pairwise_places .sell, fun a ha b hb heq => ?_⟩)
  obtain ⟨hside, ha⟩ := Book.mem_places_iff.mp ha
  obtain ⟨hside', hb⟩ := Book.mem_places_iff.mp hb
  have hsides := (h.one_queue ha hb heq).1
  cases hsides

theorem Coherent.listed {market : Market σ} (h : market.Coherent) : market.Listed := by
  have hactive : ∀ {user : UserId} {account : Account} {id : OfferId} {offer : Offer},
      market.accounts.get? user = some account → account.activeOffers.get? id = some offer →
        market.accounts.activeOffer? ⟨id, user⟩ = some offer :=
    fun hget hoffer => Ledger.activeOffer?_eq_some_iff.mpr ⟨_, hget, hoffer⟩
  constructor
  case owned =>
    intro user account id offer hget hoffer
    have ho := h.outstanding (hactive hget hoffer)
    exact ⟨ho.id_eq, ho.owner_eq, ho.status_eq, ho.remaining_pos, ho.remaining_le⟩
  case placed =>
    intro user account id offer hget hoffer
    have hplace : (⟨offer.side, offer.price, ⟨id, user⟩⟩ : Place) ∈ market.places :=
      mem_places_iff.mpr (h.queued (hactive hget hoffer))
    have hnodup : (market.places.map (·.entry)).Nodup :=
      List.Nodup.of_map (·.offer) (by simpa [Function.comp_def] using h.nodup_places)
    exact ⟨List.count_eq_one_of_mem hnodup (List.mem_map.mpr ⟨_, hplace, rfl⟩), hplace⟩
  case nodup => exact h.nodup_places
  case places_lt =>
    intro place hplace
    exact h.entries_lt (mem_places_iff.mp hplace)
  case active_lt =>
    intro user account id offer hget hoffer
    exact h.active_lt (hactive hget hoffer)
  case one_owner =>
    intro user user' account account' id hget hget' hid hid'
    obtain ⟨offer, hoffer⟩ := Option.isSome_iff_exists.mp hid
    obtain ⟨offer', hoffer'⟩ := Option.isSome_iff_exists.mp hid'
    exact congrArg (·.owner) (h.eq_of_active (hactive hget hoffer) (hactive hget' hoffer') rfl)
  case age =>
    intro side price level hlevel
    rw [← Book.queueAt_of_get? hlevel]
    exact h.age side price
  case levels =>
    intro side price level hlevel
    exact ⟨(h.wellFormed side).nonempty hlevel, (h.wellFormed side).price_eq hlevel⟩

theorem Listed.coherent {market : Market σ} (h : market.Listed) : market.Coherent := by
  constructor
  case outstanding =>
    intro entry offer hlive
    obtain ⟨account, hget, hoffer⟩ := Ledger.activeOffer?_eq_some_iff.mp hlive
    obtain ⟨hid, howner, hstatus, hpos, hle⟩ := h.owned hget hoffer
    have hopen : offer.isFulfilled ≠ true := by simp [Offer.isFulfilled, hstatus]
    exact ⟨hid, howner, iff_of_false hopen (Nat.ne_of_gt hpos), hpos, hle⟩
  case wellFormed =>
    intro side
    exact ⟨fun hlevel => (h.levels hlevel).2, fun hlevel => (h.levels hlevel).1⟩
  case age =>
    intro side price
    cases hlevel : (market.book side).levels.get? price with
    | none => simp [Book.queueAt, hlevel]
    | some level =>
      rw [Book.queueAt_of_get? hlevel]
      exact h.age hlevel
  case entries_lt =>
    intro side price entry he
    exact h.places_lt ⟨side, price, entry⟩ (mem_places_iff.mpr he)
  case one_queue =>
    intro side side' price price' entry entry' he he' heq
    have hplace : (⟨side, price, entry⟩ : Place) = ⟨side', price', entry'⟩ :=
      List.inj_on_of_nodup_map h.nodup (mem_places_iff.mpr he) (mem_places_iff.mpr he') heq
    simp only [Place.mk.injEq] at hplace
    exact ⟨hplace.1, hplace.2.1⟩
  case queued =>
    intro entry offer hlive
    obtain ⟨account, hget, hoffer⟩ := Ledger.activeOffer?_eq_some_iff.mp hlive
    exact mem_places_iff.mp (h.placed hget hoffer).2

/-- **The two forms of the agreement are one.** -/
theorem listed_iff_coherent {market : Market σ} : market.Listed ↔ market.Coherent :=
  ⟨Listed.coherent, Coherent.listed⟩

/-! ## Markets over time -/

variable [RecordStore σ]

/-- **The books list what the accounts own**: they do in every reachable market, and whatever operation is
    applied to a market in which they do, they do so afterwards, also if it was refused. -/
theorem books_list_accounts :
    (∀ market : Market σ, market.Reachable → market.Listed) ∧
      ∀ market : Market σ, market.Listed → ∀ operation, (market.apply operation).2.Listed :=
  ⟨fun _ h => listed_iff_coherent.mpr h.sound.coherent,
    fun _ h operation => listed_iff_coherent.mpr ((listed_iff_coherent.mp h).apply operation)⟩

/-- A market with an expired entry, and what is left of it when it is asked for quotes. -/
theorem books_list_accounts_of_canceled :
    ∃ market : Market VoidStore, market.Reachable ∧
      market.places = [⟨.buy, 4, ⟨3, 1⟩⟩, ⟨.sell, 5, ⟨1, 0⟩⟩, ⟨.sell, 7, ⟨2, 0⟩⟩] ∧
      market.accounts.activeOffer? ⟨2, 0⟩ = none ∧ market.Listed ∧
      (market.apply .quotes).2.places = [⟨.buy, 4, ⟨3, 1⟩⟩, ⟨.sell, 5, ⟨1, 0⟩⟩] ∧
      (market.apply .quotes).2.Listed := by
  let start : Market VoidStore := { store := {} }
  let market := (start.run [.register "a", .register "b", .post 0 .sell 5 3, .post 0 .sell 5 2,
    .post 0 .sell 7 1, .post 1 .buy 4 1, .cancel 0 0, .cancel 0 2, .post 1 .buy 5 1]).2
  have hreachable : market.Reachable := Reachable.run (.start (rfl : Market.start _ false = _)) _
  have hlisted : market.Listed := books_list_accounts.1 market hreachable
  exact ⟨market, hreachable, by decide +kernel, by decide +kernel, hlisted, by decide +kernel,
    books_list_accounts.2 market hlisted .quotes⟩

end Market

end Bourse
