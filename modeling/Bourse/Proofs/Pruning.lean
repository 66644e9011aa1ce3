import Bourse.Market.Priority
import Bourse.Proofs.LiveEntries
import Bourse.Proofs.Posting
import Bourse.Proofs.Queueing

/-!
# `Bourse.Proofs.Pruning` — reading the quotes

The reference prices are read off the books by dropping levels from one end, up to the first live entry.
This module says that the prices are those of the active offers, and that nobody can tell whether the quotes
have been read.

* Pruning twice is pruning once (`Book.prune_prune`), and it takes nothing out of its place
  (`WellFormed.ranked_prune_sublist`).
* The last live entry of a side has the worst price of all its active offers (`Sound.isNoWorse_getLast?`),
  so the ask is the least of the prices to buy and the bid the greatest of those to sell.
* `Reachable.quotes_exact` is the result.
-/

namespace Bourse

/-! ## Pruning twice -/

namespace SortedMap

variable {κ α : Type} {f : α → Option α}

/-- Trimming the front again changes nothing, if `f` has nothing left to do with what it gives. -/
theorem trimFront_trimFront (hf : ∀ v w, f v = some w → f w = some w) (l : List (κ × α)) :
    trimFront f (trimFront f l) = trimFront f l := by
  induction l with
  | nil => rfl
  | cons e rest ih =>
    rw [trimFront]
    cases he : f e.2 with
    | none => exact ih
    | some v =>
      rw [trimFront, hf _ _ he]

/-- The same for the back. -/
theorem trimBack_trimBack (hf : ∀ v w, f v = some w → f w = some w) (l : List (κ × α)) :
    trimBack f (trimBack f l) = trimBack f l := by
  rw [trimBack_eq_reverse f (trimBack f l), trimBack_eq_reverse f l, List.reverse_reverse,
    trimFront_trimFront hf]

end SortedMap

/-- A level that has been pruned starts with a live entry. -/
theorem Level.pruned?_of_pruned? {isLive : QueueEntry → Bool} {level left : Level}
    (h : level.pruned? isLive = some left) : left.pruned? isLive = some left := by
  rcases level.pruned?_cases isLive with ⟨-, hnone⟩ | ⟨dead, entry, rest, -, -, hlive, hsome⟩
  · rw [hnone] at h
    cases h
  · rw [hsome] at h
    cases h
    simp [pruned?, hlive]

namespace Book

variable {side : Side}

/-- **Pruning again finds the same price and drops nothing.** -/
theorem prune_prune (book : Book side) (priceEnd : PriceEnd) (isLive : QueueEntry → Bool) :
    (book.prune priceEnd isLive).2.prune priceEnd isLive = book.prune priceEnd isLive := by
  have hf : ∀ v w : Level, v.pruned? isLive = some w → w.pruned? isLive = some w :=
    fun _ _ => Level.pruned?_of_pruned?
  cases priceEnd with
  | lowest =>
    have hlevels : (book.levels.trimFirst (·.pruned? isLive)).trimFirst (·.pruned? isLive) =
        book.levels.trimFirst (·.pruned? isLive) :=
      SortedMap.ext (SortedMap.trimFront_trimFront hf book.levels.entries)
    unfold prune
    dsimp only
    rw [hlevels]
  | highest =>
    have hlevels : (book.levels.trimLast (·.pruned? isLive)).trimLast (·.pruned? isLive) =
        book.levels.trimLast (·.pruned? isLive) :=
      SortedMap.ext (SortedMap.trimBack_trimBack hf book.levels.entries)
    unfold prune
    dsimp only
    rw [hlevels]

/-- Pruning only takes entries out. -/
theorem WellFormed.ranked_prune_sublist {book : Book side} (h : book.WellFormed) (priceEnd : PriceEnd)
    (isLive : QueueEntry → Bool) :
    (book.prune priceEnd isLive).2.ranked.Sublist book.ranked := by
  have hpruned := h.prune priceEnd isLive
  refine sublist_of_filter_sublist hpruned.pairwise_isNoWorse h.pairwise_isNoWorse fun p => ?_
  rw [hpruned.filter_ranked, h.filter_ranked]
  exact (queueAt_prune_sublist book priceEnd isLive p).map _

end Book

/-! ## The worst price -/

theorem Quotes.spread_eq_some_iff {quotes : Quotes} {spread : Int} :
    quotes.spread = some spread ↔
      ∃ ask bid, quotes.ask = some ask ∧ quotes.bid = some bid ∧ spread = bid - ask := by
  unfold Quotes.spread
  cases quotes.ask with
  | none => simp
  | some ask =>
    cases quotes.bid with
    | none => simp
    | some bid => simp [eq_comm]

namespace Market

variable {σ : Type}

/-- The prices of the active offers of a side. -/
def activePrices (market : Market σ) (side : Side) : List Price :=
  (market.accounts.activeOffers.filter (·.side = side)).map (·.price)

theorem Sound.mem_activePrices_iff {market : Market σ} (h : market.Sound) {side : Side}
    {price : Price} : price ∈ market.activePrices side ↔ ∃ x ∈ market.liveEntries side, x.1 = price := by
  unfold activePrices
  rw [List.mem_map]
  constructor
  · rintro ⟨offer, hoffer, rfl⟩
    obtain ⟨hactive, hside⟩ := List.mem_filter.mp hoffer
    obtain ⟨entry, hentry⟩ := Ledger.mem_activeOffers_iff.mp hactive
    exact ⟨(offer.price, entry),
      h.mem_liveEntries_iff.mpr ⟨offer, hentry, of_decide_eq_true hside, rfl⟩, rfl⟩
  · rintro ⟨x, hx, rfl⟩
    obtain ⟨offer, hentry, hside, hprice⟩ := h.mem_liveEntries_iff.mp hx
    exact ⟨offer, List.mem_filter.mpr
      ⟨Ledger.mem_activeOffers_iff.mpr ⟨_, hentry⟩, decide_eq_true hside⟩, hprice⟩

/-- No active offer of a side has a worse price than the last live entry. -/
theorem Sound.isNoWorse_getLast? {market : Market σ} (h : market.Sound) {side : Side}
    {last : Price × QueueEntry} (hlast : (market.liveEntries side).getLast? = some last)
    {price : Price} (hprice : price ∈ market.activePrices side) :
    side.isNoWorse price last.1 = true := by
  obtain ⟨x, hx, rfl⟩ := h.mem_activePrices_iff.mp hprice
  have hsorted : (market.liveEntries side).Pairwise fun a b => side.isNoWorse a.1 b.1 = true :=
    (h.wellFormed side).pairwise_isNoWorse.filter _
  obtain ⟨before, hsplit⟩ := List.getLast?_eq_some_iff.mp hlast
  rw [hsplit] at hx hsorted
  rcases List.mem_append.mp hx with hx | hx
  · exact (List.pairwise_append.mp hsorted).2.2 x hx last List.mem_cons_self
  · rw [List.mem_singleton.mp hx]
    exact side.isNoWorse_refl _

theorem Sound.mem_activePrices_getLast? {market : Market σ} (h : market.Sound) {side : Side}
    {last : Price × QueueEntry} (hlast : (market.liveEntries side).getLast? = some last) :
    last.1 ∈ market.activePrices side :=
  h.mem_activePrices_iff.mpr ⟨last, List.mem_of_getLast? hlast, rfl⟩

theorem Sound.activePrices_eq_nil {market : Market σ} (h : market.Sound) {side : Side}
    (hnil : market.liveEntries side = []) : market.activePrices side = [] :=
  List.eq_nil_iff_forall_not_mem.mpr fun price hprice => by
    obtain ⟨x, hx, -⟩ := h.mem_activePrices_iff.mp hprice
    rw [hnil] at hx
    cases hx

/-- The ask is the least price at which somebody wants to buy. -/
theorem Sound.ask_eq {market : Market σ} (h : market.Sound) :
    market.quotes.1.ask = (market.activePrices .buy).min? := by
  rw [h.quotes_eq]
  dsimp only
  cases hlast : (market.liveEntries .buy).getLast? with
  | none =>
    rw [h.activePrices_eq_nil (List.getLast?_eq_none_iff.mp hlast)]
    rfl
  | some last =>
    exact (List.min?_eq_some_iff.mpr ⟨h.mem_activePrices_getLast? hlast, fun price hprice =>
      of_decide_eq_true (h.isNoWorse_getLast? hlast hprice)⟩).symm

/-- The bid is the greatest price at which somebody wants to sell. -/
theorem Sound.bid_eq {market : Market σ} (h : market.Sound) :
    market.quotes.1.bid = (market.activePrices .sell).max? := by
  rw [h.quotes_eq]
  dsimp only
  cases hlast : (market.liveEntries .sell).getLast? with
  | none =>
    rw [h.activePrices_eq_nil (List.getLast?_eq_none_iff.mp hlast)]
    rfl
  | some last =>
    exact (List.max?_eq_some_iff.mpr ⟨h.mem_activePrices_getLast? hlast, fun price hprice =>
      of_decide_eq_true (h.isNoWorse_getLast? hlast hprice)⟩).symm

/-! ## What reading the quotes leaves -/

/-- **Reading the quotes again gives the same quotes and changes nothing at all.** -/
theorem quotes_quotes (market : Market σ) : market.quotes.2.quotes = market.quotes := by
  have hbuy : (market.quotes.2.book .buy).prune .lowest market.accounts.isLive =
      (market.book .buy).prune .lowest market.accounts.isLive := Book.prune_prune _ _ _
  have hsell : (market.quotes.2.book .sell).prune .highest market.accounts.isLive =
      (market.book .sell).prune .highest market.accounts.isLive := Book.prune_prune _ _ _
  -- the accounts are the same, so the same entries are live
  show (let buys := (market.quotes.2.book .buy).prune .lowest market.accounts.isLive
    let sells := (market.quotes.2.book .sell).prune .highest market.accounts.isLive
    (({ ask := buys.1, bid := sells.1 },
      { market with books := { buy := buys.2, sell := sells.2 } }) : Quotes × Market σ)) = _
  rw [hbuy, hsell]
  rfl

theorem Sound.ranked_quotes_sublist {market : Market σ} (h : market.Sound) (side : Side) :
    (market.quotes.2.book side).ranked.Sublist (market.book side).ranked := by
  cases side <;> exact (h.wellFormed _).ranked_prune_sublist _ _

/-- **The quotes are exact, and reading them harms nothing.** The ask is the least price of all active offers
    to buy, the bid the greatest of all active offers to sell, and the spread, which is there when both are,
    is exactly what lies between them. Of the market only the books change: what is left of each is in its
    order, with every live entry in its place. Reading the quotes again gives the same and changes nothing. -/
theorem Reachable.quotes_exact [RecordStore σ] {market : Market σ} (h : market.Reachable) :
    market.quotes.1.ask = (market.activePrices .buy).min? ∧
    market.quotes.1.bid = (market.activePrices .sell).max? ∧
    (∀ spread, market.quotes.1.spread = some spread ↔ ∃ ask bid, market.quotes.1.ask = some ask ∧
      market.quotes.1.bid = some bid ∧ spread = bid - ask) ∧
    market.quotes.2 = { market with books := market.quotes.2.books } ∧
    (∀ side, (market.quotes.2.book side).ranked.Sublist (market.book side).ranked ∧
      market.quotes.2.liveEntries side = market.liveEntries side) ∧
    market.quotes.2.quotes = market.quotes := by
  have hsound := h.sound
  exact ⟨hsound.ask_eq, hsound.bid_eq, fun _ => Quotes.spread_eq_some_iff, rfl,
    fun side => ⟨hsound.ranked_quotes_sublist side,
      hsound.quotes.liveEntries_congr hsound rfl side⟩, market.quotes_quotes⟩

/-- Of two offers to buy the one at the lower price was withdrawn, of two offers to sell the one at the
    higher price; the quotes are read off the other two. -/
theorem quotes_exact_of_withdrawn :
    ∃ market : Market VoidStore, market.Reachable ∧
      market.quotes.1 = { ask := some 7, bid := some 9 } ∧ market.quotes.1.spread = some 2 ∧
      market.quotes.2 ≠ market ∧ market.quotes.2.quotes = market.quotes := by
  let start : Market VoidStore := { store := {} }
  let operations : List Operation := [.register "a", .post 0 .buy 5 3, .post 0 .buy 7 2,
    .post 0 .sell 9 4, .post 0 .sell 12 1, .cancel 0 0, .cancel 0 3]
  obtain ⟨market, hreachable, hbuy, hsell, hpruned⟩ :
      ∃ market : Market VoidStore, market.Reachable ∧
        (market.activePrices .buy).min? = some 7 ∧ (market.activePrices .sell).max? = some 9 ∧
        market.quotes.2 ≠ market :=
    ⟨(start.run operations).2, Reachable.run (.start (rfl : Market.start _ false = _)) _,
      by decide +kernel, by decide +kernel, by decide +kernel⟩
  obtain ⟨hask, hbid, hspread, -, -, hagain⟩ := hreachable.quotes_exact
  rw [hbuy] at hask
  rw [hsell] at hbid
  exact ⟨market, hreachable, congrArg₂ Quotes.mk hask hbid,
    (hspread 2).mpr ⟨7, 9, hask, hbid, rfl⟩, hpruned, hagain⟩

end Market

end Bourse
