import Bourse.Proofs.Meeting

/-!
# `Bourse.Proofs.LiveEntries` — a book without its expired entries

Expired entries are dropped when somebody comes across them: a matching from the best price on, a quote from
the other end. What is in a book besides is the same whoever has looked at it. `liveEntries` lists it in
matching order; on a sound market it is a matter of the accounts alone (`Sound.liveEntries_congr`), and a
quote is the price of its last entry, though it is found by dropping levels from that end
(`Sound.sideQuote_eq`).
-/

namespace Bourse

/-! ## Pruning -/

/-- Something is left of a level that has a live entry. -/
theorem Level.isSome_pruned? (level : Level) (isLive : QueueEntry → Bool) :
    (level.pruned? isLive).isSome = level.queue.any isLive := by
  rcases level.pruned?_cases isLive with ⟨hdead, hnone⟩ | ⟨dead, entry, rest, hqueue, -, hlive, hsome⟩
  · rw [hnone, Option.isSome_none, eq_comm, List.any_eq_false]
    intro entry hentry
    simp [hdead entry hentry]
  · rw [hsome, Option.isSome_some, eq_comm, List.any_eq_true]
    exact ⟨entry, by simp [hqueue], hlive⟩

namespace Book

variable {side : Side}

/-- Pruning finds the last level in matching order that has a live entry. -/
theorem prune_fst_eq (book : Book side) (isLive : QueueEntry → Bool) :
    (book.prune side.quoteEnd isLive).1 =
      ((side.inOrder book.levels.entries).filter fun e => e.2.queue.any isLive).getLast?.map (·.1) := by
  have hany : (fun e : Price × Level => (e.2.pruned? isLive).isSome) = fun e => e.2.queue.any isLive :=
    funext fun e => e.2.isSome_pruned? isLive
  rw [Side.filter_inOrder]
  cases side with
  | buy =>
    show (SortedMap.trimFront (·.pruned? isLive) book.levels.entries).head?.map (·.1) =
      (book.levels.entries.filter _).reverse.getLast?.map (·.1)
    rw [SortedMap.key_head?_trimFront, List.getLast?_reverse, hany]
  | sell =>
    show (SortedMap.trimBack (·.pruned? isLive) book.levels.entries).getLast?.map (·.1) =
      (book.levels.entries.filter _).getLast?.map (·.1)
    rw [SortedMap.key_getLast?_trimBack, hany]

/-- The last live entry that levels list is one of the last level that has any. -/
theorem price_getLast?_listed (isLive : QueueEntry → Bool) (levels : List (Price × Level)) :
    ((levels.flatMap listed).filter fun x => isLive x.2).getLast?.map (·.1) =
      (levels.filter fun e => e.2.queue.any isLive).getLast?.map (·.1) := by
  have hlevel : ∀ e : Price × Level,
      ((listed e).filter fun x => isLive x.2).getLast?.map (·.1) =
        ([e].filter fun e => e.2.queue.any isLive).getLast?.map (·.1) := by
    intro e
    unfold listed
    rw [List.filter_map, List.getLast?_map, Option.map_map]
    by_cases hlive : e.2.queue.any isLive = true
    · obtain ⟨entry, hentry, hl⟩ := List.any_eq_true.mp hlive
      have hne : e.2.queue.filter isLive ≠ [] :=
        List.ne_nil_of_mem (List.mem_filter.mpr ⟨hentry, hl⟩)
      rw [List.filter_singleton, hlive]
      show ((e.2.queue.filter isLive).getLast?).map (fun _ => e.1) = _
      rw [List.getLast?_eq_some_getLast hne]
      rfl
    · have hnil : e.2.queue.filter isLive = [] :=
        List.filter_eq_nil_iff.mpr fun entry hentry hl =>
          hlive (List.any_eq_true.mpr ⟨entry, hentry, hl⟩)
      rw [List.filter_singleton, Bool.eq_false_iff.mpr hlive]
      show ((e.2.queue.filter isLive).getLast?).map (fun _ => e.1) = _
      rw [hnil]
      rfl
  induction levels with
  | nil => rfl
  | cons e rest ih =>
    have hcons : (e :: rest).filter (fun e => e.2.queue.any isLive) =
        [e].filter (fun e => e.2.queue.any isLive) ++ rest.filter fun e => e.2.queue.any isLive :=
      List.filter_append [e] rest
    rw [hcons, List.flatMap_cons, List.filter_append, List.getLast?_append, List.getLast?_append,
      Option.map_or, Option.map_or, ih, hlevel e]

end Book

namespace Market

variable {σ : Type}

/-! ## Live entries -/

/-- The live entries of a side, with their prices, in matching order. -/
def liveEntries (market : Market σ) (side : Side) : List (Price × QueueEntry) :=
  (market.book side).ranked.filter fun x => market.accounts.isLive x.2

/-- The live entries of a side are those of the active offers of that side. -/
theorem Sound.mem_liveEntries_iff {market : Market σ} (h : market.Sound) {side : Side}
    {x : Price × QueueEntry} :
    x ∈ market.liveEntries side ↔ ∃ offer, market.accounts.activeOffer? x.2 = some offer ∧
      offer.side = side ∧ offer.price = x.1 := by
  have hw := h.wellFormed side
  unfold liveEntries
  rw [List.mem_filter, Ledger.isLive_eq_true_iff]
  constructor
  · rintro ⟨hlisted, offer, hlive⟩
    obtain ⟨hside, hprice⟩ := h.eq_of_queued (hw.mem_ranked_iff.mp hlisted) hlive
    exact ⟨offer, hlive, hside, hprice⟩
  · rintro ⟨offer, hlive, rfl, hprice⟩
    have hqueued := h.queued hlive
    rw [hprice] at hqueued
    exact ⟨hw.mem_ranked_iff.mpr hqueued, offer, hlive⟩

/-- They come best price first, and at one price oldest first. -/
theorem Sound.pairwise_liveEntries {market : Market σ} (h : market.Sound) (side : Side) :
    (market.liveEntries side).Pairwise fun a b =>
      side.isBetter a.1 b.1 = true ∨ (a.1 = b.1 ∧ a.2.offer < b.2.offer) :=
  ((h.wellFormed side).pairwise_ranked (h.age side)).filter _

/-- **Markets with the same accounts have the same live entries**, whatever has been dropped from their
    books. -/
theorem Sound.liveEntries_congr {τ : Type} {market : Market σ} {other : Market τ} (h : market.Sound)
    (h' : other.Sound) (haccounts : market.accounts = other.accounts) (side : Side) :
    market.liveEntries side = other.liveEntries side := by
  -- the same entries in the one order that both lists are in
  refine eq_of_pairwise_of_mem_iff Side.not_before_of_before (h.pairwise_liveEntries side)
    (h'.pairwise_liveEntries side) fun x => ?_
  rw [h.mem_liveEntries_iff, h'.mem_liveEntries_iff, haccounts]

/-! ## Quotes -/

/-- **The reference price of a side is that of its last live entry in matching order.** -/
theorem Sound.sideQuote_eq {market : Market σ} (h : market.Sound) (side : Side) :
    (market.sideQuote side).1 = (market.liveEntries side).getLast?.map (·.1) := by
  unfold sideQuote liveEntries
  dsimp only
  rw [Book.prune_fst_eq, (h.wellFormed side).ranked_eq, Book.price_getLast?_listed]

/-- Both reference prices, whatever the first of them has dropped from its book. -/
theorem Sound.quotes_eq {market : Market σ} (h : market.Sound) :
    market.quotes.1 =
      { ask := (market.liveEntries .buy).getLast?.map (·.1)
        bid := (market.liveEntries .sell).getLast?.map (·.1) } := by
  have hbid : ((market.sideQuote .buy).2.sideQuote .sell).1 = (market.sideQuote .sell).1 := rfl
  unfold Market.quotes
  dsimp only
  rw [hbid, h.sideQuote_eq, h.sideQuote_eq]

end Market

end Bourse
