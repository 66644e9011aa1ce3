import Bourse.Market.Turns
import Bourse.Proofs.Posting
import Bourse.Proofs.Queueing

/-!
# `Bourse.Proofs.Consumption` — a matching uses up the other side from the front

Whether a matching goes on is asked of the incoming offer, but a turn that meets an expired entry does nothing
to it. What every turn but the last uses up is an entry of the other side, and it is always the first.

* `matchTaker_eq_turns`: a matching does what its turns do. `length_turns_le` bounds how many there are. Both
  hold of any market.
* `Turn.Takes` says of a turn that it takes the entry it handles, and `Turn.Orderly` what a turn may do that
  others follow. On a sound market a turn takes its entry if that has expired (`Sound.takes_of_expired`) or if
  it fulfils the maker (`Sound.takes_of_traded`); else it is the last (`Sound.consumes_of_outlasted`,
  `Sound.consumes_of_blocked`).
* `Turn.Consumes` is what comes of a row of such turns, and `Matching.consumes` the induction over a matching.
* `matching_visits_once` is the result for an accepted posting.
-/

namespace Bourse

namespace Turn

variable {σ : Type} [RecordStore σ]

/-! ## One turn by what it finds -/

theorem leaves_of_nothing {turn : Turn σ} (h : turn.found = .nothing) : turn.leaves = turn := by
  unfold leaves
  rw [h]

theorem leaves_of_expired {turn : Turn σ} {after : Market σ} (h : turn.found = .expired after) :
    turn.leaves = { turn with market := after } := by
  unfold leaves
  rw [h]

theorem leaves_of_traded {turn : Turn σ} {deal : Deal} {left : Offer} {after : Market σ}
    (h : turn.found = .traded deal left after) : turn.leaves = { market := after, taker := left } := by
  unfold leaves
  rw [h]

theorem deal?_of_traded {turn : Turn σ} {deal : Deal} {left : Offer} {after : Market σ}
    (h : turn.found = .traded deal left after) : turn.deal? = some deal := by
  unfold deal?
  rw [h]

theorem refusal?_of_traded {turn : Turn σ} {deal : Deal} {left : Offer} {after : Market σ}
    (h : turn.found = .traded deal left after) : turn.refusal? = none := by
  unfold refusal?
  rw [h]

/-- Only a trade makes a deal. -/
theorem found_of_deal? {turn : Turn σ} {deal : Deal} (h : turn.deal? = some deal) :
    turn.found = .traded deal turn.leaves.taker turn.leaves.market := by
  unfold deal? at h
  split at h
  case h_1 made left after hfound =>
    cases h
    rw [leaves_of_traded hfound, hfound]
  case h_2 => cases h

/-- What the last of more turns leaves is what the last of those after the first does. -/
theorem last_leaves_cons (start turn : Turn σ) (later : List (Turn σ)) :
    ((turn :: later).getLast?.map (·.leaves)).getD start =
      (later.getLast?.map (·.leaves)).getD turn.leaves := by
  rw [List.getLast?_cons, Option.map_some, Option.getD_some, Option.getD_map]

end Turn

namespace Market

variable {σ : Type} [RecordStore σ]

/-! ## The turns of a matching -/

theorem turns_of_fulfilled {market : Market σ} {taker : Offer} (hdone : taker.isFulfilled = true) :
    market.turns taker = [] := by
  rw [turns, dif_pos hdone]

theorem turns_of_nothing {market : Market σ} {taker : Offer} (hopen : taker.isFulfilled = false)
    (hmeet : market.meet taker = .nothing) : market.turns taker = [{ market, taker }] := by
  rw [turns, dif_neg (by rw [hopen]; nofun)]
  split <;> simp_all

theorem turns_of_expired {market after : Market σ} {taker : Offer} (hopen : taker.isFulfilled = false)
    (hmeet : market.meet taker = .expired after) :
    market.turns taker = { market, taker } :: after.turns taker := by
  rw [turns, dif_neg (by rw [hopen]; nofun)]
  split <;> simp_all

theorem turns_of_traded {market after : Market σ} {taker left : Offer} {deal : Deal}
    (hopen : taker.isFulfilled = false) (hmeet : market.meet taker = .traded deal left after) :
    market.turns taker = { market, taker } :: after.turns left := by
  rw [turns, dif_neg (by rw [hopen]; nofun)]
  split <;> simp_all

/-- A matching begins where it is asked to. -/
theorem eq_of_mem_head?_turns {market : Market σ} {taker : Offer} {turn : Turn σ}
    (h : turn ∈ (market.turns taker).head?) : turn = { market, taker } := by
  rw [turns] at h
  split at h
  · cases h
  · split at h <;> exact (Option.mem_some_iff.mp h).symm

/-- **The turns are all that a matching does.** It is refused as the first turn is that is refused. Otherwise
    its deals are those of the turns. Either way it leaves what the last turn leaves. -/
theorem matchTaker_eq_turns (market : Market σ) (taker : Offer) :
    market.matchTaker taker =
      (match (market.turns taker).findSome? (·.refusal?) with
        | some cause => .error cause
        | none => .ok ((market.lastLeft taker).taker, (market.turns taker).filterMap (·.deal?)),
      (market.lastLeft taker).market) := by
  unfold lastLeft
  fun_induction turns market taker with
  | case1 market taker hdone =>
    rw [matchTaker, dif_pos hdone]
    rfl
  | case2 market taker hopen hmeet =>
    rw [matchTaker_of_nothing hmeet]
    simp [Turn.leaves, Turn.deal?, Turn.refusal?, Turn.found, hmeet]
  | case3 market taker hopen hmeet =>
    rw [matchTaker_of_emptyLevel hmeet]
    simp [Turn.leaves, Turn.deal?, Turn.refusal?, Turn.found, hmeet]
  | case4 market taker hopen after hmeet ih =>
    have hfound : ({ market, taker } : Turn σ).found = .expired after := hmeet
    rw [matchTaker_of_expired (Bool.eq_false_iff.mpr hopen) hmeet, ih, Turn.last_leaves_cons,
      Turn.leaves_of_expired hfound]
    simp [Turn.deal?, Turn.refusal?, Turn.found, hmeet]
  | case5 market taker hopen cause after hmeet =>
    rw [matchTaker_of_refused (Bool.eq_false_iff.mpr hopen) hmeet]
    simp [Turn.leaves, Turn.refusal?, Turn.found, hmeet]
  | case6 market taker hopen deal left after hmeet ih =>
    have hfound : ({ market, taker } : Turn σ).found = .traded deal left after := hmeet
    rw [matchTaker_of_traded (Bool.eq_false_iff.mpr hopen) hmeet, ih, Turn.last_leaves_cons,
      Turn.leaves_of_traded hfound, List.findSome?_cons, Turn.refusal?_of_traded hfound,
      List.filterMap_cons_some (Turn.deal?_of_traded hfound)]
    dsimp only
    cases (after.turns left).findSome? (·.refusal?) <;> rfl

/-- The deals of a matching are those of its turns. -/
theorem Matching.deals_eq {market after : Market σ} {taker last : Offer} {deals : List Deal}
    (h : Matching market taker deals last after) (hs : market.Sound) :
    deals = (market.turns taker).filterMap (·.deal?) := by
  have hloop := h.matchTaker_eq hs
  rw [matchTaker_eq_turns] at hloop
  have hresult := congrArg Prod.fst hloop
  dsimp only at hresult
  split at hresult
  · cases hresult
  · exact (congrArg Prod.snd (Except.ok.inj hresult)).symm

/-- A matching takes no more turns than there is `work` for it: at most one turn more than entries. -/
theorem length_turns_le (market : Market σ) (taker : Offer) :
    (market.turns taker).length ≤ market.work taker := by
  -- while the offer is open there is work for a turn
  have hone : ∀ {market : Market σ} {taker : Offer}, ¬taker.isFulfilled = true →
      1 ≤ market.work taker := by
    intro market taker hopen
    unfold work
    rw [if_neg hopen]
    exact Nat.le_add_left _ _
  fun_induction turns market taker with
  | case1 => exact Nat.zero_le _
  | case2 market taker hopen => exact hone hopen
  | case3 market taker hopen => exact hone hopen
  | case4 market taker hopen after hmeet ih => exact Nat.lt_of_le_of_lt ih (work_expired hmeet)
  | case5 market taker hopen => exact hone hopen
  | case6 market taker hopen deal left after hmeet ih =>
    exact Nat.lt_of_le_of_lt ih (work_traded (Bool.eq_false_iff.mpr hopen) hmeet)

end Market

namespace Turn

variable {σ : Type} [RecordStore σ]

/-! ## Turns in order -/

/-- The turn takes the entry that it handles out of the book: it has expired, or the turn has made a deal
    over all that was left of the offer behind it. -/
structure Takes (turn : Turn σ) (x : Price × QueueEntry) : Prop where
  handled : turn.handled? = some x
  waiting : turn.waiting = x :: turn.leaves.waiting
  spent : (turn.market.accounts.activeOffer? x.2 = none ∧ turn.found = .expired turn.leaves.market) ∨
    ∃ maker deal, turn.market.accounts.activeOffer? x.2 = some maker ∧ turn.deal? = some deal ∧
      deal.maker = maker.id ∧ deal.quantity = maker.remaining
  /-- Nothing is left behind the entry. -/
  gone : turn.leaves.market.accounts.activeOffer? x.2 = none

/-- What holds of a turn that is followed by `later` ones. -/
structure Orderly (turn : Turn σ) (later : List (Turn σ)) : Prop where
  /-- The best level has an entry. -/
  not_empty : turn.found ≠ .emptyLevel
  /-- There is nothing to handle only where nothing is found. -/
  idle : turn.handled? = none ↔ turn.found = .nothing
  /-- The next turn begins where this one ends. -/
  next_eq : ∀ next ∈ later.head?, next = turn.leaves
  /-- A turn that is not the last takes an entry. -/
  takes : later ≠ [] → ∃ x, turn.Takes x
  /-- A turn that makes a deal and does not take the entry leaves the book as it is. It has fulfilled the
      incoming offer and is the last. -/
  spares : turn.deal?.isSome → (∃ x, turn.Takes x) ∨
    turn.leaves.waiting = turn.waiting ∧ turn.leaves.taker.isFulfilled = true ∧ later = []

/-- A turn that takes an entry drops it or makes a deal. -/
theorem Takes.found_eq {turn : Turn σ} {x : Price × QueueEntry} (h : turn.Takes x) :
    turn.found = .expired turn.leaves.market ∨
      ∃ deal, turn.found = .traded deal turn.leaves.taker turn.leaves.market := by
  rcases h.spent with ⟨-, hfound⟩ | ⟨maker, deal, -, hdeal, -⟩
  · exact .inl hfound
  · exact .inr ⟨deal, found_of_deal? hdeal⟩

theorem Takes.orderly {turn : Turn σ} {x : Price × QueueEntry} (h : turn.Takes x)
    {later : List (Turn σ)} (hnext : ∀ next ∈ later.head?, next = turn.leaves) : turn.Orderly later where
  not_empty := by
    rcases h.found_eq with hfound | ⟨deal, hfound⟩ <;> rw [hfound] <;> nofun
  idle := by
    rw [h.handled]
    rcases h.found_eq with hfound | ⟨deal, hfound⟩ <;> rw [hfound] <;> exact iff_of_false nofun nofun
  next_eq := hnext
  takes _ := ⟨x, h⟩
  spares _ := .inl ⟨x, h⟩

/-- Of entries that differ only the one that is taken goes. -/
theorem Takes.removed_eq {turn : Turn σ} {x : Price × QueueEntry} (h : turn.Takes x)
    (hnodup : (turn.waiting.map (·.2)).Nodup) : turn.removed = [x] := by
  have hfresh : x ∉ turn.leaves.waiting := by
    have hentries := hnodup.of_map
    rw [h.waiting, List.nodup_cons] at hentries
    exact hentries.1
  unfold removed
  rw [h.waiting, List.filter_cons_of_pos (by simpa using hfresh), List.filter_eq_nil_iff.mpr]
  intro y hy
  simpa using hy

theorem removed_of_waiting_eq {turn : Turn σ} (h : turn.leaves.waiting = turn.waiting) :
    turn.removed = [] := by
  unfold removed
  rw [h, List.filter_eq_nil_iff]
  intro x hx
  simpa using hx

/-- The turns handle the first of the `entries`, one after the other, and take the first of them; the `rest`
    is left as it was. -/
structure Consumes (turns : List (Turn σ)) (entries rest : List (Price × QueueEntry)) : Prop where
  handled : turns.filterMap Turn.handled? <+: entries
  removed : turns.flatMap Turn.removed ++ rest = entries
  orderly : ∀ earlier turn later, turns = earlier ++ turn :: later → turn.Orderly later

theorem consumes_nil (entries : List (Price × QueueEntry)) :
    Consumes ([] : List (Turn σ)) entries entries where
  handled := List.nil_prefix
  removed := rfl
  orderly earlier turn later h := by cases earlier <;> cases h

/-- A turn that takes an entry, and the turns that follow it. -/
theorem Consumes.take (turn : Turn σ) {x : Price × QueueEntry} {later : List (Turn σ)}
    {rest : List (Price × QueueEntry)} (h : Consumes later turn.leaves.waiting rest) (ht : turn.Takes x)
    (hnodup : (turn.waiting.map (·.2)).Nodup) (hnext : ∀ next ∈ later.head?, next = turn.leaves) :
    Consumes (turn :: later) turn.waiting rest where
  handled := by
    rw [List.filterMap_cons_some ht.handled, ht.waiting]
    exact (List.prefix_cons_inj x).mpr h.handled
  removed := by
    rw [List.flatMap_cons, ht.removed_eq hnodup, List.append_assoc, h.removed, ht.waiting]
    rfl
  orderly earlier turn' later' hsplit := by
    rcases List.cons_eq_append_iff.mp hsplit with ⟨-, heq⟩ | ⟨more, -, hlater⟩
    · cases heq
      exact ht.orderly hnext
    · exact h.orderly more turn' later' hlater

/-- A last turn that leaves the book as it is. -/
theorem consumes_last (turn : Turn σ) (hhandled : [turn].filterMap Turn.handled? <+: turn.waiting)
    (hwaiting : turn.leaves.waiting = turn.waiting) (horderly : turn.Orderly []) :
    Consumes [turn] turn.waiting turn.waiting where
  handled := hhandled
  removed := by
    rw [List.flatMap_singleton, removed_of_waiting_eq hwaiting]
    rfl
  orderly earlier turn' later hsplit := by
    rcases List.cons_eq_append_iff.mp hsplit with ⟨-, heq⟩ | ⟨more, -, hnil⟩
    · cases heq
      exact horderly
    · cases more <;> cases hnil

end Turn

namespace Market

variable {σ : Type} [RecordStore σ]

/-! ## Turns on a sound market -/

omit [RecordStore σ] in
/-- A turn handles the first of the entries that wait, if the limit admits its price. -/
theorem Sound.handled?_of_crosses {market : Market σ} (h : market.Sound) {taker : Offer} {price : Price}
    {entry : QueueEntry} {rest : List (Price × QueueEntry)}
    (hr : (market.book taker.side.opposite).ranked = (price, entry) :: rest)
    (hcross : taker.side.crosses taker.price price = true) :
    ({ market, taker } : Turn σ).handled? = some (price, entry) := by
  have hw := h.wellFormed taker.side.opposite
  unfold Turn.handled?
  dsimp only
  rw [hw.bestPrice?_of_ranked hr, Option.bind_some, if_pos hcross, hw.front?_of_ranked hr]
  rfl

omit [RecordStore σ] in
/-- If the limit does not admit it, or nothing waits, the turn handles nothing. -/
theorem Sound.handled?_of_blocked {market : Market σ} (h : market.Sound) {taker : Offer}
    (hblocked : market.Blocked taker) : ({ market, taker } : Turn σ).handled? = none := by
  have hw := h.wellFormed taker.side.opposite
  unfold Blocked at hblocked
  unfold Turn.handled?
  dsimp only
  cases hr : (market.book taker.side.opposite).ranked with
  | nil =>
    rw [hw.bestPrice?_of_ranked_nil hr]
    rfl
  | cons x rest =>
    have hno : taker.side.crosses taker.price x.1 = false := hblocked x (by rw [hr]; rfl)
    rw [hw.bestPrice?_of_ranked hr, Option.bind_some, if_neg (by rw [hno]; nofun)]

/-- An expired entry is taken. -/
theorem Sound.takes_of_expired {market : Market σ} (h : market.Sound) {taker : Offer} {price : Price}
    {entry : QueueEntry} {rest : List (Price × QueueEntry)}
    (hr : (market.book taker.side.opposite).ranked = (price, entry) :: rest)
    (hcross : taker.side.crosses taker.price price = true)
    (hdead : market.accounts.activeOffer? entry = none) :
    ({ market, taker } : Turn σ).Takes (price, entry) := by
  have hfound : ({ market, taker } : Turn σ).found = _ := h.meet_eq_expired hr hcross hdead
  have hleaves := Turn.leaves_of_expired hfound
  constructor
  case handled => exact h.handled?_of_crosses hr hcross
  case waiting =>
    rw [hleaves]
    exact hr.trans (congrArg _ (h.ranked_expired hr).symm)
  case spent =>
    rw [hleaves]
    exact .inl ⟨hdead, hfound⟩
  case gone =>
    rw [hleaves]
    exact hdead

/-- The entry of a maker that a trade fulfils is taken. -/
theorem Sound.takes_of_traded {market : Market σ} (h : market.Sound) {taker maker : Offer}
    {entry : QueueEntry} {rest : List (Price × QueueEntry)}
    (hr : (market.book taker.side.opposite).ranked = (maker.price, entry) :: rest)
    (hcross : taker.side.crosses taker.price maker.price = true)
    (hlive : market.accounts.activeOffer? entry = some maker)
    (hbear : market.accounts.CanSettle (market.nextDeal taker maker))
    (hmaker : (maker.fill (min taker.remaining maker.remaining)).isFulfilled = true) :
    ({ market, taker } : Turn σ).Takes (maker.price, entry) := by
  have hfound : ({ market, taker } : Turn σ).found = _ := h.meet_eq_traded hr hcross hlive hbear
  have hleaves := Turn.leaves_of_traded hfound
  have hc := (h.resting hlive).consistent
  constructor
  case handled => exact h.handled?_of_crosses hr hcross
  case waiting =>
    rw [hleaves]
    exact hr.trans (congrArg _ (h.ranked_struck hr hmaker).symm)
  case spent =>
    have hquantity : min taker.remaining maker.remaining = maker.remaining :=
      Nat.le_antisymm (Nat.min_le_right _ _) ((hc.isFulfilled_fill _).mp hmaker)
    exact .inr ⟨maker, _, hlive, Turn.deal?_of_traded hfound, rfl, hquantity⟩
  case gone =>
    rw [hleaves]
    show (market.struck taker entry maker).accounts.activeOffer? entry = none
    rw [h.activeOffer?_struck hlive, if_pos rfl, hc.leftAfter_eq, if_pos hmaker]

/-- A trade that leaves something of the maker is the last turn, and its entry stays. -/
theorem Sound.consumes_of_outlasted {market : Market σ} (h : market.Sound) {taker maker : Offer}
    {entry : QueueEntry} {rest : List (Price × QueueEntry)}
    (hr : (market.book taker.side.opposite).ranked = (maker.price, entry) :: rest)
    (hcross : taker.side.crosses taker.price maker.price = true)
    (hlive : market.accounts.activeOffer? entry = some maker)
    (hbear : market.accounts.CanSettle (market.nextDeal taker maker))
    (hmaker : (maker.fill (min taker.remaining maker.remaining)).isFulfilled = false) :
    Turn.Consumes [{ market, taker }] (market.book taker.side.opposite).ranked
      (market.book taker.side.opposite).ranked := by
  have hfound : ({ market, taker } : Turn σ).found = _ := h.meet_eq_traded hr hcross hlive hbear
  have hleaves := Turn.leaves_of_traded hfound
  have hwaiting : ({ market, taker } : Turn σ).leaves.waiting =
      (market.book taker.side.opposite).ranked := by
    rw [hleaves]
    exact ranked_struck_of_outlasted entry hmaker
  have hdone : ({ market, taker } : Turn σ).leaves.taker.isFulfilled = true := by
    rw [hleaves]
    exact h.isFulfilled_of_outlasted hr hlive hmaker
  have hhandled := h.handled?_of_crosses hr hcross
  refine Turn.consumes_last { market, taker } ?_ hwaiting
    ⟨?_, ?_, nofun, (absurd rfl ·), fun _ => .inr ⟨hwaiting, hdone, rfl⟩⟩
  · rw [List.filterMap_cons_some hhandled]
    exact ⟨rest, hr.symm⟩
  · rw [hfound]
    nofun
  · rw [hhandled, hfound]
    exact iff_of_false nofun nofun

/-- A turn that takes an entry, and the turns that take it up from there. -/
theorem Sound.consumes_of_takes {market after : Market σ} (h : market.Sound) {taker left : Offer}
    {x : Price × QueueEntry} {rest : List (Price × QueueEntry)}
    (ht : ({ market, taker } : Turn σ).Takes x)
    (hleaves : ({ market, taker } : Turn σ).leaves = { market := after, taker := left })
    (hmore : Turn.Consumes (after.turns left) (after.book left.side.opposite).ranked rest) :
    Turn.Consumes ({ market, taker } :: after.turns left) (market.book taker.side.opposite).ranked rest := by
  refine Turn.Consumes.take { market, taker } ?_ ht (h.nodup_ranked _) ?_
  · rw [hleaves]
    exact hmore
  · rw [hleaves]
    exact fun _ => eq_of_mem_head?_turns

/-- An offer that is blocked takes nothing. -/
theorem Sound.consumes_of_blocked {market : Market σ} (h : market.Sound) {taker : Offer}
    (hblocked : market.Blocked taker) :
    Turn.Consumes [{ market, taker }] (market.book taker.side.opposite).ranked
      (market.book taker.side.opposite).ranked := by
  have hfound : ({ market, taker } : Turn σ).found = _ := h.meet_eq_nothing hblocked
  have hdeal : ({ market, taker } : Turn σ).deal? = none := by
    unfold Turn.deal?
    rw [hfound]
  have hhandled := h.handled?_of_blocked hblocked
  refine Turn.consumes_last { market, taker } ?_ ?_
    ⟨?_, iff_of_true hhandled hfound, nofun, (absurd rfl ·), ?_⟩
  · rw [List.filterMap_cons_none hhandled]
    exact List.nil_prefix
  · rw [Turn.leaves_of_nothing hfound]
  · rw [hfound]
    nofun
  · rw [hdeal]
    nofun

/-- **A matching uses up the other side from the front.** -/
theorem Matching.consumes {market after : Market σ} {taker last : Offer} {deals : List Deal}
    (h : Matching market taker deals last after) (hs : market.Sound) :
    Turn.Consumes (market.turns taker) (market.book taker.side.opposite).ranked
      (after.book taker.side.opposite).ranked := by
  induction h with
  | fulfilled hdone =>
    rw [turns_of_fulfilled hdone]
    exact Turn.consumes_nil _
  | @blocked market taker hblocked =>
    by_cases hdone : taker.isFulfilled = true
    · rw [turns_of_fulfilled hdone]
      exact Turn.consumes_nil _
    · rw [turns_of_nothing (Bool.eq_false_iff.mpr hdone) (hs.meet_eq_nothing hblocked)]
      exact hs.consumes_of_blocked hblocked
  | @expired market after taker last deals price entry rest hopen hr hcross hdead _ ih =>
    have hfound : ({ market, taker } : Turn σ).found = _ := hs.meet_eq_expired hr hcross hdead
    rw [turns_of_expired hopen hfound]
    exact hs.consumes_of_takes (hs.takes_of_expired hr hcross hdead) (Turn.leaves_of_expired hfound)
      (ih (hs.expired hr hdead))
  | @traded market after taker maker last deals entry rest hopen hr hcross hlive hbear _ ih =>
    have hfound : ({ market, taker } : Turn σ).found = _ := hs.meet_eq_traded hr hcross hlive hbear
    have hmore := ih (hs.struck hr hlive hbear)
    rw [turns_of_traded hopen hfound]
    by_cases hmaker : (maker.fill (min taker.remaining maker.remaining)).isFulfilled = true
    · exact hs.consumes_of_takes (hs.takes_of_traded hr hcross hlive hbear hmaker)
        (Turn.leaves_of_traded hfound) hmore
    · -- nothing is left of the incoming offer, so no turn follows
      have hopen' := Bool.eq_false_iff.mpr hmaker
      have hdone := hs.isFulfilled_of_outlasted hr hlive hopen'
      rw [turns_of_fulfilled hdone] at hmore ⊢
      have hrest : (after.book taker.side.opposite).ranked =
          (market.book taker.side.opposite).ranked :=
        hmore.removed.trans (ranked_struck_of_outlasted entry hopen')
      rw [hrest]
      exact hs.consumes_of_outlasted hr hcross hlive hbear hopen'

/-! ## A posting -/

omit [RecordStore σ] in
/-- What is left of an offer comes to rest on its own side. -/
theorem Rests.book_opposite {matched after : Market σ} {last : Offer} (h : Rests matched last after) :
    after.book last.side.opposite = matched.book last.side.opposite := by
  cases h with
  | nothing => rfl
  | rest =>
    unfold rested Market.book withBook
    cases last.side <;> rfl

/-- **Matching ends, and visits every entry of the other side at most once.** Let an offer be posted and
    accepted, and list the turns in which it is matched.

    The deals are those of the turns, and there is at most one turn more than there are entries on the other
    side. The entries that are handled are the first of them in matching order, none twice. No turn finds the
    best level empty; a turn that another one follows takes its entry, one that had expired or that of a maker
    whose whole remainder was traded; and a turn that makes a deal and leaves its entry has fulfilled the
    incoming offer and is the last. The entries that are taken are the first ones, and the others are left
    as they were, in their order. -/
theorem matching_visits_once {market after : Market σ} (h : market.Reachable) {user : UserId} {side : Side}
    {price : Price} {quantity : Quantity} {posting : Posting}
    (hpost : market.post user side price quantity = (.ok posting, after)) :
    let offer := Offer.post market.offerIds.next user side price quantity
    let turns := (market.announced offer).turns offer
    let entries := (market.book side.opposite).ranked
    let handled := turns.filterMap Turn.handled?
    posting.deals = turns.filterMap Turn.deal? ∧
    turns.length ≤ (market.book side.opposite).size + 1 ∧
    handled <+: entries ∧ (handled.map (·.2)).Nodup ∧ handled.length ≤ (market.book side.opposite).size ∧
    (∀ earlier turn later, turns = earlier ++ turn :: later → turn.Orderly later) ∧
    turns.flatMap Turn.removed ++ (after.book side.opposite).ranked = entries := by
  intro offer turns entries handled
  rcases h.sound.post_cases user side price quantity with
    ⟨cause, -, hp⟩ | ⟨hobjection, last, matched, after', hmatching, hrests, hp⟩
  · rw [hp] at hpost
    cases hpost
  rw [hp] at hpost
  cases hpost
  have hs := h.sound.announced offer
  obtain ⟨-, hquantity, -⟩ := objection?_eq_none_iff.mp hobjection
  obtain ⟨hlast, -⟩ := hmatching.last_eq (Offer.consistent_post hquantity)
  have hside : last.side = side := congrArg (·.side) hlast
  have hrest : (after.book side.opposite).ranked = (matched.book side.opposite).ranked := by
    rw [← hside, hrests.book_opposite]
  have hw := h.sound.wellFormed side.opposite
  have hconsumes : Turn.Consumes turns entries (matched.book side.opposite).ranked := hmatching.consumes hs
  refine ⟨hmatching.deals_eq hs, length_turns_le _ offer, hconsumes.handled, ?_, ?_, hconsumes.orderly, ?_⟩
  · exact (h.sound.nodup_ranked side.opposite).sublist (hconsumes.handled.sublist.map _)
  · rw [hw.size_eq]
    exact hconsumes.handled.length_le
  · rw [hrest]
    exact hconsumes.removed

/-- An offer that meets an expired entry, fulfils the next maker and takes a part of the one after it. -/
theorem matching_visits_once_of_part_taken :
    ∃ (market after : Market VoidStore) (posting : Posting), market.Reachable ∧
      market.post 1 .buy 6 5 = (.ok posting, after) ∧
        (market.book .sell).ranked = [(4, ⟨1, 0⟩), (4, ⟨2, 0⟩), (5, ⟨0, 0⟩), (6, ⟨3, 0⟩)] ∧
        let offer := Offer.post market.offerIds.next 1 .buy 6 5
        let turns := (market.announced offer).turns offer
        turns.filterMap Turn.handled? = [(4, ⟨1, 0⟩), (4, ⟨2, 0⟩), (5, ⟨0, 0⟩)] ∧
          turns.flatMap Turn.removed = [(4, ⟨1, 0⟩), (4, ⟨2, 0⟩)] ∧
          turns.length ≤ (market.book .sell).size + 1 ∧
          (∀ turn ∈ turns, turn.found ≠ .emptyLevel) ∧
          turns.flatMap Turn.removed ++ (after.book .sell).ranked = (market.book .sell).ranked := by
  let start : Market VoidStore := { store := {} }
  let operations : List Operation := [.register "a", .register "b", .post 0 .sell 5 3,
    .post 0 .sell 4 1, .post 0 .sell 4 3, .post 0 .sell 6 1, .cancel 0 1]
  obtain ⟨market, hreachable, hpost, hbook, hhandled, htaken⟩ :
      ∃ market : Market VoidStore, market.Reachable ∧
        (market.post 1 .buy 6 5).1 =
          .ok ⟨4, [⟨0, 0, 1, 2, 4, 4, 3⟩, ⟨1, 0, 1, 0, 4, 5, 2⟩], 0⟩ ∧
        (market.book .sell).ranked = [(4, ⟨1, 0⟩), (4, ⟨2, 0⟩), (5, ⟨0, 0⟩), (6, ⟨3, 0⟩)] ∧
        ((market.announced (Offer.post market.offerIds.next 1 .buy 6 5)).turns
          (Offer.post market.offerIds.next 1 .buy 6 5)).filterMap Turn.handled? =
            [(4, ⟨1, 0⟩), (4, ⟨2, 0⟩), (5, ⟨0, 0⟩)] ∧
        ((market.announced (Offer.post market.offerIds.next 1 .buy 6 5)).turns
          (Offer.post market.offerIds.next 1 .buy 6 5)).flatMap Turn.removed =
            [(4, ⟨1, 0⟩), (4, ⟨2, 0⟩)] :=
    ⟨(start.run operations).2, Reachable.run (.start (rfl : Market.start _ false = _)) _,
      by decide +kernel, by decide +kernel, by decide +kernel, by decide +kernel⟩
  obtain ⟨-, hlength, -, -, -, horderly, hremoved⟩ :=
    matching_visits_once hreachable (Prod.ext hpost rfl)
  refine ⟨market, _, _, hreachable, Prod.ext hpost rfl, hbook, hhandled, htaken, hlength, ?_, hremoved⟩
  intro turn hturn
  obtain ⟨earlier, later, hsplit⟩ := List.append_of_mem hturn
  exact (horderly earlier turn later hsplit).not_empty

end Market

end Bourse
