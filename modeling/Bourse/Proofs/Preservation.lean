import Bourse.Market.Run
import Bourse.Proofs.Posting

/-!
# `Bourse.Proofs.Preservation` — every operation keeps books and accounts together

Whatever is asked of a coherent market, it stays coherent, and it does so at every exit of an operation, also
at those where it is refused half way. Nothing is assumed of the balances here, so a deal may fail to settle
in the middle of a matching; the maker has then been put back or taken out already, and the books say so.

* `Kept` is what the steps of a matching keep, and `Encounter.Keeps` says so of one meeting
  (`Coherent.meet`).
* `Coherent.matchTaker` is the induction over the loop.
* `Coherent.apply`: each operation keeps a market coherent.
-/

namespace Bourse

namespace Market

variable {σ : Type}

/-- What a market has in common with one that it came from by matching: it is coherent and no entry is
    new. -/
structure Kept (market after : Market σ) : Prop where
  coherent : after.Coherent
  offerIds_eq : after.offerIds = market.offerIds
  queueAt_sublist : ∀ side price,
    ((after.book side).queueAt price).Sublist ((market.book side).queueAt price)

theorem Coherent.kept_self {market : Market σ} (h : market.Coherent) : market.Kept market :=
  ⟨h, rfl, fun _ _ => .refl _⟩

theorem Kept.trans {market between after : Market σ} (h : market.Kept between)
    (h' : between.Kept after) : market.Kept after where
  coherent := h'.coherent
  offerIds_eq := h'.offerIds_eq.trans h.offerIds_eq
  queueAt_sublist side price := (h'.queueAt_sublist side price).trans (h.queueAt_sublist side price)

end Market

/-- Wherever an encounter leads, it keeps the market; a trade leaves a part of the incoming offer. -/
def Encounter.Keeps {σ : Type} (market : Market σ) (taker : Offer) : Encounter σ → Prop
  | .nothing => True
  | .emptyLevel => True
  | .expired after => market.Kept after
  | .refused _ after => market.Kept after
  | .traded _ left after => market.Kept after ∧ ∃ quantity, left = taker.fill quantity

namespace Market

variable {σ : Type}

/-! ## One meeting -/

/-- An expired entry goes. -/
theorem Coherent.kept_pop {market : Market σ} (h : market.Coherent) {side : Side} {price : Price}
    {entry : QueueEntry} (hfront : (market.book side).front? price = some entry)
    (hdead : market.accounts.activeOffer? entry = none) :
    market.Kept (market.withBook ((market.book side).pop price)) where
  coherent := h.pop hfront hdead
  offerIds_eq := rfl
  queueAt_sublist side' p :=
    queueAt_withBook_sublist (fun q => Book.queueAt_pop_sublist _ price q) side' p

/-- What is left of a maker goes back into its account, if anything is. -/
theorem Coherent.kept_returned {market : Market σ} (h : market.Coherent) {entry : QueueEntry}
    {maker : Offer} (hlive : market.accounts.activeOffer? entry = some maker) (quantity : Quantity) :
    market.Kept { market with accounts := market.accounts.returned entry (maker.fill quantity) } where
  coherent := by
    have hmaker := h.outstanding hlive
    refine h.of_offers rfl (Nat.le_refl _) fun {e offer} ho => ?_
    have hoffer := Ledger.activeOffer?_returned hlive hmaker.consistent quantity e
    rw [hmaker.consistent.leftAfter_eq] at hoffer
    replace ho := hoffer.symm.trans ho
    by_cases he : e = entry
    · rw [if_pos he] at ho
      split at ho
      · cases ho
      case isFalse hopen =>
        cases ho
        rw [he]
        exact ⟨hmaker.fill (Bool.eq_false_iff.mpr hopen), maker, hlive, rfl, rfl⟩
    · rw [if_neg he] at ho
      exact ⟨h.outstanding ho, offer, ho, rfl, rfl⟩
  offerIds_eq := rfl
  queueAt_sublist _ _ := .refl _

/-- Once nothing is left of the maker, its entry leaves the queue as well. -/
theorem Coherent.kept_returnMaker {market : Market σ} (h : market.Coherent) {side : Side}
    {price : Price} {entry : QueueEntry} {maker : Offer}
    (hfront : (market.book side).front? price = some entry)
    (hlive : market.accounts.activeOffer? entry = some maker) (quantity : Quantity) :
    market.Kept (market.returnMaker price entry (maker.fill quantity) side) := by
  have hreturned := h.kept_returned hlive quantity
  have haccounts := market.accounts_returnMaker price entry (maker.fill quantity) side
  unfold returnMaker at haccounts ⊢
  by_cases hdone : (maker.fill quantity).isFulfilled = true
  · rw [if_pos hdone] at haccounts ⊢
    have hdead : (market.accounts.returned entry (maker.fill quantity)).activeOffer? entry = none := by
      have hmaker := (h.outstanding hlive).consistent
      rw [Ledger.activeOffer?_returned hlive hmaker, if_pos rfl, hmaker.leftAfter_eq, if_pos hdone]
    rw [show market.accounts.modify entry.owner (·.removeOffer entry.offer) = _ from haccounts]
    exact hreturned.trans (hreturned.coherent.kept_pop hfront hdead)
  · rw [if_neg hdone] at haccounts ⊢
    rw [show market.accounts.modify entry.owner (·.updateOffer entry.offer _) = _ from haccounts]
    exact hreturned

variable [RecordStore σ]

/-- A settlement touches neither books nor offers. -/
theorem Coherent.kept_settle {market : Market σ} (h : market.Coherent) (deal : Deal) :
    market.Kept (market.settle deal).2 where
  coherent := h.congr (market.books_settle deal)
    (Nat.le_of_eq (congrArg (·.next) (market.offerIds_settle deal).symm))
    (market.activeOffer?_settle deal)
  offerIds_eq := market.offerIds_settle deal
  queueAt_sublist side price := by
    unfold Market.book
    rw [books_settle]

omit [RecordStore σ] in
/-- What else is reported of a market does not matter. -/
theorem Kept.reported {market after : Market σ} (h : market.Kept after) (quote : Option Price)
    (dealIds : Numbering) : market.Kept { after with quote, dealIds } :=
  ⟨h.coherent.congr rfl (Nat.le_refl _) fun _ => rfl, h.offerIds_eq, h.queueAt_sublist⟩

/-- A trade keeps a market, whether or not its deal can be settled. -/
theorem Coherent.strike {market : Market σ} (h : market.Coherent) {taker maker : Offer} {price : Price}
    {entry : QueueEntry}
    (hfront : (market.book taker.side.opposite).front? price = some entry)
    (hlive : market.accounts.activeOffer? entry = some maker) :
    (market.strike taker price entry maker).Keeps market taker := by
  have hside := (h.eq_of_queued (Book.mem_queueAt_of_front? hfront) hlive).1
  have hnumbered := h.kept_self.reported market.quote market.dealIds.advance
  have hreturned := hnumbered.trans
    (hnumbered.coherent.kept_returnMaker hfront hlive (min taker.remaining maker.remaining))
  have hsettled := hreturned.trans (hreturned.coherent.kept_settle
    (taker.dealWith maker market.dealIds.next (min taker.remaining maker.remaining)))
  unfold Market.strike
  rw [Offer.trade_eq_ok hside]
  dsimp only
  split
  case h_1 cause after hsettle =>
    rw [hsettle] at hsettled
    exact hsettled
  case h_2 after hsettle =>
    rw [hsettle] at hsettled
    exact ⟨hsettled.reported _ _, _, rfl⟩

/-- **A meeting keeps a market.** -/
theorem Coherent.meet {market : Market σ} (h : market.Coherent) (taker : Offer) :
    (market.meet taker).Keeps market taker := by
  unfold Market.meet
  dsimp only
  split
  · trivial
  · split
    · split
      · trivial
      case h_2 entry hfront =>
        split
        case h_1 hdead => exact h.kept_pop hfront hdead
        case h_2 maker hlive => exact h.strike hfront hlive
    · trivial

/-! ## Matching and posting -/

/-- **Matching keeps a market**, also where it is refused, and leaves a part of the incoming offer. -/
theorem Coherent.matchTaker {market : Market σ} (h : market.Coherent) {taker : Offer}
    (hc : taker.Consistent) :
    market.Kept (market.matchTaker taker).2 ∧
      ∀ {last : Offer} {deals : List Deal}, (market.matchTaker taker).1 = .ok (last, deals) →
        ∃ quantity, last = taker.fill quantity := by
  -- an offer of which nothing is traded is left as it is
  have hsame : ∀ {taker last : Offer} {deals : List Deal}, taker.Consistent →
      (.ok (taker, []) : Except TradeError (Offer × List Deal)) = .ok (last, deals) →
        ∃ quantity, last = taker.fill quantity := by
    intro taker last deals hc hok
    cases hok
    exact ⟨0, hc.fill_zero.symm⟩
  fun_induction Market.matchTaker market taker with
  | case1 => exact ⟨h.kept_self, hsame hc⟩
  | case2 => exact ⟨h.kept_self, hsame hc⟩
  | case3 => exact ⟨h.kept_self, hsame hc⟩
  | case4 market taker hopen after hfound ih =>
    have hmeet := h.meet taker
    rw [hfound] at hmeet
    obtain ⟨hkept, hlast⟩ := ih hmeet.coherent hc
    exact ⟨Kept.trans hmeet hkept, hlast⟩
  | case5 market taker hopen cause after hfound =>
    have hmeet := h.meet taker
    rw [hfound] at hmeet
    exact ⟨hmeet, nofun⟩
  | case6 market taker hopen deal left after hfound ih =>
    have hmeet := h.meet taker
    rw [hfound] at hmeet
    obtain ⟨hafter, quantity, rfl⟩ := hmeet
    have hmore := ih hafter.coherent (hc.fill quantity)
    generalize after.matchTaker (taker.fill quantity) = more at hmore ⊢
    obtain ⟨result, matched⟩ := more
    obtain ⟨hkept, hlast⟩ := hmore
    cases result with
    | error cause => exact ⟨hafter.trans hkept, nofun⟩
    | ok answer =>
      refine ⟨hafter.trans hkept, fun hok => ?_⟩
      cases hok
      obtain ⟨rest, hrest⟩ := hlast rfl
      exact ⟨quantity + rest, by rw [hrest, Offer.fill_fill]⟩

omit [RecordStore σ] in
/-- An offer that is younger than all entries comes to rest, unless its owner has no account. -/
theorem Coherent.rest {market : Market σ} (h : market.Coherent) {offer : Offer}
    (houtstanding : offer.Outstanding offer.owner offer.id) (hid : offer.id < market.offerIds.next)
    (hyoung : ∀ {side : Side} {price : Price} {entry : QueueEntry},
      entry ∈ (market.book side).queueAt price → entry.offer < offer.id) :
    (market.rest offer).2.Coherent := by
  cases hget : market.accounts.get? offer.owner with
  | none =>
    unfold Market.rest Ledger.update
    rw [hget]
    exact h
  | some account =>
    rw [rest_eq_ok hget]
    exact h.rested hget houtstanding hid hyoung

omit [RecordStore σ] in
/-- What is vetted has a quantity. -/
theorem ne_zero_of_vet {market : Market σ} {user : UserId} {side : Side} {price : Price}
    {quantity : Quantity} (h : market.vet user side price quantity = .ok ()) : quantity ≠ 0 := by
  intro hzero
  unfold vet at h
  rw [if_pos hzero] at h
  split at h <;> cases h

/-- **A posting keeps a market coherent**, whatever comes of it. -/
theorem Coherent.post {market : Market σ} (h : market.Coherent) (user : UserId) (side : Side)
    (price : Price) (quantity : Quantity) :
    (market.post user side price quantity).2.Coherent := by
  unfold Market.post
  split
  case h_1 => exact h
  case h_2 hvet =>
    have hc : (Offer.post market.offerIds.next user side price quantity).Consistent :=
      Offer.consistent_post (ne_zero_of_vet hvet)
    have hannounced :
        (market.announced (Offer.post market.offerIds.next user side price quantity)).Coherent :=
      h.congr rfl (Nat.le_succ _) fun _ => rfl
    have hmatched := hannounced.matchTaker hc
    show (Attempt.andThen ((market.announced (Offer.post market.offerIds.next user side price
      quantity)).matchTaker (Offer.post market.offerIds.next user side price quantity)) _).2.Coherent
    generalize (market.announced (Offer.post market.offerIds.next user side price
      quantity)).matchTaker (Offer.post market.offerIds.next user side price quantity) = attempt
        at hmatched ⊢
    obtain ⟨result, matched⟩ := attempt
    obtain ⟨hkept, hlast⟩ := hmatched
    cases result with
    | error cause => exact hkept.coherent
    | ok answer =>
      obtain ⟨last, deals⟩ := answer
      obtain ⟨traded, rfl⟩ := hlast rfl
      rw [Attempt.andThen_ok]
      dsimp only
      split
      · exact hkept.coherent
      case isFalse hopen =>
        refine Attempt.snd_andThen (P := Market.Coherent) (hkept.coherent.rest ?_ ?_ ?_)
          fun _ _ hrested => hrested
        · exact hc.outstanding_fill (Nat.le_refl _) (Bool.eq_false_iff.mpr hopen)
        · rw [hkept.offerIds_eq]
          exact Nat.lt_succ_self _
        · intro side' price' entry he
          exact h.entries_lt ((hkept.queueAt_sublist side' price').subset he)

/-! ## All operations -/

/-- **Every operation keeps a market coherent**, successful or not. -/
theorem Coherent.apply {market : Market σ} (h : market.Coherent) (operation : Operation) :
    (market.apply operation).2.Coherent := by
  cases operation with
  | register username => exact h.register username
  | deposit user currency amount => exact h.deposit user currency amount
  | post user side price quantity => exact h.post user side price quantity
  | cancel user offer => exact h.cancel user offer
  | quotes => exact h.quotes

end Market

end Bourse
