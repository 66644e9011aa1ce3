import Bourse.Attempt
import Bourse.Offer
import Mathlib.Algebra.BigOperators.Group.Finset.Basic
import Mathlib.Data.Fintype.Basic
import Mathlib.Logic.Function.Basic

/-!
# `Bourse.Offer.Run` — offers over time

Offers trade in pairs, without a book and without accounts: of a row of offers two different ones meet, one as
the incoming offer and one as the resting one, in whatever order and as often as they can. This module says
what a row of such pairings does to the offers, and how much each of them and each side still wants.

## Contents
- **Pairings.** `Pairing`, two different places; `Offers.trade` lets the offers there trade, and `Offers.IsOpen`
  says that both still can.
- **Runs.** `Offers.run`, the deals that come of a row of pairings; `Offers.AllOpen`.
- **Sums.** `Pairing.dealsAt`, the deals of one offer; `Offers.openInterest`, what a side still wants.
-/

namespace Bourse

/-- The offer has just been posted, for some quantity. -/
def Offer.IsNew (offer : Offer) : Prop :=
  0 < offer.quantity ∧ offer = post offer.id offer.owner offer.side offer.price offer.quantity

instance (offer : Offer) : Decidable offer.IsNew := inferInstanceAs (Decidable (_ ∧ _))

/-! ## Pairings -/

/-- A row of `n` offers, by their places. -/
abbrev Offers (n : Nat) := Fin n → Offer

/-- Two different offers of a row, by their places. -/
structure Pairing (n : Nat) where
  taker : Fin n
  maker : Fin n
  distinct : taker ≠ maker
  /-- The number of the deal that comes of it. -/
  deal : DealId
deriving DecidableEq

namespace Offers

variable {n : Nat}

/-- Lets two offers trade; gives their deal. -/
def trade (offers : Offers n) (p : Pairing n) : Attempt (Offers n) Deal :=
  match (offers p.taker).trade (offers p.maker) p.deal with
  | .error cause => (.error cause, offers)
  | .ok trade =>
    (.ok trade.deal, Function.update (Function.update offers p.taker trade.taker) p.maker trade.maker)

/-- Neither offer of the pairing is fulfilled. -/
def IsOpen (offers : Offers n) (p : Pairing n) : Prop :=
  (offers p.taker).isFulfilled = false ∧ (offers p.maker).isFulfilled = false

instance (offers : Offers n) (p : Pairing n) : Decidable (offers.IsOpen p) :=
  inferInstanceAs (Decidable (_ ∧ _))

/-! ## Runs -/

/-- Lets one pair trade after the other; gives the deals that are made, each with its pairing. -/
def run (offers : Offers n) : List (Pairing n) → List (Pairing n × Deal) × Offers n
  | [] => ([], offers)
  | p :: rest =>
    let more := (offers.trade p).2.run rest
    match (offers.trade p).1 with
    | .error _ => more
    | .ok deal => ((p, deal) :: more.1, more.2)

/-- Each pairing is of two offers that are not fulfilled when they meet. -/
def AllOpen (offers : Offers n) : List (Pairing n) → Prop
  | [] => True
  | p :: rest => offers.IsOpen p ∧ (offers.trade p).2.AllOpen rest

instance decidableAllOpen (offers : Offers n) : (pairings : List (Pairing n)) →
    Decidable (offers.AllOpen pairings)
  | [] => isTrue trivial
  | p :: rest =>
    have := (offers.trade p).2.decidableAllOpen rest
    inferInstanceAs (Decidable (_ ∧ _))

/-! ## Sums -/

/-- What the offers of a side still want. -/
def openInterest (offers : Offers n) (side : Side) : Quantity :=
  ∑ i, if (offers i).side = side then (offers i).remaining else 0

/-- The places of the offers that are not fulfilled. -/
def openPlaces (offers : Offers n) : Finset (Fin n) :=
  Finset.univ.filter fun i => (offers i).isFulfilled = false

end Offers

namespace Pairing

variable {n : Nat}

/-- The offer at this place is one of the two. -/
def Involves (p : Pairing n) (place : Fin n) : Prop := place = p.taker ∨ place = p.maker

instance (p : Pairing n) (place : Fin n) : Decidable (p.Involves place) :=
  inferInstanceAs (Decidable (_ ∨ _))

/-- The deals of the offer at this place. -/
def dealsAt (place : Fin n) (made : List (Pairing n × Deal)) : List Deal :=
  (made.filter fun x => x.1.Involves place).map (·.2)

end Pairing

end Bourse
