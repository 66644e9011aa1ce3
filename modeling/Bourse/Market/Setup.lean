import Bourse.Config
import Bourse.Market

/-!
# `Bourse.Market.Setup` — starting a market

A new market has no users and no offers. Its ids start at zero or, when they are seeded, after the
largest ids that the store has. A store that cannot tell them keeps the market from starting.
-/

namespace Bourse

/-- The ids that follow the largest one that the store has in a table. -/
def Numbering.seeded {σ : Type} [RecordStore σ] (store : σ) (table : Table) :
    Except TradeError Numbering :=
  match RecordStore.largestId store table with
  | .error cause => .error (.store cause)
  | .ok largest => .ok (.after largest)

namespace Market

variable {σ : Type} [RecordStore σ]

/-- A market whose ids go on after those in the store; the tables are asked in their order. -/
def seeded (store : σ) : Except TradeError (Market σ) := do
  let userIds ← Numbering.seeded store .user
  let offerIds ← Numbering.seeded store .offer
  let dealIds ← Numbering.seeded store .deal
  return { userIds, offerIds, dealIds, store }

/-- A new market, with ids from the store or from zero. -/
def start (store : σ) (seed : Bool) : Except TradeError (Market σ) :=
  if seed then seeded store else .ok { store }

/-- A new market with the given settings. -/
def ofConfig (config : Config) (store : σ) : Except TradeError (Market σ) :=
  match config.validate with
  | .error reason => .error (.invalidConfig reason)
  | .ok () => start store config.seedIds

end Market

end Bourse
