import Bourse.Store.Record

/-!
# `Bourse.Store` — where events are kept

The market keeps its own state and reports users, offers and deals to a store. A store may decline any
call; the market goes on without it, so what a store answers to `record` changes nothing but the store.
The only question the market ever asks is `largestId`, before it starts.
-/

namespace Bourse

/-- A type of stores. -/
class RecordStore (σ : Type) where
  /-- Offers a row to the store, which takes or declines it. -/
  record : σ → Record → Except StoreError Unit × σ
  /-- The largest id in a table, if it has any row. -/
  largestId : σ → Table → Except StoreError (Option Nat)

namespace RecordStore

/-- The store after it was offered a row, whether or not it took it. -/
def notify {σ : Type} [RecordStore σ] (store : σ) (row : Record) : σ := (record store row).2

end RecordStore

/-! ## Stores that keep nothing -/

/-- A store that takes every row and keeps none. -/
structure VoidStore where
deriving DecidableEq, Repr

instance : RecordStore VoidStore where
  record store _ := (.ok (), store)
  largestId _ _ := .ok none

/-- A store that declines every row for one reason and tells of every table the same largest id. -/
structure ClosedStore where
  /-- Why rows are declined. -/
  reason : String
  /-- What is told of each table. -/
  largest : Except StoreError (Option Nat)

instance : RecordStore ClosedStore where
  record store _ := (.error (.unavailable store.reason), store)
  largestId store _ := store.largest

end Bourse
