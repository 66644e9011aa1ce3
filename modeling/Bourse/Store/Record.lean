import Bourse.Side

/-!
# `Bourse.Store.Record` — what is kept of users, offers and deals

A record is one row of one of three tables. `StoreError` lists the ways in which a store can decline.
-/

namespace Bourse

/-- The tables of a store. -/
inductive Table
  | user
  | offer
  | deal
deriving DecidableEq, Repr

namespace Table

/-- The tables, in the order in which they are listed. -/
def all : List Table := [.user, .offer, .deal]

/-- The name of the table. -/
def name : Table → String
  | .user => "User"
  | .offer => "Offer"
  | .deal => "Deal"

end Table

/-- One row: a user as registered, an offer as posted, a deal as settled. -/
inductive Record
  | user (id : UserId) (username : String) (passwordHash : Nat)
  | offer (id : OfferId) (owner : UserId) (side : Side) (quantity : Quantity) (price : Price)
  | deal (id : DealId) (seller buyer : UserId) (quantity : Quantity) (price : Price)
deriving DecidableEq, Repr

namespace Record

/-- The table the row belongs to. -/
def table : Record → Table
  | .user .. => .user
  | .offer .. => .offer
  | .deal .. => .deal

/-- The number of the row within its table. -/
def id : Record → Nat
  | .user id .. => id
  | .offer id .. => id
  | .deal id .. => id

end Record

/-- Why a store declines a call. -/
inductive StoreError
  /-- The store cannot be reached at all. -/
  | unavailable (reason : String)
  /-- The store does not take this row. -/
  | rejected (table : Table) (id : Nat)
deriving DecidableEq, Repr

/-- The text of the error. -/
def StoreError.message : StoreError → String
  | .unavailable reason => s!"event store unavailable: {reason}"
  | .rejected table id => s!"{table.name} record {id} rejected"

end Bourse
