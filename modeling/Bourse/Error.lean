import Bourse.Store.Record

/-!
# `Bourse.Error` — why the market refuses

Withdrawing an offer that is not active is no error, and an expired entry of the book is dropped in
silence, so neither has a constructor here.
-/

namespace Bourse

/-- Why an operation of the market is refused. -/
inductive TradeError
  /-- No account has this id. -/
  | unknownUser (user : UserId)
  /-- Two offers of the same side cannot trade with each other. -/
  | sameSide (side : Side)
  /-- An offer needs a positive quantity. -/
  | noQuantity
  /-- The cost of the whole offer is out of range. -/
  | costOutOfRange (price : Price) (quantity : Quantity)
  /-- A balance would leave its range. -/
  | balanceOutOfRange (user : UserId)
  /-- The market cannot be set up as configured. -/
  | invalidConfig (reason : String)
  /-- The store could not tell which ids are in use. -/
  | store (cause : StoreError)
deriving DecidableEq, Repr

/-- The text of the error. -/
def TradeError.message : TradeError → String
  | .unknownUser user => s!"unknown user id {user}"
  | .sameSide side => s!"cannot make a deal between two {side.name} offers"
  | .noQuantity => "offer quantity must be positive"
  | .costOutOfRange price quantity => s!"notional value of {quantity} @ {price} overflows"
  | .balanceOutOfRange user => s!"balance of user {user} would overflow"
  | .invalidConfig reason => s!"invalid configuration: {reason}"
  | .store cause => cause.message

end Bourse
