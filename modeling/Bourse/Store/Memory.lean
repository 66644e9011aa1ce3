import Bourse.SortedMap
import Bourse.Store

/-!
# `Bourse.Store.Memory` — a log with an index for each table

The log only grows. Beside it the store keeps, for each table, the ids in use, their number and the
largest of them, so that neither a new row nor a question needs a walk over the log. A row whose table
already has its id is rejected and changes nothing.
-/

namespace Bourse

/-- What is known of one table without reading the log. -/
structure TableIndex where
  /-- The ids in use. -/
  ids : SortedMap Nat Unit := .empty
  /-- The number of rows. -/
  count : Nat := 0
  /-- The largest id in use. -/
  largest : Option Nat := none
deriving DecidableEq

/-- The index after a row with a new id. -/
def TableIndex.add (index : TableIndex) (id : Nat) : TableIndex where
  ids := index.ids.insert id ()
  count := index.count + 1
  largest := some (index.largest.elim id (max id))

/-- A store that keeps all rows in the order in which they came. -/
structure MemoryStore where
  /-- The rows, oldest first. -/
  log : List Record := []
  users : TableIndex := {}
  offers : TableIndex := {}
  deals : TableIndex := {}
deriving DecidableEq

namespace MemoryStore

/-- The index of a table. -/
def index (store : MemoryStore) : Table → TableIndex
  | .user => store.users
  | .offer => store.offers
  | .deal => store.deals

/-- The store with the index of one table replaced. -/
def withIndex (store : MemoryStore) (table : Table) (index : TableIndex) : MemoryStore :=
  match table with
  | .user => { store with users := index }
  | .offer => { store with offers := index }
  | .deal => { store with deals := index }

/-- The number of rows of a table. -/
def count (store : MemoryStore) (table : Table) : Nat := (store.index table).count

/-- Adds a row at the end of the log, unless its table has its id already. -/
def append (store : MemoryStore) (row : Record) : Except StoreError Unit × MemoryStore :=
  let index := store.index row.table
  if index.ids.contains row.id then (.error (.rejected row.table row.id), store)
  else (.ok (), { store.withIndex row.table (index.add row.id) with log := store.log ++ [row] })

instance : RecordStore MemoryStore where
  record := append
  largestId store table := .ok (store.index table).largest

/-- A store with the given rows; of rows with the same table and id it keeps the first. -/
def ofRecords (rows : List Record) : MemoryStore := rows.foldl RecordStore.notify {}

end MemoryStore

end Bourse
