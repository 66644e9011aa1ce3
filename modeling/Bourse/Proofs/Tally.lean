import Bourse.Proofs.Mirror

/-!
# `Bourse.Proofs.Tally` — the indices of a memory store agree with its log

Beside the log a memory store keeps three things for each table: the ids in use, their number and the largest
of them. A row that is taken changes all of them at once, and a row that is rejected changes none. So after
any rows, in whatever order their ids come, each of them is what a walk over the log would find.
-/

namespace Bourse

namespace MemoryStore

/-! ## Walks over the log -/

/-- The ids that the log has of a table, in the order in which they came. -/
def idsOf (store : MemoryStore) (table : Table) : List Nat :=
  (store.log.filter (·.table = table)).map (·.id)

theorem idsOf_pushed (store : MemoryStore) (row : Record) (table : Table) :
    (store.pushed row).idsOf table =
      if table = row.table then store.idsOf table ++ [row.id] else store.idsOf table := by
  unfold idsOf
  show ((store.log ++ [row]).filter _).map _ = _
  rw [List.filter_append, List.map_append, List.filter_singleton]
  by_cases htable : table = row.table
  · rw [if_pos htable, decide_eq_true htable.symm]
    rfl
  · rw [if_neg htable, decide_eq_false (Ne.symm htable)]
    exact List.append_nil _

theorem max?_concat (ids : List Nat) (id : Nat) :
    (ids ++ [id]).max? = some (ids.max?.elim id (max id)) := by
  cases ids with
  | nil => rfl
  | cons first rest =>
    rw [List.cons_append, List.max?_cons', List.max?_cons', List.foldl_append, Option.elim_some, Nat.max_comm]
    rfl

/-- The log has a row with the key of this one. -/
theorem any_sameKey_iff {store : MemoryStore} {row : Record} :
    store.log.any row.sameKey = true ↔ ∃ old ∈ store.log, old.table = row.table ∧ old.id = row.id := by
  rw [List.any_eq_true]
  exact exists_congr fun old => and_congr_right fun _ =>
    Record.sameKey_iff.trans (and_congr eq_comm eq_comm)

/-! ## What is kept beside it -/

/-- The numbers that are kept of each table are those of its rows in the log, and no two rows have the same
    key. -/
structure Tallied (store : MemoryStore) : Prop where
  count_eq : ∀ table, store.count table = (store.idsOf table).length
  largest_eq : ∀ table, (store.index table).largest = (store.idsOf table).max?
  distinct : store.log.Pairwise fun a b => ¬(a.table = b.table ∧ a.id = b.id)

theorem tallied_empty : Tallied {} where
  count_eq table := by cases table <;> rfl
  largest_eq table := by cases table <;> rfl
  distinct := .nil

/-- **A row with a new key is counted in its table** and in no other. -/
theorem Tallied.pushed {store : MemoryStore} (h : store.Tallied) {row : Record}
    (hnew : ¬∃ old ∈ store.log, old.table = row.table ∧ old.id = row.id) : (store.pushed row).Tallied where
  count_eq := by
    intro table
    unfold count
    rw [index_pushed, idsOf_pushed]
    split
    · rw [List.length_append, ← h.count_eq]
      rfl
    · exact h.count_eq table
  largest_eq := by
    intro table
    rw [index_pushed, idsOf_pushed]
    split
    · rw [max?_concat, ← h.largest_eq]
      rfl
    · exact h.largest_eq table
  distinct := by
    refine List.pairwise_append.mpr ⟨h.distinct, List.pairwise_singleton _ _, ?_⟩
    intro old hold last hlast hsame
    rw [List.mem_singleton.mp hlast] at hsame
    exact hnew ⟨old, hold, hsame⟩

/-- Rows that a store is told are counted, unless they are rejected. -/
theorem Tallied.foldl_notify {store : MemoryStore} (h : store.Tallied) (hindexed : store.Indexed)
    (rows : List Record) : (rows.foldl RecordStore.notify store).Tallied := by
  induction rows generalizing store with
  | nil => exact h
  | cons row rest ih =>
    rw [List.foldl_cons, RecordStore.notify, hindexed.record_eq]
    split
    case isTrue => exact ih h hindexed
    case isFalse hnew => exact ih (h.pushed (any_sameKey_iff.not.mp hnew)) (hindexed.pushed row)

/-! ## The whole log -/

/-- A store to which rows are recorded is one that was started with them, too. -/
theorem recordAll_ofRecords (preloaded rows : List Record) :
    (RecordStore.recordAll (ofRecords preloaded) rows).2 = ofRecords (preloaded ++ rows) := by
  have hfold : ∀ store : MemoryStore,
      (RecordStore.recordAll store rows).2 = rows.foldl RecordStore.notify store := by
    induction rows with
    | nil => exact fun store => rfl
    | cons row rest ih => exact fun store => ih _
  rw [hfold, ofRecords, ofRecords, List.foldl_append]

/-- **The indices of a memory store agree with its log.** Whatever rows a store was started with and whatever
    rows were recorded since, its log has no two rows of the same table and id; it is the first row of each
    table and id that was offered, in the order in which they were. The next row is rejected if its table and
    id are in the log, which changes nothing, and comes last in the log otherwise. The number and the largest
    id that the store tells of a table are those of its rows in the log. -/
theorem log_and_indices_agree (preloaded rows : List Record) :
    let store := (RecordStore.recordAll (ofRecords preloaded) rows).2
    store.log.Pairwise (fun a b => ¬(a.table = b.table ∧ a.id = b.id)) ∧
      store.log = (preloaded ++ rows).eraseDupsBy (fun a b => a.table = b.table && a.id = b.id) ∧
      (∀ row : Record,
        (∃ old ∈ store.log, old.table = row.table ∧ old.id = row.id) ∧
            RecordStore.record store row = (.error (.rejected row.table row.id), store) ∨
          (¬∃ old ∈ store.log, old.table = row.table ∧ old.id = row.id) ∧
            ∃ after, RecordStore.record store row = (.ok (), after) ∧ after.log = store.log ++ [row]) ∧
      ∀ table : Table,
        store.count table = (store.log.filter (·.table = table)).length ∧
          RecordStore.largestId store table =
            .ok ((store.log.filter (·.table = table)).map (·.id)).max? := by
  intro store
  have hstore : store = ofRecords (preloaded ++ rows) := recordAll_ofRecords preloaded rows
  have hindexed : store.Indexed := hstore ▸ indexed_ofRecords _
  have htallied : store.Tallied := hstore ▸ tallied_empty.foldl_notify indexed_empty _
  refine ⟨htallied.distinct, ?_, fun row => ?_, fun table => ⟨?_, ?_⟩⟩
  · rw [hstore]
    exact log_ofRecords _
  · rw [hindexed.record_eq, ← any_sameKey_iff]
    split
    case isTrue hold => exact .inl ⟨hold, rfl⟩
    case isFalse hnew => exact .inr ⟨hnew, store.pushed row, rfl, rfl⟩
  · rw [htallied.count_eq, idsOf, List.length_map]
  · exact congrArg Except.ok (htallied.largest_eq table)

/-- Ids that come out of order, and rows that are rejected among those at the start and after it. -/
example :
    let store := (RecordStore.recordAll (ofRecords [.user 5 "a" 0, .user 2 "b" 0, .user 5 "c" 0])
      [.offer 5 2 .buy 1 1, .user 2 "d" 0, .user 3 "e" 0]).2
    store.log = [.user 5 "a" 0, .user 2 "b" 0, .offer 5 2 .buy 1 1, .user 3 "e" 0] ∧
      store.count .user = 3 ∧ RecordStore.largestId store .user = .ok (some 5) ∧
      RecordStore.largestId store .deal = .ok none := by
  decide +kernel

end MemoryStore

end Bourse
