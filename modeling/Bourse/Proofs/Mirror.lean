import Bourse.Proofs.Independence
import Bourse.Proofs.Reports
import Bourse.Store.Memory

/-!
# `Bourse.Proofs.Mirror` — a memory store as a mirror of its market

A memory store rejects a row whose id its table has already. A market that has been started from the store
goes on after the largest id of each table, so none of its rows is rejected: the log is what it was, followed
by all that the market reports. A market started from the store that is left does the same again.
-/

namespace Bourse

namespace Record

/-- The rows are of the same table and have the same id. -/
def sameKey (a b : Record) : Bool := a.table = b.table && a.id = b.id

theorem sameKey_iff {a b : Record} : a.sameKey b = true ↔ a.table = b.table ∧ a.id = b.id := by
  simp [sameKey]

end Record

namespace RecordStore

variable {σ : Type} [RecordStore σ]

/-- Offers rows to a store one after the other; gives its answers. -/
def recordAll (store : σ) : List Record → List (Except StoreError Unit) × σ
  | [] => ([], store)
  | row :: rest =>
    let first := record store row
    let more := recordAll first.2 rest
    (first.1 :: more.1, more.2)

end RecordStore

/-! ## Memory stores -/

namespace MemoryStore

/-- The indices know the rows of the log. -/
structure Indexed (store : MemoryStore) : Prop where
  contains_iff : ∀ {table : Table} {id : Nat}, (store.index table).ids.contains id = true ↔
    ∃ row ∈ store.log, row.table = table ∧ row.id = id
  /-- The ids after the largest one are new. -/
  id_lt : ∀ row ∈ store.log, row.id < (Numbering.after (store.index row.table).largest).next

theorem indexed_empty : Indexed {} where
  contains_iff := by
    intro table id
    cases table <;> exact iff_of_false nofun nofun
  id_lt := nofun

/-- The store with a row added at the end of its log. -/
def pushed (store : MemoryStore) (row : Record) : MemoryStore :=
  { store.withIndex row.table ((store.index row.table).add row.id) with log := store.log ++ [row] }

theorem index_pushed (store : MemoryStore) (row : Record) (table : Table) :
    (store.pushed row).index table =
      if table = row.table then (store.index table).add row.id else store.index table := by
  unfold pushed
  generalize row.table = written
  cases written <;> cases table <;> rfl

theorem next_after_add (index : TableIndex) (id : Nat) :
    (Numbering.after (index.add id).largest).next =
      max (id + 1) (Numbering.after index.largest).next := by
  unfold TableIndex.add Numbering.after
  cases index.largest with
  | none => exact (Nat.max_zero _).symm
  | some largest => exact (Nat.succ_max_succ id largest).symm

theorem Indexed.pushed {store : MemoryStore} (h : store.Indexed) (row : Record) :
    (store.pushed row).Indexed where
  contains_iff := by
    intro table id
    have hlog : (∃ r ∈ (store.pushed row).log, r.table = table ∧ r.id = id) ↔
        (∃ r ∈ store.log, r.table = table ∧ r.id = id) ∨ (row.table = table ∧ row.id = id) := by
      simp only [MemoryStore.pushed, List.mem_append, List.mem_singleton, or_and_right, exists_or,
        exists_eq_left]
    rw [hlog, ← h.contains_iff, index_pushed]
    by_cases htable : table = row.table
    · rw [if_pos htable]
      unfold TableIndex.add SortedMap.contains
      dsimp only
      rw [SortedMap.get?_insert]
      by_cases hid : id = row.id
      · rw [if_pos hid]
        exact iff_of_true rfl (.inr ⟨htable.symm, hid.symm⟩)
      · rw [if_neg hid]
        exact ⟨.inl, fun hor => hor.resolve_right fun he => hid he.2.symm⟩
    · rw [if_neg htable]
      exact ⟨.inl, fun hor => hor.resolve_right fun he => htable he.1.symm⟩
  id_lt := by
    intro r hr
    rw [index_pushed]
    rcases List.mem_append.mp hr with hold | hnew
    · have hlt := h.id_lt r hold
      split
      · rw [next_after_add]
        exact hlt.trans_le (Nat.le_max_right _ _)
      · exact hlt
    · rw [List.mem_singleton.mp hnew, if_pos rfl, next_after_add]
      exact Nat.le_max_left _ _

/-- **A row with a new key is taken**, and comes last in the log. -/
theorem Indexed.append_of_new {store : MemoryStore} (h : store.Indexed) {row : Record}
    (hnew : ∀ old ∈ store.log, row.sameKey old = false) :
    store.append row = (.ok (), store.pushed row) := by
  have hfree : ¬(store.index row.table).ids.contains row.id = true := by
    rw [h.contains_iff]
    rintro ⟨old, hold, htable, hid⟩
    have hsame := Record.sameKey_iff.mpr ⟨htable.symm, hid.symm⟩
    rw [hnew old hold] at hsame
    cases hsame
  unfold append
  dsimp only
  rw [if_neg hfree]
  rfl

/-- Any other row is rejected and changes nothing. -/
theorem Indexed.append_of_old {store : MemoryStore} (h : store.Indexed) {row old : Record}
    (hold : old ∈ store.log) (hsame : row.sameKey old = true) :
    store.append row = (.error (.rejected row.table row.id), store) := by
  obtain ⟨htable, hid⟩ := Record.sameKey_iff.mp hsame
  unfold append
  dsimp only
  rw [if_pos (h.contains_iff.mpr ⟨old, hold, htable.symm, hid.symm⟩)]

/-- **Whether a row is taken can be told from the log.** -/
theorem Indexed.record_eq {store : MemoryStore} (h : store.Indexed) (row : Record) :
    RecordStore.record store row =
      if store.log.any row.sameKey then (.error (.rejected row.table row.id), store)
      else (.ok (), store.pushed row) := by
  split
  case isTrue hany =>
    obtain ⟨old, hold, hsame⟩ := List.any_eq_true.mp hany
    exact h.append_of_old hold hsame
  case isFalse hany =>
    refine h.append_of_new fun old hold => Bool.eq_false_iff.mpr fun hsame => ?_
    exact hany (List.any_eq_true.mpr ⟨old, hold, hsame⟩)

/-- **Of the rows that a store is told, it keeps the first of each key**, unless it has one already. -/
theorem Indexed.foldl_notify {store : MemoryStore} (h : store.Indexed) (rows : List Record) :
    (rows.foldl RecordStore.notify store).Indexed ∧
      (rows.foldl RecordStore.notify store).log =
        store.log ++ (rows.filter fun row => !store.log.any row.sameKey).eraseDupsBy
          Record.sameKey := by
  induction rows generalizing store with
  | nil => exact ⟨h, (List.append_nil _).symm⟩
  | cons row rest ih =>
    rw [List.foldl_cons, List.filter_cons, RecordStore.notify, h.record_eq]
    cases hrow : store.log.any row.sameKey with
    | true => exact ih h
    | false =>
      -- the rest is freed of the rows that are there and of the one that has come
      have hrest : (rest.filter fun r => !(store.pushed row).log.any r.sameKey) =
          (rest.filter fun r => !store.log.any r.sameKey).filter fun r => r.sameKey row = false := by
        rw [List.filter_filter]
        refine List.filter_congr fun r _ => ?_
        show (!(store.log ++ [row]).any r.sameKey) = _
        rw [List.any_append]
        simp [Bool.and_comm]
      obtain ⟨hindexed, hlog⟩ := ih (h.pushed row)
      refine ⟨hindexed, ?_⟩
      show (rest.foldl RecordStore.notify (store.pushed row)).log = _
      rw [hlog, hrest]
      show (store.log ++ [row]) ++ _ = store.log ++ List.eraseDupsBy _ (row :: _)
      rw [List.eraseDupsBy_cons, List.append_assoc]
      rfl

theorem indexed_ofRecords (records : List Record) : (ofRecords records).Indexed :=
  (indexed_empty.foldl_notify records).1

theorem log_ofRecords (records : List Record) :
    (ofRecords records).log = records.eraseDupsBy Record.sameKey := by
  have hall : (records.filter fun row => !(MemoryStore.log {}).any row.sameKey) = records :=
    List.filter_eq_self.mpr fun _ _ => rfl
  have hlog := (indexed_empty.foldl_notify records).2
  rw [hall] at hlog
  exact hlog

/-- **Rows with new keys, no two of them with the same, are all taken.** -/
theorem Indexed.recordAll_of_new {store : MemoryStore} (h : store.Indexed) {rows : List Record}
    (hnew : ∀ row ∈ rows, ∀ old ∈ store.log, row.sameKey old = false)
    (hrows : rows.Pairwise fun a b => b.sameKey a = false) :
    RecordStore.recordAll store rows =
        (rows.map fun _ => .ok (), rows.foldl RecordStore.notify store) ∧
      (rows.foldl RecordStore.notify store).log = store.log ++ rows := by
  induction rows generalizing store with
  | nil => exact ⟨rfl, (List.append_nil _).symm⟩
  | cons row rest ih =>
    have hrecord : RecordStore.record store row = (.ok (), store.pushed row) :=
      h.append_of_new (hnew row List.mem_cons_self)
    have hnotify : RecordStore.notify store row = store.pushed row := congrArg (·.2) hrecord
    obtain ⟨hfirst, hrest⟩ := List.pairwise_cons.mp hrows
    have hnew' : ∀ r ∈ rest, ∀ old ∈ (store.pushed row).log, r.sameKey old = false := by
      intro r hr old hold
      rcases List.mem_append.mp hold with hold | hold
      · exact hnew r (List.mem_cons_of_mem _ hr) old hold
      · rw [List.mem_singleton.mp hold]
        exact hfirst r hr
    obtain ⟨hanswers, hlog⟩ := ih (h.pushed row) hnew' hrest
    unfold RecordStore.recordAll
    dsimp only
    rw [hrecord, hanswers, List.foldl_cons, hnotify, hlog]
    exact ⟨rfl, List.append_assoc _ _ _⟩

/-- The id that comes after the largest one of a table. -/
def nextId (store : MemoryStore) (table : Table) : Nat :=
  (Numbering.after (store.index table).largest).next

/-- **Rows with ascending ids after those in the store are all taken.** -/
theorem Indexed.recordAll_of_numbered {store : MemoryStore} (h : store.Indexed) {rows : List Record}
    {last : Table → Nat} (hrows : Record.Numbered rows store.nextId last) :
    RecordStore.recordAll store rows =
        (rows.map fun _ => .ok (), rows.foldl RecordStore.notify store) ∧
      (rows.foldl RecordStore.notify store).log = store.log ++ rows := by
  refine h.recordAll_of_new (fun row hrow old hold => ?_) (hrows.ascending.imp fun {a b} hlt => ?_)
  · refine Bool.eq_false_iff.mpr fun hsame => ?_
    obtain ⟨htable, hid⟩ := Record.sameKey_iff.mp hsame
    have hle := (hrows.between row hrow).1
    rw [htable, hid] at hle
    exact Nat.not_lt_of_le hle (h.id_lt old hold)
  · refine Bool.eq_false_iff.mpr fun hsame => ?_
    obtain ⟨htable, hid⟩ := Record.sameKey_iff.mp hsame
    exact Nat.ne_of_lt (hlt htable.symm) hid.symm

end MemoryStore

/-! ## Markets -/

namespace Market

/-- A memory store tells the largest ids of its tables, so a market can always be started from it. -/
theorem exists_start_seeded (store : MemoryStore) :
    ∃ market, start store true = .ok market ∧ market.store = store ∧
      ∀ table, (market.numbering table).next = store.nextId table :=
  ⟨{ userIds := .after store.users.largest, offerIds := .after store.offers.largest,
      dealIds := .after store.deals.largest, store }, rfl, rfl, fun table => by cases table <;> rfl⟩

/-- **A market that is started from a memory store gives out ids that are new to the store.** -/
theorem id_lt_of_mem_issued {market : Market MemoryStore} {store : MemoryStore} (hs : market.Sound)
    (hindexed : store.Indexed) (hnext : ∀ table, (market.numbering table).next = store.nextId table)
    {operations : List Operation} {table : Table} {id : Nat} (hid : id ∈ market.issued operations table)
    {row : Record} (hrow : row ∈ store.log) (htable : row.table = table) : row.id < id := by
  have hlt := hindexed.id_lt row hrow
  rw [(hs.issued_eq operations table).1, List.mem_range'_1, hnext] at hid
  rw [htable] at hlt
  exact hlt.trans_le hid.1

/-- Whether a market is sound does not depend on its store. -/
theorem Sound.of_forget_eq {σ τ : Type} {market : Market σ} {other : Market τ} (h : market.Sound)
    (hsame : other.forget = market.forget) : other.Sound := by
  obtain ⟨accounts, books, quote, userIds, offerIds, dealIds, store⟩ := other
  cases hsame
  exact ⟨h.accounts, h.users_lt, h.deals_lt, h.wellFormed, h.age, h.entries_lt, h.one_queue, h.queued⟩

end Market

/-! ## Exchanges -/

namespace Exchange

/-- A run tells the same to whatever store. -/
theorem store_run_of_forget_eq {σ τ : Type} [RecordStore σ] [RecordStore τ] {exchange : Exchange σ}
    {other : Exchange τ} (h : exchange.market.Sound) (hsame : other.forget = exchange.forget)
    (events : List Event) :
    (other.run events).2.market.store =
      (exchange.reports events).foldl RecordStore.notify other.market.store := by
  have hlifted := forget_eq_iff.mp hsame
  rw [store_run (h.of_forget_eq hlifted.market), hlifted.reports_eq Market.lockstep_forget]

/-- **A memory store is a mirror of its market, from which it can be restarted.**
    A market can be started from any rows. Whatever an exchange on it goes through, it tells the same rows to
    every store (a user for each registration, and for each accepted posting the offer with its whole quantity
    and then its deals). The memory store takes each of them: its log is what it was started with, without
    later rows of the same table and id, and then these rows. A second market can be started from that store,
    and all ids that it gives out are greater than those of their table in the log. -/
theorem mirror_restartable (records : List Record) :
    ∃ market : Market MemoryStore, Market.start (.ofRecords records) true = .ok market ∧
      ∀ events : List Event,
        let exchange : Exchange MemoryStore := { market }
        let rows := exchange.reports events
        let store := (exchange.run events).2.market.store
        (∀ {τ : Type} [RecordStore τ] {other : Exchange τ}, other.forget = exchange.forget →
          (other.run events).2.market.store = rows.foldl RecordStore.notify other.market.store) ∧
        RecordStore.recordAll (MemoryStore.ofRecords records) rows = (rows.map fun _ => .ok (), store) ∧
        store.log = records.eraseDupsBy Record.sameKey ++ rows ∧
        ∃ second : Market MemoryStore, Market.start store true = .ok second ∧
          ∀ operations table, ∀ id ∈ second.issued operations table,
            ∀ row ∈ store.log, row.table = table → row.id < id := by
  obtain ⟨market, hstart, hstore, hnext⟩ :=
    Market.exists_start_seeded (MemoryStore.ofRecords records)
  refine ⟨market, hstart, fun events => ?_⟩
  intro exchange rows store
  have hs : exchange.market.Sound := Market.sound_start hstart
  have hindexed := MemoryStore.indexed_ofRecords records
  have hrows : Record.Numbered rows (MemoryStore.ofRecords records).nextId _ :=
    funext hnext ▸ numbered_reports hs events
  have htold : store = rows.foldl RecordStore.notify (MemoryStore.ofRecords records) := by
    rw [← hstore]
    exact store_run hs events
  obtain ⟨hanswers, hlog⟩ := hindexed.recordAll_of_numbered hrows
  rw [← htold] at hanswers hlog
  rw [MemoryStore.log_ofRecords] at hlog
  have hafter : store.Indexed := by
    rw [htold]
    exact (hindexed.foldl_notify rows).1
  obtain ⟨second, hsecond, -, hnextSecond⟩ := Market.exists_start_seeded store
  refine ⟨fun hsame => store_run_of_forget_eq hs hsame events, hanswers, hlog, second, hsecond, ?_⟩
  intro operations table id hid row hrow htable
  exact Market.id_lt_of_mem_issued (Market.sound_start hsecond) hafter hnextSecond hid hrow htable

/-- A store with a gap in its users and a row too many. A name is registered twice, an offer is refused and
    another withdrawn; an empty store is told the same as the mirror. -/
theorem mirror_restartable_of_gaps :
    let records : List Record := [.user 3 "z" 0, .offer 5 3 .sell 1 1, .offer 5 3 .buy 2 2, .deal 2 3 3 1 1]
    let events : List Event := [.request (.register "a" 1), .request (.register "a" 2), .register "b" 2,
      .request (.deposit 4 .usd 9), .request (.postOffer 4 .sell 5 3), .request (.postOffer 5 .buy 6 2),
      .request (.postOffer 5 .buy 6 0), .request (.cancel 4 6)]
    let rows : List Record := [.user 4 "a" 1, .user 5 "b" 2, .offer 6 4 .sell 3 5, .offer 7 5 .buy 2 6,
      .deal 3 4 5 2 5]
    let empty : Exchange MemoryStore :=
      { market := { userIds := ⟨4⟩, offerIds := ⟨6⟩, dealIds := ⟨3⟩, store := {} } }
    ∃ market : Market MemoryStore, Market.start (.ofRecords records) true = .ok market ∧
      let store := (Exchange.run { market } events).2.market.store
      (empty.run events).2.market.store.log = rows ∧
      (RecordStore.recordAll (MemoryStore.ofRecords records) rows).1 =
        [.ok (), .ok (), .ok (), .ok (), .ok ()] ∧
      store.log = [.user 3 "z" 0, .offer 5 3 .sell 1 1, .deal 2 3 3 1 1] ++ rows ∧
      ∃ second : Market MemoryStore, Market.start store true = .ok second ∧
        ∀ id ∈ second.issued [.register "c"] .user, 5 < id := by
  intro records events rows empty
  let seeded : Market MemoryStore :=
    { userIds := ⟨4⟩, offerIds := ⟨6⟩, dealIds := ⟨3⟩, store := .ofRecords records }
  obtain ⟨market, hstart, hmirror⟩ := mirror_restartable records
  obtain rfl : seeded = market := by
    have hseeded : Market.start (MemoryStore.ofRecords records) true = .ok seeded := by decide +kernel
    exact Except.ok.inj (hseeded.symm.trans hstart)
  obtain ⟨htold, hanswers, hlog, second, hsecond, hissued⟩ := hmirror events
  have hrows : Exchange.reports { market := seeded } events = rows := by decide +kernel
  have hdistinct : records.eraseDupsBy Record.sameKey =
      [.user 3 "z" 0, .offer 5 3 .sell 1 1, .deal 2 3 3 1 1] := by decide +kernel
  rw [hrows] at htold hanswers hlog
  rw [hdistinct] at hlog
  have hsame : empty.forget = Exchange.forget { market := seeded } := rfl
  have hempty : (empty.run events).2.market.store.log = rows := by
    rw [htold hsame]
    decide +kernel
  refine ⟨seeded, hstart, hempty, congrArg (·.1) hanswers, hlog, second, hsecond, fun id hid => ?_⟩
  exact hissued _ .user id hid (.user 5 "b" 2) (by rw [hlog]; decide +kernel) rfl

end Exchange

end Bourse
