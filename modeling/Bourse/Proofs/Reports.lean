import Bourse.Proofs.Chronicle
import Bourse.Proofs.Refusal
import Bourse.Proofs.Simulation

/-!
# `Bourse.Proofs.Reports` — what a store is told

Users are reported when their names are registered, an offer when it is posted, with its whole quantity, and
each of its deals after it. Nothing else is reported, and nothing of what is refused. So a run tells its
store a certain row of records, `Exchange.reports`, whatever the store makes of them
(`Exchange.store_run`), and within each table their ids ascend (`Exchange.numbered_reports`).
-/

namespace Bourse

/-! ## Rows with new ids -/

/-- The ids of the rows of each table ascend, from its first id on and below its last. -/
structure Record.Numbered (rows : List Record) (first last : Table → Nat) : Prop where
  le : ∀ table, first table ≤ last table
  between : ∀ row ∈ rows, first row.table ≤ row.id ∧ row.id < last row.table
  ascending : rows.Pairwise fun a b => a.table = b.table → a.id < b.id

namespace Record

theorem numbered_nil {first last : Table → Nat} (h : ∀ table, first table ≤ last table) :
    Numbered [] first last := ⟨h, nofun, .nil⟩

theorem Numbered.append {rows more : List Record} {first mid last : Table → Nat}
    (h : Numbered rows first mid) (hmore : Numbered more mid last) :
    Numbered (rows ++ more) first last where
  le table := (h.le table).trans (hmore.le table)
  between := by
    intro row hrow
    rcases List.mem_append.mp hrow with hrow | hrow
    · obtain ⟨hle, hlt⟩ := h.between row hrow
      exact ⟨hle, hlt.trans_le (hmore.le _)⟩
    · obtain ⟨hle, hlt⟩ := hmore.between row hrow
      exact ⟨(h.le _).trans hle, hlt⟩
  ascending := by
    refine List.pairwise_append.mpr ⟨h.ascending, hmore.ascending, ?_⟩
    intro a ha b hb htable
    have hlt := (h.between a ha).2
    rw [htable] at hlt
    exact hlt.trans_le (hmore.between b hb).1

end Record

namespace Market

variable {σ : Type} [RecordStore σ]

/-! ## Markets -/

/-- What an operation tells the store: an accepted posting, and nothing else. -/
def told (market : Market σ) (operation : Operation) : List Record :=
  match operation, (market.apply operation).1 with
  | .post user side price quantity, .posted (.ok posting) => posting.rows user side price quantity
  | _, _ => []

/-- What is told follows from the answer. -/
theorem told_congr {τ : Type} [RecordStore τ] {market : Market σ} {other : Market τ}
    {operation : Operation} (h : (market.apply operation).1 = (other.apply operation).1) :
    market.told operation = other.told operation := by
  unfold told
  rw [h]

/-- **An operation tells its store of what it reports, row by row.** -/
theorem Sound.store_apply {market : Market σ} (h : market.Sound) (operation : Operation) :
    (market.apply operation).2.store =
      (market.told operation).foldl RecordStore.notify market.store := by
  cases operation with
  | register username => rfl
  | deposit user currency amount =>
    show (market.deposit user currency amount).2.store = market.store
    unfold Market.deposit
    split <;> rfl
  | post user side price quantity =>
    unfold told Market.apply
    dsimp only
    rcases h.outcome_cases user side price quantity with ⟨cause, -, hp⟩ | ⟨-, after, hp, ho⟩
    · rw [hp]
      rfl
    · rw [hp]
      exact ho.store_eq
  | cancel user offer =>
    show (market.cancel user offer).2.store = market.store
    unfold Market.cancel
    split <;> rfl
  | quotes => rfl

/-- The rows of an accepted posting have the next ids. -/
theorem Outcome.numbered_rows {market after : Market σ} {user : UserId} {side : Side} {price : Price}
    {quantity : Quantity} (ho : market.Outcome user side price quantity after) :
    Record.Numbered ((market.duePosting user side price quantity).rows user side price quantity)
      (fun table => (market.numbering table).next) fun table => (after.numbering table).next := by
  have hdeals : (market.dueDeals user side price quantity).Pairwise (·.id < ·.id) := by
    refine List.pairwise_map.mp ?_
    rw [ho.ids_eq]
    exact List.pairwise_lt_range'
  constructor
  case le =>
    intro table
    cases table with
    | user => exact (congrArg (·.next) ho.userIds_eq).ge
    | offer => exact (Nat.le_succ _).trans (congrArg (·.next) ho.offerIds_eq).ge
    | deal => exact (Nat.le_add_right _ _).trans (congrArg (·.next) ho.dealIds_eq).ge
  case between =>
    intro row hrow
    rcases List.mem_cons.mp hrow with rfl | hrow
    · refine ⟨le_rfl, ?_⟩
      show market.offerIds.next < after.offerIds.next
      rw [ho.offerIds_eq]
      exact Nat.lt_succ_self _
    · obtain ⟨deal, hdeal, rfl⟩ := List.mem_map.mp hrow
      have hid : deal.id ∈ (market.dueDeals user side price quantity).map (·.id) :=
        List.mem_map_of_mem hdeal
      rw [ho.ids_eq, List.mem_range'_1] at hid
      show market.dealIds.next ≤ deal.id ∧ deal.id < after.dealIds.next
      rw [ho.dealIds_eq]
      exact hid
  case ascending =>
    refine List.pairwise_cons.mpr ⟨fun row hrow htable => ?_, List.pairwise_map.mpr ?_⟩
    · obtain ⟨deal, -, rfl⟩ := List.mem_map.mp hrow
      cases htable
    · refine List.Pairwise.imp ?_ hdeals
      intro a b hlt _
      exact hlt

/-- An operation takes no id back. -/
theorem Sound.next_le {market : Market σ} (h : market.Sound) (operation : Operation) (table : Table) :
    (market.numbering table).next ≤ ((market.apply operation).2.numbering table).next := by
  rw [(h.issuedBy_eq operation table).2]
  exact Nat.le_add_right _ _

theorem Sound.numbered_told {market : Market σ} (h : market.Sound) (operation : Operation) :
    Record.Numbered (market.told operation) (fun table => (market.numbering table).next)
      fun table => ((market.apply operation).2.numbering table).next := by
  cases operation with
  | post user side price quantity =>
    unfold told Market.apply
    dsimp only
    rcases h.outcome_cases user side price quantity with ⟨cause, -, hp⟩ | ⟨-, after, hp, ho⟩
    · rw [hp]
      exact Record.numbered_nil fun table => le_rfl
    · rw [hp]
      exact ho.numbered_rows
  | register username => exact Record.numbered_nil (h.next_le _)
  | deposit user currency amount => exact Record.numbered_nil (h.next_le _)
  | cancel user offer => exact Record.numbered_nil (h.next_le _)
  | quotes => exact Record.numbered_nil (h.next_le _)

end Market

/-! ## Exchanges -/

namespace Exchange

variable {σ : Type} [RecordStore σ]

/-- What a registration tells the store: the new user, unless the name is taken. -/
def registered (exchange : Exchange σ) (username : String) (passwordHash : Nat) : List Record :=
  (exchange.register username passwordHash).1.toList.map (.user · username passwordHash)

/-- What an event tells the store. -/
def told (exchange : Exchange σ) : Event → List Record
  | .request (.register username passwordHash) => exchange.registered username passwordHash
  | .request (.postOffer user side price amount) =>
    exchange.market.told (.post user side price amount)
  | .request _ => []
  | .register username passwordHash => exchange.registered username passwordHash
  | .market operation => exchange.market.told operation

/-- What a run tells the store. -/
def reports (exchange : Exchange σ) : List Event → List Record
  | [] => []
  | event :: rest => exchange.told event ++ (exchange.apply event).2.reports rest

/-! ### Steps -/

/-- What an event can do to an exchange, and what it tells the store. -/
inductive Step (exchange : Exchange σ) : List Record → Exchange σ → Prop
  | quiet : Step exchange [] exchange
  | market (operation : Operation) :
      Step exchange (exchange.market.told operation)
        { exchange with market := (exchange.market.apply operation).2 }
  /-- The user is reported by the exchange, and not by its market. -/
  | register (username : String) (passwordHash : Nat)
      (hfree : exchange.credentials.contains username = false) :
      Step exchange [.user exchange.market.userIds.next username passwordHash]
        { market := { (exchange.market.register username).2 with
            store := RecordStore.notify exchange.market.store
              (.user exchange.market.userIds.next username passwordHash) }
          credentials := exchange.credentials.insert username
            { user := exchange.market.userIds.next, passwordHash } }

theorem step_register (exchange : Exchange σ) (username : String) (passwordHash : Nat) :
    exchange.Step (exchange.registered username passwordHash)
      (exchange.register username passwordHash).2 := by
  unfold registered Exchange.register
  split
  · exact .quiet
  · next htaken => exact .register username passwordHash (Bool.eq_false_iff.mpr htaken)

theorem step_perform (exchange : Exchange σ) (request : Request) :
    exchange.Step (exchange.told (.request request)) (exchange.perform request).2 := by
  cases request with
  | register username passwordHash => exact exchange.step_register username passwordHash
  | login | balance | activeOffers | closedDeals => exact .quiet
  | postOffer user side price amount => exact .market (.post user side price amount)
  | quotes user =>
    unfold perform
    dsimp only
    cases exchange.market.account user with
    | error cause => exact .quiet
    | ok account => exact .market .quotes
  | cancel user offer => exact .market (.cancel user offer)
  | deposit user currency amount =>
    have hstep : exchange.Step _ _ := .market (.deposit user currency amount)
    unfold Market.apply at hstep
    unfold perform onMarket
    dsimp only at hstep ⊢
    cases (exchange.market.deposit user currency amount).1 with
    | error cause => exact hstep
    | ok done => exact hstep

/-- **Every event is a registration, an operation on the market, or nothing.** -/
theorem step_apply (exchange : Exchange σ) (event : Event) :
    exchange.Step (exchange.told event) (exchange.apply event).2 := by
  cases event with
  | request r =>
    show exchange.Step _ (exchange.handle r).2
    rw [handle_snd]
    exact exchange.step_perform r
  | register username passwordHash => exact exchange.step_register username passwordHash
  | market operation => exact .market operation

/-! ### The store -/

theorem Step.store_eq {exchange after : Exchange σ} {rows : List Record} (h : exchange.Step rows after)
    (hs : exchange.market.Sound) :
    after.market.store = rows.foldl RecordStore.notify exchange.market.store := by
  cases h with
  | quiet => rfl
  | market operation => exact hs.store_apply operation
  | register => rfl

/-- **A run tells its store of what it reports, row by row**, whatever the store makes of it. -/
theorem store_run {exchange : Exchange σ} (h : exchange.market.Sound) (events : List Event) :
    (exchange.run events).2.market.store =
      (exchange.reports events).foldl RecordStore.notify exchange.market.store := by
  induction events generalizing exchange with
  | nil => rfl
  | cons event rest ih =>
    rw [run_cons, ih (sound_apply h event), (exchange.step_apply event).store_eq h, reports,
      List.foldl_append]

/-! ### The rows -/

/-- Exchanges that move in step tell the same. -/
theorem Lifted.told_eq {τ : Type} [RecordStore τ] {R : Market σ → Market τ → Prop}
    {exchange : Exchange σ} {other : Exchange τ} (h : Lifted R exchange other)
    (hR : Market.Lockstep R) (event : Event) : exchange.told event = other.told event := by
  have hregistered : ∀ username passwordHash,
      exchange.registered username passwordHash = other.registered username passwordHash := by
    intro username passwordHash
    unfold registered
    rw [(h.register hR username passwordHash).1]
  have hmarket : ∀ operation, exchange.market.told operation = other.market.told operation :=
    fun operation => Market.told_congr (hR.answer_eq h.market operation)
  cases event with
  | request r =>
    cases r with
    | register username passwordHash => exact hregistered username passwordHash
    | postOffer user side price amount => exact hmarket _
    | login | balance | activeOffers | closedDeals | quotes | cancel | deposit => rfl
  | register username passwordHash => exact hregistered username passwordHash
  | market operation => exact hmarket operation

theorem Lifted.reports_eq {τ : Type} [RecordStore τ] {R : Market σ → Market τ → Prop}
    {exchange : Exchange σ} {other : Exchange τ} (h : Lifted R exchange other)
    (hR : Market.Lockstep R) (events : List Event) : exchange.reports events = other.reports events := by
  induction events generalizing exchange other with
  | nil => rfl
  | cons event rest ih =>
    rw [reports, reports, h.told_eq hR, ih (h.apply hR event).2]

/-! ### The ids -/

theorem Step.numbered {exchange after : Exchange σ} {rows : List Record} (h : exchange.Step rows after)
    (hs : exchange.market.Sound) :
    Record.Numbered rows (fun table => (exchange.market.numbering table).next)
      fun table => (after.market.numbering table).next := by
  cases h with
  | quiet => exact Record.numbered_nil fun table => le_rfl
  | market operation => exact hs.numbered_told operation
  | register username passwordHash hfree =>
    refine ⟨hs.next_le (.register username), fun row hrow => ?_, List.pairwise_singleton _ _⟩
    rw [List.mem_singleton.mp hrow]
    exact ⟨le_rfl, Nat.lt_succ_self _⟩

/-- **The rows of a run have new ids, in ascending order within each table.** -/
theorem numbered_reports {exchange : Exchange σ} (h : exchange.market.Sound) (events : List Event) :
    Record.Numbered (exchange.reports events) (fun table => (exchange.market.numbering table).next)
      fun table => ((exchange.run events).2.market.numbering table).next := by
  induction events generalizing exchange with
  | nil => exact Record.numbered_nil fun table => le_rfl
  | cons event rest ih => exact ((exchange.step_apply event).numbered h).append (ih (sound_apply h event))

end Exchange

end Bourse
