import Bourse.Proofs.Reports

/-!
# `Bourse.Proofs.Credentials` — who may log in

A name belongs to whoever registers it first, with the password hash given then. The exchange keeps the
names, and its market keeps an account for every user, those included who were opened without one. The two
are kept in step by registrations alone: after a run they know what the registrations have made of them, no
more and no less (`Exchange.Remembers`).
-/

namespace Bourse

/-! ## The names of accounts -/

namespace Ledger

/-- The name under which the account of a user was opened. -/
def usernameOf (ledger : Ledger) (user : UserId) : Option String :=
  (ledger.get? user).map (·.username)

/-- A change that leaves the name of an account alone leaves all names alone. -/
theorem usernameOf_modify (ledger : Ledger) (owner : UserId) (change : Account → Account)
    (hkeep : ∀ account, (change account).username = account.username) (user : UserId) :
    Ledger.usernameOf (ledger.modify owner change) user = ledger.usernameOf user :=
  ledger.map_get?_modify hkeep owner user

theorem usernameOf_settled (ledger : Ledger) (deal : Deal) (user : UserId) :
    (ledger.settled deal).usernameOf user = ledger.usernameOf user := by
  unfold usernameOf
  rw [get?_settled, Option.map_map]
  exact congrArg (Option.map · (ledger.get? user)) (funext fun account =>
    account.username_settled user deal)

theorem usernameOf_dealt (side : Side) (ledger : Ledger) (deal : Deal) (user : UserId) :
    (ledger.dealt side deal).usernameOf user = ledger.usernameOf user := by
  unfold dealt
  rw [usernameOf_settled]
  split
  · rfl
  · exact ledger.usernameOf_modify _ _ (fun account => account.username_returned _ _) user

theorem usernameOf_foldl_dealt (side : Side) (ledger : Ledger) (deals : List Deal) (user : UserId) :
    Ledger.usernameOf (deals.foldl (Ledger.dealt side) ledger) user = ledger.usernameOf user := by
  induction deals generalizing ledger with
  | nil => rfl
  | cons deal rest ih => exact (ih (ledger.dealt side deal)).trans (ledger.usernameOf_dealt side deal user)

theorem usernameOf_posted (ledger : Ledger) (offer : Offer) (deals : List Deal) (user : UserId) :
    (ledger.posted offer deals).usernameOf user = ledger.usernameOf user := by
  have hdealt := ledger.usernameOf_foldl_dealt offer.side deals user
  unfold posted
  dsimp only
  split
  · exact hdealt
  · exact (usernameOf_modify _ _ (·.addOffer _) (fun _ => rfl) user).trans hdealt

theorem usernameOf_insert_of_ne (ledger : Ledger) {owner user : UserId} (account : Account)
    (h : user ≠ owner) : Ledger.usernameOf (ledger.insert owner account) user = ledger.usernameOf user := by
  unfold usernameOf
  rw [SortedMap.get?_insert, if_neg h]

end Ledger

namespace Market

variable {σ : Type}

/-- A user with a name is not the next one to be registered. -/
theorem Sound.ne_next_user {market : Market σ} (h : market.Sound) {user : UserId} {username : String}
    (hname : market.accounts.usernameOf user = some username) : user ≠ market.userIds.next := by
  rintro rfl
  unfold Ledger.usernameOf at hname
  rw [h.next_user_new] at hname
  cases hname

/-- **Whoever has a name keeps it**, whatever is done to the market. -/
theorem Sound.usernameOf_apply [RecordStore σ] {market : Market σ} (h : market.Sound) {user : UserId}
    {username : String} (hname : market.accounts.usernameOf user = some username)
    (operation : Operation) :
    (market.apply operation).2.accounts.usernameOf user = some username := by
  rw [← hname]
  cases operation with
  | register name => exact market.accounts.usernameOf_insert_of_ne _ (h.ne_next_user hname)
  | deposit depositor currency amount =>
    show (market.deposit depositor currency amount).2.accounts.usernameOf user = _
    rcases market.deposit_cases depositor currency amount with ⟨cause, hd⟩ | ⟨account, -, -, hd⟩
    · rw [hd]
    · rw [hd]
      exact market.accounts.usernameOf_modify depositor (fun account =>
        { account with balance := account.balance.plus currency amount }) (fun _ => rfl) user
  | post poster side price quantity =>
    show (market.post poster side price quantity).2.accounts.usernameOf user = _
    rcases h.outcome_cases poster side price quantity with ⟨cause, -, hp⟩ | ⟨-, after, hp, ho⟩
    · rw [hp]
    · rw [hp]
      dsimp only
      rw [ho.accounts_eq]
      exact market.accounts.usernameOf_posted _ _ user
  | cancel canceler offer =>
    show (market.cancel canceler offer).2.accounts.usernameOf user = _
    unfold Market.cancel
    split
    · rfl
    · exact market.accounts.usernameOf_modify canceler (·.removeOffer offer) (fun _ => rfl) user
  | quotes => rfl

end Market

/-! ## Registrations -/

/-- A registration that succeeded: the name and the password hash, and the user that they were given. -/
structure Registration where
  username : String
  passwordHash : Nat
  user : UserId
deriving DecidableEq, Repr

namespace Exchange

/-- The name and the password hash that an event asks to register. -/
def Event.newName? : Event → Option (String × Nat)
  | .request (.register username passwordHash) => some (username, passwordHash)
  | .register username passwordHash => some (username, passwordHash)
  | _ => none

/-- The user that an event has given a name. -/
def EventAnswer.newUser? : EventAnswer → Option UserId
  | .response (.registration true user) => user
  | .registered user => user
  | _ => none

/-- The registration that an event made, if it was one and succeeded. -/
def Event.registration? (event : Event) (answer : EventAnswer) : Option Registration :=
  event.newName?.bind fun (username, passwordHash) =>
    answer.newUser?.map fun user => { username, passwordHash, user }

end Exchange

/-- The registrations of a run that succeeded. -/
def Registration.accepted (events : List Exchange.Event) (answers : List Exchange.EventAnswer) :
    List Registration :=
  (events.zip answers).filterMap fun x => x.1.registration? x.2

theorem Registration.accepted_cons (event : Exchange.Event) (events : List Exchange.Event)
    (answer : Exchange.EventAnswer) (answers : List Exchange.EventAnswer) :
    accepted (event :: events) (answer :: answers) =
      (event.registration? answer).toList ++ accepted events answers := by
  unfold accepted
  rw [List.zip_cons_cons, List.filterMap_cons]
  dsimp only
  cases event.registration? answer <;> rfl

namespace Exchange

variable {σ : Type} [RecordStore σ]

/-- A taken name is refused without a trace. -/
theorem register_taken {exchange : Exchange σ} {username : String}
    (htaken : exchange.credentials.contains username = true) (passwordHash : Nat) :
    exchange.register username passwordHash = (none, exchange) := if_pos htaken

/-- A free one is given to the next user. -/
theorem register_free {exchange : Exchange σ} {username : String}
    (hfree : exchange.credentials.contains username = false) (passwordHash : Nat) :
    (exchange.register username passwordHash).1 = some exchange.market.userIds.next := by
  unfold register
  rw [hfree]
  rfl

theorem handle_register (exchange : Exchange σ) (username : String) (passwordHash : Nat) :
    exchange.handle (.register username passwordHash) =
      (.registration (exchange.register username passwordHash).1.isSome
        (exchange.register username passwordHash).1,
        (exchange.register username passwordHash).2) := rfl

theorem handle_login (exchange : Exchange σ) (username : String) (passwordHash : Nat) :
    exchange.handle (.login username passwordHash) =
      (.login (exchange.login username passwordHash).isSome (exchange.login username passwordHash),
        exchange) := rfl

/-- An event that asks for a registration makes it. -/
theorem apply_of_newName? {event : Event} {username : String} {passwordHash : Nat}
    (h : event.newName? = some (username, passwordHash)) (exchange : Exchange σ) :
    (exchange.apply event).1.newUser? = (exchange.register username passwordHash).1 ∧
      (exchange.apply event).2 = (exchange.register username passwordHash).2 := by
  cases event with
  | request r =>
    cases r with
    | register name hash =>
      cases h
      refine ⟨?_, rfl⟩
      show EventAnswer.newUser? (.response (exchange.handle (.register username passwordHash)).1) = _
      rw [handle_register]
      cases (exchange.register username passwordHash).1 <;> rfl
    | login | balance | activeOffers | closedDeals | postOffer | quotes | cancel | deposit => cases h
  | register name hash =>
    cases h
    exact ⟨rfl, rfl⟩
  | market operation => cases h

/-- Any other leaves the names alone. -/
theorem credentials_apply {event : Event} (h : event.newName? = none) (exchange : Exchange σ) :
    (exchange.apply event).2.credentials = exchange.credentials := by
  cases event with
  | request r =>
    show (exchange.handle r).2.credentials = _
    rw [handle_snd]
    cases r with
    | register => cases h
    | login | balance | activeOffers | closedDeals | postOffer | cancel => rfl
    | quotes user =>
      unfold perform
      dsimp only
      cases exchange.market.account user <;> rfl
    | deposit user currency amount =>
      unfold perform onMarket
      dsimp only
      cases (exchange.market.deposit user currency amount).1 <;> rfl
  | register => cases h
  | market operation => rfl

/-- Whoever has a name keeps it, whatever happens to the exchange. -/
theorem Step.usernameOf_eq {exchange after : Exchange σ} {rows : List Record}
    (h : exchange.Step rows after) (hs : exchange.market.Sound) {user : UserId} {username : String}
    (hname : exchange.market.accounts.usernameOf user = some username) :
    after.market.accounts.usernameOf user = some username := by
  cases h with
  | quiet => exact hname
  | market operation => exact hs.usernameOf_apply hname operation
  | register name passwordHash => exact hs.usernameOf_apply hname (.register name)

/-! ## What is remembered -/

/-- The users with these registrations are known by their names, and nobody else is. -/
structure Remembers (exchange : Exchange σ) (made : List Registration) : Prop where
  credentials : ∀ username credential, exchange.credentials.get? username = some credential ↔
    ⟨username, credential.passwordHash, credential.user⟩ ∈ made
  /-- The account of each was opened under the name. -/
  accounts : ∀ r ∈ made, exchange.market.accounts.usernameOf r.user = some r.username
  users : (made.map (·.user)).Nodup

namespace Remembers

variable {exchange : Exchange σ} {made : List Registration}

omit [RecordStore σ] in
theorem contains_iff (h : exchange.Remembers made) (username : String) :
    exchange.credentials.contains username = true ↔ ∃ r ∈ made, r.username = username := by
  unfold SortedMap.contains
  rw [Option.isSome_iff_exists]
  constructor
  · rintro ⟨credential, hget⟩
    exact ⟨_, (h.credentials username credential).mp hget, rfl⟩
  · rintro ⟨r, hr, rfl⟩
    exact ⟨⟨r.user, r.passwordHash⟩, (h.credentials _ _).mpr hr⟩

/-- **A registration of a free name is remembered.** -/
theorem register (h : exchange.Remembers made) (hs : exchange.market.Sound) {username : String}
    (hfree : exchange.credentials.contains username = false) (passwordHash : Nat) :
    (exchange.register username passwordHash).2.Remembers
      (made ++ [⟨username, passwordHash, exchange.market.userIds.next⟩]) := by
  have hstep := exchange.step_register username passwordHash
  have hcredentials : (exchange.register username passwordHash).2.credentials =
      exchange.credentials.insert username ⟨exchange.market.userIds.next, passwordHash⟩ := by
    unfold Exchange.register
    rw [hfree]
    rfl
  have hopened : (exchange.register username passwordHash).2.market.accounts.usernameOf
      exchange.market.userIds.next = some username := by
    unfold Exchange.register Ledger.usernameOf
    rw [hfree]
    show ((SortedMap.insert _ _ _).get? _).map _ = _
    rw [SortedMap.get?_insert, if_pos rfl]
    rfl
  constructor
  case credentials =>
    intro name credential
    rw [hcredentials, SortedMap.get?_insert, List.mem_append, List.mem_singleton]
    by_cases hname : name = username
    · have hnone : ⟨name, credential.passwordHash, credential.user⟩ ∉ made := fun hmem =>
        Bool.eq_false_iff.mp hfree ((h.contains_iff username).mpr ⟨_, hmem, hname⟩)
      rw [if_pos hname, Option.some.injEq, or_iff_right hnone]
      constructor
      · rintro rfl
        rw [hname]
      · intro heq
        cases credential
        cases heq
        rfl
    · rw [if_neg hname, h.credentials]
      exact (or_iff_left fun heq => hname (congrArg (·.username) heq)).symm
  case accounts =>
    intro r hr
    rcases List.mem_append.mp hr with hold | hnew
    · exact hstep.usernameOf_eq hs (h.accounts r hold)
    · rw [List.mem_singleton.mp hnew]
      exact hopened
  case users =>
    rw [List.map_append]
    refine h.users.append (List.nodup_singleton _) fun user hold hnew => ?_
    obtain ⟨r, hr, rfl⟩ := List.mem_map.mp hold
    exact hs.ne_next_user (h.accounts r hr) (List.mem_singleton.mp hnew)

/-- **Every event is remembered** for the registration that it made, if it made one. -/
theorem apply (h : exchange.Remembers made) (hs : exchange.market.Sound) (event : Event) :
    (exchange.apply event).2.Remembers
      (made ++ (event.registration? (exchange.apply event).1).toList) := by
  have hkept : ∀ r ∈ made,
      (exchange.apply event).2.market.accounts.usernameOf r.user = some r.username := fun r hr =>
    (exchange.step_apply event).usernameOf_eq hs (h.accounts r hr)
  unfold Event.registration?
  cases hname : event.newName? with
  | none =>
    rw [Option.bind_none, Option.toList_none, List.append_nil]
    refine ⟨fun username credential => ?_, hkept, h.users⟩
    rw [credentials_apply hname]
    exact h.credentials username credential
  | some name =>
    obtain ⟨username, passwordHash⟩ := name
    obtain ⟨hanswer, hafter⟩ := apply_of_newName? hname exchange
    rw [Option.bind_some, hanswer, hafter]
    dsimp only
    cases hcontains : exchange.credentials.contains username with
    | true =>
      rw [register_taken hcontains, Option.map_none, Option.toList_none, List.append_nil]
      exact h
    | false =>
      rw [register_free hcontains]
      exact h.register hs hcontains passwordHash

/-- **A run is remembered** for the registrations that succeeded in it. -/
theorem run (h : exchange.Remembers made) (hs : exchange.market.Sound) (events : List Event) :
    (exchange.run events).2.Remembers (made ++ Registration.accepted events (exchange.run events).1) := by
  induction events generalizing exchange made with
  | nil =>
    show exchange.Remembers (made ++ [])
    rw [List.append_nil]
    exact h
  | cons event rest ih =>
    rw [run_cons, Registration.accepted_cons, ← List.append_assoc]
    exact ih (h.apply hs event) (sound_apply hs event)

omit [RecordStore σ] in
/-- Only who registered the name with this password hash logs in. -/
theorem login_iff (h : exchange.Remembers made) (username : String) (passwordHash : Nat)
    (user : UserId) :
    exchange.login username passwordHash = some user ↔ ⟨username, passwordHash, user⟩ ∈ made := by
  have hcredential := h.credentials username ⟨user, passwordHash⟩
  rw [← hcredential]
  unfold login
  cases hget : exchange.credentials.get? username with
  | none => exact iff_of_false nofun nofun
  | some credential =>
    obtain ⟨known, hash⟩ := credential
    dsimp only
    rw [Option.some.injEq, Credential.mk.injEq]
    by_cases hhash : hash = passwordHash
    · rw [if_pos hhash, Option.some.injEq]
      exact (and_iff_left hhash).symm
    · rw [if_neg hhash]
      exact iff_of_false nofun fun heq => hhash heq.2

end Remembers

/-- **Names are given first come, first served, and for good.** After any run, a name and a password hash log
    in the user whose registration with them succeeded in the run, and nobody else. A name that was not
    registered yet is given to a user; one that was is refused, with any password hash, without a trace. All
    users with names are different, and the account of each was opened under the name. -/
theorem credentials_permanent {market : Market σ} (h : market.Reachable) (events : List Event) :
    let exchange := (run { market } events).2
    let made := Registration.accepted events (run { market } events).1
    (∀ username passwordHash user,
      (exchange.login username passwordHash = some user ↔ ⟨username, passwordHash, user⟩ ∈ made) ∧
      (exchange.handle (.login username passwordHash) = (.login true (some user), exchange) ↔
        ⟨username, passwordHash, user⟩ ∈ made)) ∧
    (∀ username passwordHash, (∀ r ∈ made, r.username ≠ username) →
      ∃ user, (exchange.register username passwordHash).1 = some user ∧
        (exchange.handle (.register username passwordHash)).1 = .registration true (some user)) ∧
    (∀ username passwordHash, (∃ r ∈ made, r.username = username) →
      exchange.register username passwordHash = (none, exchange) ∧
        exchange.handle (.register username passwordHash) = (.registration false none, exchange)) ∧
    (made.map (·.user)).Nodup ∧
    ∀ r ∈ made, ∃ account, exchange.market.accounts.get? r.user = some account ∧
      account.username = r.username := by
  intro exchange made
  have hempty : Remembers { market } [] := ⟨fun _ _ => ⟨nofun, nofun⟩, nofun, .nil⟩
  have hremembers : exchange.Remembers made := hempty.run h.sound events
  refine ⟨fun username passwordHash user => ⟨hremembers.login_iff _ _ _, ?_⟩,
    fun username passwordHash hfree => ?_, fun username passwordHash htaken => ?_,
    hremembers.users, fun r hr => Option.map_eq_some_iff.mp (hremembers.accounts r hr)⟩
  · rw [handle_login, ← hremembers.login_iff, Prod.mk.injEq, Response.login.injEq]
    exact ⟨fun heq => heq.1.2, fun hlogin => ⟨⟨by rw [hlogin]; rfl, hlogin⟩, rfl⟩⟩
  · have hcontains : exchange.credentials.contains username = false :=
      Bool.eq_false_iff.mpr fun htaken =>
        let ⟨r, hr, hname⟩ := (hremembers.contains_iff username).mp htaken
        hfree r hr hname
    have hgiven := register_free hcontains passwordHash
    refine ⟨_, hgiven, ?_⟩
    rw [handle_register, hgiven]
    rfl
  · have hrefused := register_taken ((hremembers.contains_iff username).mpr htaken) passwordHash
    refine ⟨hrefused, ?_⟩
    rw [handle_register, hrefused]
    rfl

/-- One name is opened behind the back of the exchange and can still be registered, and another is asked for
    twice. -/
theorem credentials_permanent_of_taken_name :
    let market : Market MemoryStore := { store := {} }
    let events : List Event := [.market (.register "a"), .request (.register "a" 7), .register "b" 7,
      .request (.register "b" 8), .request (.login "b" 8)]
    let exchange := (run { market } events).2
    market.Reachable ∧
      Registration.accepted events (run { market } events).1 = [⟨"a", 7, 1⟩, ⟨"b", 7, 2⟩] ∧
      exchange.login "a" 7 = some 1 ∧
      exchange.login "b" 8 ≠ some 2 ∧
      exchange.handle (.register "b" 9) = (.registration false none, exchange) ∧
      ∃ user, (exchange.register "c" 7).1 = some user := by
  intro market events exchange
  have hreachable : market.Reachable := .start (rfl : Market.start _ false = _)
  have hmade : Registration.accepted events (run { market } events).1 =
      [⟨"a", 7, 1⟩, ⟨"b", 7, 2⟩] := by decide +kernel
  obtain ⟨hlogin, hfree, htaken, -, -⟩ := credentials_permanent hreachable events
  rw [hmade] at hlogin hfree htaken
  refine ⟨hreachable, hmade, (hlogin "a" 7 1).1.mpr (by decide), ?_, (htaken "b" 9 (by decide)).2, ?_⟩
  · exact fun hknown => absurd ((hlogin "b" 8 2).1.mp hknown) (by decide)
  · obtain ⟨user, huser, -⟩ := hfree "c" 7 (by decide)
    exact ⟨user, huser⟩

end Exchange

end Bourse
