import Bourse.Proofs.Allotment
import Bourse.Proofs.Reconciliation

/-!
# `Bourse.Proofs.Cutting` — deals made in two halves

An offer that is posted in two parts meets the makers that it meets when it is posted whole, except that the
maker at whom the first part ends is met by both. The deals are then those of the whole with one of them made
in two halves. `Deal.Cut` relates a row of deals to one in which any of them are made so.

* The two rows leave the same balances (`Cut.balancesAfterAll_eq`), and one keeps them in range exactly if
  the other does (`Cut.firstOutOfRange?_eq_none_iff`): what the first half leaves of a balance lies between
  what there was and what both leave.
* They trade the same with each maker (`Cut.filter`, `Cut.traded_eq`) and end at the same price.
* `Offer.afterAllot` is the queue that a quantity leaves when it has been dealt out, and `Offer.cut_dealsOf`
  says that dealing out the rest to it gives such a row.
-/

namespace Bourse

/-! ## Balances by currency -/

namespace Balance

/-- Balances are the same if they are in each currency. -/
theorem ext_get {b c : Balance} (h : ∀ currency, b.get currency = c.get currency) : b = c := by
  cases b
  cases c
  exact congrArg₂ mk (h .usd) (h .rub)

theorem inRange_iff {b : Balance} : b.InRange ↔ ∀ currency, Amount.InRange (b.get currency) :=
  ⟨fun h currency => match currency with
    | .usd => h.1
    | .rub => h.2, fun h => ⟨h .usd, h .rub⟩⟩

end Balance

namespace Deal

/-! ## Deals on the same terms -/

/-- The deals differ in nothing but their numbers, the incoming offers and the quantities. -/
structure SameTerms (a b : Deal) : Prop where
  seller_eq : a.seller = b.seller
  buyer_eq : a.buyer = b.buyer
  maker_eq : a.maker = b.maker
  price_eq : a.price = b.price

section SameTerms

variable {deal first second : Deal}

theorem SameTerms.isSelfTrade_eq (h : deal.SameTerms first) :
    first.isSelfTrade = deal.isSelfTrade := by
  unfold isSelfTrade
  rw [h.buyer_eq, h.seller_eq]

/-- What a deal brings a user follows from its terms and its quantity. -/
theorem SameTerms.flow_eq (h : deal.SameTerms first) (hquantity : deal.quantity = first.quantity)
    (currency : Currency) (user : UserId) : deal.flow currency user = first.flow currency user := by
  have hgain : deal.gain currency = first.gain currency := by
    cases currency <;> simp [gain, hquantity, h.price_eq]
  unfold flow
  rw [h.isSelfTrade_eq, h.buyer_eq, h.seller_eq, hgain]

/-- A deal brings what its two halves bring together. -/
theorem flow_halves (hfirst : deal.SameTerms first) (hsecond : deal.SameTerms second)
    (hquantity : deal.quantity = first.quantity + second.quantity) (currency : Currency)
    (user : UserId) :
    deal.flow currency user = first.flow currency user + second.flow currency user := by
  have hgain : deal.gain currency = first.gain currency + second.gain currency := by
    cases currency with
    | usd =>
      unfold gain
      rw [hquantity, Int.natCast_add]
    | rub =>
      unfold gain
      dsimp only
      rw [← hfirst.price_eq, ← hsecond.price_eq, hquantity, Int.natCast_add, Int.mul_add, Int.neg_add]
  unfold flow
  rw [hfirst.isSelfTrade_eq, hsecond.isSelfTrade_eq, ← hfirst.buyer_eq, ← hsecond.buyer_eq,
    ← hfirst.seller_eq, ← hsecond.seller_eq, hgain]
  split
  · rfl
  · split
    · rfl
    · split
      · exact Int.neg_add
      · rfl

/-- The first half brings something between nothing and what the deal brings. -/
theorem flow_between (hfirst : deal.SameTerms first) (hle : first.quantity ≤ deal.quantity)
    (currency : Currency) (user : UserId) :
    0 ≤ first.flow currency user ∧ first.flow currency user ≤ deal.flow currency user ∨
      deal.flow currency user ≤ first.flow currency user ∧ first.flow currency user ≤ 0 := by
  have hgain : 0 ≤ first.gain currency ∧ first.gain currency ≤ deal.gain currency ∨
      deal.gain currency ≤ first.gain currency ∧ first.gain currency ≤ 0 := by
    cases currency with
    | usd => exact .inl ⟨Int.natCast_nonneg _, Int.ofNat_le.mpr hle⟩
    | rub =>
      have hcost := Amount.cost_between deal.price hle
      unfold gain
      dsimp only
      rw [← hfirst.price_eq]
      omega
  unfold flow
  rw [hfirst.isSelfTrade_eq, ← hfirst.buyer_eq, ← hfirst.seller_eq]
  split
  · exact .inl ⟨Int.le_refl 0, Int.le_refl 0⟩
  · split
    · exact hgain
    · split
      · omega
      · exact .inl ⟨Int.le_refl 0, Int.le_refl 0⟩

/-- Two deals over one quantity on the same terms do the same. -/
theorem SameTerms.balancesAfter_eq (h : deal.SameTerms first)
    (hquantity : deal.quantity = first.quantity) (balances : UserId → Balance) :
    first.balancesAfter balances = deal.balancesAfter balances := by
  funext user
  refine Balance.ext_get fun currency => ?_
  rw [get_balancesAfter, get_balancesAfter, h.flow_eq hquantity]

/-- **The halves of a deal do together what the deal does.** -/
theorem balancesAfter_halves (hfirst : deal.SameTerms first) (hsecond : deal.SameTerms second)
    (hquantity : deal.quantity = first.quantity + second.quantity) (balances : UserId → Balance) :
    second.balancesAfter (first.balancesAfter balances) = deal.balancesAfter balances := by
  funext user
  refine Balance.ext_get fun currency => ?_
  rw [get_balancesAfter, get_balancesAfter, get_balancesAfter, flow_halves hfirst hsecond hquantity,
    Int.add_assoc]

/-- **What the first half of a deal leaves of a balance is in range**, if what there was is and what the
    deal leaves. -/
theorem inRange_half (hfirst : deal.SameTerms first) (hle : first.quantity ≤ deal.quantity)
    {balances : UserId → Balance} {user : UserId} (hbefore : (balances user).InRange)
    (hafter : (deal.balancesAfter balances user).InRange) :
    (first.balancesAfter balances user).InRange := by
  rw [Balance.inRange_iff] at hbefore hafter ⊢
  intro currency
  have hbetween := hafter currency
  rw [get_balancesAfter] at hbetween ⊢
  exact (hbefore currency).between hbetween (flow_between hfirst hle currency user)

end SameTerms

/-! ## Rows of deals -/

/-- The balances after all deals of a row. -/
def balancesAfterAll (balances : UserId → Balance) (deals : List Deal) : UserId → Balance :=
  deals.foldl (fun balances deal => deal.balancesAfter balances) balances

theorem balancesAfterAll_append (balances : UserId → Balance) (first second : List Deal) :
    balancesAfterAll balances (first ++ second) =
      balancesAfterAll (balancesAfterAll balances first) second :=
  List.foldl_append

/-- A row in two parts keeps balances in range if the first part does, and the second after it. -/
theorem firstOutOfRange?_append_eq_none_iff {balances : UserId → Balance} {first second : List Deal} :
    firstOutOfRange? balances (first ++ second) = none ↔
      firstOutOfRange? balances first = none ∧
        firstOutOfRange? (balancesAfterAll balances first) second = none := by
  induction first generalizing balances with
  | nil => exact ⟨fun h => ⟨rfl, h⟩, fun h => h.2⟩
  | cons deal rest ih =>
    rw [List.cons_append, firstOutOfRange?_cons_eq_none_iff, firstOutOfRange?_cons_eq_none_iff, ih,
      and_assoc, and_assoc]
    rfl

/-- The second row is the first with some of its deals made in two halves. -/
inductive Cut : List Deal → List Deal → Prop
  | nil : Cut [] []
  | whole {deal same : Deal} {rest parts : List Deal} (hterms : deal.SameTerms same)
      (hquantity : deal.quantity = same.quantity) (hrest : Cut rest parts) :
      Cut (deal :: rest) (same :: parts)
  | halves {deal first second : Deal} {rest parts : List Deal} (hfirst : deal.SameTerms first)
      (hsecond : deal.SameTerms second) (hquantity : deal.quantity = first.quantity + second.quantity)
      (hrest : Cut rest parts) : Cut (deal :: rest) (first :: second :: parts)

namespace Cut

variable {deals parts : List Deal}

/-- **Deals leave the same balances, cut or whole.** -/
theorem balancesAfterAll_eq (h : Cut deals parts) (balances : UserId → Balance) :
    balancesAfterAll balances parts = balancesAfterAll balances deals := by
  induction h generalizing balances with
  | nil => rfl
  | @whole deal same rest parts hterms hquantity _ ih =>
    show balancesAfterAll (same.balancesAfter balances) parts =
      balancesAfterAll (deal.balancesAfter balances) rest
    rw [hterms.balancesAfter_eq hquantity, ih]
  | @halves deal first second rest parts hfirst hsecond hquantity _ ih =>
    show balancesAfterAll (second.balancesAfter (first.balancesAfter balances)) parts =
      balancesAfterAll (deal.balancesAfter balances) rest
    rw [balancesAfter_halves hfirst hsecond hquantity, ih]

/-- **Deals keep every balance in range, cut or whole.** -/
theorem firstOutOfRange?_eq_none_iff (h : Cut deals parts) {balances : UserId → Balance}
    (hrange : ∀ user, (balances user).InRange) :
    firstOutOfRange? balances parts = none ↔ firstOutOfRange? balances deals = none := by
  induction h generalizing balances with
  | nil => exact Iff.rfl
  | @whole deal same rest parts hterms hquantity _ ih =>
    rw [firstOutOfRange?_cons_eq_none_iff, firstOutOfRange?_cons_eq_none_iff,
      hterms.balancesAfter_eq hquantity, ← hterms.buyer_eq, ← hterms.seller_eq]
    exact and_congr_right fun hbuyer => and_congr_right fun hseller =>
      ih (inRange_balancesAfter hrange hbuyer hseller)
  | @halves deal first second rest parts hfirst hsecond hquantity _ ih =>
    have hle : first.quantity ≤ deal.quantity := hquantity ▸ Nat.le_add_right _ _
    rw [firstOutOfRange?_cons_eq_none_iff, firstOutOfRange?_cons_eq_none_iff,
      firstOutOfRange?_cons_eq_none_iff, balancesAfter_halves hfirst hsecond hquantity,
      ← hfirst.buyer_eq, ← hfirst.seller_eq, ← hsecond.buyer_eq, ← hsecond.seller_eq]
    constructor
    · rintro ⟨-, -, hbuyer, hseller, hrest⟩
      exact ⟨hbuyer, hseller, (ih (inRange_balancesAfter hrange hbuyer hseller)).mp hrest⟩
    · rintro ⟨hbuyer, hseller, hrest⟩
      exact ⟨inRange_half hfirst hle (hrange _) hbuyer, inRange_half hfirst hle (hrange _) hseller,
        hbuyer, hseller, (ih (inRange_balancesAfter hrange hbuyer hseller)).mpr hrest⟩

theorem traded_eq (h : Cut deals parts) : traded parts = traded deals := by
  induction h with
  | nil => rfl
  | whole _ hquantity _ ih => rw [traded_cons, traded_cons, hquantity, ih]
  | halves _ _ hquantity _ ih => rw [traded_cons, traded_cons, traded_cons, hquantity, ih, Nat.add_assoc]

/-- What is selected by the terms of a deal is cut as the whole row is. -/
theorem filter (h : Cut deals parts) {p : Deal → Bool} (hp : ∀ {a b : Deal}, a.SameTerms b → p b = p a) :
    Cut (deals.filter p) (parts.filter p) := by
  induction h with
  | nil => exact .nil
  | @whole deal same rest parts hterms hquantity _ ih =>
    rw [List.filter_cons, List.filter_cons, hp hterms]
    split
    · exact .whole hterms hquantity ih
    · exact ih
  | @halves deal first second rest parts hfirst hsecond hquantity _ ih =>
    rw [List.filter_cons, List.filter_cons, List.filter_cons, hp hfirst, hp hsecond]
    split
    · exact .halves hfirst hsecond hquantity ih
    · exact ih

/-- The last deal has the same price. -/
theorem price_getLast?_eq (h : Cut deals parts) :
    parts.getLast?.map (·.price) = deals.getLast?.map (·.price) := by
  have hcons : ∀ (deal : Deal) (rest : List Deal), (deal :: rest).getLast?.map (·.price) =
      (rest.getLast?.map (·.price)).or (some deal.price) := by
    intro deal rest
    rw [List.getLast?_cons]
    cases rest.getLast? <;> rfl
  induction h with
  | nil => rfl
  | whole hterms _ _ ih => rw [hcons, hcons, ih, hterms.price_eq]
  | @halves deal first second rest parts hfirst hsecond _ _ ih =>
    rw [hcons, hcons, hcons, ih, ← hfirst.price_eq, ← hsecond.price_eq]
    cases rest.getLast? <;> rfl

end Cut

end Deal

/-! ## A quantity dealt out in two parts -/

namespace Offer

/-- What a queue is left with when a quantity has been dealt out to it. -/
def afterAllot : Quantity → List Offer → List Offer
  | _, [] => []
  | wanted, maker :: rest =>
    if maker.remaining ≤ wanted then afterAllot (wanted - maker.remaining) rest
    else { maker with remaining := maker.remaining - wanted } :: rest

/-- A queue to which nothing is dealt out stays as it is. -/
theorem afterAllot_zero {queue : List Offer} (hpos : ∀ maker ∈ queue, 0 < maker.remaining) :
    afterAllot 0 queue = queue := by
  cases queue with
  | nil => rfl
  | cons maker rest =>
    rw [afterAllot, if_neg (Nat.not_le.mpr (hpos maker List.mem_cons_self))]
    rfl

/-- Offers of one owner and one side deal on the same terms. -/
theorem sameTerms_dealWith {a b : Offer} (howner : a.owner = b.owner) (hside : a.side = b.side)
    (maker : Offer) (i j : DealId) (q r : Quantity) :
    (a.dealWith maker i q).SameTerms (b.dealWith maker j r) := by
  unfold dealWith
  rw [howner, hside]
  exact ⟨rfl, rfl, rfl, rfl⟩

variable {whole first second : Offer}

theorem cut_dealsOf_same (howner : whole.owner = second.owner) (hside : whole.side = second.side)
    (i k : DealId) (shares : List (Offer × Quantity)) :
    Deal.Cut (whole.dealsOf i shares) (second.dealsOf k shares) := by
  induction shares generalizing i k with
  | nil => exact .nil
  | cons share rest ih =>
    rw [dealsOf_cons, dealsOf_cons]
    exact .whole (sameTerms_dealWith howner hside _ _ _ _ _) rfl (ih _ _)

/-- **A quantity that is dealt out in two parts makes the deals of the whole**, the one at which the first
    part ends in two halves. -/
theorem cut_dealsOf (howner : whole.owner = first.owner) (hside : whole.side = first.side)
    (howner' : whole.owner = second.owner) (hside' : whole.side = second.side) {queue : List Offer}
    (hpos : ∀ maker ∈ queue, 0 < maker.remaining) {a b : Nat} (hb : b ≠ 0) (i j k : DealId) :
    Deal.Cut (whole.dealsOf i (allot (a + b) queue))
      (first.dealsOf j (allot a queue) ++ second.dealsOf k (allot b (afterAllot a queue))) := by
  induction queue generalizing a i j with
  | nil => exact .nil
  | cons maker rest ih =>
    have hmaker := hpos maker List.mem_cons_self
    by_cases ha : a = 0
    · -- the first part ends between two makers
      rw [ha, Nat.zero_add, allot_zero, afterAllot_zero hpos]
      exact cut_dealsOf_same howner' hside' i k _
    have hab : a + b ≠ 0 := fun h => ha (Nat.add_eq_zero_iff.mp h).1
    rw [allot_cons hab, allot_cons ha, dealsOf_cons, dealsOf_cons, List.cons_append, afterAllot]
    by_cases hle : maker.remaining ≤ a
    · -- the maker is fulfilled by the first part
      have hshare : min (a + b) maker.remaining = maker.remaining :=
        Nat.min_eq_right (Nat.le_add_right_of_le hle)
      have hrest : a + b - maker.remaining = a - maker.remaining + b := Nat.sub_add_comm hle
      rw [hshare, Nat.min_eq_right hle, if_pos hle, hrest]
      exact .whole (sameTerms_dealWith howner hside _ _ _ _ _) rfl
        (ih (fun m hm => hpos m (List.mem_cons_of_mem _ hm)) _ _)
    · -- the first part ends with this maker, and the second begins with it
      have hlt : a < maker.remaining := Nat.lt_of_not_le hle
      have hshare : min (a + b) maker.remaining = a + min b (maker.remaining - a) := by
        rw [← Nat.add_min_add_left, Nat.add_sub_cancel' (Nat.le_of_lt hlt)]
      rw [hshare, Nat.min_eq_left (Nat.le_of_lt hlt), if_neg hle, Nat.sub_self, allot_zero,
        allot_cons hb, dealsOf_cons, Nat.add_sub_add_left]
      exact .halves (sameTerms_dealWith howner hside _ _ _ _ _)
        (sameTerms_dealWith howner' hside' maker _ _ _ _) rfl (cut_dealsOf_same howner' hside' _ _ _)

theorem filterMap_leftAfter_zero {queue : List Offer} (hpos : ∀ maker ∈ queue, 0 < maker.remaining) :
    queue.filterMap (·.leftAfter 0) = queue := by
  refine (List.filterMap_congr fun maker hmaker => ?_).trans List.filterMap_some
  unfold leftAfter
  rw [if_neg (Nat.not_le.mpr (hpos maker hmaker))]
  rfl

/-- **The queue that is left** has of each maker what the deals did not take from it. -/
theorem afterAllot_eq {queue : List Offer} (hnodup : (queue.map (·.id)).Nodup)
    (hpos : ∀ maker ∈ queue, 0 < maker.remaining) (taker : Offer) (wanted : Quantity) (i : DealId) :
    afterAllot wanted queue = queue.filterMap fun maker =>
      maker.leftAfter (Deal.takenFrom (taker.dealsOf i (allot wanted queue)) maker.id) := by
  induction queue generalizing wanted i with
  | nil => rfl
  | cons maker rest ih =>
    obtain ⟨hfresh, hrest⟩ := List.nodup_cons.mp hnodup
    have hpos' : ∀ m ∈ rest, 0 < m.remaining := fun m hm => hpos m (List.mem_cons_of_mem _ hm)
    by_cases hwanted : wanted = 0
    · rw [hwanted, allot_zero, afterAllot_zero hpos]
      exact (filterMap_leftAfter_zero hpos).symm
    -- the first deal is with the first maker, and with no other
    have hfirst : ∀ m : Offer, Deal.takenFrom (taker.dealsOf i (allot wanted (maker :: rest))) m.id =
        (if maker.id = m.id then min wanted maker.remaining else 0) + Deal.takenFrom
          (taker.dealsOf (i + 1) (allot (wanted - min wanted maker.remaining) rest)) m.id := by
      intro m
      rw [allot_cons hwanted, dealsOf_cons, Deal.takenFrom_cons]
      rfl
    have hhead : Deal.takenFrom (taker.dealsOf i (allot wanted (maker :: rest))) maker.id =
        min wanted maker.remaining := by
      rw [hfirst, if_pos rfl, takenFrom_dealsOf_of_not_mem fun m hm heq =>
        hfresh (List.mem_map.mpr ⟨m, hm, heq⟩), Nat.add_zero]
    have htail : rest.filterMap (fun m => m.leftAfter
          (Deal.takenFrom (taker.dealsOf i (allot wanted (maker :: rest))) m.id)) =
        afterAllot (wanted - min wanted maker.remaining) rest := by
      rw [ih hrest hpos' _ (i + 1)]
      refine List.filterMap_congr fun m hm => ?_
      have hne : maker.id ≠ m.id := fun heq => hfresh (List.mem_map.mpr ⟨m, hm, heq.symm⟩)
      rw [hfirst, if_neg hne, Nat.zero_add]
    rw [List.filterMap_cons, htail, hhead, afterAllot]
    unfold leftAfter
    by_cases hle : maker.remaining ≤ wanted
    · rw [if_pos hle, Nat.min_eq_right hle, if_pos (Nat.le_refl _)]
    · rw [if_neg hle, Nat.min_eq_left (Nat.le_of_not_le hle), if_neg hle, Nat.sub_self,
        afterAllot_zero hpos']

end Offer

end Bourse
