import Bourse.Proofs.Acceptance
import Bourse.Wire.Range

/-!
# `Bourse.Proofs.RoundTrip` — messages come back from their text

Each part of a message comes back from the value in which it is written, and that value from its text
(`Carried`). So a message comes back from its bytes if its numbers fit their fields.
-/

namespace Bourse

open Json

/-! ## Parts -/

namespace WireValue

/-- A part comes back from its value, and the value from its text, with `n` containers nested in it at
most. -/
structure Carried {α : Type} [WireValue α] (n : Nat) (a : α) : Prop where
  back : ofJson? (toJson a) = some a
  written : (toJson a).Exact
  depth_le : (toJson a).depth ≤ n

theorem carried_nat {n : Nat} (h : Word.Unsigned n) : Carried 0 n where
  back := ofJson?_nat.mpr ⟨rfl, h⟩
  written := exact_of_eq_singleton rfl ⟨by unfold Word.least; omega, Int.ofNat_lt.mpr h⟩
  depth_le := Nat.le_refl 0

theorem carried_int {i : Int} (h : Word.Signed i) : Carried 0 i where
  back := ofJson?_int.mpr ⟨rfl, h⟩
  written := exact_of_eq_singleton rfl ⟨h.1, Int.lt_of_le_of_lt h.2 (by decide)⟩
  depth_le := Nat.le_refl 0

theorem carried_bool (b : Bool) : Carried 0 b where
  back := rfl
  written := exact_of_eq_singleton rfl trivial
  depth_le := Nat.le_refl 0

theorem carried_string (s : String) : Carried 0 s where
  back := rfl
  written := exact_of_eq_singleton rfl trivial
  depth_le := Nat.le_refl 0

theorem carried_side (side : Side) : Carried 0 side where
  back := by cases side <;> rfl
  written := by cases side <;> exact exact_of_eq_singleton rfl trivial
  depth_le := by cases side <;> exact Nat.le_refl 0

theorem carried_currency (currency : Currency) : Carried 0 currency where
  back := by cases currency <;> rfl
  written := by cases currency <;> exact exact_of_eq_singleton rfl trivial
  depth_le := by cases currency <;> exact Nat.le_refl 0

/-- A part that may be missing comes back if it is not written as a missing one. -/
theorem carried_option {α : Type} [WireValue α] {n : Nat} {o : Option α} (h : ∀ a ∈ o, Carried n a)
    (hnull : ∀ a ∈ o, toJson a ≠ .null) : Carried n o := by
  cases o with
  | none => exact ⟨rfl, exact_of_eq_singleton rfl trivial, Nat.zero_le n⟩
  | some a =>
    have ha := h a rfl
    refine ⟨?_, ha.written, ha.depth_le⟩
    have hback : (ofJson? (toJson a) : Option α).map some = some (some a) := by rw [ha.back]; rfl
    rw [← hback]
    simp only [ofJson?, toJson]
    split
    case h_1 heq => exact absurd heq (hnull a rfl)
    case h_2 => rfl

theorem carried_list {α : Type} [WireValue α] {n : Nat} {as : List α} (h : ∀ a ∈ as, Carried n a) :
    Carried (n + 1) as where
  back := by
    simp only [ofJson?, toJson, mapM_eq_some_iff, List.forall₂_map_left_iff, List.forall₂_same]
    exact fun a ha => (h a ha).back
  written := exact_array fun v hv => by
    obtain ⟨a, ha, rfl⟩ := List.mem_map.mp hv
    exact (h a ha).written
  depth_le := Nat.succ_le_succ (Reader.depthOfItems_le fun v hv => by
    obtain ⟨a, ha, rfl⟩ := List.mem_map.mp hv
    exact (h a ha).depth_le)

theorem carried_offerLine {entry : OfferLine} (h : entry.Fits) : Carried 1 entry := by
  obtain ⟨hoffer, hprice, hamount⟩ := h
  have offer := carried_nat hoffer
  have price := carried_int hprice
  have amount := carried_nat hamount
  refine ⟨three_fields.mpr ⟨_, _, _, _, _, _, rfl, offer.back, price.back, amount.back, rfl⟩,
    exact_object ?_, Nat.succ_le_succ (Reader.depthOfMembers_le ?_)⟩
  · simp only [List.forall_mem_cons]
    exact ⟨offer.written, price.written, amount.written, nofun⟩
  · simp only [List.forall_mem_cons]
    exact ⟨offer.depth_le, price.depth_le, amount.depth_le, nofun⟩

theorem carried_dealLine {entry : DealLine} (h : entry.Fits) : Carried 1 entry := by
  obtain ⟨hprice, hamount⟩ := h
  have price := carried_int hprice
  have amount := carried_nat hamount
  refine ⟨two_fields.mpr ⟨_, _, _, _, rfl, price.back, amount.back, rfl⟩,
    exact_object ?_, Nat.succ_le_succ (Reader.depthOfMembers_le ?_)⟩
  · simp only [List.forall_mem_cons]
    exact ⟨price.written, amount.written, nofun⟩
  · simp only [List.forall_mem_cons]
    exact ⟨price.depth_le, amount.depth_le, nofun⟩

end WireValue

open WireValue

/-! ## Messages -/

/-- The value of a field comes back from its text, and is not nested deeper than a list of objects. -/
def FieldCarried (field : String × Json) : Prop := field.2.Exact ∧ field.2.depth ≤ 2

theorem WireValue.Carried.field {α : Type} [WireValue α] {n : Nat} {a : α} (h : Carried n a)
    (hn : n ≤ 2) (name : String) : FieldCarried (name, toJson a) :=
  ⟨h.written, Nat.le_trans h.depth_le hn⟩

/-- A message comes back from its text as a value if the values of its fields do. -/
theorem exact_tagged {tag : String} {fields : List (String × Json)}
    (h : ∀ field ∈ fields, FieldCarried field) :
    (Json.tagged tag fields).Exact ∧ (Json.tagged tag fields).depth ≤ maxDepth := by
  have hdepth : (Json.tagged tag fields).depth ≤ 3 := by
    refine Nat.succ_le_succ (Reader.depthOfMembers_le ?_)
    rw [List.forall_mem_cons]
    exact ⟨Nat.zero_le 2, fun field hfield => (h field hfield).2⟩
  refine ⟨exact_object ?_, Nat.le_trans hdepth (by decide)⟩
  rw [List.forall_mem_cons]
  exact ⟨exact_of_eq_singleton rfl trivial, fun field hfield => (h field hfield).1⟩

/-- **A request comes back from its value**, and the value from its text. -/
theorem Request.carried_toJson {r : Request} (h : r.Fits) :
    (r.toJson.Exact ∧ r.toJson.depth ≤ maxDepth) ∧ ofValue? r.toJson = some r := by
  have zero : 0 ≤ 2 := by decide
  cases r with
  | register username passwordHash | login username passwordHash =>
    have hname := carried_string username
    have hhash := carried_nat h
    refine ⟨exact_tagged ?_, two_fields.mpr ⟨_, _, _, _, rfl, hname.back, hhash.back, rfl⟩⟩
    simp only [List.forall_mem_cons]
    exact ⟨hname.field zero _, hhash.field zero _, nofun⟩
  | balance user | activeOffers user | closedDeals user | quotes user =>
    have huser := carried_nat h
    refine ⟨exact_tagged ?_, one_field.mpr ⟨_, _, rfl, huser.back, rfl⟩⟩
    simp only [List.forall_mem_cons]
    exact ⟨huser.field zero _, nofun⟩
  | postOffer user side price amount =>
    have huser := carried_nat h.1
    have hside := carried_side side
    have hprice := carried_int h.2.1
    have hamount := carried_nat h.2.2
    refine ⟨exact_tagged ?_, four_fields.mpr
      ⟨_, _, _, _, _, _, _, _, rfl, huser.back, hside.back, hprice.back, hamount.back, rfl⟩⟩
    simp only [List.forall_mem_cons]
    exact ⟨huser.field zero _, hside.field zero _, hprice.field zero _, hamount.field zero _, nofun⟩
  | cancel user offer =>
    have huser := carried_nat h.1
    have hoffer := carried_nat h.2
    refine ⟨exact_tagged ?_, two_fields.mpr ⟨_, _, _, _, rfl, huser.back, hoffer.back, rfl⟩⟩
    simp only [List.forall_mem_cons]
    exact ⟨huser.field zero _, hoffer.field zero _, nofun⟩
  | deposit user currency amount =>
    have huser := carried_nat h.1
    have hcurrency := carried_currency currency
    have hamount := carried_nat h.2
    refine ⟨exact_tagged ?_, three_fields.mpr
      ⟨_, _, _, _, _, _, rfl, huser.back, hcurrency.back, hamount.back, rfl⟩⟩
    simp only [List.forall_mem_cons]
    exact ⟨huser.field zero _, hcurrency.field zero _, hamount.field zero _, nofun⟩

/-- **A response comes back from its value**, and the value from its text. -/
theorem Response.carried_toJson {r : Response} (h : r.Fits) :
    (r.toJson.Exact ∧ r.toJson.depth ≤ maxDepth) ∧ ofValue? r.toJson = some r := by
  have zero : 0 ≤ 2 := by decide
  have two : 1 + 1 ≤ 2 := by decide
  cases r with
  | registration success user | login success user =>
    have hsuccess := carried_bool success
    have huser := carried_option (fun u hu => carried_nat (h u hu)) nofun
    refine ⟨exact_tagged ?_, two_fields.mpr ⟨_, _, _, _, rfl, hsuccess.back, huser.back, rfl⟩⟩
    simp only [List.forall_mem_cons]
    exact ⟨hsuccess.field zero _, huser.field zero _, nofun⟩
  | balance usd rub | deposit usd rub =>
    have husd := carried_int h.1
    have hrub := carried_int h.2
    refine ⟨exact_tagged ?_, two_fields.mpr ⟨_, _, _, _, rfl, husd.back, hrub.back, rfl⟩⟩
    simp only [List.forall_mem_cons]
    exact ⟨husd.field zero _, hrub.field zero _, nofun⟩
  | activeOffers buy sell =>
    have hbuy := carried_list fun entry hentry => carried_offerLine (h.1 entry hentry)
    have hsell := carried_list fun entry hentry => carried_offerLine (h.2 entry hentry)
    refine ⟨exact_tagged ?_, two_fields.mpr ⟨_, _, _, _, rfl, hbuy.back, hsell.back, rfl⟩⟩
    simp only [List.forall_mem_cons]
    exact ⟨hbuy.field two _, hsell.field two _, nofun⟩
  | closedDeals buy sell both =>
    have hbuy := carried_list fun entry hentry => carried_dealLine (h.1 entry hentry)
    have hsell := carried_list fun entry hentry => carried_dealLine (h.2.1 entry hentry)
    have hboth := carried_list fun entry hentry => carried_dealLine (h.2.2 entry hentry)
    refine ⟨exact_tagged ?_, three_fields.mpr
      ⟨_, _, _, _, _, _, rfl, hbuy.back, hsell.back, hboth.back, rfl⟩⟩
    simp only [List.forall_mem_cons]
    exact ⟨hbuy.field two _, hsell.field two _, hboth.field two _, nofun⟩
  | quotes last ask bid spread =>
    obtain ⟨lastFits, askFits, bidFits, rfl⟩ := h
    have hlast := carried_option (fun p hp => carried_int (lastFits p hp)) nofun
    have hask := carried_option (fun p hp => carried_int (askFits p hp)) nofun
    have hbid := carried_option (fun p hp => carried_int (bidFits p hp)) nofun
    refine ⟨exact_tagged ?_, ?_⟩
    · simp only [List.forall_mem_cons]
      exact ⟨hlast.field zero _, hask.field zero _, hbid.field zero _,
        ⟨exact_of_eq_singleton rfl trivial, zero⟩, nofun⟩
    · -- the spread is none of the parts, so this is no row of four fields
      change ((ofJson? (WireValue.toJson last)).bind fun last =>
        (ofJson? (WireValue.toJson ask)).bind fun ask =>
          (ofJson? (WireValue.toJson bid)).bind fun bid => some (Response.quotes last ask bid none)) = _
      rw [hlast.back, hask.back, hbid.back]
      rfl
  | cancel success =>
    have hsuccess := carried_bool success
    refine ⟨exact_tagged ?_, one_field.mpr ⟨_, _, rfl, hsuccess.back, rfl⟩⟩
    simp only [List.forall_mem_cons]
    exact ⟨hsuccess.field zero _, nofun⟩
  | postOffer offer =>
    have hoffer := carried_nat h
    refine ⟨exact_tagged ?_, one_field.mpr ⟨_, _, rfl, hoffer.back, rfl⟩⟩
    simp only [List.forall_mem_cons]
    exact ⟨hoffer.field zero _, nofun⟩
  | error message =>
    have hmessage := carried_string message
    refine ⟨exact_tagged ?_, one_field.mpr ⟨_, _, rfl, hmessage.back, rfl⟩⟩
    simp only [List.forall_mem_cons]
    exact ⟨hmessage.field zero _, nofun⟩

/-- **The round trip.** Every request and every response whose numbers fit their fields is read back from
the bytes in which it is written; a response has a line end behind it. -/
theorem read?_encode :
    (∀ r : Request, r.Fits → Request.read? (Text.Utf8.encode r.text) = some r) ∧
      ∀ r : Response, r.Fits → Response.read? r.encode = some r := by
  constructor
  · intro r hr
    obtain ⟨⟨hexact, hdepth⟩, hback⟩ := Request.carried_toJson hr
    have hwritten := writtenBytes_render hexact hdepth [] nofun
    rw [List.append_nil] at hwritten
    exact Option.bind_eq_some_iff.mpr ⟨_, Json.read?_eq_some_iff.mpr hwritten, hback⟩
  · intro r hr
    obtain ⟨⟨hexact, hdepth⟩, hback⟩ := Response.carried_toJson hr
    have hspace : Token.Space ['\n'] := List.forall_mem_singleton.mpr rfl
    have hwritten := writtenBytes_render hexact hdepth _ hspace
    exact Option.bind_eq_some_iff.mpr ⟨_, Json.read?_eq_some_iff.mpr hwritten, hback⟩

/-- An offer at a negative price, and a report of it. -/
theorem read?_encode_negative_price :
    Request.read? (Text.Utf8.encode (Request.postOffer 7 .sell (-3) 10).text) =
        some (.postOffer 7 .sell (-3) 10) ∧
      Response.read? (Response.activeOffers [] [⟨1, -3, 10⟩]).encode =
        some (.activeOffers [] [⟨1, -3, 10⟩]) := by
  refine ⟨read?_encode.1 _ ⟨by decide, by decide, by decide⟩, read?_encode.2 _ ⟨nofun, ?_⟩⟩
  rw [List.forall_mem_singleton]
  exact ⟨by decide, by decide, by decide⟩

end Bourse
