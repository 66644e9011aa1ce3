import Bourse.Proofs.Fields
import Bourse.Proofs.Reading

/-!
# `Bourse.Proofs.Acceptance` — a request is read exactly from the frames that carry it

The reader of requests accepts what the grammar of requests describes, and nothing else. So the order of the
members of an object does not matter, and neither do members with other names.
-/

namespace Bourse.Request

open Json WireValue

/-! ## Fields -/

/-- **What is read as a request has its tag and its fields.** -/
theorem fields_of_ofBody? {tag : String} {body : Body} {r : Request} (h : ofBody? tag body = some r) :
    tag = r.tag ∧ ∃ values, body.fields? (r.fields.map fun field => { name := field.1 }) = some values ∧
      List.Forall₂ (fun field v => field.2 v) r.fields values := by
  unfold ofBody? at h
  split at h
  -- a name and a hash
  case h_1 | h_2 =>
    obtain ⟨a, b, x, y, hfound, hx, hy, rfl⟩ := two_fields.mp h
    exact ⟨rfl, [a, b], hfound, .cons (ofJson?_string.mp hx) (.cons (ofJson?_nat.mp hy) .nil)⟩
  -- only a user
  case h_3 | h_4 | h_5 | h_7 =>
    obtain ⟨a, x, hfound, hx, rfl⟩ := one_field.mp h
    exact ⟨rfl, [a], hfound, .cons (ofJson?_nat.mp hx) .nil⟩
  case h_6 =>
    obtain ⟨a, b, c, d, x, y, z, w, hfound, hx, hy, hz, hw, rfl⟩ := four_fields.mp h
    exact ⟨rfl, [a, b, c, d], hfound, .cons (ofJson?_nat.mp hx) (.cons (ofJson?_side.mp hy)
      (.cons (ofJson?_int.mp hz) (.cons (ofJson?_nat.mp hw) .nil)))⟩
  case h_8 =>
    obtain ⟨a, b, x, y, hfound, hx, hy, rfl⟩ := two_fields.mp h
    exact ⟨rfl, [a, b], hfound, .cons (ofJson?_nat.mp hx) (.cons (ofJson?_nat.mp hy) .nil)⟩
  case h_9 =>
    obtain ⟨a, b, c, x, y, z, hfound, hx, hy, hz, rfl⟩ := three_fields.mp h
    exact ⟨rfl, [a, b, c], hfound, .cons (ofJson?_nat.mp hx) (.cons (ofJson?_currency.mp hy)
      (.cons (ofJson?_nat.mp hz) .nil))⟩
  case h_10 => cases h

/-- **A request is read from its tag and its fields.** -/
theorem ofBody?_of_fields {r : Request} {body : Body} {values : List Json}
    (hfound : body.fields? (r.fields.map fun field => { name := field.1 }) = some values)
    (hvalues : List.Forall₂ (fun field v => field.2 v) r.fields values) :
    ofBody? r.tag body = some r := by
  cases r with
  | register | login =>
    obtain _ | ⟨ha, _ | ⟨hb, _ | _⟩⟩ := hvalues
    exact two_fields.mpr ⟨_, _, _, _, hfound, ofJson?_string.mpr ha, ofJson?_nat.mpr hb, rfl⟩
  | balance | activeOffers | closedDeals | quotes =>
    obtain _ | ⟨ha, _ | _⟩ := hvalues
    exact one_field.mpr ⟨_, _, hfound, ofJson?_nat.mpr ha, rfl⟩
  | postOffer =>
    obtain _ | ⟨ha, _ | ⟨hb, _ | ⟨hc, _ | ⟨hd, _ | _⟩⟩⟩⟩ := hvalues
    exact four_fields.mpr ⟨_, _, _, _, _, _, _, _, hfound, ofJson?_nat.mpr ha, ofJson?_side.mpr hb,
      ofJson?_int.mpr hc, ofJson?_nat.mpr hd, rfl⟩
  | cancel =>
    obtain _ | ⟨ha, _ | ⟨hb, _ | _⟩⟩ := hvalues
    exact two_fields.mpr ⟨_, _, _, _, hfound, ofJson?_nat.mpr ha, ofJson?_nat.mpr hb, rfl⟩
  | deposit =>
    obtain _ | ⟨ha, _ | ⟨hb, _ | ⟨hc, _ | _⟩⟩⟩ := hvalues
    exact three_fields.mpr ⟨_, _, _, _, _, _, hfound, ofJson?_nat.mpr ha, ofJson?_currency.mpr hb,
      ofJson?_nat.mpr hc, rfl⟩

/-! ## Values and frames -/

/-- **A value is read as a request exactly if it carries the request.** -/
theorem ofValue?_eq_some_iff {v : Json} {r : Request} : ofValue? v = some r ↔ r.CarriedBy v := by
  constructor
  · intro h
    obtain ⟨⟨tag, body⟩, htagged, hread⟩ := Option.bind_eq_some_iff.mp h
    obtain ⟨rfl, hfields⟩ := fields_of_ofBody? hread
    obtain ⟨ms, rfl, htag, rfl⟩ | ⟨items, rfl, rfl⟩ := Body.tagged?_eq_some_iff.mp htagged
    · exact .object ⟨_, htag, rfl⟩ (Body.exists_fields?_members.mp hfields)
    · exact .array (Body.exists_fields?_items.mp hfields)
  · intro h
    cases h with
    | object htag hfields =>
      obtain ⟨_, htag, rfl⟩ := htag
      obtain ⟨values, hfound, hvalues⟩ := Body.exists_fields?_members.mpr hfields
      have htagged := Body.tagged?_eq_some_iff.mpr (.inl ⟨_, rfl, htag, rfl⟩)
      rw [ofValue?, htagged]
      exact ofBody?_of_fields hfound hvalues
    | @array items h =>
      obtain ⟨values, hfound, hvalues⟩ := Body.exists_fields?_items.mpr h
      have htagged : Body.tagged? (.array (.string r.tag :: items)) = some (r.tag, .items items) :=
        Body.tagged?_eq_some_iff.mpr (.inr ⟨items, rfl, rfl⟩)
      rw [ofValue?, htagged]
      exact ofBody?_of_fields hfound hvalues

/-- **A frame is read as a request exactly if it carries the request.** -/
theorem read?_eq_some_iff {frame : List UInt8} {r : Request} :
    Request.read? frame = some r ↔ r.InFrame frame := by
  simp only [Request.read?, Option.bind_eq_some_iff, Json.read?_eq_some_iff, ofValue?_eq_some_iff, InFrame]

/-! ## Order and other members -/

theorem filter_filter_of_imp {α : Type} {p q : α → Bool} (h : ∀ a, q a = true → p a = true) (as : List α) :
    (as.filter p).filter q = as.filter q := by
  rw [List.filter_filter]
  refine List.filter_congr fun a _ => ?_
  cases hq : q a with
  | true => simp [h a hq]
  | false => rfl

/-- Only members of these names matter to a member of one of them, and their order does not. -/
theorem occursOnce_of_perm {ms ms' : List (String × Json)} {names : List String}
    (h : (ms.filter (·.1 ∈ names)).Perm (ms'.filter (·.1 ∈ names))) {name : String} (hname : name ∈ names)
    {IsPart : Json → Prop} (honce : OccursOnce ms name IsPart) : OccursOnce ms' name IsPart := by
  have hnames : ∀ m : String × Json, decide (m.1 = name) = true → decide (m.1 ∈ names) = true := by
    intro m hm
    simpa [of_decide_eq_true hm] using hname
  obtain ⟨v, hv, hpart⟩ := honce
  refine ⟨v, ?_, hpart⟩
  have hperm := h.filter (·.1 = name)
  rw [filter_filter_of_imp hnames, filter_filter_of_imp hnames, hv] at hperm
  exact List.perm_singleton.mp hperm.symm

/-- A request in one object is in any other with the same members of its names, in whatever order. -/
theorem CarriedBy.of_perm {r : Request} {ms ms' : List (String × Json)}
    (h : (ms.filter (·.1 ∈ r.names)).Perm (ms'.filter (·.1 ∈ r.names))) (hms : r.CarriedBy (.object ms)) :
    r.CarriedBy (.object ms') := by
  cases hms with
  | object htag hfields =>
    refine .object (occursOnce_of_perm h List.mem_cons_self htag) fun field hfield => ?_
    exact occursOnce_of_perm h (List.mem_cons_of_mem _ (List.mem_map_of_mem hfield)) (hfields field hfield)

theorem names_subset_known (r : Request) : r.names ⊆ known := by
  cases r <;> simp [names, fields, known]

/-- What is read does not depend on the order of members, nor on members of other names. -/
theorem read?_of_perm {frame frame' : List UInt8} {ms ms' : List (String × Json)} {r : Request}
    (hframe : WrittenBytes frame (.object ms)) (hframe' : WrittenBytes frame' (.object ms'))
    (h : (ms.filter (·.1 ∈ r.names)).Perm (ms'.filter (·.1 ∈ r.names)))
    (hread : Request.read? frame = some r) : Request.read? frame' = some r := by
  obtain ⟨v, hv, hcarried⟩ := read?_eq_some_iff.mp hread
  -- the bytes of a frame are those of one value only
  have heq := Json.read?_eq_some_iff.mpr hv
  rw [Json.read?_eq_some_iff.mpr hframe] at heq
  obtain rfl := Option.some.inj heq
  exact read?_eq_some_iff.mpr ⟨_, hframe', hcarried.of_perm h⟩

/-- **The grammar of requests.** A frame is read as a request exactly if it carries the request, and as none
if it carries none. Of an object only the members matter that have the name of a field of the request, in
whatever order; if two objects have the same members of the names that matter to any request, then what is
read from them is the same. -/
theorem read?_iff_inFrame :
    (∀ (frame : List UInt8) (r : Request), Request.read? frame = some r ↔ r.InFrame frame) ∧
      (∀ frame : List UInt8, Request.read? frame = none ↔ ∀ r : Request, ¬r.InFrame frame) ∧
      (∀ (frame frame' : List UInt8) (ms ms' : List (String × Json)) (r : Request),
        WrittenBytes frame (.object ms) → WrittenBytes frame' (.object ms') →
          (ms.filter (·.1 ∈ r.names)).Perm (ms'.filter (·.1 ∈ r.names)) →
            (Request.read? frame = some r ↔ Request.read? frame' = some r)) ∧
      ∀ (frame frame' : List UInt8) (ms ms' : List (String × Json)),
        WrittenBytes frame (.object ms) → WrittenBytes frame' (.object ms') →
          (ms.filter (·.1 ∈ known)).Perm (ms'.filter (·.1 ∈ known)) →
            Request.read? frame = Request.read? frame' := by
  refine ⟨fun frame r => read?_eq_some_iff, fun frame => ?_, ?_, ?_⟩
  · rw [Option.eq_none_iff_forall_ne_some]
    simp only [ne_eq, read?_eq_some_iff]
  · intro frame frame' ms ms' r hframe hframe' hperm
    exact ⟨read?_of_perm hframe hframe' hperm, read?_of_perm hframe' hframe hperm.symm⟩
  · intro frame frame' ms ms' hframe hframe' hperm
    have hnames (r : Request) : (ms.filter (·.1 ∈ r.names)).Perm (ms'.filter (·.1 ∈ r.names)) := by
      have hknown : ∀ m : String × Json, decide (m.1 ∈ r.names) = true → decide (m.1 ∈ known) = true := by
        intro m hm
        simpa using names_subset_known r (of_decide_eq_true hm)
      have hfilter := hperm.filter (·.1 ∈ r.names)
      rwa [filter_filter_of_imp hknown, filter_filter_of_imp hknown] at hfilter
    refine Option.ext fun r => ⟨read?_of_perm hframe hframe' (hnames r), ?_⟩
    exact read?_of_perm hframe' hframe (hnames r).symm

/-- The fields of a request in the other order, next to the field of another request, or to a member that no
request has. -/
theorem read?_balance_reordered :
    Request.read? (Text.Utf8.encode (Json.object
      [("PRICE", .null), ("USER_ID", .int 7), ("TYPE", .string "Balance")]).render) = some (.balance 7) ∧
    Request.read? (Text.Utf8.encode (Json.object
      [("USER_ID", .int 7), ("NOTE", .null), ("TYPE", .string "Balance")]).render) = some (.balance 7) := by
  have htag : (Json.string "Balance").Exact := exact_of_eq_singleton rfl trivial
  have huser : (Json.int 7).Exact := exact_of_eq_singleton rfl ⟨by decide, by decide⟩
  have hnull : Json.null.Exact := exact_of_eq_singleton rfl trivial
  have hwritten (ms : List (String × Json)) (h : ∀ m ∈ ms, m.2.Exact)
      (hdepth : (Json.object ms).depth ≤ maxDepth) :
      WrittenBytes (Text.Utf8.encode (Json.object ms).render) (.object ms) := by
    simpa using writtenBytes_render (exact_object h) hdepth [] nofun
  have hplain := hwritten [("TYPE", .string "Balance"), ("USER_ID", .int 7)] (by simp [htag, huser])
    (by decide)
  have hprice := hwritten [("PRICE", .null), ("USER_ID", .int 7), ("TYPE", .string "Balance")]
    (by simp [htag, huser, hnull]) (by decide)
  have hnote := hwritten [("USER_ID", .int 7), ("NOTE", .null), ("TYPE", .string "Balance")]
    (by simp [htag, huser, hnull]) (by decide)
  obtain ⟨hiff, -, hnames, hknown⟩ := read?_iff_inFrame
  have hread : Request.read? _ = some (.balance 7) :=
    (hiff _ _).mpr ⟨_, hplain, .object ⟨_, rfl, rfl⟩
      (by simpa [fields] using ⟨_, rfl, rfl, by decide⟩)⟩
  refine ⟨(hnames _ _ _ _ _ hplain hprice ?_).mp hread, ?_⟩
  · exact List.Perm.swap _ _ _
  · rw [← hknown _ _ _ _ hplain hnote (List.Perm.swap _ _ _)]
    exact hread

end Bourse.Request
