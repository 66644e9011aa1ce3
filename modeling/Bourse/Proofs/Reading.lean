import Bourse.Proofs.Nesting
import Bourse.Proofs.Tokens

/-!
# `Bourse.Proofs.Reading` — what is read as JSON, and what is written

Bytes are read as a value exactly if they are a text of it in UTF-8. The text in which a value is written
is a row of the texts of its pieces, so it is read back as that value, with whatever space behind it.
-/

namespace Bourse

/-! ## Reading -/

namespace Text.Utf8

/-- Bytes are decoded to the characters that they are the bytes of. -/
theorem decode?_eq_some_iff {bytes : List UInt8} {text : List Char} :
    decode? bytes = some text ↔ bytes = encode text := by
  constructor
  · intro h
    obtain ⟨characters, hcharacters, -⟩ := Option.map_eq_some_iff.mp h
    have hvalid := ByteArray.isSome_utf8Decode?_iff.mp (Option.isSome_of_eq_some hcharacters)
    obtain ⟨found, hfound⟩ := hvalid
    obtain rfl : bytes = encode found := List.toByteArray_inj.mp hfound
    rw [decode?_encode] at h
    rw [Option.some.inj h]
  · rintro rfl
    exact decode?_encode text

end Text.Utf8

namespace Json

open Text

/-- A piece that stands in a text by itself is no container. -/
theorem Token.Written.single {text : List Char} {t : Token} (h : Written text t) : Reader.Single t := by
  cases h with
  | word h =>
    rcases eq_of_mem_words h with ⟨-, rfl⟩ | ⟨-, rfl⟩ | ⟨-, rfl⟩ <;> rfl
  | integer => rfl
  | decimal => rfl
  | string => rfl
  | _ => trivial

theorem Token.Spaced.single {text : List Char} {ts : List Token} (h : Spaced text ts) :
    ∀ t ∈ ts, Reader.Single t := by
  induction h with
  | nil => nofun
  | cons _ htext _ ih =>
    rintro t (_ | ⟨_, ht⟩)
    · exact htext.single
    · exact ih t ht

/-- **Characters are read as a value exactly if they are a text of it.** -/
theorem parse?_eq_some_iff {text : List Char} {v : Json} : parse? text = some v ↔ Written text v := by
  constructor
  · intro h
    obtain ⟨ts, hts, hv⟩ := Option.bind_eq_some_iff.mp h
    have hspaced := Token.spaced_of_all? hts
    obtain ⟨rfl, hdepth⟩ := (Reader.value?_eq_some_iff hspaced.single v).mp hv
    exact ⟨hspaced, hdepth⟩
  · rintro ⟨hspaced, hdepth⟩
    have hall := hspaced.all?_eq_some (apart_pieces v)
    have hv := (Reader.value?_eq_some_iff hspaced.single v).mpr ⟨rfl, hdepth⟩
    rw [parse?, hall, Option.bind_some, hv]

/-- **Bytes are read as a value exactly if they are a text of it in UTF-8.** -/
theorem read?_eq_some_iff {bytes : List UInt8} {v : Json} :
    read? bytes = some v ↔ WrittenBytes bytes v := by
  simp only [read?, Option.bind_eq_some_iff, Utf8.decode?_eq_some_iff, parse?_eq_some_iff, WrittenBytes]

/-! ## Writing -/

/-- The text in which a piece is written. -/
def Token.text : Token → List Char
  | .openArray => ['[']
  | .closeArray => [']']
  | .openObject => ['\x7b']
  | .closeObject => ['\x7d']
  | .comma => [',']
  | .colon => [':']
  | .value v => v.render

mutual

/-- A value is written piece by piece. -/
theorem render_eq_flatMap (v : Json) : v.render = v.pieces.flatMap Token.text := by
  match v with
  | .null | .bool _ | .int _ | .decimal _ | .string _ => simp [pieces, Token.text]
  | .array [] | .object [] => simp [render, pieces, Token.text]
  | .array (item :: items) =>
    simp [render, pieces, Token.text, render_eq_flatMap item, renderItems_eq_flatMap items]
  | .object ((key, held) :: members) =>
    simp [render, pieces, Token.text, render_eq_flatMap held, renderMembers_eq_flatMap members]

theorem renderItems_eq_flatMap (items : List Json) :
    renderItems items = (morePieces items).flatMap Token.text := by
  match items with
  | [] => rfl
  | item :: items =>
    simp [renderItems, morePieces, Token.text, render_eq_flatMap item, renderItems_eq_flatMap items]

theorem renderMembers_eq_flatMap (members : List (String × Json)) :
    renderMembers members = (moreMemberPieces members).flatMap Token.text := by
  match members with
  | [] => rfl
  | (key, held) :: members =>
    simp [renderMembers, moreMemberPieces, Token.text, render, render_eq_flatMap held,
      renderMembers_eq_flatMap members]

end

/-- The piece comes back from its text: its integers fit a word, and it is no decimal. -/
def Token.Exact : Token → Prop
  | .value (.int i) => IsWord i
  | .value (.decimal _) => False
  | .value (.array _) => False
  | .value (.object _) => False
  | _ => True

theorem Token.Exact.written {t : Token} (h : t.Exact) : Written t.text t := by
  unfold Token.text
  cases t with
  | value v =>
    cases v with
    | null => exact .word (by simp [words, render])
    | bool b => cases b <;> exact .word (by simp [words, render])
    | int i => exact .integer h
    | decimal => cases h
    | string s => simpa [render, Quoted.encode] using Written.string (Quoted.spells_flatMap s.toList)
    | array => cases h
    | object => cases h
  | _ => constructor

/-- A value comes back from its text: each of its pieces does. -/
def Exact (v : Json) : Prop := ∀ t ∈ v.pieces, t.Exact

theorem exact_of_eq_singleton {v : Json} {t : Token} (hpieces : v.pieces = [t]) (h : t.Exact) : v.Exact := by
  intro t' ht'
  rw [hpieces] at ht'
  obtain rfl := List.mem_singleton.mp ht'
  exact h

theorem exact_morePieces {items : List Json} (h : ∀ v ∈ items, v.Exact) : ∀ t ∈ morePieces items, t.Exact := by
  induction items with
  | nil => nofun
  | cons v rest ih =>
    have hrest := ih fun w hw => h w (List.mem_cons_of_mem v hw)
    simp only [morePieces, List.forall_mem_cons, List.forall_mem_append]
    exact ⟨trivial, h v List.mem_cons_self, hrest⟩

theorem exact_moreMemberPieces {members : List (String × Json)} (h : ∀ m ∈ members, m.2.Exact) :
    ∀ t ∈ moreMemberPieces members, t.Exact := by
  induction members with
  | nil => nofun
  | cons m rest ih =>
    have hrest := ih fun w hw => h w (List.mem_cons_of_mem m hw)
    simp only [moreMemberPieces, List.forall_mem_cons, List.forall_mem_append]
    exact ⟨trivial, trivial, trivial, h m List.mem_cons_self, hrest⟩

/-- An array comes back if its items do. -/
theorem exact_array {items : List Json} (h : ∀ v ∈ items, v.Exact) : (Json.array items).Exact := by
  unfold Exact
  cases items with
  | nil => simp [pieces, Token.Exact]
  | cons v rest =>
    have hrest := exact_morePieces fun w hw => h w (List.mem_cons_of_mem v hw)
    simp only [pieces, List.forall_mem_cons, List.forall_mem_append]
    exact ⟨trivial, ⟨h v List.mem_cons_self, hrest⟩, trivial, nofun⟩

/-- An object comes back if the values of its members do. -/
theorem exact_object {members : List (String × Json)} (h : ∀ m ∈ members, m.2.Exact) :
    (Json.object members).Exact := by
  unfold Exact
  cases members with
  | nil => simp [pieces, Token.Exact]
  | cons m rest =>
    have hrest := exact_moreMemberPieces fun w hw => h w (List.mem_cons_of_mem m hw)
    simp only [pieces, List.forall_mem_cons, List.forall_mem_append]
    exact ⟨trivial, trivial, trivial, ⟨h m List.mem_cons_self, hrest⟩, trivial, nofun⟩

theorem Token.spaced_flatMap {ts : List Token} (h : ∀ t ∈ ts, t.Exact) {space : List Char}
    (hspace : Space space) : Spaced (ts.flatMap Token.text ++ space) ts := by
  induction ts with
  | nil => exact .nil hspace
  | cons t rest ih =>
    have hrest := ih fun t ht => h t (List.mem_cons_of_mem _ ht)
    simpa using Spaced.cons (show Space [] from nofun) (h t List.mem_cons_self).written hrest

/-- **What is written is read back**, with any space behind it. -/
theorem written_render {v : Json} (h : v.Exact) (hdepth : v.depth ≤ maxDepth)
    {space : List Char} (hspace : Token.Space space) : Written (v.render ++ space) v := by
  refine ⟨?_, hdepth⟩
  rw [render_eq_flatMap]
  exact Token.spaced_flatMap h hspace

theorem writtenBytes_render {v : Json} (h : v.Exact) (hdepth : v.depth ≤ maxDepth) (space : List Char)
    (hspace : Token.Space space) :
    WrittenBytes (Utf8.encode (v.render ++ space)) v :=
  ⟨_, rfl, written_render h hdepth hspace⟩

end Json

end Bourse
