import Bourse.Proofs.Numerals
import Bourse.Proofs.Spelling

/-!
# `Bourse.Proofs.Tokens` — a text is split into the pieces it is written in

The splitter of texts against the grammar of pieces, in both directions. A row of pieces is found again
whatever space stands between them, as long as no two values stand side by side; in the pieces of a value
none do.
-/

namespace Bourse.Json

namespace Token

/-! ## One piece -/

theorem written_of_word? {s rest : List Char} {t : Token} (h : word? s = some (t, rest)) :
    ∃ text, Written text t ∧ s = text ++ rest := by
  obtain ⟨w, hw, heq⟩ := Option.map_eq_some_iff.mp h
  cases heq
  have hprefix : w.1.isPrefixOf s = true := by simpa using List.find?_some hw
  refine ⟨w.1, .word (List.mem_of_find?_eq_some hw), ?_⟩
  exact (List.prefix_iff_eq_append.mp (List.isPrefixOf_iff_prefix.mp hprefix)).symm

theorem written_of_number? {s rest : List Char} {t : Token} (h : number? s = some (t, rest)) :
    ∃ text, Written text t ∧ s = text ++ rest := by
  unfold number? at h
  split at h
  · cases h
  case h_2 n left hscan =>
    obtain ⟨text, htext, rfl⟩ := Numeral.written_of_scan? hscan
    obtain ⟨v, hv, heq⟩ := Option.map_eq_some_iff.mp h
    cases heq
    refine ⟨text, ?_, rfl⟩
    unfold Numeral.value? at hv
    split at hv
    case h_1 i hint =>
      cases hv
      obtain ⟨rfl, hword⟩ := htext.eq_renderInt hint
      exact .integer hword
    case h_2 hint =>
      split at hv
      · cases hv
      case isFalse hfinite =>
        cases hv
        exact .decimal htext hint (by simpa using hfinite)

/-- **What is split off is a piece as it may be written.** -/
theorem written_of_next? {s rest : List Char} {t : Token} (h : next? s = some (t, rest)) :
    ∃ text, Written text t ∧ s = text ++ rest := by
  unfold next? at h
  split at h
  case h_1 => cases h
  case h_2 =>
    cases h
    exact ⟨_, .openArray, rfl⟩
  case h_3 =>
    cases h
    exact ⟨_, .closeArray, rfl⟩
  case h_4 =>
    cases h
    exact ⟨_, .openObject, rfl⟩
  case h_5 =>
    cases h
    exact ⟨_, .closeObject, rfl⟩
  case h_6 =>
    cases h
    exact ⟨_, .comma, rfl⟩
  case h_7 =>
    cases h
    exact ⟨_, .colon, rfl⟩
  case h_8 =>
    obtain ⟨⟨text, left⟩, hbody, heq⟩ := Option.map_eq_some_iff.mp h
    cases heq
    obtain ⟨written, hwritten, rfl⟩ := Quoted.exists_of_body? hbody
    exact ⟨_, .string hwritten, by simp⟩
  case h_9 =>
    split at h
    · exact written_of_word? h
    · exact written_of_number? h

/-- The three words and their values. -/
theorem eq_of_mem_words {text : List Char} {v : Json} (h : (text, v) ∈ words) :
    (text = "null".toList ∧ v = .null) ∨ (text = "true".toList ∧ v = .bool true) ∨
      (text = "false".toList ∧ v = .bool false) := by
  simpa only [words, List.mem_cons, List.not_mem_nil, or_false, Prod.mk.injEq] using h

theorem word?_append {text : List Char} {v : Json} (h : (text, v) ∈ words) (rest : List Char) :
    word? (text ++ rest) = some (.value v, rest) := by
  rcases eq_of_mem_words h with ⟨rfl, rfl⟩ | ⟨rfl, rfl⟩ | ⟨rfl, rfl⟩ <;> rfl

/-- A number begins with a minus or a digit: with no space, no letter and no other piece. -/
theorem exists_cons_of_numeral {text : List Char} {n : Numeral} (h : Numeral.Written text n) :
    ∃ c more, text = c :: more ∧ isSpace c = false ∧ c.isAlpha = false ∧
      c ∉ ['[', ']', '\x7b', '\x7d', ',', ':', '"'] := by
  obtain ⟨hsign, hwhole, -, -⟩ := h
  cases hsign with
  | minus => exact ⟨'-', _, rfl, by decide⟩
  | none =>
    obtain ⟨c, more, rfl, hc⟩ := hwhole.toDigits.exists_cons
    obtain ⟨d, hd, rfl⟩ := Numeral.exists_digitChar hc
    refine ⟨Nat.digitChar d, _, rfl, ?_⟩
    clear hwhole hc
    revert d
    decide

theorem next?_append_of_numeral {text rest : List Char} {n : Numeral} {v : Json}
    (h : Numeral.Written text n) (hv : n.value? = some v) (hrest : Numeral.Ends rest) :
    next? (text ++ rest) = some (.value v, rest) := by
  have hnumber : number? (text ++ rest) = some (.value v, rest) := by
    rw [number?, Numeral.scan?_append h hrest]
    simp [hv]
  obtain ⟨c, more, rfl, -, halpha, hc⟩ := exists_cons_of_numeral h
  simp only [List.mem_cons, List.not_mem_nil, or_false, not_or] at hc
  rw [← hnumber]
  simp [next?, hc, halpha]

/-- The piece is a value by itself. -/
def isValue : Token → Bool
  | .value _ => true
  | _ => false

/-- **A piece as it may be written is split off**, if nothing that goes on with it follows. Only a value
could go on. -/
theorem next?_append {text rest : List Char} {t : Token} (h : Written text t)
    (hrest : t.isValue = true → Numeral.Ends rest) : next? (text ++ rest) = some (t, rest) := by
  cases h with
  | openArray => rfl
  | closeArray => rfl
  | openObject => rfl
  | closeObject => rfl
  | comma => rfl
  | colon => rfl
  | word h =>
    -- a word begins with a letter
    have hfirst := word?_append h rest
    rcases eq_of_mem_words h with ⟨rfl, rfl⟩ | ⟨rfl, rfl⟩ | ⟨rfl, rfl⟩ <;> exact hfirst
  | integer h =>
    obtain ⟨n, hwritten, hint⟩ := Numeral.exists_written_renderInt h
    exact next?_append_of_numeral hwritten (by simp [Numeral.value?, hint]) (hrest rfl)
  | decimal h hint hfinite =>
    exact next?_append_of_numeral h (by simp [Numeral.value?, hint, hfinite]) (hrest rfl)
  | string h => simp [next?, Quoted.body?_append h]

/-! ## All pieces -/

/-- **What a text is split into, it is a text of.** -/
theorem spaced_of_all? {s : List Char} {ts : List Token} (h : all? s = some ts) : Spaced s ts := by
  have hskip (s : List Char) : Space (s.takeWhile isSpace) := fun c hc => List.mem_takeWhile_imp hc
  fun_induction all? s generalizing ts with
  | case1 s hrest =>
    cases h
    refine .nil fun c hc => ?_
    simpa using List.dropWhile_eq_nil_iff.mp hrest c hc
  | case2 => cases h
  | case3 s c more hrest t left hnext ih =>
    obtain ⟨pieces, hpieces, rfl⟩ := Option.map_eq_some_iff.mp h
    obtain ⟨text, htext, hsplit⟩ := written_of_next? hnext
    have hs : s = s.takeWhile isSpace ++ text ++ left := by
      rw [List.append_assoc, ← hsplit, ← hrest, List.takeWhile_append_dropWhile]
    rw [hs]
    exact .cons (hskip s) htext (ih hpieces)

/-- A piece does not begin with space. -/
theorem Written.exists_cons {text : List Char} {t : Token} (h : Written text t) :
    ∃ c more, text = c :: more ∧ isSpace c = false := by
  cases h with
  | word h =>
    rcases eq_of_mem_words h with ⟨rfl, -⟩ | ⟨rfl, -⟩ | ⟨rfl, -⟩ <;> exact ⟨_, _, rfl, by decide⟩
  | integer h =>
    obtain ⟨n, hwritten, -⟩ := Numeral.exists_written_renderInt h
    obtain ⟨c, more, htext, hspace, -⟩ := exists_cons_of_numeral hwritten
    exact ⟨c, more, htext, hspace⟩
  | decimal h =>
    obtain ⟨c, more, htext, hspace, -⟩ := exists_cons_of_numeral h
    exact ⟨c, more, htext, hspace⟩
  | _ => exact ⟨_, _, rfl, by decide⟩

/-- The row does not begin with a value. -/
def Breaks (ts : List Token) : Prop := ∀ t ∈ ts.head?, t.isValue = false

theorem breaks_cons {t : Token} (h : t.isValue = false) (rest : List Token) : Breaks (t :: rest) := by
  rintro _ ⟨⟩
  exact h

/-- Behind a value comes another piece, or nothing. -/
def Apart : List Token → Prop
  | [] => True
  | t :: rest => (t.isValue = true → Breaks rest) ∧ Apart rest

/-- What begins with space or with a piece that is no value does not go on with a number. -/
theorem Spaced.ends {s : List Char} {ts : List Token} (h : Spaced s ts) (hts : Breaks ts) :
    Numeral.Ends s := by
  have hspace {c : Char} (hc : isSpace c = true) :
      c.isDigit = false ∧ c ≠ '.' ∧ c ≠ 'e' ∧ c ≠ 'E' := by
    simp only [isSpace, Bool.or_eq_true, decide_eq_true_eq, or_assoc] at hc
    rcases hc with rfl | rfl | rfl | rfl <;> decide
  intro c hc
  cases h with
  | nil h => exact hspace (h c (List.mem_of_mem_head? hc))
  | @cons space text rest t pieces h htext hrest =>
    cases space with
    | cons d more =>
      obtain rfl : d = c := by simpa using hc
      exact hspace (h d List.mem_cons_self)
    | nil =>
      -- without space the piece itself is in front
      have ht : t.isValue = false := hts t rfl
      cases htext with
      | word => cases ht
      | integer => cases ht
      | decimal => cases ht
      | string => cases ht
      | _ =>
        obtain rfl := Option.some.inj hc
        decide

/-- Behind the space the first piece is split off, and then the others. -/
theorem all?_of_next? {s more left : List Char} {c : Char} {t : Token}
    (hskip : s.dropWhile isSpace = c :: more) (hnext : next? (c :: more) = some (t, left)) :
    all? s = (all? left).map (t :: ·) := by
  rw [all?]
  split
  case h_1 heq =>
    rw [hskip] at heq
    cases heq
  case h_2 heq =>
    rw [hskip] at heq
    cases heq
    split
    case h_1 hnone =>
      rw [hnext] at hnone
      cases hnone
    case h_2 hsome =>
      rw [hnext] at hsome
      cases hsome
      rfl

/-- **A text is split into the pieces that it is a text of**, if between two values stands another piece. -/
theorem Spaced.all?_eq_some {s : List Char} {ts : List Token} (h : Spaced s ts) (hts : Apart ts) :
    all? s = some ts := by
  induction h with
  | nil h =>
    rw [all?]
    split
    case h_1 => rfl
    case h_2 heq =>
      rw [List.dropWhile_eq_nil_iff.mpr h] at heq
      cases heq
  | @cons space text rest t pieces hspace htext hrest ih =>
    have hnext := next?_append htext fun ht => hrest.ends (hts.1 ht)
    obtain ⟨c, more, rfl, hc⟩ := htext.exists_cons
    have hskip : (space ++ (c :: more) ++ rest).dropWhile isSpace = c :: (more ++ rest) := by
      rw [List.append_assoc, List.dropWhile_append_of_pos hspace, List.cons_append,
        List.dropWhile_cons_of_neg (by simp [hc])]
    rw [all?_of_next? hskip hnext, ih hts.2]
    rfl

end Token

/-! ## The pieces of a value -/

open Token

theorem breaks_append_more (items : List Json) {rest : List Token} (h : Breaks rest) :
    Breaks (morePieces items ++ rest) := by
  cases items with
  | nil => exact h
  | cons => exact breaks_cons rfl _

theorem breaks_append_moreMembers (members : List (String × Json)) {rest : List Token} (h : Breaks rest) :
    Breaks (moreMemberPieces members ++ rest) := by
  cases members with
  | nil => exact h
  | cons => exact breaks_cons rfl _

mutual

/-- **No two values stand side by side** in the pieces of a value. -/
theorem apart_pieces_append (v : Json) {rest : List Token} (hbreaks : Breaks rest) (h : Apart rest) :
    Apart (v.pieces ++ rest) := by
  match v with
  | .null | .bool _ | .int _ | .decimal _ | .string _ =>
    simp only [pieces, List.singleton_append]
    exact ⟨fun _ => hbreaks, h⟩
  | .array [] => simpa [pieces, Apart, isValue] using h
  | .array (item :: items) =>
    simp only [pieces, List.cons_append, List.append_assoc, List.nil_append]
    have hclose : Apart (.closeArray :: rest) := ⟨nofun, h⟩
    have hmore := apart_more_append items (breaks_cons rfl rest) hclose
    exact ⟨nofun, apart_pieces_append item (breaks_append_more items (breaks_cons rfl rest)) hmore⟩
  | .object [] => simpa [pieces, Apart, isValue] using h
  | .object ((key, v) :: members) =>
    simp only [pieces, List.cons_append, List.append_assoc, List.nil_append]
    have hclose : Apart (.closeObject :: rest) := ⟨nofun, h⟩
    have hmore := apart_moreMembers_append members (breaks_cons rfl rest) hclose
    have hvalue := apart_pieces_append v
      (breaks_append_moreMembers members (breaks_cons rfl rest)) hmore
    exact ⟨nofun, fun _ => breaks_cons rfl _, nofun, hvalue⟩

theorem apart_more_append (items : List Json) {rest : List Token} (hbreaks : Breaks rest)
    (h : Apart rest) : Apart (morePieces items ++ rest) := by
  match items with
  | [] => exact h
  | item :: items =>
    simp only [morePieces, List.cons_append, List.append_assoc]
    have hmore := apart_more_append items hbreaks h
    exact ⟨nofun, apart_pieces_append item (breaks_append_more items hbreaks) hmore⟩

theorem apart_moreMembers_append (members : List (String × Json)) {rest : List Token}
    (hbreaks : Breaks rest) (h : Apart rest) : Apart (moreMemberPieces members ++ rest) := by
  match members with
  | [] => exact h
  | (key, v) :: members =>
    simp only [moreMemberPieces, List.cons_append, List.append_assoc]
    have hmore := apart_moreMembers_append members hbreaks h
    have hvalue := apart_pieces_append v (breaks_append_moreMembers members hbreaks) hmore
    exact ⟨nofun, fun _ => breaks_cons rfl _, nofun, hvalue⟩

end

theorem apart_pieces (v : Json) : Apart v.pieces := by
  have h := apart_pieces_append v (show Breaks [] from nofun) trivial
  rwa [List.append_nil] at h

end Bourse.Json
