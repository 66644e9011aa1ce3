import Bourse.Json.Numeral
import Bourse.Json.Quoted

/-!
# `Bourse.Json.Token` — the pieces of a JSON text

A text is split into brackets, separators and single values. Between them there may be spaces, tabs and
line ends; nothing else separates two pieces, and nothing else may stand around them.
-/

namespace Bourse.Json

/-- A piece of a JSON text. -/
inductive Token
  | openArray
  | closeArray
  | openObject
  | closeObject
  | comma
  | colon
  /-- A value that is no container. -/
  | value (v : Json)
deriving Repr

namespace Token

/-- The character may stand between two pieces. -/
def isSpace (c : Char) : Bool := c = ' ' || c = '\t' || c = '\n' || c = '\r'

/-- The values that are written as words. -/
def words : List (List Char × Json) :=
  [("null".toList, .null), ("true".toList, .bool true), ("false".toList, .bool false)]

/-- The word at the front, and what follows it. -/
def word? (s : List Char) : Option (Token × List Char) :=
  (words.find? fun w => w.1.isPrefixOf s).map fun w => (.value w.2, s.drop w.1.length)

/-- The number at the front, and what follows it. -/
def number? (s : List Char) : Option (Token × List Char) :=
  match Numeral.scan? s with
  | none => none
  | some (n, rest) => n.value?.map fun v => (.value v, rest)

/-- The piece at the front, and what follows it. -/
def next? : List Char → Option (Token × List Char)
  | [] => none
  | '[' :: rest => some (.openArray, rest)
  | ']' :: rest => some (.closeArray, rest)
  | '\x7b' :: rest => some (.openObject, rest)
  | '\x7d' :: rest => some (.closeObject, rest)
  | ',' :: rest => some (.comma, rest)
  | ':' :: rest => some (.colon, rest)
  | '"' :: rest => (Quoted.body? rest).map fun (text, rest) => (.value (.string (.ofList text)), rest)
  | c :: rest => if c.isAlpha then word? (c :: rest) else number? (c :: rest)

theorem length_word? {s rest : List Char} {t : Token} (h : word? s = some (t, rest)) :
    rest.length < s.length := by
  obtain ⟨w, hw, heq⟩ := Option.map_eq_some_iff.mp h
  cases heq
  have hpos : 0 < w.1.length := by
    have := List.mem_of_find?_eq_some hw
    simp only [words, List.mem_cons, List.not_mem_nil, or_false] at this
    rcases this with rfl | rfl | rfl <;> decide
  have hfound : w.1.isPrefixOf s = true := by simpa using List.find?_some hw
  have := (List.isPrefixOf_iff_prefix.mp hfound).length_le
  rw [List.length_drop]
  omega

theorem length_number? {s rest : List Char} {t : Token} (h : number? s = some (t, rest)) :
    rest.length < s.length := by
  unfold number? at h
  split at h
  · cases h
  case h_2 hscan =>
    obtain ⟨v, -, heq⟩ := Option.map_eq_some_iff.mp h
    cases heq
    exact Numeral.length_scan? hscan

/-- A piece has at least one character. -/
theorem length_next? {s rest : List Char} {t : Token} (h : next? s = some (t, rest)) :
    rest.length < s.length := by
  unfold next? at h
  split at h
  · cases h
  case h_8 =>
    obtain ⟨x, hx, heq⟩ := Option.map_eq_some_iff.mp h
    cases heq
    have := Quoted.length_body? hx
    simp only [List.length_cons]
    omega
  case h_9 =>
    split at h
    · exact length_word? h
    · exact length_number? h
  all_goals
    cases h
    simp

/-- All pieces of a text. -/
def all? (s : List Char) : Option (List Token) :=
  match _hskip : s.dropWhile isSpace with
  | [] => some []
  | c :: rest =>
    match _hnext : next? (c :: rest) with
    | none => none
    | some (t, left) => (all? left).map (t :: ·)
termination_by s.length
decreasing_by
  have := length_next? _hnext
  have := _hskip ▸ (List.dropWhile_sublist isSpace (l := s)).length_le
  omega

end Token

end Bourse.Json
