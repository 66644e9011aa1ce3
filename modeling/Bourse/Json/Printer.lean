import Bourse.Json.Quoted

/-!
# `Bourse.Json.Printer` — values as text

A value is written without any space; members and items keep their order.
-/

namespace Bourse

/-- A decimal: its significand and its power of ten. -/
def Decimal.render (d : Decimal) : List Char :=
  (if d.negative then ['-'] else []) ++ Nat.toDigits 10 d.significand ++
    'e' :: (toString d.exponent).toList

namespace Json

/-- An integer in decimal digits. -/
def renderInt : Int → List Char
  | .ofNat n => Nat.toDigits 10 n
  | .negSucc n => '-' :: Nat.toDigits 10 (n + 1)

mutual

/-- The text of a value. -/
def render : Json → List Char
  | .null => "null".toList
  | .bool true => "true".toList
  | .bool false => "false".toList
  | .int i => renderInt i
  | .decimal d => d.render
  | .string s => Quoted.encode s.toList
  | .array [] => ['[', ']']
  | .array (v :: rest) => '[' :: render v ++ renderItems rest ++ [']']
  | .object [] => ['\x7b', '\x7d']
  | .object ((key, v) :: rest) =>
    '\x7b' :: Quoted.encode key.toList ++ ':' :: render v ++ renderMembers rest ++ ['\x7d']

/-- The items after the first, each behind a comma. -/
def renderItems : List Json → List Char
  | [] => []
  | v :: rest => ',' :: render v ++ renderItems rest

/-- The members after the first, each behind a comma. -/
def renderMembers : List (String × Json) → List Char
  | [] => []
  | (key, v) :: rest => ',' :: Quoted.encode key.toList ++ ':' :: render v ++ renderMembers rest

end

end Json

end Bourse
