import Bourse.Json.Grammar
import Mathlib.Data.List.TakeWhile

/-!
# `Bourse.Proofs.Numerals` — numbers are read as they may be written

The reader of numbers against their grammar, in both directions, and the texts of an integer: it has
exactly one, in which no digit and no minus is idle.
-/

namespace Bourse.Numeral

/-! ## Texts -/

/-- What stands behind a number does not go on with it. -/
def Ends (rest : List Char) : Prop :=
  ∀ c ∈ rest.head?, c.isDigit = false ∧ c ≠ '.' ∧ c ≠ 'e' ∧ c ≠ 'E'

theorem Digits.exists_cons {digits : List Char} (h : Digits digits) :
    ∃ c more, digits = c :: more ∧ c.isDigit = true := by
  obtain ⟨c, more, rfl⟩ := List.exists_cons_of_ne_nil h.ne_nil
  exact ⟨c, more, rfl, h.isDigit c List.mem_cons_self⟩

theorem digits?_append {digits rest : List Char} (h : Digits digits)
    (hrest : ∀ c ∈ rest.head?, c.isDigit = false) : digits? (digits ++ rest) = some (digits, rest) := by
  have htake : (digits ++ rest).takeWhile Char.isDigit = digits := by
    rw [List.takeWhile_append_of_pos h.isDigit]
    cases rest with
    | nil => simp
    | cons c more => simp [hrest c rfl]
  have hdrop : (digits ++ rest).dropWhile Char.isDigit = rest := by
    rw [List.dropWhile_append_of_pos h.isDigit]
    cases rest with
    | nil => rfl
    | cons c more => simp [hrest c rfl]
  unfold digits?
  rw [htake, hdrop]
  cases digits with
  | nil => exact absurd rfl h.ne_nil
  | cons c more => rfl

theorem digits_of_digits? {s digits rest : List Char} (h : digits? s = some (digits, rest)) :
    Digits digits ∧ s = digits ++ rest := by
  unfold digits? at h
  split at h
  · cases h
  case h_2 hne =>
    cases h
    exact ⟨⟨hne, fun c hc => List.mem_takeWhile_imp hc⟩, (List.takeWhile_append_dropWhile).symm⟩

theorem whole?_append {whole rest : List Char} (h : Whole whole)
    (hrest : ∀ c ∈ rest.head?, c.isDigit = false) : whole? (whole ++ rest) = some (whole, rest) := by
  unfold whole?
  rw [digits?_append h.toDigits hrest]
  split
  case h_1 d more left heq =>
    cases heq
    have := h.eq_zero rfl
    cases this
  case h_2 => rfl

theorem whole_of_whole? {s whole rest : List Char} (h : whole? s = some (whole, rest)) :
    Whole whole ∧ s = whole ++ rest := by
  unfold whole? at h
  split at h
  · cases h
  case h_2 hzero =>
    obtain ⟨hdigits, hs⟩ := digits_of_digits? h
    refine ⟨⟨hdigits, fun hhead => ?_⟩, hs⟩
    obtain ⟨tail, rfl⟩ := List.head?_eq_some_iff.mp hhead
    cases tail with
    | nil => rfl
    | cons d more => exact absurd h (hzero d more rest)

theorem fraction?_append {fraction rest : List Char} {digits : Option (List Char)}
    (h : FractionWritten fraction digits) (hrest : ∀ c ∈ rest.head?, c.isDigit = false ∧ c ≠ '.') :
    fraction? (fraction ++ rest) = some (digits, rest) := by
  cases h with
  | none =>
    cases rest with
    | nil => rfl
    | cons c more =>
      rw [List.nil_append, fraction?]
      rintro left heq
      exact (hrest c rfl).2 (List.cons.inj heq).1
  | some h =>
    simp [fraction?, digits?_append h fun c hc => (hrest c hc).1]

theorem fraction_of_fraction? {s rest : List Char} {digits : Option (List Char)}
    (h : fraction? s = some (digits, rest)) :
    ∃ fraction, FractionWritten fraction digits ∧ s = fraction ++ rest := by
  unfold fraction? at h
  split at h
  case h_1 tail =>
    obtain ⟨⟨ds, left⟩, hdigits, heq⟩ := Option.map_eq_some_iff.mp h
    cases heq
    obtain ⟨hds, rfl⟩ := digits_of_digits? hdigits
    exact ⟨'.' :: ds, .some hds, rfl⟩
  case h_2 =>
    cases h
    exact ⟨[], .none, rfl⟩

/-- Digits have no sign in front. -/
theorem exponentSign_append {digits : List Char} (h : Digits digits) (rest : List Char) :
    exponentSign (digits ++ rest) = (false, digits ++ rest) := by
  obtain ⟨c, more, rfl, hc⟩ := h.exists_cons
  rw [exponentSign]
  · rintro left heq
    obtain ⟨rfl, -⟩ := List.cons.inj heq
    cases hc
  · rintro left heq
    obtain ⟨rfl, -⟩ := List.cons.inj heq
    cases hc

theorem exponent?_append {exponent rest : List Char} {power : Option (Bool × List Char)}
    (h : ExponentWritten exponent power) (hrest : Ends rest) :
    exponent? (exponent ++ rest) = some (power, rest) := by
  have hdigit : ∀ c ∈ rest.head?, c.isDigit = false := fun c hc => (hrest c hc).1
  cases h with
  | none =>
    cases rest with
    | nil => rfl
    | cons c more =>
      obtain ⟨-, -, he, hE⟩ := hrest c rfl
      simp [exponent?, he, hE]
  | @bare letter digits hletter h =>
    have hsign := exponentSign_append h rest
    simp [exponent?, hletter, hsign, digits?_append h hdigit]
  | plus hletter h => simp [exponent?, hletter, exponentSign, digits?_append h hdigit]
  | minus hletter h => simp [exponent?, hletter, exponentSign, digits?_append h hdigit]

theorem exponent_of_exponent? {s rest : List Char} {power : Option (Bool × List Char)}
    (h : exponent? s = some (power, rest)) :
    ∃ exponent, ExponentWritten exponent power ∧ s = exponent ++ rest := by
  unfold exponent? at h
  split at h
  case h_1 =>
    cases h
    exact ⟨[], .none, rfl⟩
  case h_2 letter tail =>
    split at h
    case isTrue hletter =>
      obtain ⟨⟨ds, left⟩, hdigits, heq⟩ := Option.map_eq_some_iff.mp h
      cases heq
      obtain ⟨hds, hs⟩ := digits_of_digits? hdigits
      -- the sign that was split off decides how the exponent is written
      unfold exponentSign at hs ⊢
      split at hs
      case h_1 => exact ⟨_, .minus hletter hds, congrArg (letter :: '-' :: ·) hs⟩
      case h_2 => exact ⟨_, .plus hletter hds, congrArg (letter :: '+' :: ·) hs⟩
      case h_3 => exact ⟨_, .bare hletter hds, congrArg (letter :: ·) hs⟩
    case isFalse =>
      cases h
      exact ⟨[], .none, rfl⟩

theorem sign_append {text digits : List Char} {negative : Bool} (h : SignWritten text negative)
    (hdigits : Digits digits) (rest : List Char) :
    sign (text ++ (digits ++ rest)) = (negative, digits ++ rest) := by
  cases h with
  | none =>
    obtain ⟨c, more, rfl, hc⟩ := hdigits.exists_cons
    rw [List.nil_append, sign]
    rintro left heq
    obtain ⟨rfl, -⟩ := List.cons.inj heq
    cases hc
  | minus => rfl

theorem sign_written (s : List Char) :
    ∃ text, SignWritten text (sign s).1 ∧ s = text ++ (sign s).2 := by
  unfold sign
  split
  · exact ⟨['-'], .minus, rfl⟩
  · exact ⟨[], .none, rfl⟩

/-- **A number is read as it is written**, if nothing that goes on with it follows. -/
theorem scan?_append {text rest : List Char} {n : Numeral} (h : Written text n) (hrest : Ends rest) :
    scan? (text ++ rest) = some (n, rest) := by
  obtain @⟨signText, whole, fraction, exponent, negative, digits, power, hsign, hwhole, hfraction,
    hexponent⟩ := h
  have hafterFraction : ∀ c ∈ (exponent ++ rest).head?, c.isDigit = false ∧ c ≠ '.' := by
    cases hexponent with
    | none => exact fun c hc => ⟨(hrest c hc).1, (hrest c hc).2.1⟩
    | _ =>
      rename_i hletter _
      rcases hletter with rfl | rfl <;> simp
  have hafterWhole : ∀ c ∈ (fraction ++ (exponent ++ rest)).head?, c.isDigit = false := by
    cases hfraction with
    | none => exact fun c hc => (hafterFraction c hc).1
    | some => simp
  have hsplit := sign_append hsign hwhole.toDigits (fraction ++ (exponent ++ rest))
  unfold scan?
  simp only [List.append_assoc, hsplit, whole?_append hwhole hafterWhole,
    fraction?_append hfraction hafterFraction, exponent?_append hexponent hrest]

/-- **What is read as a number is one.** -/
theorem written_of_scan? {s rest : List Char} {n : Numeral} (h : scan? s = some (n, rest)) :
    ∃ text, Written text n ∧ s = text ++ rest := by
  obtain ⟨signText, hsign, hs⟩ := sign_written s
  unfold scan? at h
  split at h
  · cases h
  case h_2 whole afterWhole hwhole =>
    obtain ⟨hdigits, hsplit⟩ := whole_of_whole? hwhole
    split at h
    · cases h
    case h_2 digits afterFraction hfraction =>
      obtain ⟨fraction, hpart, rfl⟩ := fraction_of_fraction? hfraction
      split at h
      · cases h
      case h_2 power left hexponent =>
        obtain ⟨exponent, hpower, rfl⟩ := exponent_of_exponent? hexponent
        cases h
        refine ⟨signText ++ whole ++ fraction ++ exponent, .mk hsign hdigits hpart hpower, ?_⟩
        rw [hs, hsplit]
        simp only [List.append_assoc]

/-! ## Integers -/

theorem exists_digitChar {c : Char} (h : c.isDigit = true) : ∃ d < 10, Nat.digitChar d = c := by
  obtain ⟨hleast, hgreatest⟩ : 48 ≤ c.toNat ∧ c.toNat ≤ 57 := Char.isDigit_iff_toNat.mp h
  refine ⟨c.toNat - 48, by omega, Char.toNat_inj.mp ?_⟩
  rw [Nat.toNat_digitChar_of_lt_ten (by omega)]
  omega

/-- Digits behind those of a number that is not zero are the last digits of a greater number. -/
theorem toDigits_append {digits : List Char} (h : ∀ c ∈ digits, c.isDigit = true) {n : Nat} (hn : 0 < n) :
    Nat.toDigits 10 n ++ digits = Nat.toDigits 10 (Nat.ofDigitChars 10 digits n) := by
  induction digits generalizing n with
  | nil => simp
  | cons c rest ih =>
    obtain ⟨d, hd, rfl⟩ := exists_digitChar (h c List.mem_cons_self)
    calc Nat.toDigits 10 n ++ Nat.digitChar d :: rest
        = (Nat.toDigits 10 n ++ Nat.toDigits 10 d) ++ rest := by
          rw [Nat.toDigits_of_lt_base hd, List.append_assoc, List.singleton_append]
      _ = Nat.toDigits 10 (10 * n + d) ++ rest := by
          rw [Nat.toDigits_append_toDigits (by decide) hn hd]
      _ = Nat.toDigits 10 (Nat.ofDigitChars 10 rest (10 * n + d)) :=
          ih (fun c hc => h c (List.mem_cons_of_mem _ hc)) (by omega)
      _ = Nat.toDigits 10 (Nat.ofDigitChars 10 (Nat.digitChar d :: rest) n) := by
          rw [Nat.ofDigitChars_cons_digitChar_of_lt_ten hd]

/-- No other digits without a leading zero stand for a number than those it is written in. -/
theorem toDigits_ofDigits {whole : List Char} (h : Whole whole) :
    Nat.toDigits 10 (Text.ofDigits whole) = whole := by
  obtain ⟨c, more, rfl, hc⟩ := h.toDigits.exists_cons
  obtain ⟨d, hd, rfl⟩ := exists_digitChar hc
  rw [Text.ofDigits, Nat.ofDigitChars_cons_digitChar_of_lt_ten hd, Nat.mul_zero, Nat.zero_add]
  rcases Nat.eq_zero_or_pos d with rfl | hpos
  · -- a zero in front is alone
    obtain ⟨-, rfl⟩ := List.cons.inj (h.eq_zero rfl)
    simp
  · have hmore := toDigits_append (fun c hc => h.isDigit c (List.mem_cons_of_mem _ hc)) hpos
    rw [← hmore, Nat.toDigits_of_lt_base hd, List.singleton_append]

@[simp] theorem ofDigits_toDigits (n : Nat) : Text.ofDigits (Nat.toDigits 10 n) = n :=
  Nat.ofDigitChars_ten_toDigits

theorem head?_toDigits {n : Nat} (hn : 0 < n) : (Nat.toDigits 10 n).head? ≠ some '0' := by
  induction n using Nat.strongRecOn with
  | ind n ih =>
    rw [Nat.toDigits_eq_if (by decide)]
    split
    case isTrue => simpa using Nat.ne_of_gt hn
    case isFalse hge =>
      obtain ⟨c, more, hmore⟩ := List.exists_cons_of_ne_nil (Nat.toDigits_ne_nil (n := n / 10) (b := 10))
      have hfront := ih (n / 10) (by omega) (by omega)
      rw [hmore] at hfront ⊢
      exact hfront

theorem whole_toDigits (n : Nat) : Whole (Nat.toDigits 10 n) := by
  refine ⟨⟨Nat.toDigits_ne_nil, fun c hc => Nat.isDigit_of_mem_toDigits (by decide) (by decide) hc⟩, ?_⟩
  intro hhead
  rcases Nat.eq_zero_or_pos n with rfl | hn
  · simp
  · exact absurd hhead (head?_toDigits hn)

theorem renderInt_natCast (n : Nat) : Json.renderInt n = Nat.toDigits 10 n := rfl

theorem renderInt_neg {n : Nat} (hn : 0 < n) : Json.renderInt (-(n : Int)) = '-' :: Nat.toDigits 10 n := by
  obtain ⟨m, rfl⟩ := Nat.exists_eq_add_one_of_ne_zero (Nat.ne_of_gt hn)
  rfl

/-- **An integer of a word has a text**, its decimal digits behind its sign. -/
theorem exists_written_renderInt {i : Int} (h : Json.IsWord i) :
    ∃ n, Written (Json.renderInt i) n ∧ n.toInt? = some i := by
  obtain ⟨hleast, hlimit⟩ := h
  rcases Int.lt_or_le i 0 with hnegative | hnonneg
  · obtain ⟨size, rfl⟩ : ∃ size : Nat, i = -(size : Int) := ⟨i.natAbs, by omega⟩
    have hpos : 0 < size := by omega
    have hsigned : Word.Signed (-(size : Int)) := ⟨hleast, by unfold Word.greatest; omega⟩
    refine ⟨{ negative := true, whole := Nat.toDigits 10 size, fraction := none, exponent := none }, ?_, ?_⟩
    · rw [renderInt_neg hpos]
      simpa using Written.mk .minus (whole_toDigits size) .none .none
    · simp [toInt?, hpos, hsigned]
  · obtain ⟨size, rfl⟩ := Int.eq_ofNat_of_zero_le hnonneg
    have hunsigned : Word.Unsigned size := Int.ofNat_lt.mp hlimit
    refine ⟨{ negative := false, whole := Nat.toDigits 10 size, fraction := none, exponent := none }, ?_, ?_⟩
    · rw [renderInt_natCast]
      simpa using Written.mk .none (whole_toDigits size) .none .none
    · simp [toInt?, hunsigned]

/-- **An integer of a word has no other text.** -/
theorem Written.eq_renderInt {text : List Char} {n : Numeral} (h : Written text n) {i : Int}
    (hint : n.toInt? = some i) : text = Json.renderInt i ∧ Json.IsWord i := by
  obtain @⟨sign, whole, fraction, exponent, negative, digits, power, hsign, hwhole, hfraction, hexponent⟩ := h
  unfold toInt? at hint
  split at hint
  · cases hint
  case isFalse hplain =>
    -- neither a fraction nor an exponent
    obtain ⟨hdigits, hpower⟩ := not_or.mp hplain
    obtain rfl : digits = none := by simpa using hdigits
    obtain rfl : power = none := by simpa using hpower
    cases hfraction
    cases hexponent
    cases hsign with
    | minus =>
      obtain ⟨⟨hpos, hsigned⟩, heq⟩ := Option.ite_none_right_eq_some.mp hint
      obtain rfl := Option.some.inj heq
      refine ⟨?_, hsigned.1, by unfold Word.unsignedLimit; omega⟩
      rw [renderInt_neg hpos, toDigits_ofDigits hwhole]
      simp
    | none =>
      obtain ⟨hunsigned, heq⟩ := Option.ite_none_right_eq_some.mp hint
      obtain rfl := Option.some.inj heq
      refine ⟨?_, by unfold Word.least; omega, Int.ofNat_lt.mpr hunsigned⟩
      rw [renderInt_natCast, toDigits_ofDigits hwhole]
      simp

end Bourse.Numeral
