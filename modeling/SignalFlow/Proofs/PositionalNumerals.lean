import Mathlib.Data.List.TakeWhile
import Mathlib.Tactic.NormNum
import SignalFlow.Decimal.Numeral
import SignalFlow.Decimal.Shortest

/-!
# Positional numerals

A decimal that is written without an exponent has digits in front of its point and, if it
has a point, digits behind it.  Such a text is read as the decimal it was written for, with
its exponent moved into the digits where the decimal is a whole number: `Parts.read?_text`,
`exists_parts_positional`.
-/

namespace SignalFlow
namespace Decimal

theorem digitsValue_eq (cs : List Char) : digitsValue cs = Nat.ofDigitChars 10 cs 0 :=
  rfl

theorem digitsValue_toDigits (n : ℕ) : digitsValue (Nat.toDigits 10 n) = n :=
  Nat.ofDigitChars_ten_toDigits

theorem digitsValue_append_zeros (cs : List Char) (n : ℕ) :
    digitsValue (cs ++ List.replicate n '0') = digitsValue cs * 10 ^ n := by
  rw [digitsValue_eq, digitsValue_eq, Nat.ofDigitChars_append,
    Nat.ofDigitChars_replicate_zero, mul_comm]

theorem digitsValue_zeros_append (n : ℕ) (cs : List Char) :
    digitsValue (List.replicate n '0' ++ cs) = digitsValue cs := by
  rw [digitsValue_eq, digitsValue_eq, Nat.ofDigitChars_append,
    Nat.ofDigitChars_replicate_zero, mul_zero]

/-- The two parts of a numeral, and what it stands for. -/
structure Parts where
  whole : List Char
  fraction : Option (List Char)
  whole_ne_nil : whole ≠ []
  isDigit_whole : ∀ c ∈ whole, c.isDigit = true
  isDigit_fraction : ∀ cs ∈ fraction, ∀ c ∈ cs, c.isDigit = true

namespace Parts

/-- The characters of the numeral. -/
def text (p : Parts) : List Char :=
  match p.fraction with
  | none => p.whole
  | some cs => p.whole ++ '.' :: cs

/-- The value of all digits. -/
def digits (p : Parts) : ℕ :=
  digitsValue (p.whole ++ p.fraction.getD [])

/-- The exponent of the last digit. -/
def exponent (p : Parts) : ℤ :=
  -((p.fraction.getD []).length : ℤ)

theorem readUnsigned?_text (p : Parts) (negative : Bool) :
    readUnsigned? negative p.text = some (.finite negative p.digits p.exponent) := by
  obtain ⟨whole, fraction, hwhole, hdigits, hfraction⟩ := p
  cases fraction with
  | none =>
    have htake : whole.takeWhile Char.isDigit = whole :=
      List.takeWhile_eq_self_iff.mpr hdigits
    have hdrop : whole.dropWhile Char.isDigit = [] := List.dropWhile_eq_nil_iff.mpr hdigits
    simp [readUnsigned?, text, digits, exponent, htake, hdrop, hwhole, readExponentPart?]
  | some cs =>
    have hcs := hfraction cs rfl
    have htake : cs.takeWhile Char.isDigit = cs := List.takeWhile_eq_self_iff.mpr hcs
    have hdrop : cs.dropWhile Char.isDigit = [] := List.dropWhile_eq_nil_iff.mpr hcs
    simp [readUnsigned?, text, digits, exponent, List.takeWhile_append_of_pos hdigits,
      List.dropWhile_append_of_pos hdigits, htake, hdrop, hwhole, readExponentPart?]

theorem exists_text_eq_cons (p : Parts) : ∃ c cs, p.text = c :: cs ∧ c.isDigit = true := by
  obtain ⟨whole, fraction, hwhole, hdigits, hfraction⟩ := p
  cases whole with
  | nil => exact absurd rfl hwhole
  | cons c cs => cases fraction <;> exact ⟨c, _, rfl, hdigits c List.mem_cons_self⟩

theorem isDigit_or_eq_of_mem_text (p : Parts) {c : Char} (hc : c ∈ p.text) :
    c.isDigit = true ∨ c = '.' := by
  obtain ⟨whole, fraction, hwhole, hdigits, hfraction⟩ := p
  cases fraction with
  | none => exact .inl (hdigits c hc)
  | some cs =>
    simp only [text, List.mem_append, List.mem_cons] at hc
    obtain hc | hc | hc := hc
    · exact .inl (hdigits c hc)
    · exact .inr hc
    · exact .inl (hfraction cs rfl c hc)

/-- A numeral that starts with a digit has no sign and is not a word. -/
theorem read?_text (p : Parts) :
    Numeral.read? (String.ofList p.text) = some (.finite false p.digits p.exponent) := by
  obtain ⟨c, cs, htext, hc⟩ := p.exists_text_eq_cons
  have hsign : splitSign p.text = (false, p.text) := by
    rw [htext, splitSign]
    · rintro tail ⟨⟩
      cases hc
    · rintro tail ⟨⟩
      cases hc
  have hlower : c.toLower = c := by
    simp only [Char.isDigit, Bool.and_eq_true, decide_eq_true_eq] at hc
    exact dif_neg (by grind)
  have hword : ∀ w ∈ ["inf", "infinity", "nan"],
      String.ofList (p.text.map Char.toLower) ≠ w := by
    intro w hw heq
    have hhead : w.toList.head? = some c := by
      rw [← heq, String.toList_ofList, htext, List.map_cons, hlower, List.head?_cons]
    have hletters : ∀ w ∈ ["inf", "infinity", "nan"],
      w.toList.head?.any Char.isDigit = false := by decide
    simpa [hhead, hc] using hletters w hw
  have hinf := hword "inf" (by simp)
  have hinfinity := hword "infinity" (by simp)
  have hnan := hword "nan" (by simp)
  simp only [Numeral.read?, String.toList_ofList, hsign, p.readUnsigned?_text, hinf,
    hinfinity, hnan, decide_false, Bool.or_self, Bool.false_eq_true, if_false]

theorem isDigit_toDigits (c : ℕ) : ∀ d ∈ Nat.toDigits 10 c, d.isDigit = true := fun _ hd =>
  Nat.isDigit_of_mem_toDigits (by norm_num) le_rfl hd

theorem isDigit_zeros (n : ℕ) : ∀ d ∈ List.replicate n '0', d.isDigit = true := by
  intro d hd
  rw [List.eq_of_mem_replicate hd]
  rfl

/-- The number `c` with zeros behind it. -/
def scaledUp (c zeros : ℕ) : Parts where
  whole := Nat.toDigits 10 c ++ List.replicate zeros '0'
  fraction := none
  whole_ne_nil := List.append_ne_nil_of_left_ne_nil Nat.toDigits_ne_nil _
  isDigit_whole := fun d hd =>
    (List.mem_append.mp hd).elim (isDigit_toDigits c d) (isDigit_zeros zeros d)
  isDigit_fraction := by simp

/-- The number `c` with a point between its digits. -/
def pointInside (c places : ℕ) (h : places < (Nat.toDigits 10 c).length) : Parts where
  whole := (Nat.toDigits 10 c).take ((Nat.toDigits 10 c).length - places)
  fraction := some ((Nat.toDigits 10 c).drop ((Nat.toDigits 10 c).length - places))
  whole_ne_nil := by
    rw [← List.length_pos_iff, List.length_take]
    omega
  isDigit_whole := fun d hd => isDigit_toDigits c d (List.mem_of_mem_take hd)
  isDigit_fraction := by
    rintro cs ⟨⟩ d hd
    exact isDigit_toDigits c d (List.mem_of_mem_drop hd)

/-- The number `c` behind a point and zeros. -/
def pointBefore (c zeros : ℕ) : Parts where
  whole := ['0']
  fraction := some (List.replicate zeros '0' ++ Nat.toDigits 10 c)
  whole_ne_nil := by simp
  isDigit_whole := isDigit_zeros 1
  isDigit_fraction := by
    rintro cs ⟨⟩ d hd
    exact (List.mem_append.mp hd).elim (isDigit_zeros zeros d) (isDigit_toDigits c d)

theorem digits_scaledUp (c zeros : ℕ) : (scaledUp c zeros).digits = c * 10 ^ zeros := by
  rw [digits, scaledUp, Option.getD_none, List.append_nil, digitsValue_append_zeros,
    digitsValue_toDigits]

theorem digits_pointInside {c places : ℕ} (h : places < (Nat.toDigits 10 c).length) :
    (pointInside c places h).digits = c := by
  rw [digits, pointInside, Option.getD_some, List.take_append_drop, digitsValue_toDigits]

theorem exponent_pointInside {c places : ℕ} (h : places < (Nat.toDigits 10 c).length) :
    (pointInside c places h).exponent = -places := by
  rw [exponent, pointInside, Option.getD_some, List.length_drop]
  omega

theorem digits_pointBefore (c zeros : ℕ) : (pointBefore c zeros).digits = c := by
  have hzeros : (pointBefore c zeros).digits = digitsValue
    (List.replicate (zeros + 1) '0' ++ Nat.toDigits 10 c) := rfl
  rw [hzeros, digitsValue_zeros_append, digitsValue_toDigits]

theorem exponent_pointBefore (c zeros : ℕ) :
    (pointBefore c zeros).exponent = -((zeros + (Nat.toDigits 10 c).length : ℕ) : ℤ) := by
  rw [exponent, pointBefore, Option.getD_some, List.length_append, List.length_replicate]

end Parts

/-- A decimal that is written without an exponent has parts that stand for it. -/
theorem exists_parts_positional (c : ℕ) (k : ℤ) :
    ∃ p : Parts, positional c k = String.ofList p.text ∧
      (p.digits : ℚ) * 10 ^ p.exponent = c * 10 ^ k := by
  unfold positional
  split
  case isTrue hk =>
    refine ⟨.scaledUp c k.toNat, rfl, ?_⟩
    have hpow : (10 : ℚ) ^ k = 10 ^ k.toNat := by
      rw [← zpow_natCast, Int.toNat_of_nonneg hk]
    have hexponent : (Parts.scaledUp c k.toNat).exponent = 0 := rfl
    rw [Parts.digits_scaledUp, hexponent, hpow, Nat.cast_mul, Nat.cast_pow, zpow_zero,
      mul_one, Nat.cast_ofNat]
  case isFalse hk =>
    dsimp only
    split
    case isTrue hplaces =>
      refine ⟨.pointInside c (-k).toNat hplaces, rfl, ?_⟩
      have hexponent : -((-k).toNat : ℤ) = k := by omega
      rw [Parts.digits_pointInside, Parts.exponent_pointInside, hexponent]
    case isFalse hplaces =>
      refine ⟨.pointBefore c ((-k).toNat - (Nat.toDigits 10 c).length), rfl, ?_⟩
      have hexponent :
          -(((-k).toNat - (Nat.toDigits 10 c).length + (Nat.toDigits 10 c).length : ℕ) :
            ℤ) = k := by omega
      rw [Parts.digits_pointBefore, Parts.exponent_pointBefore, hexponent]

end Decimal
end SignalFlow
