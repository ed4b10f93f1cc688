import Mathlib.Data.List.TakeWhile
import SignalFlow.Definition.Vector
import SignalFlow.Diagram.Block

/-!
# Names of variables

Variables of blocks have plain names: letters, digits and underscores.  The name of an
element has a bracket, so it is not the name of a block's variable.

**Results.**
* `plain_varBase`, `plain_outputVar`: variables of blocks are plain.
* `elementOf?_of_plain`, `elementOf?_elementName`: a plain name is no element, and the
  names of elements are read back.
-/

namespace SignalFlow

/-- A name without brackets. -/
def PlainName (x : String) : Prop :=
  '[' ∉ x.toList

instance (x : String) : Decidable (PlainName x) :=
  inferInstanceAs (Decidable ('[' ∉ x.toList))

theorem PlainName.append {x y : String} (hx : PlainName x) (hy : PlainName y) :
    PlainName (x ++ y) := by
  unfold PlainName at *
  rw [String.toList_append, List.mem_append]
  rintro (h | h)
  · exact hx h
  · exact hy h

theorem plain_toString (n : Nat) : PlainName (toString n) := by
  intro hmem
  have hdigits : (toString n).toList = Nat.toDigits 10 n := Nat.toList_repr
  rw [hdigits] at hmem
  have hdigit := Nat.isDigit_of_mem_toDigits (by decide) (by decide) hmem
  exact absurd hdigit (by decide)

namespace Block

theorem plain_varBase (b : Block) : PlainName b.varBase := by
  have hbase : '[' ∉ b.name.toList.map fun c => if isWordChar c then c else '_' := by
    intro hmem
    obtain ⟨c, _, hc⟩ := List.mem_map.mp hmem
    split at hc
    · next hword =>
        rw [hc] at hword
        exact absurd hword (by decide)
    · exact absurd hc (by decide)
  unfold varBase PlainName
  simp only
  split
  · decide
  · next c cs hcons =>
      rw [String.toList_ofList]
      split
      · intro hmem
        rcases List.mem_cons.mp hmem with hb | hmem
        · exact absurd hb (by decide)
        · exact hbase hmem
      · exact hbase

theorem plain_outputVar (b : Block) (pin : Nat) : PlainName (b.outputVar pin) := by
  unfold outputVar
  split
  · exact b.plain_varBase.append (by decide)
  · exact (b.plain_varBase.append (by decide)).append (plain_toString _)

end Block

namespace Definition

/-- A plain name is no element. -/
theorem elementOf?_of_plain {x : String} (h : PlainName x) : elementOf? x = none := by
  have hdrop : x.toList.dropWhile (fun c => c != '[') = [] := by
    rw [List.dropWhile_eq_nil_iff]
    intro c hc
    have hne : c ≠ '[' := fun he => h (he ▸ hc)
    simpa using hne
  simp [elementOf?, hdrop]

theorem toList_elementName (x : String) (i : Nat) :
    (Term.elementName x i).toList = x.toList ++ '[' :: (Nat.toDigits 10 i ++ [']']) := by
  have hopen : ("[" : String).toList = ['['] := by decide
  have hclose : ("]" : String).toList = [']'] := by decide
  simp [Term.elementName, hopen, hclose]

/-- An element is no plain name. -/
theorem not_plain_elementName (x : String) (i : Nat) :
    ¬PlainName (Term.elementName x i) := by
  intro h
  apply h
  rw [toList_elementName]
  simp

theorem readNat?_toDigits {i : Nat} (hi : i < Text.countLimit) :
    Text.readNat? Text.countLimit (String.ofList (Nat.toDigits 10 i)) = some i := by
  have hdigit : ∀ c ∈ Nat.toDigits 10 i, c.isDigit = true := fun c hc =>
    Nat.isDigit_of_mem_toDigits (by decide) (by decide) hc
  have hvalue : Decimal.digitsValue (Nat.toDigits 10 i) = i :=
    Nat.ofDigitChars_toDigits (by decide) (by decide)
  have hread : Text.readDigits? Text.countLimit (Nat.toDigits 10 i) = some i := by
    simp [Text.readDigits?, Nat.toDigits_ne_nil, hvalue, hi]
    exact hdigit
  rw [Text.readNat?, String.toList_ofList]
  split
  · next cs hcs =>
      have hplus := hdigit '+' (by simp [hcs])
      exact absurd hplus (by decide)
  · exact hread

/-- The name of an element is read back. -/
theorem elementOf?_elementName {x : String} (hx : PlainName x) {i : Nat}
    (hi : i < Text.countLimit) : elementOf? (Term.elementName x i) = some (x, i) := by
  have hbefore : ∀ c ∈ x.toList, (c != '[') = true := by
    intro c hc
    have hne : c ≠ '[' := fun he => hx (he ▸ hc)
    simpa using hne
  have htake : (x.toList ++ '[' :: (Nat.toDigits 10 i ++ [']'])).takeWhile
      (fun c => c != '[') =
      x.toList := by
    rw [List.takeWhile_append_of_pos hbefore]
    simp
  have hdrop : (x.toList ++ '[' :: (Nat.toDigits 10 i ++ [']'])).dropWhile
      (fun c => c != '[') =
      '[' :: (Nat.toDigits 10 i ++ [']']) := by
    rw [List.dropWhile_append_of_pos hbefore]
    simp
  simp [elementOf?, toList_elementName, htake, hdrop, readNat?_toDigits hi]

/-- The part of a name before the first bracket. -/
def vectorOf (x : String) : String :=
  String.ofList (x.toList.takeWhile fun c => c != '[')

theorem vectorOf_of_plain {x : String} (hx : PlainName x) : vectorOf x = x := by
  have htake : x.toList.takeWhile (fun c => c != '[') = x.toList := by
    rw [List.takeWhile_eq_self_iff]
    intro c hc
    have hne : c ≠ '[' := fun he => hx (he ▸ hc)
    simpa using hne
  rw [vectorOf, htake, String.ofList_toList]

theorem vectorOf_elementName (x : String) (i : Nat) :
    vectorOf (Term.elementName x i) = vectorOf x := by
  rw [vectorOf, vectorOf, toList_elementName]
  congr 1
  induction x.toList with
  | nil => simp
  | cons c cs ih =>
      by_cases hc : c = '['
      · simp [hc]
      · have hne : (c != '[') = true := by simpa using hc
        simp only [List.cons_append, List.takeWhile_cons, hne, if_true, ih]

theorem plain_vectorOf (x : String) : PlainName (vectorOf x) := by
  intro hmem
  rw [vectorOf, String.toList_ofList] at hmem
  have hpos := List.mem_takeWhile_imp hmem
  simp at hpos

/-- An element belongs to the vector in its name. -/
theorem eq_vectorOf_of_elementOf? {x y : String} {i : Nat}
    (h : elementOf? y = some (x, i)) : x = vectorOf y := by
  unfold elementOf? at h
  simp only at h
  split at h
  · cases h
  · split at h
    · simp only [Option.map_eq_some_iff, Prod.mk.injEq] at h
      obtain ⟨_, _, rfl, _⟩ := h
      rfl
    · cases h

end Definition
end SignalFlow
