import SignalFlow.Scalar.Basic

/-!
# Terms

Real-valued terms over named variables: literals, sums and products of any number of
operands, negation, quotients and powers.

* `Term.sum` and `Term.product` build sums and products with their direct operands spliced
  in, so that they nest no deeper than needed.
* `Term.value?` is the value of a term without variables.
* `Term.subst` replaces a variable by a term, and rebuilds sums and products on the way.
-/

namespace SignalFlow

/-- A term with literals in `R`. -/
inductive Term (R : Type) where
  | num (value : R)
  | var (name : String)
  | add (operands : List (Term R))
  | mul (operands : List (Term R))
  | neg (operand : Term R)
  | div (dividend divisor : Term R)
  | pow (base exponent : Term R)

namespace Term

variable {R : Type}

instance : Inhabited (Term R) := ⟨.add []⟩

section Equality

variable [BEq R]

mutual

/-- Two terms are built alike from equal literals. -/
def beq : Term R → Term R → Bool
  | .num a, .num b => a == b
  | .var x, .var y => x == y
  | .add ts, .add us => beqList ts us
  | .mul ts, .mul us => beqList ts us
  | .neg t, .neg u => beq t u
  | .div a b, .div c d => beq a c && beq b d
  | .pow a b, .pow c d => beq a c && beq b d
  | _, _ => false

/-- Operand by operand `beq`. -/
def beqList : List (Term R) → List (Term R) → Bool
  | [], [] => true
  | t :: ts, u :: us => beq t u && beqList ts us
  | _, _ => false

end

instance : BEq (Term R) := ⟨beq⟩

end Equality

/-- Name of element `index` of the vector variable `name`. -/
def elementName (name : String) (index : Nat) : String :=
  name ++ "[" ++ toString index ++ "]"

/-- Element `index` of the vector variable `name`. -/
def element (name : String) (index : Nat) : Term R :=
  .var (elementName name index)

/-- The name, if the term is a bare variable. -/
def asVar? : Term R → Option String
  | .var x => some x
  | _ => none

/-- The summands of a sum; any other term stands for itself. -/
def summands : Term R → List (Term R)
  | .add ts => ts
  | t => [t]

/-- The factors of a product; any other term stands for itself. -/
def factors : Term R → List (Term R)
  | .mul ts => ts
  | t => [t]

section Arithmetic

variable [Scalar R]

/-- The sum of `ts`, with the summands of its direct operands spliced in. -/
def sum (ts : List (Term R)) : Term R :=
  match ts.flatMap summands with
  | [] => .num 0
  | [t] => t
  | flat => .add flat

/-- The product of `ts`, with the factors of its direct operands spliced in. -/
def product (ts : List (Term R)) : Term R :=
  match ts.flatMap factors with
  | [] => .num 1
  | [t] => t
  | flat => .mul flat

/-- The sum of two terms. -/
def plus (t u : Term R) : Term R :=
  sum [t, u]

/-- The product of two terms. -/
def times (t u : Term R) : Term R :=
  product [t, u]

/-- The negated term; literals change their sign and a double negation goes away. -/
def negate : Term R → Term R
  | .num v => .num (-v)
  | .neg t => t
  | t => .neg t

mutual

/-- Value of a term without variables; a quotient by zero has none. -/
def value? : Term R → Option R
  | .num v => some v
  | .var _ => none
  | .add ts => sumFrom? (-0) ts
  | .mul ts => productFrom? 1 ts
  | .neg t => (value? t).map (- ·)
  | .div a b =>
      match value? b with
      | none => none
      | some d => if d == 0 then none else (value? a).map (· / d)
  | .pow a b =>
      match value? a, value? b with
      | some x, some y => some (Scalar.pow x y)
      | _, _ => none

/-- Add the values of all operands to `acc`. -/
def sumFrom? (acc : R) : List (Term R) → Option R
  | [] => some acc
  | t :: ts =>
      match value? t with
      | none => none
      | some v => sumFrom? (acc + v) ts

/-- Multiply `acc` by the values of all operands. -/
def productFrom? (acc : R) : List (Term R) → Option R
  | [] => some acc
  | t :: ts =>
      match value? t with
      | none => none
      | some v => productFrom? (acc * v) ts

end

/-- A term with a finite value is replaced by it; any other term is kept. -/
def folded (t : Term R) : Term R :=
  match value? t with
  | some v => if Scalar.isFinite v then .num v else t
  | none => t

mutual

/-- The term with every occurrence of the variable `x` replaced by `r`. -/
def subst (t : Term R) (x : String) (r : Term R) : Term R :=
  match t with
  | .num v => .num v
  | .var y => if y == x then r else .var y
  | .add ts => sum (substList ts x r)
  | .mul ts => product (substList ts x r)
  | .neg t => .neg (subst t x r)
  | .div a b => .div (subst a x r) (subst b x r)
  | .pow a b => .pow (subst a x r) (subst b x r)

/-- The operands with the variable `x` replaced in each. -/
def substList (ts : List (Term R)) (x : String) (r : Term R) : List (Term R) :=
  match ts with
  | [] => []
  | t :: ts => subst t x r :: substList ts x r

end

theorem substList_eq_map (ts : List (Term R)) (x : String) (r : Term R) :
    substList ts x r = ts.map (subst · x r) := by
  induction ts with
  | nil => simp [substList]
  | cons t ts ih => simp [substList, ih]

end Arithmetic

mutual

/-- Whether the variable `x` occurs. -/
def mentions (x : String) : Term R → Bool
  | .num _ => false
  | .var y => y == x
  | .add ts => mentionsAny x ts
  | .mul ts => mentionsAny x ts
  | .neg t => mentions x t
  | .div a b => mentions x a || mentions x b
  | .pow a b => mentions x a || mentions x b

/-- Whether the variable `x` occurs in one of the operands. -/
def mentionsAny (x : String) : List (Term R) → Bool
  | [] => false
  | t :: ts => mentions x t || mentionsAny x ts

end

theorem mentionsAny_eq_any (x : String) (ts : List (Term R)) :
    mentionsAny x ts = ts.any (mentions x) := by
  induction ts with
  | nil => simp [mentionsAny]
  | cons t ts ih => simp [mentionsAny, ih]

mutual

/-- The variables of a term, from left to right. -/
def vars : Term R → List String
  | .num _ => []
  | .var x => [x]
  | .add ts => varsList ts
  | .mul ts => varsList ts
  | .neg t => vars t
  | .div a b => vars a ++ vars b
  | .pow a b => vars a ++ vars b

/-- The variables of all operands. -/
def varsList : List (Term R) → List String
  | [] => []
  | t :: ts => vars t ++ varsList ts

end

end Term
end SignalFlow
