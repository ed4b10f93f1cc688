import SignalFlow.Formula.Basic

/-!
# Definitions

The output of a block without state is defined by a term over other variables, by one term
for every element of a vector, or by cases with guards that exclude each other.  A width
only records how many elements a vector has.

`Definition.inline` replaces a defined name inside another definition.
-/

namespace SignalFlow

/-- What a name stands for. -/
inductive Definition (R : Type) where
  /-- The name equals a term. -/
  | simple (name : String) (body : Term R)
  /-- The elements of the name equal the terms in order. -/
  | vector (name : String) (bodies : List (Term R))
  /-- The name equals the term whose guard holds. -/
  | cases (name : String) (alternatives : List (Formula R × Term R))
  /-- The name is a vector with that many elements. -/
  | width (name : String) (count : Nat)
  deriving BEq

namespace Definition

variable {R : Type}

instance : Inhabited (Definition R) := ⟨.width "" 0⟩

/-- The name that is defined. -/
def name : Definition R → String
  | .simple x _ => x
  | .vector x _ => x
  | .cases x _ => x
  | .width x _ => x

/-- Whether only a width is recorded. -/
def isWidth : Definition R → Bool
  | .width _ _ => true
  | _ => false

/-- The terms a name is defined by. -/
def bodies : Definition R → List (Term R)
  | .simple _ t => [t]
  | .vector _ ts => ts
  | .cases _ cs => cs.map Prod.snd
  | .width _ _ => []

/-- Whether the variable `x` occurs in a term or guard. -/
def mentions (x : String) : Definition R → Bool
  | .simple _ t => t.mentions x
  | .vector _ ts => ts.any (Term.mentions x)
  | .cases _ cs => cs.any fun c => c.1.mentions x || c.2.mentions x
  | .width _ _ => false

/-- The names that stand for parts of a definition: the elements of a vector. -/
def elementNames : Definition R → List String
  | .vector x ts => (List.range ts.length).map (Term.elementName x)
  | _ => []

/-- Whether a definition uses what another one defines. -/
def dependsOn (d other : Definition R) : Bool :=
  !d.isWidth && !other.isWidth
    && (d.mentions other.name || other.elementNames.any fun x => d.mentions x)

variable [Scalar R]

/-- Replace several variables one after the other. -/
def substEach {α : Type} (subst : α → String → Term R → α) (pairs : List (String × Term R))
    (a : α) : α :=
  pairs.foldl (fun a xt => subst a xt.1 xt.2) a

/-- The replacements a definition without guards stands for. -/
def replacements : Definition R → List (String × Term R)
  | .simple x t => [(x, t)]
  | .vector x ts => ts.zipIdx.map fun (t, i) => (Term.elementName x i, t)
  | .cases _ _ => []
  | .width _ _ => []

/-- Replace what a definition without guards defines in a term. -/
def substTerm (d : Definition R) (t : Term R) : Term R :=
  substEach Term.subst d.replacements t

/-- Replace what a definition without guards defines in a formula. -/
def substFormula (d : Definition R) (p : Formula R) : Formula R :=
  substEach Formula.subst d.replacements p

/-- Replace what `other`, a definition without guards, defines.  A name for a whole vector
becomes a vector itself. -/
def inlinePlain (d other : Definition R) : Definition R :=
  match d with
  | .simple x t =>
      match t, other with
      | .var y, .vector z ts =>
          if y == z then .vector x ts else .simple x (other.substTerm t)
      | _, _ => .simple x (other.substTerm t)
  | .vector x ts => .vector x (ts.map other.substTerm)
  | .cases x cs => .cases x (cs.map fun c => (other.substFormula c.1, other.substTerm c.2))
  | .width x n => .width x n

/-- A case in which `y` may be used, split by the cases of `y`. -/
def splitCase (y : String) (alternatives : List (Formula R × Term R))
    (c : Formula R × Term R) : List (Formula R × Term R) :=
  if c.1.mentions y || c.2.mentions y then
    alternatives.map fun a => (.conj [c.1.subst y a.2, a.1], c.2.subst y a.2)
  else [c]

/-- The term `t` as a definition of `x` by the cases of `y`. -/
def byCases (x : String) (t : Term R) (y : String)
    (alternatives : List (Formula R × Term R)) : Definition R :=
  .cases x (alternatives.map fun a => (a.1, t.subst y a.2))

/-- Replace the name `y` that is defined by cases.  A vector falls apart into its
elements. -/
def inlineCases (d : Definition R) (y : String)
    (alternatives : List (Formula R × Term R)) : List (Definition R) :=
  match d with
  | .simple x t => [byCases x t y alternatives]
  | .cases x cs => [.cases x (cs.flatMap (splitCase y alternatives))]
  | .vector x ts =>
      ts.zipIdx.map fun (t, i) =>
        if t.mentions y then byCases (Term.elementName x i) t y alternatives
        else .simple (Term.elementName x i) t
  | .width _ _ => []

/-- The definition with `other` replaced in it; empty if nothing changes. -/
def inline (d other : Definition R) : List (Definition R) :=
  if d.dependsOn other then
    let results := match other with
      | .simple _ _ => [d.inlinePlain other]
      | .vector _ _ => [d.inlinePlain other]
      | .cases y cs => d.inlineCases y cs
      | .width _ _ => []
    if results == [d] then [] else results
  else []

/-- Text of a definition. -/
def render : Definition R → String
  | .simple x t => x ++ " := " ++ t.render
  | .vector x ts => x ++ " := [" ++ String.intercalate ", " (ts.map Term.render) ++ "]"
  | .cases x cs =>
      x ++ " :=" ++ String.intercalate " |" (cs.map fun c =>
        " " ++ c.2.render ++ " if " ++ c.1.render)
  | .width x n => "#" ++ x ++ " = " ++ toString n

end Definition
end SignalFlow
