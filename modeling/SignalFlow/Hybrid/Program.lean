import SignalFlow.Formula.Basic

/-!
# Hybrid programs

Discrete programs with assignments, arbitrary assignments, tests, sequences, choices and
loops, and continuous evolutions along differential equations inside a domain.
-/

namespace SignalFlow

/-- A discrete program. -/
inductive Program (R : Type) where
  | skip
  | assign (target : String) (value : Term R)
  /-- Any value is assigned. -/
  | havoc (target : String)
  | test (condition : Formula R)
  | seq (parts : List (Program R))
  | choice (parts : List (Program R))
  | loop (body : Program R)

namespace Program

variable {R : Type}

instance : Inhabited (Program R) := ⟨.skip⟩

/-- The parts of a sequence; any other program stands for itself, and `skip` for
nothing. -/
def steps : Program R → List (Program R)
  | .skip => []
  | .seq ps => ps
  | p => [p]

/-- Run programs in order, with direct sequences spliced in. -/
def sequence (ps : List (Program R)) : Program R :=
  match ps.flatMap steps with
  | [] => .skip
  | [p] => p
  | flat => .seq flat

/-- Run one of several programs; there is nothing to do without any. -/
def oneOf (ps : List (Program R)) : Program R :=
  match ps with
  | [] => .skip
  | [p] => p
  | ps => .choice ps

mutual

/-- Whether the variable `x` is read. -/
def mentions (x : String) : Program R → Bool
  | .skip => false
  | .assign _ t => t.mentions x
  | .havoc _ => false
  | .test p => p.mentions x
  | .seq ps => mentionsAny x ps
  | .choice ps => mentionsAny x ps
  | .loop p => mentions x p

/-- Whether the variable `x` is read in one of the parts. -/
def mentionsAny (x : String) : List (Program R) → Bool
  | [] => false
  | p :: ps => mentions x p || mentionsAny x ps

end

variable [Scalar R]

/-- Indentation of a level. -/
def indentation (level : Nat) : String :=
  String.ofList (List.replicate (2 * level) ' ')

mutual

/-- Lines of a program at a level of indentation. -/
def renderAt (level : Nat) : Program R → String
  | .skip => indentation level ++ "skip;\n"
  | .assign x t => indentation level ++ x ++ " := " ++ t.render ++ ";\n"
  | .havoc x => indentation level ++ x ++ " := *;\n"
  | .test p => indentation level ++ "?" ++ p.render ++ ";\n"
  | .seq ps => renderSteps level ps
  | .choice ps => renderChoices level "" ps
  | .loop p =>
      indentation level ++ "\x7b\n" ++ renderAt (level + 1) p ++
        indentation level ++ "\x7d*\n"

/-- Lines of the parts of a sequence. -/
def renderSteps (level : Nat) : List (Program R) → String
  | [] => ""
  | p :: ps => renderAt level p ++ renderSteps level ps

/-- Lines of the parts of a choice; `divider` stands before the next part. -/
def renderChoices (level : Nat) (divider : String) : List (Program R) → String
  | [] => ""
  | p :: ps =>
      divider ++ indentation level ++ "\x7b\n" ++ renderAt (level + 1) p ++
        indentation level ++ "\x7d\n"
        ++ renderChoices level (indentation level ++ "++\n") ps

end

/-- Text of a program. -/
def render (p : Program R) : String :=
  renderAt 0 p

end Program

/-- Variables change along their derivatives while the domain holds. -/
structure Evolution (R : Type) where
  odes : List (String × Term R)
  domain : Formula R

namespace Evolution

variable {R : Type}

/-- Whether the variable `x` is read. -/
def mentions (x : String) (e : Evolution R) : Bool :=
  e.odes.any (fun ode => ode.2.mentions x) || e.domain.mentions x

/-- Text of an evolution; the domain of all states is left out. -/
def render [Scalar R] (e : Evolution R) : String :=
  let odes := e.odes.map fun ode => ode.1 ++ "' = " ++ ode.2.render
  let domain := match e.domain with
    | .top => ""
    | p => " & " ++ p.render
  "\x7b" ++ String.intercalate ", " odes ++ domain ++ "\x7d"

end Evolution
end SignalFlow
