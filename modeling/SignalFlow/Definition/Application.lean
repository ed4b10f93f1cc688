import SignalFlow.Definition.Vector
import SignalFlow.Hybrid.Model

/-!
# Unfolding definitions in a model

Every use of a defined name is replaced by what it stands for.  Cases become disjunctions
in formulas, choices in programs and separate evolutions in the plant.
-/

namespace SignalFlow

variable {R : Type} [Scalar R]

namespace Definition

/-- The alternatives for a term, with their guards. -/
def expand (d : Definition R) (t : Term R) : List (Formula R × Term R) :=
  match d with
  | .cases x cs =>
      if t.mentions x then cs.map fun c => (c.1, t.subst x c.2) else [(.top, t)]
  | d => [(.top, d.substTerm t)]

/-- Unfold a definition in a formula. -/
def unfoldFormula (d : Definition R) (p : Formula R) : Formula R :=
  match d with
  | .cases x cs =>
      if p.mentions x then .disj (cs.map fun c => .conj [c.1, p.subst x c.2]) else p
  | d => d.substFormula p

/-- Assign one of the alternatives whose guard holds. -/
def assignExpanded (x : String) (alternatives : List (Formula R × Term R)) : Program R :=
  match alternatives with
  | [(.top, t)] => .assign x t
  | as => .oneOf (as.map fun a => .sequence [.test a.1, .assign x a.2])

mutual

/-- Unfold a definition in a program. -/
def unfoldProgram (d : Definition R) : Program R → Program R
  | .skip => .skip
  | .havoc x => .havoc x
  | .assign x t => assignExpanded x (d.expand t)
  | .test p => .test (d.unfoldFormula p)
  | .seq ps => .sequence (unfoldPrograms d ps)
  | .choice ps => .oneOf (unfoldPrograms d ps)
  | .loop p => .loop (unfoldProgram d p)

/-- Unfold a definition in several programs. -/
def unfoldPrograms (d : Definition R) : List (Program R) → List (Program R)
  | [] => []
  | p :: ps => unfoldProgram d p :: unfoldPrograms d ps

end

/-- Unfold a definition in an evolution, which is split by cases. -/
def unfoldEvolution (d : Definition R) (e : Evolution R) : List (Evolution R) :=
  match d with
  | .cases x cs =>
      if e.mentions x then
        cs.map fun c =>
          { odes := e.odes.map fun ode => (ode.1, ode.2.subst x c.2)
            domain := .conj [c.1, e.domain.subst x c.2] }
      else [e]
  | d =>
      [{ odes := e.odes.map fun ode => (ode.1, d.substTerm ode.2)
         domain := d.substFormula e.domain }]

/-- Unfold a definition in a model. -/
def unfoldModel (m : HybridModel R) (d : Definition R) : HybridModel R :=
  { m with
    initial := d.unfoldFormula m.initial
    control := d.unfoldProgram m.control
    plant := m.plant.flatMap d.unfoldEvolution
    contract := d.unfoldProgram m.contract
    properties := distinct (m.properties.map d.unfoldFormula) }

end Definition

namespace Formula

/-- The formula holds at every element of a vector it uses as a whole. -/
def liftVector (v : String) (width : Nat) (p : Formula R) : Formula R :=
  if p.mentions v then .conj ((List.range width).map fun i => Definition.formulaAt v i p)
    else p

end Formula

namespace Program

mutual

/-- Element by element what a program does with a whole vector. -/
def liftVector (v : String) (width : Nat) : Program R → Program R
  | .skip => .skip
  | .havoc x => .havoc x
  | .assign x t =>
      if t.mentions v then
        .sequence ((List.range width).map fun i =>
          .assign (Term.elementName x i) (Definition.atElement v i t))
      else .assign x t
  | .test p => .test (p.liftVector v width)
  | .seq ps => .sequence (liftVectors v width ps)
  | .choice ps => .oneOf (liftVectors v width ps)
  | .loop p => .loop (liftVector v width p)

/-- Element by element what several programs do. -/
def liftVectors (v : String) (width : Nat) : List (Program R) → List (Program R)
  | [] => []
  | p :: ps => liftVector v width p :: liftVectors v width ps

end

mutual

/-- The variables that are assigned from the whole vector `v`. -/
def vectorTargets (v : String) : Program R → List String
  | .skip => []
  | .havoc _ => []
  | .assign x t => if t.mentions v then [x] else []
  | .test _ => []
  | .seq ps => vectorTargetsList v ps
  | .choice ps => vectorTargetsList v ps
  | .loop p => vectorTargets v p

/-- The variables that are assigned from the whole vector `v` in several programs. -/
def vectorTargetsList (v : String) : List (Program R) → List String
  | [] => []
  | p :: ps => vectorTargets v p ++ vectorTargetsList v ps

end

end Program

namespace Evolution

/-- Element by element what an evolution does with a whole vector. -/
def liftVector (v : String) (width : Nat) (e : Evolution R) : Evolution R :=
  { odes := e.odes.flatMap fun ode =>
      if ode.2.mentions v then
        (List.range width).map fun i =>
          (Term.elementName ode.1 i, Definition.atElement v i ode.2)
      else [ode]
    domain := e.domain.liftVector v width }

/-- The variables whose derivative is the whole vector `v`. -/
def vectorTargets (v : String) (e : Evolution R) : List String :=
  (e.odes.filter fun ode => ode.2.mentions v).map Prod.fst

end Evolution

namespace HybridModel

/-- Element by element what a model does with a whole vector. -/
def liftVector (m : HybridModel R) (v : String) (width : Nat) : HybridModel R :=
  { m with
    initial := m.initial.liftVector v width
    control := m.control.liftVector v width
    plant := m.plant.map (Evolution.liftVector v width)
    contract := m.contract.liftVector v width
    properties := m.properties.map (Formula.liftVector v width) }

/-- The variables that become vectors with `v`. -/
def vectorTargets (m : HybridModel R) (v : String) : List String :=
  m.control.vectorTargets v ++ m.plant.flatMap (Evolution.vectorTargets v) ++
    m.contract.vectorTargets v

/-- A model while its vectors are lifted. -/
structure Lifting (R : Type) where
  /-- Vectors that are still to be lifted, the next one first. -/
  pending : Definition.Widths
  /-- Vectors that have been lifted. -/
  lifted : List String
  model : HybridModel R

/-- Lift the next vector, unless it has been lifted.  The variables that become vectors
with it come next, the last first. -/
def Lifting.step? (l : Lifting R) : Option (Lifting R) :=
  match l.pending with
  | [] => none
  | (v, width) :: rest =>
      if l.lifted.contains v then some { l with pending := rest }
      else
        some
          { pending := ((l.model.vectorTargets v).reverse.map fun x => (x, width)) ++ rest
            lifted := v :: l.lifted
            model := l.model.liftVector v width }

/-- Lift all vectors that definitions speak of, the last first. -/
def liftAll (m : HybridModel R) (ds : List (Definition R)) : HybridModel R :=
  (exhaust Lifting.step? ⟨(Definition.widths ds).reverse, [], m⟩).model

/-- Unfold definitions, in order, in every part of a model. -/
def unfoldAll (m : HybridModel R) (ds : List (Definition R)) : HybridModel R :=
  (ds.filter fun d => !d.isWidth).foldl Definition.unfoldModel (m.liftAll ds)

end HybridModel
end SignalFlow
