import SignalFlow.Encoding.Block
import SignalFlow.Proofs.Occurrence

/-!
# Renaming variables

All variables of a term, formula, definition, program or encoding get new names at once.
Nothing else changes, so operands of sums are spliced as before.  A conjunction leaves out
parts that are equal to earlier ones, and a renaming can make more of them equal: it is
kept where the names in it are.

**Results.**
* `Term.over_sum`, `Formula.over_conj` and others: the names in what is built from parts.
* `Term.rename_eq_self`, `Formula.rename_eq_self`: a renaming that keeps the names that
  occur changes nothing.
* `Definition.rename_eq_withName`: a renaming that keeps the names of a right-hand side
  changes the defined name only.
* `Term.rename_sum`: sums are renamed operand by operand.
-/

namespace SignalFlow

/-! ### Names that occur -/

section Names

variable {R : Type} {P : String → Prop}

/-- All variables of a term have a property. -/
def Term.Over (P : String → Prop) (t : Term R) : Prop :=
  ∀ x, t.mentions x = true → P x

/-- All variables of a formula have a property. -/
def Formula.Over (P : String → Prop) (p : Formula R) : Prop :=
  ∀ x, p.mentions x = true → P x

/-- All variables of a right-hand side have a property. -/
def Definition.Over (P : String → Prop) (e : Definition R) : Prop :=
  ∀ x, e.mentions x = true → P x

namespace Term

theorem over_num (a : R) : (Term.num a).Over P := by
  intro x hx
  simp at hx

theorem over_var {x : String} (h : P x) : (Term.var x : Term R).Over P := by
  intro y hy
  rw [mentions_var, beq_iff_eq] at hy
  exact hy ▸ h

theorem Over.div {t u : Term R} (ht : t.Over P) (hu : u.Over P) :
    (Term.div t u).Over P := by
  intro x hx
  rw [mentions_div, Bool.or_eq_true] at hx
  exact hx.elim (ht x) (hu x)

theorem Over.foldl_div {t : Term R} (ht : t.Over P) {us : List (Term R)}
    (hus : ∀ u ∈ us, u.Over P) : (us.foldl Term.div t).Over P :=
  List.foldlRecOn us _ ht fun _ hacc u hu => hacc.div (hus u hu)

variable [Scalar R]

theorem over_sum {ts : List (Term R)} (h : ∀ t ∈ ts, t.Over P) : (sum ts).Over P := by
  intro x hx
  rw [mentions_sum, List.any_eq_true] at hx
  obtain ⟨t, ht, hx⟩ := hx
  exact h t ht x hx

theorem over_product {ts : List (Term R)} (h : ∀ t ∈ ts, t.Over P) :
    (product ts).Over P := by
  intro x hx
  rw [mentions_product, List.any_eq_true] at hx
  obtain ⟨t, ht, hx⟩ := hx
  exact h t ht x hx

theorem Over.times {t u : Term R} (ht : t.Over P) (hu : u.Over P) : (t.times u).Over P :=
  over_product (by simp [ht, hu])

theorem Over.negate {t : Term R} (ht : t.Over P) : t.negate.Over P := by
  intro x hx
  refine ht x ?_
  cases t with
  | num a => simp [Term.negate] at hx
  | _ => simpa [Term.negate] using hx

end Term

namespace Formula

theorem over_compare {t u : Term R} (ht : t.Over P) (hu : u.Over P) (c : Comparison) :
    (Formula.compare t c u).Over P := by
  intro x hx
  rw [compare, mentions_rel, Relation.mentions, Bool.or_eq_true] at hx
  exact hx.elim (ht x) (hu x)

theorem over_conj [BEq R] {ps : List (Formula R)} (h : ∀ p ∈ ps, p.Over P) :
    (conj ps).Over P := by
  intro x hx
  obtain ⟨p, hp, hx⟩ := exists_of_mentions_conj hx
  exact h p hp x hx

theorem Over.opposite {p : Formula R} (hp : p.Over P) : (Encoding.opposite p).Over P := by
  intro x hx
  refine hp x ?_
  cases p with
  | top => simp [Encoding.opposite, Formula.negate] at hx
  | bottom => simp [Encoding.opposite, Formula.negate] at hx
  | _ =>
      simpa [Encoding.opposite, Formula.negate, Relation.negate, Relation.mentions]
        using hx

end Formula

namespace Definition

theorem over_cases {x : String} {cs : List (Formula R × Term R)}
    (h : ∀ c ∈ cs, c.1.Over P ∧ c.2.Over P) : (Definition.cases x cs).Over P := by
  intro y hy
  obtain ⟨c, hc, hy⟩ := List.any_eq_true.mp hy
  rw [Bool.or_eq_true] at hy
  exact hy.elim ((h c hc).1 y) ((h c hc).2 y)

theorem over_vector {x : String} {ts : List (Term R)} (h : ∀ t ∈ ts, t.Over P) :
    (Definition.vector x ts).Over P := by
  intro y hy
  obtain ⟨t, ht, hy⟩ := List.any_eq_true.mp hy
  exact h t ht y hy

theorem over_width (x : String) (n : Nat) :
    (Definition.width x n : Definition R).Over P := by
  intro y hy
  cases hy

end Definition

end Names

/-! ### Renaming variables -/

section Renaming

theorem map_eq_self {α : Type} {f : α → α} {xs : List α} (h : ∀ x ∈ xs, f x = x) :
    xs.map f = xs :=
  (List.map_congr_left h).trans (List.map_id' xs)

variable {R : Type}

namespace Term

mutual

/-- The term with every variable renamed. -/
def rename (σ : String → String) : Term R → Term R
  | .num a => .num a
  | .var x => .var (σ x)
  | .add ts => .add (renameList σ ts)
  | .mul ts => .mul (renameList σ ts)
  | .neg t => .neg (rename σ t)
  | .div a b => .div (rename σ a) (rename σ b)
  | .pow a b => .pow (rename σ a) (rename σ b)

/-- The operands with every variable renamed. -/
def renameList (σ : String → String) : List (Term R) → List (Term R)
  | [] => []
  | t :: ts => rename σ t :: renameList σ ts

end

theorem renameList_eq_map (σ : String → String) (ts : List (Term R)) :
    renameList σ ts = ts.map (rename σ) := by
  induction ts with
  | nil => simp [renameList]
  | cons t ts ih => simp [renameList, ih]

/-- A renaming that keeps the variables of a term keeps the term. -/
theorem rename_eq_self {σ : String → String} {t : Term R} (h : t.Over fun x => σ x = x) :
    t.rename σ = t := by
  have hlist : ∀ ts : List (Term R),
      (∀ t ∈ ts, (t.Over fun x => σ x = x) → t.rename σ = t) →
      (∀ x, ts.any (mentions x) = true → σ x = x) →
          renameList σ ts = ts := fun ts ih hts => by
    rw [renameList_eq_map]
    exact map_eq_self fun t ht => ih t ht fun x hx =>
      hts x (List.any_eq_true.mpr ⟨t, ht, hx⟩)
  induction t with
  | num a => rw [rename]
  | var x => rw [rename, h x (by simp)]
  | add ts ih => rw [rename, hlist ts ih fun x hx => h x (by rwa [mentions_add])]
  | mul ts ih => rw [rename, hlist ts ih fun x hx => h x (by rwa [mentions_mul])]
  | neg t ih => rw [rename, ih fun x hx => h x (by rwa [mentions_neg])]
  | div a b iha ihb =>
      rw [rename, iha fun x hx => h x (by simp [hx]), ihb fun x hx => h x (by simp [hx])]
  | pow a b iha ihb =>
      rw [rename, iha fun x hx => h x (by simp [hx]), ihb fun x hx => h x (by simp [hx])]

theorem summands_rename (σ : String → String) (t : Term R) :
    (t.rename σ).summands = t.summands.map (rename σ) := by
  cases t <;> simp [rename, summands, renameList_eq_map]

/-- Renaming keeps the shape of operands, so sums are spliced as before. -/
theorem rename_sum [Scalar R] (σ : String → String) (ts : List (Term R)) :
    (sum ts).rename σ = sum (ts.map (rename σ)) := by
  have hflat : (ts.map (rename σ)).flatMap summands = (ts.flatMap summands).map
      (rename σ) := by
    rw [List.flatMap_map, List.map_flatMap]
    simp only [summands_rename]
  unfold sum
  rw [hflat]
  rcases ts.flatMap summands with _ | ⟨t, _ | ⟨u, us⟩⟩
  · rfl
  · rfl
  · simp [rename, renameList_eq_map]

end Term

/-- The relation with every variable renamed. -/
def Relation.rename (σ : String → String) (r : Relation R) : Relation R :=
  { r with lhs := r.lhs.rename σ, rhs := r.rhs.rename σ }

namespace Formula

mutual

/-- The formula with every variable renamed. -/
def rename (σ : String → String) : Formula R → Formula R
  | .top => .top
  | .bottom => .bottom
  | .rel r => .rel (r.rename σ)
  | .all ps => .all (renameList σ ps)
  | .any ps => .any (renameList σ ps)
  | .not p => .not (rename σ p)
  | .implies p q => .implies (rename σ p) (rename σ q)

/-- The parts with every variable renamed. -/
def renameList (σ : String → String) : List (Formula R) → List (Formula R)
  | [] => []
  | p :: ps => rename σ p :: renameList σ ps

end

theorem renameList_eq_map (σ : String → String) (ps : List (Formula R)) :
    renameList σ ps = ps.map (rename σ) := by
  induction ps with
  | nil => simp [renameList]
  | cons p ps ih => simp [renameList, ih]

/-- A renaming that keeps the variables of a formula keeps the formula. -/
theorem rename_eq_self {σ : String → String} {p : Formula R}
    (h : p.Over fun x => σ x = x) : p.rename σ = p := by
  have hlist : ∀ ps : List (Formula R),
      (∀ p ∈ ps, (p.Over fun x => σ x = x) → p.rename σ = p) →
      (∀ x, ps.any (mentions x) = true → σ x = x) →
          renameList σ ps = ps := fun ps ih hps => by
    rw [renameList_eq_map]
    exact map_eq_self fun p hp => ih p hp fun x hx =>
      hps x (List.any_eq_true.mpr ⟨p, hp, hx⟩)
  induction p with
  | top => rw [rename]
  | bottom => rw [rename]
  | rel r =>
      have hlhs : r.lhs.rename σ = r.lhs := Term.rename_eq_self fun x hx =>
        h x (by simp [Relation.mentions, hx])
      have hrhs : r.rhs.rename σ = r.rhs := Term.rename_eq_self fun x hx =>
        h x (by simp [Relation.mentions, hx])
      rw [rename, Relation.rename, hlhs, hrhs]
  | all ps ih => rw [rename, hlist ps ih fun x hx => h x (by rwa [mentions_all])]
  | any ps ih => rw [rename, hlist ps ih fun x hx => h x (by rwa [mentions_any])]
  | not p ih => rw [rename, ih fun x hx => h x (by simp [hx])]
  | implies p q ihp ihq =>
      rw [rename, ihp fun x hx => h x (by simp [hx]), ihq fun x hx => h x (by simp [hx])]

end Formula

namespace Definition

/-- The definition with every variable renamed, also the defined one. -/
def rename (σ : String → String) : Definition R → Definition R
  | .simple x t => .simple (σ x) (t.rename σ)
  | .vector x ts => .vector (σ x) (ts.map (Term.rename σ))
  | .cases x cs => .cases (σ x) (cs.map fun c => (c.1.rename σ, c.2.rename σ))
  | .width x n => .width (σ x) n

/-- Another name for the same right-hand side. -/
def withName (y : String) : Definition R → Definition R
  | .simple _ t => .simple y t
  | .vector _ ts => .vector y ts
  | .cases _ cs => .cases y cs
  | .width _ n => .width y n

/-- A renaming that keeps the variables of a right-hand side changes the defined name
only. -/
theorem rename_eq_withName {σ : String → String} {e : Definition R}
    (h : e.Over fun x => σ x = x) : e.rename σ = e.withName (σ e.name) := by
  cases e with
  | simple x t => rw [rename, Term.rename_eq_self h, withName, name]
  | vector x ts =>
      have hbodies : ts.map (Term.rename σ) = ts := map_eq_self fun t ht =>
        Term.rename_eq_self fun y hy => h y (List.any_eq_true.mpr ⟨t, ht, hy⟩)
      rw [rename, hbodies, withName, name]
  | cases x cs =>
      have hcases : (cs.map fun c => (c.1.rename σ, c.2.rename σ)) = cs := by
        refine map_eq_self fun c hc => ?_
        have hmem : ∀ y, (c.1.mentions y || c.2.mentions y) = true → σ y = y := fun y hy =>
          h y (List.any_eq_true.mpr ⟨c, hc, hy⟩)
        rw [Formula.rename_eq_self fun y hy => hmem y (by simp [hy]),
          Term.rename_eq_self fun y hy => hmem y (by simp [hy])]
      rw [rename, hcases, withName, name]
  | width x n => rw [rename, withName, name]

end Definition

namespace Program

mutual

/-- The program with every variable renamed, also those that are assigned. -/
def rename (σ : String → String) : Program R → Program R
  | .skip => .skip
  | .assign x t => .assign (σ x) (t.rename σ)
  | .havoc x => .havoc (σ x)
  | .test p => .test (p.rename σ)
  | .seq ps => .seq (renameList σ ps)
  | .choice ps => .choice (renameList σ ps)
  | .loop p => .loop (rename σ p)

/-- The parts with every variable renamed. -/
def renameList (σ : String → String) : List (Program R) → List (Program R)
  | [] => []
  | p :: ps => rename σ p :: renameList σ ps

end

end Program

namespace Encoding

/-- The encoding with every variable renamed. -/
def rename (σ : String → String) (e : Encoding R) : Encoding R :=
  { definitions := e.definitions.map (Definition.rename σ)
    steps := e.steps.map (Program.rename σ)
    updates := e.updates.map (Program.rename σ)
    odes := e.odes.map fun ode => (σ ode.1, ode.2.rename σ)
    initial := e.initial.map (Formula.rename σ) }

/-- Definitions, updates, differential equations and initial states. -/
def fragment (e : Encoding R) : Encoding R :=
  { e with steps := [] }

end Encoding

end Renaming

end SignalFlow
