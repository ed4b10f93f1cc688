import Mathlib.Data.List.Nodup
import SignalFlow.Proofs.FaultReports
import SignalFlow.Proofs.SplicedTerms

/-!
# Closing in another order

Which definition is inlined next depends on the order in which the definitions are listed.
What comes out does not: for definitions by terms, every name ends up with its unfolding,
that is, with its term in which all names are replaced by what they stand for.  An
unfolding is a solution of these equations, and definitions without a circle have one
solution only.

Every step of closing has the same solutions, since replacing a name by its term and then
all names by what they stand for is to replace all names at once.

Whether a list can be closed is a matter of its members alone.  Definitions that are
compared as equal are taken for repetitions of the first of them, though, and may differ in
the sign of a zero: which of them is kept does depend on the order.

**Results.**
* `close_ok_iff`: which lists can be closed, stated without their order.
* `IsUnfolding.related`: unfoldings of lists that agree up to a relation of terms agree up
  to it.
* `IsUnfolding.of_step`: what unfolds the list after a step unfolds it before.
* `exists_unfolding_of_close`: a closed form is the unfolding of the list.
* `close_perm`: closing a list in another order, and `close_perm_signedZeros`: where the
  order shows.
-/

namespace SignalFlow
namespace Definition

variable {R : Type}

/-- A name equals a spliced term. -/
def IsEquation : Definition R → Prop
  | .simple _ t => t.Spliced
  | _ => False

theorem IsEquation.isScalar {d : Definition R} (h : d.IsEquation) : d.IsScalar := by
  cases d with
  | simple x t => trivial
  | _ => exact h.elim

theorem IsEquation.exists_eq {d : Definition R} (h : d.IsEquation) :
    ∃ t, d = .simple d.name t ∧ t.Spliced := by
  cases d with
  | simple x t => exact ⟨t, rfl, h⟩
  | _ => exact h.elim

theorem exists_simple_of_mem_names {ds : List (Definition R)} (h : ∀ d ∈ ds, d.IsEquation)
    {x : String} (hx : x ∈ ds.map name) : ∃ t, .simple x t ∈ ds ∧ t.Spliced := by
  obtain ⟨d, hd, rfl⟩ := List.mem_map.mp hx
  obtain ⟨t, heq, ht⟩ := (h d hd).exists_eq
  exact ⟨t, heq ▸ hd, ht⟩

section Bodies

variable {ds : List (Definition R)}

/-- The term of a name in a list; a name without one stands for itself. -/
def bodyOf (ds : List (Definition R)) (x : String) : Term R :=
  match ds.find? fun d => d.name == x with
  | some (.simple _ t) => t
  | _ => .var x

theorem bodyOf_of_notMem {x : String} (h : x ∉ ds.map name) : bodyOf ds x = .var x := by
  have hnone : (ds.find? fun d => d.name == x) = none := by
    refine List.find?_eq_none.mpr fun d hd heq => h ?_
    exact (beq_iff_eq.mp heq) ▸ List.mem_map_of_mem hd
  rw [bodyOf, hnone]

theorem bodyOf_of_mem (hnodup : (ds.map name).Nodup) {x : String} {t : Term R}
    (h : .simple x t ∈ ds) : bodyOf ds x = t := by
  obtain ⟨d, hd⟩ : ∃ d, (ds.find? fun d => d.name == x) = some d :=
    Option.isSome_iff_exists.mp (List.find?_isSome.mpr ⟨_, h, by simp [name]⟩)
  have hname : d.name = x := by simpa using List.find?_some hd
  obtain rfl : d = .simple x t :=
    List.inj_on_of_nodup_map hnodup (List.mem_of_find?_eq_some hd) h hname
  rw [bodyOf, hd]

theorem spliced_bodyOf (hds : ∀ d ∈ ds, d.IsEquation) (x : String) :
    (bodyOf ds x).Spliced := by
  unfold bodyOf
  split
  · next y t heq => exact hds _ (List.mem_of_find?_eq_some heq)
  · exact .var x

end Bodies

variable [Scalar R]

section Consistency

/-- Definitions of the same name are equal, and names are used by names of higher rank
only. -/
structure Consistent (ds : List (Definition R)) : Prop where
  agree : ∀ d ∈ ds, ∀ e ∈ ds, d.name = e.name → (d == e) = true
  ranked : ∃ rank : String → Nat, ∀ d ∈ ds, ∀ x ∈ ds.map name, d.mentions x = true →
    rank x < rank d.name

variable {ds es : List (Definition R)}

theorem Consistent.perm (h : Consistent ds) (hperm : ds.Perm es) : Consistent es := by
  obtain ⟨rank, hrank⟩ := h.ranked
  refine ⟨fun d hd e he => h.agree d (hperm.mem_iff.mpr hd) e (hperm.mem_iff.mpr he), rank,
    fun d hd x hx => ?_⟩
  exact hrank d (hperm.mem_iff.mpr hd) x ((hperm.map name).mem_iff.mpr hx)

theorem beq_trans_of_isEquation [PartialEquivBEq R] {d e f : Definition R}
    (hd : d.IsEquation) (hde : (d == e) = true) (hef : (e == f) = true) :
    (d == f) = true := by
  cases d with
  | simple x t =>
      cases e with
      | simple y u =>
          cases f with
          | simple z v =>
              rw [simple_beq, Bool.and_eq_true] at hde hef ⊢
              exact ⟨PartialEquivBEq.trans hde.1 hef.1, Term.beq_trans hde.2 hef.2⟩
          | _ => exact absurd hef Bool.false_ne_true
      | _ => exact absurd hde Bool.false_ne_true
  | _ => exact hd.elim

/-- A list of equations without undefined literals can be closed if and only if it is
consistent. -/
theorem close_ok_iff [PartialEquivBEq R] (hds : ∀ d ∈ ds, d.IsEquation)
    (hrefl : ∀ d ∈ ds, (d == d) = true) :
    (∃ closed, close ds = .ok closed) ↔ Consistent ds := by
  have hscalar : ∀ d ∈ ds, d.IsScalar := fun d hd => (hds d hd).isScalar
  constructor
  · rintro ⟨closed, h⟩
    refine ⟨fun d hd e he hname => ?_, exists_rank_of_close hscalar h⟩
    -- both are equal to the definition of the name that is kept
    have hkept : ∀ d ∈ ds, ∃ k ∈ distinct ds, (d == k) = true := by
      intro d hd
      obtain ⟨k, hk, rfl | hdk⟩ := exists_mem_distinct hd
      · exact ⟨k, hk, hrefl k hd⟩
      · exact ⟨k, hk, hdk⟩
    obtain ⟨k, hk, hdk⟩ := hkept d hd
    obtain ⟨l, hl, hel⟩ := hkept e he
    have hkl : k = l := by
      refine List.inj_on_of_nodup_map
        (nodup_name_distinct hscalar (close_eq_ok h).1) hk hl ?_
      rw [← name_eq_of_beq hdk, hname, name_eq_of_beq hel]
    rw [← hkl, Definition.beq_comm] at hel
    exact beq_trans_of_isEquation (hds d hd) hdk hel
  · rintro ⟨hagree, rank, hrank⟩
    refine ⟨_, close_of_wellFormed ?_ (cycle?_eq_none_of_rank rank fun d hd e he hde =>
      ?_)⟩
    · by_contra hsome
      obtain ⟨i, j, d, e, _, hd, he, hne, _, hname⟩ :=
        conflict?_eq_some_iff.mp (Option.ne_none_iff_exists'.mp hsome)
      have heq := hagree d (mem_of_mem_distinct (List.mem_of_getElem? hd)) e
        (mem_of_mem_distinct (List.mem_of_getElem? he)) hname
      rw [hne] at heq
      cases heq
    · have hd := mem_of_mem_distinct hd
      have he := mem_of_mem_distinct he
      rw [dependsOn_of_isScalar (hscalar d hd) (hscalar e he)] at hde
      exact hrank d hd e.name (List.mem_map_of_mem he) hde

end Consistency

section Unfolding

/-- Every defined name stands for its term with all names replaced by what they stand for,
and every other name for itself. -/
structure IsUnfolding (ds : List (Definition R)) (U : String → Term R) : Prop where
  defined : ∀ x t, .simple x t ∈ ds → U x = t.substAll U
  undefined : ∀ x, x ∉ ds.map name → U x = .var x

variable {ds es next closed : List (Definition R)} {U V : String → Term R}

/-- Unfoldings of lists of the same names agree up to a relation that replacing names
carries over. -/
theorem IsUnfolding.related (r : Term R → Term R → Prop) (hU : IsUnfolding ds U)
    (hV : IsUnfolding es V) (hds : ∀ d ∈ ds, d.IsEquation) (hes : ∀ d ∈ es, d.IsEquation)
    (hnames : ∀ x, x ∈ ds.map name ↔ x ∈ es.map name) (rank : String → Nat)
    (hrank : ∀ d ∈ ds, ∀ x ∈ ds.map name, d.mentions x = true → rank x < rank d.name)
    (hvar : ∀ x, r (.var x) (.var x))
    (hsubst : ∀ x t t', .simple x t ∈ ds → .simple x t' ∈ es →
      (∀ y, t.mentions y = true → r (U y) (V y)) →
      r (t.substAll U) (t'.substAll V)) (x : String) : r (U x) (V x) := by
  have hfree : ∀ y, y ∉ ds.map name → r (U y) (V y) := by
    intro y hy
    rw [hU.undefined y hy, hV.undefined y fun hmem => hy ((hnames y).mpr hmem)]
    exact hvar y
  induction hn : rank x using Nat.strongRecOn generalizing x with
  | _ n ih =>
      by_cases hx : x ∈ ds.map name
      · obtain ⟨t, ht, _⟩ := exists_simple_of_mem_names hds hx
        obtain ⟨t', ht', _⟩ := exists_simple_of_mem_names hes ((hnames x).mp hx)
        rw [hU.defined x t ht, hV.defined x t' ht']
        refine hsubst x t t' ht ht' fun y hy => ?_
        by_cases hdefined : y ∈ ds.map name
        · exact ih (rank y) (hn ▸ hrank _ ht y hdefined hy) y rfl
        · exact hfree y hdefined
      · exact hfree x hx

/-- Definitions that use no name of the list are unfolded. -/
theorem isUnfolding_bodyOf (hds : ∀ d ∈ ds, d.IsEquation) (hnodup : (ds.map name).Nodup)
    (hclosed : ∀ d ∈ ds, ∀ x ∈ ds.map name, d.mentions x = false) :
    IsUnfolding ds (bodyOf ds) where
  undefined x hx := bodyOf_of_notMem hx
  defined x t ht := by
    have hself : t.substAll (bodyOf ds) = t.substAll .var := by
      refine Term.substAll_congr fun y hy => bodyOf_of_notMem fun hmem => ?_
      have hno := hclosed _ ht y hmem
      rw [mentions, hy] at hno
      cases hno
    have hspliced : t.Spliced := hds _ ht
    rw [bodyOf_of_mem hnodup ht, hself, hspliced.substAll_var]

theorem isEquation_inlineScalar {e d : Definition R} (he : e.IsEquation)
    (hd : d.IsEquation) : (e.inlineScalar d).IsEquation := by
  obtain ⟨t, heq, ht⟩ := he.exists_eq
  obtain ⟨u, hdeq, hu⟩ := hd.exists_eq
  rw [heq, hdeq]
  exact hu.subst t d.name

/-- What unfolds the list after a step of closing unfolds it before. -/
theorem IsUnfolding.of_step (hds : ∀ d ∈ ds, d.IsEquation)
    (hstep : closeStep? ds = some next) (hU : ∀ x, (U x).Spliced)
    (h : IsUnfolding next U) : IsUnfolding ds U := by
  obtain ⟨before, e, after, d, rfl, hd, hdmem, _, rfl⟩ :=
    closeStep?_of_isScalar (fun d hd => (hds d hd).isScalar) hstep
  obtain ⟨u, hdeq, hu⟩ := (hds d hdmem).exists_eq
  have hbody : U d.name = u.substAll U := by
    refine h.defined d.name u (hdeq ▸ ?_)
    rw [List.append_assoc]
    exact List.mem_append.mpr ((List.mem_append.mp hd).imp id (List.mem_append_right _))
  refine ⟨fun x t hx => ?_, fun x hx => h.undefined x ?_⟩
  · rcases List.mem_append.mp hx with hx | hx
    · exact h.defined x t (by simp [hx])
    · rcases List.mem_cons.mp hx with hx | hx
      -- the definition that is changed: its name, and then all names, are replaced at once
      · have hchanged : e.inlineScalar d = .simple x (t.subst d.name u) := by
          rw [← hx, hdeq]
          rfl
        have hnew : U x = (t.subst d.name u).substAll U :=
          h.defined x _ (by simp [hchanged])
        rw [hnew, Term.subst_eq_substAll, Term.substAll_substAll (hu.ite_var d.name) hU]
        refine Term.substAll_congr fun y _ => ?_
        by_cases hy : y = d.name
        · simp [hy, hbody]
        · simp [hy]
      · exact h.defined x t (by simp [hx])
  · simpa [name_inlineScalar] using hx

theorem isEquation_step (hds : ∀ d ∈ ds, d.IsEquation)
    (hstep : closeStep? ds = some next) : ∀ d ∈ next, d.IsEquation :=
  forall_mem_of_closeStep? (fun d hd => (hds d hd).isScalar) hstep hds
    fun _ _ _ _ he hd => isEquation_inlineScalar he hd

/-- What unfolds the list at the end of a run of steps unfolds it at the start. -/
theorem IsUnfolding.of_reaches (hreach : Reaches closeStep? ds closed)
    (hds : ∀ d ∈ ds, d.IsEquation) (hU : ∀ x, (U x).Spliced) (h : IsUnfolding closed U) :
    IsUnfolding ds U := by
  induction hreach using Relation.ReflTransGen.head_induction_on with
  | refl => exact h
  | head hstep _ ih => exact (ih (isEquation_step hds hstep)).of_step hds hstep hU

/-- Closing ends, and defines every name once, by its unfolding; there is one unfolding
only. -/
structure UnfoldsTo (ds closed : List (Definition R)) (U : String → Term R) : Prop where
  ends : exhaust? closeStep? (distinct ds) = some closed
  unfolding : ∀ V, IsUnfolding (distinct ds) V ↔ V = U
  spliced : ∀ x, (U x).Spliced
  closed_eq : closed = (ds.map name).eraseDups.map fun x => .simple x (U x)

/-- The closed form of a list of equations is its unfolding. -/
theorem exists_unfolding_of_close [PartialEquivBEq R] (hds : ∀ d ∈ ds, d.IsEquation)
    (hname : ∀ d ∈ ds, PlainName d.name) (h : close ds = .ok closed) :
    ∃ U, UnfoldsTo ds closed U := by
  have hscalar : ∀ d ∈ ds, d.IsScalar := fun d hd => (hds d hd).isScalar
  have hdistinct : ∀ d ∈ distinct ds, d.IsEquation := fun d hd =>
    hds d (mem_of_mem_distinct hd)
  have hdistinctNodup := nodup_name_distinct hscalar (close_eq_ok h).1
  obtain ⟨hnodup, hnames, _⟩ := map_name_close hscalar hname h
  obtain ⟨last, _, hends, hnone, hclosed, hlayer⟩ := exists_last_of_close hscalar hname h
  obtain rfl : closed = last := by
    rw [hclosed]
    exact distinct_of_unrepeated (unrepeated_of_nodup (hlayer.names_eq ▸ hdistinctNodup))
  have hreach := (reaches_of_exhaust? hends).1
  have heqs : ∀ d ∈ closed, d.IsEquation :=
    hreach.invariant (fun _ _ hes hstep => isEquation_step hes hstep) hdistinct
  have hbody : IsUnfolding closed (bodyOf closed) :=
    isUnfolding_bodyOf heqs hnodup fun d hd x hx =>
      hlayer.not_mentions hnone hd (hlayer.names_eq ▸ hx)
  have hunfolding := hbody.of_reaches hreach hdistinct (spliced_bodyOf heqs)
  obtain ⟨rank, hrank⟩ := exists_layered (fun d hd => (hdistinct d hd).isScalar)
    (close_eq_ok h).1 (close_eq_ok h).2.1
  refine ⟨bodyOf closed, hends, fun V => ⟨fun hV => ?_, fun hV => hV ▸ hunfolding⟩,
    spliced_bodyOf heqs, ?_⟩
  · funext x
    refine hV.related Eq hunfolding hdistinct hdistinct (fun _ => Iff.rfl) rank hrank.lower
      (fun _ => rfl) ?_ x
    intro x t t' ht ht' hsame
    have heq := List.inj_on_of_nodup_map hdistinctNodup ht ht' rfl
    cases heq
    exact Term.substAll_congr hsame
  · rw [← hnames, List.map_map]
    refine (List.map_id' closed).symm.trans (List.map_congr_left fun d hd => ?_)
    obtain ⟨t, hd', _⟩ := (heqs d hd).exists_eq
    rw [Function.comp_apply, bodyOf_of_mem hnodup (hd' ▸ hd)]
    exact hd'

/-- The closed form of definitions without faults, from the steps that it takes. -/
theorem close_of_exhaustWithin {last : List (Definition R)}
    (hscalar : ∀ d ∈ ds, d.IsScalar) (hname : ∀ d ∈ ds, PlainName d.name)
    (hconflict : conflict? (distinct ds) = none) (hcycle : cycle? (distinct ds) = none)
    (n : Nat) (hends : exhaustWithin closeStep? n (distinct ds) = some last) :
    close ds = .ok (distinct last) := by
  have hclose : closeAll (distinct ds) = last :=
    exhaust_of_exhaust? (exhaust?_of_exhaustWithin hends)
  rw [close_of_wellFormed hconflict hcycle, liftAll_of_isScalar
    (fun d hd => hscalar d (mem_of_mem_distinct hd))
    fun d hd => hname d (mem_of_mem_distinct hd), hclose]

/-- **Closing in another order.**  Whether definitions of plain names by spliced terms
without undefined literals can be closed does not depend on their order.  If so, closing
ends in either order, and every name is defined by its unfolding.  The unfoldings for both
orders are equal, and identical if equal definitions are. -/
theorem close_perm [PartialEquivBEq R] (hperm : ds.Perm es) (hds : ∀ d ∈ ds, d.IsEquation)
    (hname : ∀ d ∈ ds, PlainName d.name) (hrefl : ∀ d ∈ ds, (d == d) = true) :
    ((∃ closed, close ds = .ok closed) ↔ ∃ closed, close es = .ok closed) ∧
      ∀ closed closed', close ds = .ok closed → close es = .ok closed' →
        ∃ U V, UnfoldsTo ds closed U ∧ UnfoldsTo es closed' V ∧
          (∀ x, (U x == V x) = true) ∧
          ((∀ d ∈ ds, ∀ e ∈ ds, (d == e) = true → d = e) → U = V) := by
  have hes : ∀ d ∈ es, d.IsEquation := fun d hd => hds d (hperm.mem_iff.mpr hd)
  have hok : (∃ closed, close ds = .ok closed) ↔ Consistent ds := close_ok_iff hds hrefl
  have hok' : (∃ closed, close es = .ok closed) ↔ Consistent es :=
    close_ok_iff hes fun d hd => hrefl d (hperm.mem_iff.mpr hd)
  refine ⟨?_, fun closed closed' h h' => ?_⟩
  · rw [hok, hok']
    exact ⟨fun hc => hc.perm hperm, fun hc => hc.perm hperm.symm⟩
  · obtain ⟨hagree, rank, hrank⟩ := hok.mp ⟨closed, h⟩
    obtain ⟨U, hU⟩ := exists_unfolding_of_close hds hname h
    obtain ⟨V, hV⟩ := exists_unfolding_of_close hes
      (fun d hd => hname d (hperm.mem_iff.mpr hd)) h'
    have hkept : ∀ d ∈ distinct ds, d ∈ ds := fun d hd => mem_of_mem_distinct hd
    have hkept' : ∀ d ∈ distinct es, d ∈ ds := fun d hd =>
      hperm.mem_iff.mpr (mem_of_mem_distinct hd)
    have hnames : ∀ x, x ∈ (distinct ds).map name ↔ x ∈ (distinct es).map name := by
      intro x
      rw [mem_map_name_distinct, mem_map_name_distinct, (hperm.map name).mem_iff]
    have hrelated := fun r : Term R → Term R → Prop =>
      ((hU.unfolding U).mpr rfl).related r ((hV.unfolding V).mpr rfl)
      (fun d hd => hds d (hkept d hd)) (fun d hd => hds d (hkept' d hd)) hnames rank
      (fun d hd x hx => hrank d (hkept d hd) x (mem_map_name_distinct.mp hx))
    have hequal : ∀ x t t', .simple x t ∈ distinct ds → .simple x t' ∈ distinct es →
        (Definition.simple x t == .simple x t') = true := fun x t t' ht ht' =>
      hagree _ (hkept _ ht) _ (hkept' _ ht') rfl
    refine ⟨U, V, hU, hV, ?_, fun hident => funext ?_⟩
    · refine hrelated (fun t u => (t == u) = true) (fun x => ?_) fun x t t' ht ht' hsame =>
        ?_
      · exact beq_self_eq_true x
      · have htt' := hequal x t t' ht ht'
        rw [simple_beq, Bool.and_eq_true] at htt'
        exact Term.beq_substAll (hds _ (hkept _ ht)) hU.spliced htt'.2 hsame
    · refine hrelated Eq (fun _ => rfl) fun x t t' ht ht' hsame => ?_
      cases hident _ (hkept _ ht) _ (hkept' _ ht') (hequal x t t' ht ht')
      exact Term.substAll_congr hsame

/-- A sum in a sum and a product in a product, through names; one definition is
repeated. -/
def nested : List (Definition Float) :=
  [.simple "a" (.add [.var "b", .mul [.num 2, .var "c"]]),
    .simple "b" (.add [.var "c", .num 1]), .simple "c" (.mul [.var "u", .var "v"]),
    .simple "b" (.add [.var "c", .num 1])]

/-- What the names of `nested` stand for. -/
def nestedTerm : String → Term Float
  | "a" => .add [.mul [.var "u", .var "v"], .num 1, .mul [.num 2, .var "u", .var "v"]]
  | "b" => .add [.mul [.var "u", .var "v"], .num 1]
  | "c" => .mul [.var "u", .var "v"]
  | x => .var x

theorem isEquation_nested : ∀ d ∈ nested, d.IsEquation := by
  have hsum : (Term.add [.var "c", .num 1] : Term Float).Spliced :=
    .add (by decide) (by simp) (by simp [Term.Spliced.var, Term.Spliced.num])
  have hproduct : ∀ t x, t.Spliced → (∀ us, Term.mul us ≠ t) →
      (Term.mul [t, .var x] : Term Float).Spliced := by
    intro t x ht hne
    refine .mul (by simp) (by simpa using hne) ?_
    simp [ht, Term.Spliced.var]
  have hnested : (Term.add [.var "b", .mul [.num 2, .var "c"]] : Term Float).Spliced := by
    refine .add (by decide) (by simp) ?_
    simp [Term.Spliced.var, hproduct (.num 2) "c" (.num 2) (by simp)]
  simp [nested, IsEquation, hsum, hnested, hproduct (.var "u") "v" (.var "u") (by simp)]

/-- Either order gives the names the same terms, as they are written. -/
theorem close_perm_nested :
    nested.Perm nested.reverse ∧
      close nested = .ok (["a", "b", "c"].map fun x => .simple x (nestedTerm x)) ∧
      close nested.reverse = .ok (["b", "c", "a"].map fun x => .simple x (nestedTerm x)) ∧
      ∃ U, UnfoldsTo nested (["a", "b", "c"].map fun x => .simple x (nestedTerm x)) U ∧
        UnfoldsTo nested.reverse (["b", "c", "a"].map fun x =>
          .simple x (nestedTerm x)) U := by
  have hperm : nested.Perm nested.reverse := nested.reverse_perm.symm
  have hname : ∀ d ∈ nested, PlainName d.name := by decide
  have hscalar : ∀ d ∈ nested, d.IsScalar := fun d hd => (isEquation_nested d hd).isScalar
  have hclose : close nested = .ok (["a", "b", "c"].map fun x =>
      .simple x (nestedTerm x)) :=
    close_of_exhaustWithin hscalar hname (by decide) (by decide) 4 rfl
  have hclose' : close nested.reverse = .ok (["b", "c", "a"].map fun x =>
      .simple x (nestedTerm x)) :=
    close_of_exhaustWithin (fun d hd => hscalar d (List.mem_reverse.mp hd))
      (fun d hd => hname d (List.mem_reverse.mp hd)) (by decide) (by decide) 4 rfl
  have hident : ∀ d ∈ nested, ∀ e ∈ nested, (d == e) = true → d = e := by
    intro d hd e he heq
    have hsame := name_eq_of_beq heq
    simp only [nested, List.mem_cons, List.not_mem_nil, or_false] at hd he
    rcases hd with rfl | rfl | rfl | rfl <;> rcases he with rfl | rfl | rfl | rfl <;> first
      | rfl
      | exact absurd hsame (by decide)
  obtain ⟨_, hunfolds⟩ := close_perm hperm isEquation_nested hname (by decide)
  obtain ⟨U, V, hU, hV, _, hUV⟩ := hunfolds _ _ hclose hclose'
  exact ⟨hperm, hclose, hclose', U, hU, hUV hident ▸ hV⟩

/-- Equal definitions that are not identical. -/
def signedZeros : List (Definition Float) :=
  [.simple "x" (.num (-0.0)), .simple "x" (.num 0)]

/-- The first of two equal definitions is kept, so that the order shows in the sign of a
zero. -/
theorem close_perm_signedZeros :
    (∀ d ∈ signedZeros, d.IsEquation ∧ PlainName d.name ∧ (d == d) = true) ∧
      signedZeros.Perm signedZeros.reverse ∧
      close signedZeros = .ok [.simple "x" (.num (-0.0))] ∧
        close signedZeros.reverse = .ok [.simple "x" (.num 0)] ∧
      (Term.num (-0.0) : Term Float) ≠ .num 0 := by
  have hscalar : ∀ d ∈ signedZeros, d.IsScalar := by simp [signedZeros, IsScalar]
  have hname : ∀ d ∈ signedZeros, PlainName d.name := by decide
  have hrefl : ∀ d ∈ signedZeros, (d == d) = true := by decide
  have hequation : ∀ d ∈ signedZeros, d.IsEquation := by
    simp [signedZeros, IsEquation, Term.Spliced.num]
  refine ⟨fun d hd => ⟨hequation d hd, hname d hd, hrefl d hd⟩,
    signedZeros.reverse_perm.symm, ?_, ?_, fun heq => ?_⟩
  · exact close_of_exhaustWithin hscalar hname (by decide) (by decide) 1 rfl
  · exact close_of_exhaustWithin (fun d hd => hscalar d (List.mem_reverse.mp hd))
      (fun d hd => hname d (List.mem_reverse.mp hd)) (by decide) (by decide) 1 rfl
  · cases heq

end Unfolding

end Definition
end SignalFlow
