import SignalFlow.Proofs.Dependency
import SignalFlow.Proofs.Inlining
import SignalFlow.Proofs.Iteration
import SignalFlow.Proofs.VariableNames

/-!
# Lifting over vectors

Lifting replaces a definition that uses a whole vector by definitions over its elements.  A
term becomes a vector; cases become cases for every element.  Cases that use two vectors
are lifted twice: the names of the elements of an element are read as no element of a
vector any more, and the name that was defined is lost.

What lifting makes of a list is told by its origins: every definition comes from one of the
given list, and uses plain names only that this one uses.

**Results.**
* `liftStep?_eq_some`, `liftStep?_eq_none`: the effect of a step, and what it means that
  there is none.
* `Lifted.step`: what a step of lifting keeps.
* `lifted_of_exhaust?`: at its end no definition uses a whole vector, and every name is
  defined, or is a vector, or was given by cases over two vectors.
-/

namespace SignalFlow

namespace Formula

variable {R : Type}

/-- Neither false nor a conjunction of fewer than two parts. -/
def IsProper : Formula R → Prop
  | .bottom => False
  | .all ps => 2 ≤ ps.length
  | _ => True

theorem isProper_subst [Scalar R] (p : Formula R) (x : String) (t : Term R) :
    (p.subst x t).IsProper ↔ p.IsProper := by
  cases p with
  | all ps => simp [subst, IsProper, substList_eq_map]
  | _ => rfl

theorem isProper_parts [BEq R] {acc ps qs : List (Formula R)} (hps : ∀ p ∈ ps, p.IsProper)
    (hacc : 2 ≤ acc.length ∨ ∀ p ∈ acc, p.IsProper) (h : conjParts? acc ps = some qs) :
    2 ≤ qs.length ∨ ∀ p ∈ qs, p.IsProper := by
  fun_induction conjParts? acc ps with
  | case1 acc => cases h; exact hacc
  | case2 acc ps ih => exact ih (fun p hp => hps p (List.mem_cons_of_mem _ hp)) hacc h
  | case3 acc ps => cases h
  | case4 acc rs ps ih =>
      refine ih (fun p hp => hps p (List.mem_cons_of_mem _ hp)) (Or.inl ?_) h
      have hrs : 2 ≤ rs.length := hps _ List.mem_cons_self
      rw [List.length_append]
      omega
  | case5 acc p ps _ _ _ ih =>
      refine ih (fun p hp => hps p (List.mem_cons_of_mem _ hp)) ?_ h
      rcases hacc with hacc | hacc
      · refine Or.inl ?_
        unfold insertLast
        split
        · exact hacc
        · rw [List.length_append]
          omega
      · refine Or.inr ?_
        intro q hq
        rcases mem_or_mem_of_mem_insertLast hq with hq | rfl
        · exact hacc q hq
        · exact hps q List.mem_cons_self

theorem isProper_conj [BEq R] {ps : List (Formula R)} (h : ∀ p ∈ ps, p.IsProper) :
    (conj ps).IsProper := by
  unfold conj
  split
  · next hnone => exact (h _ (bottom_mem_of_conjParts? hnone)).elim
  · trivial
  · next p hone =>
      rcases isProper_parts h (Or.inr (by simp)) hone with hlen | hall
      · simp at hlen
      · exact hall p (List.mem_singleton.mpr rfl)
  · next qs hnil hone hparts =>
      cases qs with
      | nil => exact absurd rfl hnil
      | cons p qs =>
          cases qs with
          | nil => exact absurd rfl (hone p)
          | cons q qs =>
              simp only [IsProper, List.length_cons]
              omega

end Formula

namespace Definition

variable {R : Type}

/-! ### Widths -/

/-- A definition of the list says that `x` is a vector. -/
def IsVectorName (ds : List (Definition R)) (x : String) : Prop :=
  ∃ d ∈ ds, ∃ n, d.widthNote? = some (x, n)

theorem mem_map_fst_note {ws : Widths} {x y : String} {n : Nat} :
    y ∈ (ws.note x n).map Prod.fst ↔ y ∈ ws.map Prod.fst ∨ y = x := by
  induction ws with
  | nil => simp [Widths.note]
  | cons w ws ih =>
      obtain ⟨z, m⟩ := w
      by_cases hz : z = x
      · simp only [Widths.note, hz, beq_self_eq_true, if_true, List.map_cons,
          List.mem_cons]
        tauto
      · have hne : (z == x) = false := by simpa using hz
        simp only [Widths.note, hne, List.map_cons, List.mem_cons] at ih ⊢
        rw [if_neg (by simp)]
        simp only [List.map_cons, List.mem_cons, ih]
        tauto

theorem forall_mem_note {P : Nat → Prop} (hmax : ∀ m n, P m → P n → P (max m n))
    {ws : Widths} {x : String} {n : Nat} (hws : ∀ w ∈ ws, P w.2) (hn : P n) :
    ∀ w ∈ ws.note x n, P w.2 := by
  induction ws with
  | nil =>
      intro w hw
      rw [List.mem_singleton.mp hw]
      exact hn
  | cons w ws ih =>
      obtain ⟨z, m⟩ := w
      have hrest := ih fun w hw => hws w (List.mem_cons_of_mem _ hw)
      have hm : P m := hws (z, m) List.mem_cons_self
      intro w hw
      unfold Widths.note at hw
      split at hw
      · rcases List.mem_cons.mp hw with rfl | hw
        · exact hmax m n hm hn
        · exact hws w (List.mem_cons_of_mem _ hw)
      · rcases List.mem_cons.mp hw with rfl | hw
        · exact hm
        · exact hrest w hw

/-- The widths name the vectors that the definitions speak of. -/
theorem mem_map_fst_widths {ds : List (Definition R)} {x : String} :
    x ∈ (widths ds).map Prod.fst ↔ IsVectorName ds x := by
  have hfold : ∀ (es : List (String × Nat)) (ws : Widths),
      x ∈ (es.foldl (fun ws e => ws.note e.1 e.2) ws).map Prod.fst ↔
        x ∈ ws.map Prod.fst ∨ ∃ n, (x, n) ∈ es := by
    intro es
    induction es with
    | nil => simp
    | cons e es ih =>
        intro ws
        obtain ⟨y, n⟩ := e
        rw [List.foldl_cons, ih, mem_map_fst_note]
        constructor
        · rintro ((h | rfl) | ⟨m, hm⟩)
          · exact Or.inl h
          · exact Or.inr ⟨n, List.mem_cons_self⟩
          · exact Or.inr ⟨m, List.mem_cons_of_mem _ hm⟩
        · rintro (h | ⟨m, hm⟩)
          · exact Or.inl (Or.inl h)
          · rcases List.mem_cons.mp hm with hm | hm
            · exact Or.inl (Or.inr (Prod.mk.inj hm).1)
            · exact Or.inr ⟨m, hm⟩
  rw [widths, hfold]
  simp only [List.map_nil, List.not_mem_nil, false_or, List.mem_filterMap]
  constructor
  · rintro ⟨n, d, hd, hn⟩
    exact ⟨d, hd, n, hn⟩
  · rintro ⟨d, hd, n, hn⟩
    exact ⟨n, d, hd, hn⟩

/-- A width is the greatest of those that the definitions tell. -/
theorem forall_mem_widths {P : Nat → Prop} (hmax : ∀ m n, P m → P n → P (max m n))
    {ds : List (Definition R)} (h : ∀ d ∈ ds, ∀ x n, d.widthNote? = some (x, n) → P n) :
    ∀ w ∈ widths ds, P w.2 := by
  have hnotes : ∀ e ∈ ds.filterMap widthNote?, P e.2 := by
    intro e he
    obtain ⟨d, hd, hde⟩ := List.mem_filterMap.mp he
    exact h d hd e.1 e.2 hde
  refine List.foldlRecOn (motive := fun ws : Widths => ∀ w ∈ ws, P w.2) _ _ (by simp) ?_
  intro ws hws e he
  exact forall_mem_note hmax hws (hnotes e he)

variable [Scalar R]

/-! ### Steps of lifting -/

omit [Scalar R] in
theorem wholeUse?_eq_some {ws : Widths} {d : Definition R} {v : String} {n : Nat}
    (h : wholeUse? ws d = some (v, n)) :
    (v, n) ∈ ws ∧ d.name ≠ v ∧ d.mentions v = true := by
  have hmem := List.mem_of_find?_eq_some h
  have huse := List.find?_some h
  simp only [Bool.and_eq_true, bne_iff_ne] at huse
  exact ⟨hmem, huse⟩

theorem liftFirst?_eq_some {ws : Widths} {ds next : List (Definition R)}
    (h : liftFirst? ws ds = some next) :
    ∃ before d after v n, ds = before ++ d :: after ∧ wholeUse? ws d = some (v, n) ∧
      next = before ++ d.lift v n ++ after := by
  induction ds generalizing next with
  | nil => cases h
  | cons d ds ih =>
      unfold liftFirst? at h
      split at h
      · next v n huse =>
          cases h
          exact ⟨[], d, ds, v, n, rfl, huse, rfl⟩
      · simp only [Option.map_eq_some_iff] at h
        obtain ⟨rest, hrest, rfl⟩ := h
        obtain ⟨before, e, after, v, n, rfl, huse, rfl⟩ := ih hrest
        exact ⟨d :: before, e, after, v, n, rfl, huse, rfl⟩

theorem liftFirst?_eq_none {ws : Widths} {ds : List (Definition R)}
    (h : liftFirst? ws ds = none) : ∀ d ∈ ds, wholeUse? ws d = none := by
  induction ds with
  | nil => simp
  | cons d ds ih =>
      unfold liftFirst? at h
      split at h
      · cases h
      · next huse =>
          rw [Option.map_eq_none_iff] at h
          intro e he
          rcases List.mem_cons.mp he with rfl | he
          · exact huse
          · exact ih h e he

/-- A step of lifting replaces one definition that uses a whole vector. -/
theorem liftStep?_eq_some {ds next : List (Definition R)} (h : liftStep? ds = some next) :
    ∃ d v n, ReplacedBy ds next d (d.lift v n) ∧ (v, n) ∈ widths ds ∧
      d.mentions v = true := by
  obtain ⟨before, d, after, v, n, hds, huse, rfl⟩ := liftFirst?_eq_some h
  obtain ⟨hmem, _, hm⟩ := wholeUse?_eq_some huse
  refine ⟨d, v, n, ?_, hmem, hm⟩
  rw [hds]
  exact replacedBy_append before after (d.lift v n) d

/-- Where no step is left, a vector is used as a whole in definitions of itself only. -/
theorem liftStep?_eq_none {ds : List (Definition R)} (h : liftStep? ds = none)
    {d : Definition R} (hd : d ∈ ds) {x : String} (hx : IsVectorName ds x)
    (hne : d.name ≠ x) : d.mentions x = false := by
  obtain ⟨⟨y, n⟩, hmem, rfl⟩ := List.mem_map.mp (mem_map_fst_widths.mpr hx)
  have huse := List.find?_eq_none.mp (liftFirst?_eq_none h d hd) (y, n) hmem
  simpa [hne] using huse

omit [Scalar R] in
theorem mentions_element (v x : String) (i : Nat) :
    (Term.element v i : Term R).mentions x = true ↔ x = Term.elementName v i := by
  simp only [Term.element, Term.mentions_var, beq_iff_eq]
  exact eq_comm

/-- What is used of `x` after lifting `v`: it was used before and is not `v`, or it is an
element of `v`. -/
def UsedLifted (v x : String) (before : Prop) : Prop :=
  (before ∧ x ≠ v) ∨ ∃ i, x = Term.elementName v i

theorem UsedLifted.mono {v x : String} {before before' : Prop} (h : UsedLifted v x before)
    (himp : before → before') : UsedLifted v x before' :=
  Or.imp_left (And.imp_left himp) h

theorem mentions_atElement {t : Term R} {v x : String} {i : Nat}
    (h : (atElement v i t).mentions x = true) : UsedLifted v x (t.mentions x = true) := by
  rcases (Term.mentions_subst t v x _).mp h with ⟨hne, h⟩ | ⟨_, h⟩
  · exact Or.inl ⟨h, hne⟩
  · exact Or.inr ⟨i, (mentions_element v x i).mp h⟩

theorem mentions_formulaAt {p : Formula R} {v x : String} {i : Nat}
    (h : (formulaAt v i p).mentions x = true) : UsedLifted v x (p.mentions x = true) := by
  rcases (Formula.mentions_subst p v x _).mp h with ⟨hne, h⟩ | ⟨_, h⟩
  · exact Or.inl ⟨h, hne⟩
  · exact Or.inr ⟨i, (mentions_element v x i).mp h⟩

/-- A lifted definition uses elements in place of the vector, and else what was used
before. -/
theorem mentions_of_mem_lift {d e : Definition R} {v x : String} {n : Nat}
    (he : e ∈ d.lift v n) (hm : e.mentions x = true) :
    UsedLifted v x (d.mentions x = true) := by
  cases d with
  | simple y t =>
      rw [List.mem_singleton.mp he] at hm
      simp only [mentions, List.any_map, List.any_eq_true, Function.comp_apply] at hm
      obtain ⟨i, _, hi⟩ := hm
      exact mentions_atElement hi
  | vector y ts =>
      rw [List.mem_singleton.mp he] at hm
      simp only [mentions, List.any_map, List.any_eq_true, Function.comp_apply] at hm
      obtain ⟨⟨t, i⟩, ht, hi⟩ := hm
      have hmem : t ∈ ts := List.mem_of_getElem? (List.mem_zipIdx_iff_getElem?.mp ht)
      exact (mentions_atElement hi).mono fun h => List.any_eq_true.mpr ⟨t, hmem, h⟩
  | cases y cs =>
      obtain ⟨i, _, rfl⟩ := List.mem_map.mp he
      obtain ⟨_, hlifted, hcm⟩ := (mentions_cases x _ _).mp hm
      obtain ⟨c, hc, rfl⟩ := List.mem_map.mp hlifted
      rcases hcm with hcm | hcm
      · exact (mentions_formulaAt hcm).mono fun h =>
          (mentions_cases x y cs).mpr ⟨c, hc, Or.inl h⟩
      · exact (mentions_atElement hcm).mono fun h =>
          (mentions_cases x y cs).mpr ⟨c, hc, Or.inr h⟩
  | width y m =>
      rw [List.mem_singleton.mp he] at hm
      simp [mentions] at hm

/-- The name that is defined stays, or becomes an element. -/
theorem vectorOf_name_of_mem_lift {d e : Definition R} {v : String} {n : Nat}
    (he : e ∈ d.lift v n) : vectorOf e.name = vectorOf d.name := by
  cases d with
  | simple y t => rw [List.mem_singleton.mp he]; rfl
  | vector y ts => rw [List.mem_singleton.mp he]; rfl
  | cases y cs =>
      obtain ⟨i, _, rfl⟩ := List.mem_map.mp he
      exact vectorOf_elementName y i
  | width y m => rw [List.mem_singleton.mp he]

/-! ### What lifting keeps -/

/-- There is a case, and no guard is false by its form. -/
def IsSplit (cs : List (Formula R × Term R)) : Prop :=
  cs ≠ [] ∧ ∀ c ∈ cs, c.1.IsProper

/-- Vectors and cases are not empty, and vectors have plain names. -/
structure Tidy (ds : List (Definition R)) : Prop where
  vector : ∀ x ts, .vector x ts ∈ ds → PlainName x ∧ ts ≠ []
  width : ∀ x n, .width x n ∈ ds → PlainName x ∧ 0 < n
  cases : ∀ x cs, .cases x cs ∈ ds → IsSplit cs

omit [Scalar R] in
theorem IsSplit.map {cs : List (Formula R × Term R)} (h : IsSplit cs)
    {f : Formula R × Term R → Formula R × Term R}
    (hf : ∀ c ∈ cs, c.1.IsProper → (f c).1.IsProper) : IsSplit (cs.map f) := by
  refine ⟨by simpa using h.1, ?_⟩
  intro b hb
  obtain ⟨c, hc, rfl⟩ := List.mem_map.mp hb
  exact hf c hc (h.2 c hc)

omit [Scalar R] in
theorem Tidy.eq_vectorOf {ds : List (Definition R)} (h : Tidy ds) {d : Definition R}
    (hd : d ∈ ds) {x : String} {n : Nat} (hx : d.widthNote? = some (x, n)) :
    x = vectorOf d.name := by
  cases d with
  | simple y t =>
      obtain ⟨⟨z, i⟩, he, hz⟩ := Option.map_eq_some_iff.mp hx
      cases hz
      exact eq_vectorOf_of_elementOf? he
  | vector y ts =>
      cases hx
      exact (vectorOf_of_plain (h.vector _ _ hd).1).symm
  | cases y cs =>
      obtain ⟨⟨z, i⟩, he, hz⟩ := Option.map_eq_some_iff.mp hx
      cases hz
      exact eq_vectorOf_of_elementOf? he
  | width y m =>
      cases hx
      exact (vectorOf_of_plain (h.width _ _ hd).1).symm

omit [Scalar R] in
theorem Tidy.plain_of_isVectorName {ds : List (Definition R)} (h : Tidy ds) {x : String}
    (hx : IsVectorName ds x) : PlainName x := by
  obtain ⟨d, hd, n, hn⟩ := hx
  rw [h.eq_vectorOf hd hn]
  exact plain_vectorOf d.name

omit [Scalar R] in
theorem Tidy.width_pos {ds : List (Definition R)} (h : Tidy ds) {v : String} {n : Nat}
    (hv : (v, n) ∈ widths ds) : 0 < n := by
  refine forall_mem_widths (P := fun n => 0 < n)
    (fun m n hm _ => lt_of_lt_of_le hm (le_max_left m n)) ?_ (v, n) hv
  intro d hd x m hm
  cases d with
  | simple y t =>
      obtain ⟨e, _, he⟩ := Option.map_eq_some_iff.mp hm
      cases he
      exact Nat.succ_pos _
  | vector y ts =>
      cases hm
      exact List.length_pos_iff.mpr (h.vector _ _ hd).2
  | cases y cs =>
      obtain ⟨e, _, he⟩ := Option.map_eq_some_iff.mp hm
      cases he
      exact Nat.succ_pos _
  | width y k =>
      cases hm
      exact (h.width _ _ hd).2

/-- Names that stand for vectors: those of vectors and widths, and those whose definition
uses such a name. -/
inductive VectorValued (ds : List (Definition R)) : String → Prop
  | vector (x : String) (ts : List (Term R)) (mem : .vector x ts ∈ ds) : VectorValued ds x
  | width (x : String) (n : Nat) (mem : .width x n ∈ ds) : VectorValued ds x
  | uses (d : Definition R) (v : String) (mem : d ∈ ds) (mentions : d.mentions v = true)
      (value : VectorValued ds v) : VectorValued ds d.name

/-- The name is given by cases that use two vectors. -/
def CasesOverTwoVectors (ds : List (Definition R)) (x : String) : Prop :=
  ∃ cs v w, .cases x cs ∈ ds ∧ v ≠ w ∧ VectorValued ds v ∧ VectorValued ds w ∧
    (Definition.cases x cs).mentions v = true ∧ (Definition.cases x cs).mentions w = true

/-- A definition comes from another one: it defines the same name or elements of it, and
uses no other plain names. -/
structure ComesFrom (d origin : Definition R) : Prop where
  name : vectorOf d.name = origin.name
  mentions : ∀ x, PlainName x → d.mentions x = true → origin.mentions x = true

/-- The first element of cases that are lifted over one vector. -/
def liftedOnce (x : String) (cs : List (Formula R × Term R)) (v : String) : Definition R :=
  .cases (Term.elementName x 0) (cs.map fun c => (formulaAt v 0 c.1, atElement v 0 c.2))

/-- What becomes of a definition: it is still there, it is a vector, its cases are lifted
once, or they use two vectors. -/
def Kept (given ds : List (Definition R)) (d : Definition R) : Prop :=
  d ∈ ds ∨ (∃ ts, .vector d.name ts ∈ ds) ∨
    (∃ x cs v, d = .cases x cs ∧ VectorValued given v ∧ d.mentions v = true ∧
      liftedOnce x cs v ∈ ds) ∨
    CasesOverTwoVectors given d.name

/-- What lifting keeps of the given definitions. -/
structure Lifted (given ds : List (Definition R)) : Prop where
  tidy : Tidy ds
  simple_plain : ∀ x t, .simple x t ∈ ds → PlainName x
  origin : ∀ d ∈ ds, ∃ o ∈ given, ComesFrom d o
  vectorValued : ∀ x, IsVectorName ds x → VectorValued given x
  kept : ∀ d ∈ given, d.isWidth = false → Kept given ds d

theorem Tidy.lift {ds next : List (Definition R)} {d : Definition R} {v : String} {n : Nat}
    (h : Tidy ds) (hrep : ReplacedBy ds next d (d.lift v n))
    (hplain : ∀ x t, .simple x t ∈ ds → PlainName x) (hn : 0 < n)
    (hm : d.mentions v = true) : Tidy next := by
  have hd := hrep.mem
  refine ⟨?_, ?_, ?_⟩
  · intro x ts hf
    rcases hrep.new _ hf with hf | hf
    · exact h.vector x ts hf
    · cases d with
      | simple y t =>
          cases List.mem_singleton.mp hf
          refine ⟨hplain _ _ hd, ?_⟩
          simp [Nat.pos_iff_ne_zero.mp hn]
      | vector y us =>
          cases List.mem_singleton.mp hf
          obtain ⟨hy, hus⟩ := h.vector _ _ hd
          exact ⟨hy, by simpa using hus⟩
      | cases y cs =>
          obtain ⟨i, _, hi⟩ := List.mem_map.mp hf
          cases hi
      | width y m => simp [mentions] at hm
  · intro x m hf
    rcases hrep.new _ hf with hf | hf
    · exact h.width x m hf
    · cases d with
      | simple y t => cases List.mem_singleton.mp hf
      | vector y us => cases List.mem_singleton.mp hf
      | cases y cs =>
          obtain ⟨i, _, hi⟩ := List.mem_map.mp hf
          cases hi
      | width y k => simp [mentions] at hm
  · intro x cs hf
    rcases hrep.new _ hf with hf | hf
    · exact h.cases x cs hf
    · cases d with
      | simple y t => cases List.mem_singleton.mp hf
      | vector y us => cases List.mem_singleton.mp hf
      | cases y es =>
          obtain ⟨i, _, hi⟩ := List.mem_map.mp hf
          cases hi
          exact (h.cases _ _ hd).map fun c _ hc => (Formula.isProper_subst c.1 v _).mpr hc
      | width y k => simp [mentions] at hm

/-- A step does with a definition what `Kept` says. -/
theorem Kept.step {given ds next : List (Definition R)} {d o : Definition R} {v : String}
    {n : Nat} (h : Kept given ds o) (ho : o ∈ given)
    (hrep : ReplacedBy ds next d (d.lift v n)) (hn : 0 < n) (hm : d.mentions v = true)
    (hplain : PlainName v) (hv : VectorValued given v) : Kept given next o := by
  have hstay := hrep.stays
  have hlift := hrep.result_mem
  rcases h with hmem | ⟨ts, hmem⟩ | ⟨x, cs, w, rfl, hw, hmw, hmem⟩ | htwo
  · rcases hstay o hmem with hmem | rfl
    · exact Or.inl hmem
    · cases o with
      | simple x t => exact Or.inr (Or.inl ⟨_, hlift _ (List.mem_singleton.mpr rfl)⟩)
      | vector x ts => exact Or.inr (Or.inl ⟨_, hlift _ (List.mem_singleton.mpr rfl)⟩)
      | cases x cs =>
          refine Or.inr (Or.inr (Or.inl ⟨x, cs, v, rfl, hv, hm, hlift _ ?_⟩))
          exact List.mem_map.mpr ⟨0, List.mem_range.mpr hn, rfl⟩
      | width x m => simp [mentions] at hm
  · rcases hstay _ hmem with hmem | rfl
    · exact Or.inr (Or.inl ⟨ts, hmem⟩)
    · exact Or.inr (Or.inl ⟨_, hlift _ (List.mem_singleton.mpr rfl)⟩)
  · rcases hstay _ hmem with hmem | rfl
    · exact Or.inr (Or.inr (Or.inl ⟨x, cs, w, rfl, hw, hmw, hmem⟩))
    · -- The cases are lifted once more, over another vector.
      refine Or.inr (Or.inr (Or.inr ⟨cs, v, w, ho, ?_⟩))
      have honce : liftedOnce x cs w ∈ (Definition.cases x cs).lift w 1 :=
        List.mem_map.mpr ⟨0, by simp, rfl⟩
      rcases mentions_of_mem_lift honce hm with ⟨hmv, hne⟩ | ⟨i, rfl⟩
      · exact ⟨hne, hv, hw, hmv, hmw⟩
      · exact absurd hplain (not_plain_elementName w i)
  · exact Or.inr (Or.inr (Or.inr htwo))

/-- What a step of lifting keeps. -/
theorem Lifted.step {given ds next : List (Definition R)} (h : Lifted given ds)
    (hstep : liftStep? ds = some next) : Lifted given next := by
  obtain ⟨d, v, n, hrep, hv, hm⟩ := liftStep?_eq_some hstep
  have hd := hrep.mem
  have hmem := hrep.new
  have hvector : IsVectorName ds v := mem_map_fst_widths.mp (List.mem_map_of_mem hv)
  have hplain := h.tidy.plain_of_isVectorName hvector
  have hvalued := h.vectorValued v hvector
  have hn := h.tidy.width_pos hv
  have htidy := h.tidy.lift hrep h.simple_plain hn hm
  refine ⟨htidy, ?_, ?_, ?_, ?_⟩
  · intro x t hf
    rcases hmem _ hf with hf | hf
    · exact h.simple_plain x t hf
    · cases d with
      | simple y u => cases List.mem_singleton.mp hf
      | vector y us => cases List.mem_singleton.mp hf
      | cases y cs =>
          obtain ⟨i, _, hi⟩ := List.mem_map.mp hf
          cases hi
      | width y k => cases List.mem_singleton.mp hf
  · intro f hf
    rcases hmem f hf with hf | hf
    · exact h.origin f hf
    · obtain ⟨o, ho, hname, hmentions⟩ := h.origin d hd
      refine ⟨o, ho, (vectorOf_name_of_mem_lift hf).trans hname, ?_⟩
      intro x hx hfx
      rcases mentions_of_mem_lift hf hfx with ⟨hdx, _⟩ | ⟨i, rfl⟩
      · exact hmentions x hx hdx
      · exact absurd hx (not_plain_elementName v i)
  · intro x hx
    obtain ⟨f, hf, m, hfm⟩ := hx
    rcases hmem f hf with hold | hnew
    · exact h.vectorValued x ⟨f, hold, m, hfm⟩
    · obtain ⟨o, ho, hname, hmentions⟩ := h.origin d hd
      rw [htidy.eq_vectorOf hf hfm, vectorOf_name_of_mem_lift hnew, hname]
      exact VectorValued.uses o v ho (hmentions v hplain hm) hvalued
  · intro o ho hwidth
    exact (h.kept o ho hwidth).step ho hrep hn hm hplain hvalued

/-- A definition of `x`, or of an element of `x`, uses `y` or an element of `y`. -/
def UsesPart (ds : List (Definition R)) (x y : String) : Prop :=
  ∃ d ∈ ds, vectorOf d.name = x ∧ ∃ z, d.mentions z = true ∧ vectorOf z = y

/-- What is used can be traced back, in one or more uses of the given definitions. -/
def Traced (given ds : List (Definition R)) : Prop :=
  ∀ d ∈ ds, ∀ z, d.mentions z = true →
    Relation.TransGen (UsesPart given) (vectorOf d.name) (vectorOf z)

omit [Scalar R] in
theorem Traced.start (given : List (Definition R)) : Traced given given := by
  intro d hd z hz
  exact Relation.TransGen.single ⟨d, hd, rfl, z, hz, rfl⟩

theorem Traced.liftStep {given ds next : List (Definition R)} (h : Traced given ds)
    (hstep : liftStep? ds = some next) : Traced given next := by
  obtain ⟨d, v, n, hrep, _, hm⟩ := liftStep?_eq_some hstep
  have hd := hrep.mem
  intro f hf z hz
  rcases hrep.new f hf with hmem | hmem
  · exact h f hmem z hz
  · rw [vectorOf_name_of_mem_lift hmem]
    rcases mentions_of_mem_lift hmem hz with ⟨hdz, _⟩ | ⟨i, rfl⟩
    · exact h d hd z hdz
    · rw [vectorOf_elementName]
      exact h d hd v hm

theorem Lifted.start {given : List (Definition R)} (hplain : ∀ d ∈ given, PlainName d.name)
    (htidy : Tidy given) : Lifted given given := by
  refine ⟨htidy, ?_, ?_, ?_, ?_⟩
  · intro x t hx
    exact hplain _ hx
  · intro d hd
    exact ⟨d, hd, vectorOf_of_plain (hplain d hd), fun x _ hx => hx⟩
  · rintro x ⟨d, hd, n, hn⟩
    cases d with
    | simple y t =>
        have hnone : elementOf? y = none := elementOf?_of_plain (hplain _ hd)
        simp [widthNote?, hnone] at hn
    | vector y ts =>
        cases hn
        exact VectorValued.vector x ts hd
    | cases y cs =>
        have hnone : elementOf? y = none := elementOf?_of_plain (hplain _ hd)
        simp [widthNote?, hnone] at hn
    | width y m =>
        cases hn
        exact VectorValued.width x n hd
  · intro d hd _
    exact Or.inl hd

/-- The end of lifting: no definition uses a whole vector. -/
theorem lifted_of_exhaust? {given ds : List (Definition R)}
    (hplain : ∀ d ∈ given, PlainName d.name) (htidy : Tidy given)
    (hself : ∀ d ∈ given, d.mentions d.name = false)
    (h : exhaust? liftStep? given = some ds) :
    Lifted given ds ∧ Traced given ds ∧
      ∀ x, IsVectorName ds x → ∀ d ∈ ds, d.mentions x = false := by
  obtain ⟨hreach, hnone⟩ := reaches_of_exhaust? h
  have hlifted : Lifted given ds :=
    hreach.invariant (fun _ _ hes hstep => hes.step hstep) (Lifted.start hplain htidy)
  have htraced : Traced given ds :=
    hreach.invariant (fun _ _ hes hstep => hes.liftStep hstep) (Traced.start given)
  refine ⟨hlifted, htraced, ?_⟩
  intro x hx d hd
  by_cases hname : d.name = x
  · -- A definition of the vector itself comes from one that does not use it.
    subst hname
    have hplainName := hlifted.tidy.plain_of_isVectorName hx
    obtain ⟨o, ho, horigin, hmentions⟩ := hlifted.origin d hd
    rw [vectorOf_of_plain hplainName] at horigin
    by_contra hm
    have hom := hmentions d.name hplainName (by simpa using hm)
    rw [horigin, hself o ho] at hom
    cases hom
  · exact liftStep?_eq_none hnone hd hx hname

end Definition
end SignalFlow
