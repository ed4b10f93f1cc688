import SignalFlow.Definition.Closure
import SignalFlow.Proofs.Occurrence

/-!
# Inlining one definition into another

What a step of closing does to a list of definitions: one definition, at some place of the
list, is replaced by what inlining another one of the list makes of it.  A definition
without vectors stays one definition of the same name.

**Results.**
* `closeStep?_eq_some`, `closeStep?_eq_none`: the effect of a step, and what it means that
  there is none.
* `mentions_of_mem_results`: the variables after inlining; the inlined name is gone unless
  it uses itself.
* `not_mentions_of_closeStep?_none`: the names that are not used any more when no step is
  left.
* `closeStep?_of_isScalar`: a step on definitions without vectors.
-/

namespace SignalFlow

/-- Equal lists agree in every function that equal members agree in. -/
theorem map_eq_of_beq {α β : Type*} [BEq α] {f : α → β} {as bs : List α}
    (hf : ∀ a b, (a == b) = true → f a = f b) (h : (as == bs) = true) :
    as.map f = bs.map f := by
  induction as generalizing bs with
  | nil =>
      cases bs with
      | nil => rfl
      | cons b bs => simp at h
  | cons a as ih =>
      cases bs with
      | nil => simp at h
      | cons b bs =>
          simp only [List.cons_beq_cons, Bool.and_eq_true] at h
          simp [hf a b h.1, ih h.2]

/-- In a list, one member `e` gives way to the members of `results`. -/
structure ReplacedBy {α : Type} (as next : List α) (e : α) (results : List α) : Prop where
  mem : e ∈ as
  stays : ∀ f ∈ as, f ∈ next ∨ f = e
  new : ∀ f ∈ next, f ∈ as ∨ f ∈ results
  result_mem : ∀ f ∈ results, f ∈ next

theorem replacedBy_append {α : Type} (before after results : List α) (e : α) :
    ReplacedBy (before ++ e :: after) (before ++ results ++ after) e results := by
  refine ⟨by simp, ?_, ?_, ?_⟩
  · intro f hf
    simp only [List.mem_append, List.mem_cons] at hf ⊢
    tauto
  · intro f hf
    simp only [List.mem_append, List.mem_cons] at hf ⊢
    tauto
  · intro f hf
    simp only [List.mem_append]
    tauto

namespace Definition

variable {R : Type}

/-- A term or cases for a single name. -/
def IsScalar : Definition R → Prop
  | .simple _ _ => True
  | .vector _ _ => False
  | .cases _ _ => True
  | .width _ _ => False

theorem dependsOn_of_isScalar {e d : Definition R} (he : e.IsScalar) (hd : d.IsScalar) :
    e.dependsOn d = e.mentions d.name := by
  cases e <;> cases d <;> simp_all [IsScalar, dependsOn, isWidth, elementNames]

theorem mentions_cases (z x : String) (cs : List (Formula R × Term R)) :
    (Definition.cases x cs).mentions z = true ↔
      ∃ c ∈ cs, c.1.mentions z = true ∨ c.2.mentions z = true := by
  simp [mentions]

section Equality

variable [BEq R]

theorem simple_beq (x y : String) (t u : Term R) :
    (Definition.simple x t == .simple y u) = (x == y && Term.beq t u) := rfl

theorem vector_beq (x y : String) (ts us : List (Term R)) :
    (Definition.vector x ts == .vector y us) = (x == y && ts == us) := rfl

/-- Equal definitions are of the same form, with equal parts. -/
theorem parts_of_beq {a b : Definition R} (h : (a == b) = true) :
    (∃ x t u, a = .simple x t ∧ b = .simple x u ∧ Term.beq t u = true) ∨
    (∃ x ts us, a = .vector x ts ∧ b = .vector x us ∧ (ts == us) = true) ∨
    (∃ x cs es, a = .cases x cs ∧ b = .cases x es ∧ (cs == es) = true) ∨
    (∃ x n, a = .width x n ∧ b = .width x n) := by
  cases a with
  | simple x t =>
      cases b with
      | simple y u =>
          obtain ⟨hxy, htu⟩ := Bool.and_eq_true_iff.mp h
          obtain rfl := eq_of_beq hxy
          exact Or.inl ⟨x, t, u, rfl, rfl, htu⟩
      | vector y us => exact absurd h Bool.false_ne_true
      | cases y es => exact absurd h Bool.false_ne_true
      | width y n => exact absurd h Bool.false_ne_true
  | vector x ts =>
      cases b with
      | simple y u => exact absurd h Bool.false_ne_true
      | vector y us =>
          obtain ⟨hxy, htu⟩ := Bool.and_eq_true_iff.mp h
          obtain rfl := eq_of_beq hxy
          exact Or.inr (Or.inl ⟨x, ts, us, rfl, rfl, htu⟩)
      | cases y es => exact absurd h Bool.false_ne_true
      | width y n => exact absurd h Bool.false_ne_true
  | cases x cs =>
      cases b with
      | simple y u => exact absurd h Bool.false_ne_true
      | vector y us => exact absurd h Bool.false_ne_true
      | cases y es =>
          obtain ⟨hxy, hce⟩ := Bool.and_eq_true_iff.mp h
          obtain rfl := eq_of_beq hxy
          exact Or.inr (Or.inr (Or.inl ⟨x, cs, es, rfl, rfl, hce⟩))
      | width y n => exact absurd h Bool.false_ne_true
  | width x m =>
      cases b with
      | simple y u => exact absurd h Bool.false_ne_true
      | vector y us => exact absurd h Bool.false_ne_true
      | cases y es => exact absurd h Bool.false_ne_true
      | width y n =>
          obtain ⟨hxy, hmn⟩ := Bool.and_eq_true_iff.mp h
          obtain rfl := eq_of_beq hxy
          obtain rfl := eq_of_beq hmn
          exact Or.inr (Or.inr (Or.inr ⟨x, m, rfl, rfl⟩))

theorem name_eq_of_beq {a b : Definition R} (h : (a == b) = true) : a.name = b.name := by
  rcases parts_of_beq h with ⟨_, _, _, rfl, rfl, _⟩ | ⟨_, _, _, rfl, rfl, _⟩ |
    ⟨_, _, _, rfl, rfl, _⟩ | ⟨_, _, rfl, rfl⟩ <;> rfl

/-- Equal definitions have the same variables. -/
theorem mentions_eq_of_beq (y : String) {a b : Definition R} (h : (a == b) = true) :
    a.mentions y = b.mentions y := by
  rcases parts_of_beq h with ⟨_, t, u, rfl, rfl, htu⟩ | ⟨_, ts, us, rfl, rfl, htu⟩ |
    ⟨_, cs, es, rfl, rfl, hce⟩ | ⟨_, _, rfl, rfl⟩
  · exact Term.mentions_eq_of_beq y t u htu
  · exact any_eq_of_map_eq (map_eq_of_beq (Term.mentions_eq_of_beq y) htu)
  · refine any_eq_of_map_eq (map_eq_of_beq ?_ hce)
    intro c e hc
    obtain ⟨hguard, hvalue⟩ := Bool.and_eq_true_iff.mp hc
    rw [Formula.mentions_eq_of_beq y c.1 e.1 hguard,
      Term.mentions_eq_of_beq y c.2 e.2 hvalue]
  · rfl

end Equality

variable [Scalar R]

/-! ### Steps of closing -/

/-- What inlining `d` makes of `e`, without `e` itself. -/
def inlined (e d : Definition R) : List (Definition R) :=
  (e.inline d).filter fun r => !(r == e)

theorem inlineInto?_cons (d : Definition R) (i j : Nat) (e : Definition R)
    (es : List (Definition R)) :
    inlineInto? d i j (e :: es) =
      if i = j ∨ (e.inlined d).isEmpty = true then
        (inlineInto? d i (j + 1) es).map (e :: ·)
      else some (e.inlined d ++ es) := by
  unfold inlined
  by_cases hij : i = j
  · simp [inlineInto?, hij]
  · have hb : (i == j) = false := by simpa using hij
    simp [inlineInto?, hij, hb]

theorem inlineInto?_eq_some {d : Definition R} {i j : Nat} {es next : List (Definition R)}
    (h : inlineInto? d i j es = some next) :
    ∃ before e after, es = before ++ e :: after ∧ i ≠ j + before.length ∧
      e.inlined d ≠ [] ∧ next = before ++ e.inlined d ++ after := by
  induction es generalizing j next with
  | nil => simp [inlineInto?] at h
  | cons e es ih =>
      rw [inlineInto?_cons] at h
      split at h
      · obtain ⟨next', hnext', rfl⟩ := Option.map_eq_some_iff.mp h
        obtain ⟨before, e', after, rfl, hi, hne, rfl⟩ := ih hnext'
        refine ⟨e :: before, e', after, rfl, ?_, hne, by simp⟩
        simp only [List.length_cons]
        omega
      · next hstay =>
          simp only [not_or, List.isEmpty_iff] at hstay
          simp only [Option.some.injEq] at h
          exact ⟨[], e, es, rfl, by simpa using hstay.1, hstay.2, by simp [h]⟩

theorem inlineInto?_eq_none {d : Definition R} {i j : Nat} {es : List (Definition R)}
    (h : inlineInto? d i j es = none) {before after : List (Definition R)}
    {e : Definition R} (hes : es = before ++ e :: after) (hi : i ≠ j + before.length) :
    e.inlined d = [] := by
  induction es generalizing j before with
  | nil => simp at hes
  | cons e' es ih =>
      rw [inlineInto?_cons] at h
      split at h
      · next hstay =>
          cases before with
          | nil =>
              simp only [List.nil_append, List.cons.injEq] at hes
              obtain ⟨rfl, rfl⟩ := hes
              rcases hstay with hij | hnil
              · exact absurd hij (by simpa using hi)
              · simpa using hnil
          | cons e'' before =>
              simp only [List.cons_append, List.cons.injEq] at hes
              refine ih (by simpa using h) hes.2 ?_
              simp only [List.length_cons] at hi
              omega
      · simp at h

/-- A step replaces one definition by what inlining another one makes of it. -/
theorem closeStep?_eq_some {ds next : List (Definition R)}
    (h : closeStep? ds = some next) :
    ∃ before e after d, ds = before ++ e :: after ∧ d ∈ before ++ after ∧
      e.inlined d ≠ [] ∧ next = before ++ e.inlined d ++ after := by
  obtain ⟨⟨d, i⟩, hdi, hinto⟩ := List.exists_of_findSome?_eq_some h
  obtain ⟨before, e, after, hds, hi, hne, hnext⟩ := inlineInto?_eq_some hinto
  refine ⟨before, e, after, d, hds, ?_, hne, hnext⟩
  have hget : ds[i]? = some d := List.mem_zipIdx_iff_getElem?.mp hdi
  rw [hds] at hget
  rcases Nat.lt_trichotomy i before.length with hlt | heq | hgt
  · rw [List.getElem?_append_left hlt] at hget
    exact List.mem_append_left _ (List.mem_of_getElem? hget)
  · exact absurd heq (by simpa using hi)
  · rw [List.getElem?_append_right (by omega)] at hget
    obtain ⟨k, hk⟩ : ∃ k, i - before.length = k + 1 := ⟨i - before.length - 1, by omega⟩
    rw [hk, List.getElem?_cons_succ] at hget
    exact List.mem_append_right _ (List.mem_of_getElem? hget)

/-- Without a step, no definition changes by inlining another one. -/
theorem closeStep?_eq_none {ds : List (Definition R)} (h : closeStep? ds = none)
    {before after : List (Definition R)} {e d : Definition R}
    (hds : ds = before ++ e :: after) (hd : d ∈ before ++ after) : e.inlined d = [] := by
  have hfind : ∀ i, ds[i]? = some d → i ≠ before.length → e.inlined d = [] := by
    intro i hget hi
    have hmem : (d, i) ∈ ds.zipIdx := List.mem_zipIdx_iff_getElem?.mpr hget
    have hinto := List.findSome?_eq_none_iff.mp h (d, i) hmem
    exact inlineInto?_eq_none hinto hds (by simpa using hi)
  rcases List.mem_append.mp hd with hd | hd
  · obtain ⟨i, hi, hget⟩ := List.mem_iff_getElem.mp hd
    refine hfind i ?_ (by omega)
    rw [hds, List.getElem?_append_left hi, List.getElem?_eq_getElem hi, hget]
  · obtain ⟨i, hi, hget⟩ := List.mem_iff_getElem.mp hd
    refine hfind (before.length + (i + 1)) ?_ (by omega)
    rw [hds, List.getElem?_append_right (by omega), Nat.add_sub_cancel_left,
      List.getElem?_cons_succ, List.getElem?_eq_getElem hi, hget]

/-- A list is closed if it is well-formed; the result is the distinct definitions of the
closed list. -/
theorem close_eq_ok {ds closed : List (Definition R)} (h : close ds = .ok closed) :
    conflict? (distinct ds) = none ∧ cycle? (distinct ds) = none ∧
      closed = distinct (closeAll (liftAll (distinct ds))) := by
  simp only [close] at h
  split at h
  · cases h
  · next hconflict =>
      split at h
      · cases h
      · next hcycle =>
          cases h
          exact ⟨hconflict, hcycle, rfl⟩

theorem close_of_wellFormed {ds : List (Definition R)}
    (hconflict : conflict? (distinct ds) = none) (hcycle : cycle? (distinct ds) = none) :
    close ds = .ok (distinct (closeAll (liftAll (distinct ds)))) := by
  simp only [close, hconflict, hcycle]

/-! ### Results of inlining -/

/-- What replacing `d` makes of `e`. -/
def inlineResults (e d : Definition R) : List (Definition R) :=
  match d with
  | .simple _ _ => [e.inlinePlain d]
  | .vector _ _ => [e.inlinePlain d]
  | .cases y cs => e.inlineCases y cs
  | .width _ _ => []

theorem inline_eq (e d : Definition R) :
    e.inline d =
      if e.dependsOn d then if inlineResults e d == [e] then [] else inlineResults e d
      else [] := by
  cases d <;> rfl

theorem inlined_eq_of_ne_nil {e d : Definition R} (h : e.inlined d ≠ []) :
    e.dependsOn d = true ∧ e.inlined d = (inlineResults e d).filter fun r =>
      !(r == e) := by
  unfold inlined at h ⊢
  rw [inline_eq] at h ⊢
  split at h
  · next hdep =>
      split at h
      · exact absurd rfl h
      · next hchange => exact ⟨hdep, by simp [hdep, hchange]⟩
  · exact absurd rfl h

theorem mem_inlined {e d r : Definition R} (h : r ∈ e.inlined d) :
    r ∈ inlineResults e d := by
  rw [(inlined_eq_of_ne_nil (List.ne_nil_of_mem h)).2] at h
  exact List.mem_of_mem_filter h

section Replacement

variable {α : Type} {subst : α → String → Term R → α} {m : String → α → Bool}

omit [Scalar R] in
/-- Replacing variables one after the other brings in no variables but those of the terms
put in. -/
theorem mentions_substEach
    (hsubst : ∀ a x y t, m y (subst a x t) = true →
      m y a = true ∨ t.mentions y = true)
    {pairs : List (String × Term R)} {a : α} {y : String}
    (h : m y (substEach subst pairs a) = true) :
    m y a = true ∨ ∃ e ∈ pairs, e.2.mentions y = true := by
  induction pairs generalizing a with
  | nil => exact Or.inl h
  | cons e pairs ih =>
      rcases ih h with h | ⟨e', he', h⟩
      · rcases hsubst _ _ _ _ h with h | h
        · exact Or.inl h
        · exact Or.inr ⟨e, List.mem_cons_self, h⟩
      · exact Or.inr ⟨e', List.mem_cons_of_mem _ he', h⟩

omit [Scalar R] in
/-- What a definition without guards replaces: its own variables come in, the name of a
term goes. -/
theorem mentions_of_replacements
    (hsubst : ∀ a x y t, m y (subst a x t) = true ↔
      (y ≠ x ∧ m y a = true) ∨ (m x a = true ∧ t.mentions y = true))
    {d : Definition R} {a : α} {y : String}
    (h : m y (substEach subst d.replacements a) = true) :
    (m y a = true ∧ ∀ x t, d = .simple x t → y ≠ x) ∨ d.mentions y = true := by
  cases d with
  | simple x t =>
      rcases (hsubst a x y t).mp h with ⟨hne, h⟩ | ⟨_, h⟩
      · refine Or.inl ⟨h, ?_⟩
        rintro x' t' ⟨⟩
        exact hne
      · exact Or.inr h
  | vector x ts =>
      have hsubst' : ∀ a x y t, m y (subst a x t) = true →
          m y a = true ∨ t.mentions y = true := by
        intro a x y t h
        rcases (hsubst a x y t).mp h with ⟨_, h⟩ | ⟨_, h⟩
        · exact Or.inl h
        · exact Or.inr h
      rcases mentions_substEach hsubst' h with h | ⟨e, he, h⟩
      · exact Or.inl ⟨h, by simp⟩
      · obtain ⟨⟨t, i⟩, ht, rfl⟩ := List.mem_map.mp he
        have hmem : t ∈ ts := List.mem_of_getElem? (List.mem_zipIdx_iff_getElem?.mp ht)
        exact Or.inr (List.any_eq_true.mpr ⟨t, hmem, h⟩)
  | cases x cs => exact Or.inl ⟨h, by simp⟩
  | width x n => exact Or.inl ⟨h, by simp⟩

end Replacement

theorem mentions_substTerm {d : Definition R} {t : Term R} {y : String}
    (h : (d.substTerm t).mentions y = true) :
    (t.mentions y = true ∧ ∀ x u, d = .simple x u → y ≠ x) ∨ d.mentions y = true :=
  mentions_of_replacements (m := Term.mentions) Term.mentions_subst h

theorem mentions_substFormula {d : Definition R} {p : Formula R} {y : String}
    (h : (d.substFormula p).mentions y = true) :
    (p.mentions y = true ∧ ∀ x u, d = .simple x u → y ≠ x) ∨ d.mentions y = true :=
  mentions_of_replacements (m := Formula.mentions) Formula.mentions_subst h

/-- The variables of a case that is split by the cases of `y`. -/
theorem mentions_splitCase {y z : String} {alternatives : List (Formula R × Term R)}
    {c b : Formula R × Term R} (hb : b ∈ splitCase y alternatives c)
    (hz : b.1.mentions z = true ∨ b.2.mentions z = true) :
    (z ≠ y ∧ (c.1.mentions z = true ∨ c.2.mentions z = true)) ∨
      (Definition.cases y alternatives).mentions z = true := by
  unfold splitCase at hb
  split at hb
  · obtain ⟨a, ha, rfl⟩ := List.mem_map.mp hb
    have hcase : (a.1.mentions z = true ∨ a.2.mentions z = true) →
        (Definition.cases y alternatives).mentions z = true :=
      fun h => (mentions_cases z y alternatives).mpr ⟨a, ha, h⟩
    rcases hz with hz | hz
    · obtain ⟨p, hp, hpz⟩ := Formula.exists_of_mentions_conj hz
      simp only [List.mem_cons, List.not_mem_nil, or_false] at hp
      rcases hp with rfl | rfl
      · rcases (Formula.mentions_subst _ _ _ _).mp hpz with ⟨hne, hc⟩ | ⟨_, ha2⟩
        · exact Or.inl ⟨hne, Or.inl hc⟩
        · exact Or.inr (hcase (Or.inr ha2))
      · exact Or.inr (hcase (Or.inl hpz))
    · rcases (Term.mentions_subst _ _ _ _).mp hz with ⟨hne, hc⟩ | ⟨_, ha2⟩
      · exact Or.inl ⟨hne, Or.inr hc⟩
      · exact Or.inr (hcase (Or.inr ha2))
  · next hno =>
      simp only [List.mem_singleton] at hb
      subst hb
      simp only [Bool.or_eq_true, not_or] at hno
      refine Or.inl ⟨?_, hz⟩
      rintro rfl
      rcases hz with hz | hz
      · exact hno.1 hz
      · exact hno.2 hz

/-- The variables of a definition in which one without guards is replaced. -/
theorem mentions_inlinePlain {e d : Definition R} {z : String}
    (hz : (e.inlinePlain d).mentions z = true) :
    (e.mentions z = true ∧ ∀ x u, d = .simple x u → z ≠ x) ∨ d.mentions z = true := by
  cases e with
  | simple x t =>
      simp only [inlinePlain] at hz
      split at hz
      · split at hz
        · exact Or.inr hz
        · exact mentions_substTerm hz
      · exact mentions_substTerm hz
  | vector x ts =>
      simp only [inlinePlain, mentions, List.any_map, List.any_eq_true,
        Function.comp_apply] at hz
      obtain ⟨t, ht, hz⟩ := hz
      rcases mentions_substTerm hz with ⟨h, hne⟩ | h
      · exact Or.inl ⟨List.any_eq_true.mpr ⟨t, ht, h⟩, hne⟩
      · exact Or.inr h
  | cases x cs =>
      obtain ⟨b, hb, hz⟩ := (mentions_cases _ _ _).mp hz
      obtain ⟨c, hc, rfl⟩ := List.mem_map.mp hb
      rcases hz with hz | hz
      · rcases mentions_substFormula hz with ⟨h, hne⟩ | h
        · exact Or.inl ⟨(mentions_cases _ _ _).mpr ⟨c, hc, Or.inl h⟩, hne⟩
        · exact Or.inr h
      · rcases mentions_substTerm hz with ⟨h, hne⟩ | h
        · exact Or.inl ⟨(mentions_cases _ _ _).mpr ⟨c, hc, Or.inr h⟩, hne⟩
        · exact Or.inr h
  | width x n => simp [inlinePlain, mentions] at hz

/-- The variables of a term that is split by the cases of `y`. -/
theorem mentions_byCases {x y z : String} {t : Term R}
    {alternatives : List (Formula R × Term R)}
    (hz : (byCases x t y alternatives).mentions z = true) :
    (z ≠ y ∧ t.mentions z = true) ∨
      (Definition.cases y alternatives).mentions z = true := by
  obtain ⟨b, hb, hz⟩ := (mentions_cases _ _ _).mp hz
  obtain ⟨a, ha, rfl⟩ := List.mem_map.mp hb
  rcases hz with hz | hz
  · exact Or.inr ((mentions_cases _ _ _).mpr ⟨a, ha, Or.inl hz⟩)
  · rcases (Term.mentions_subst _ _ _ _).mp hz with h | ⟨_, h⟩
    · exact Or.inl h
    · exact Or.inr ((mentions_cases _ _ _).mpr ⟨a, ha, Or.inr h⟩)

theorem mentions_of_mem_inlineCases {e r : Definition R} {y z : String}
    {alternatives : List (Formula R × Term R)} (hr : r ∈ e.inlineCases y alternatives)
    (hz : r.mentions z = true) :
    (z ≠ y ∧ e.mentions z = true) ∨
      (Definition.cases y alternatives).mentions z = true := by
  cases e with
  | simple x t =>
      rw [List.mem_singleton.mp hr] at hz
      exact mentions_byCases hz
  | vector x ts =>
      obtain ⟨⟨t, i⟩, hti, rfl⟩ := List.mem_map.mp hr
      have ht : t ∈ ts := List.mem_of_getElem? (List.mem_zipIdx_iff_getElem?.mp hti)
      have hvector : t.mentions z = true → (Definition.vector x ts).mentions z = true :=
        fun h => List.any_eq_true.mpr ⟨t, ht, h⟩
      dsimp only at hz
      split at hz
      · rcases mentions_byCases hz with ⟨hne, h⟩ | h
        · exact Or.inl ⟨hne, hvector h⟩
        · exact Or.inr h
      · next hno =>
          refine Or.inl ⟨?_, hvector hz⟩
          rintro rfl
          exact hno hz
  | cases x cs =>
      rw [List.mem_singleton.mp hr] at hz
      obtain ⟨b, hb, hz⟩ := (mentions_cases _ _ _).mp hz
      obtain ⟨c, hc, hb⟩ := List.mem_flatMap.mp hb
      rcases mentions_splitCase hb hz with ⟨hne, h⟩ | h
      · exact Or.inl ⟨hne, (mentions_cases _ _ _).mpr ⟨c, hc, h⟩⟩
      · exact Or.inr h
  | width x n => cases hr

/-- After inlining, a variable is one that was used before, or comes from the inlined
definition.  The name of a term or of cases is gone. -/
theorem mentions_of_mem_results {e d r : Definition R} (hr : r ∈ inlineResults e d)
    {z : String} (hz : r.mentions z = true) :
    (e.mentions z = true ∧ (d.IsScalar → z ≠ d.name)) ∨ d.mentions z = true := by
  cases d with
  | simple y u =>
      rcases mentions_inlinePlain (by rwa [← List.mem_singleton.mp hr]) with ⟨he, hne⟩ | hd
      · exact Or.inl ⟨he, fun _ => hne y u rfl⟩
      · exact Or.inr hd
  | vector y us =>
      rcases mentions_inlinePlain (by rwa [← List.mem_singleton.mp hr]) with ⟨he, _⟩ | hd
      · exact Or.inl ⟨he, fun hs => hs.elim⟩
      · exact Or.inr hd
  | cases y alternatives =>
      rcases mentions_of_mem_inlineCases hr hz with ⟨hne, he⟩ | hd
      · exact Or.inl ⟨he, fun _ => hne⟩
      · exact Or.inr hd
  | width y n => cases hr

theorem exists_mem_results {e d : Definition R} (hd : d.IsScalar)
    (hm : e.mentions d.name = true) : ∃ r, r ∈ inlineResults e d := by
  cases d with
  | simple y u => exact ⟨_, List.mem_singleton.mpr rfl⟩
  | cases y alternatives =>
      cases e with
      | simple x t => exact ⟨_, List.mem_singleton.mpr rfl⟩
      | cases x cs => exact ⟨_, List.mem_singleton.mpr rfl⟩
      | vector x ts =>
          obtain ⟨t, ht, _⟩ := List.any_eq_true.mp hm
          obtain ⟨i, hi⟩ := List.mem_iff_getElem?.mp ht
          have hti : (t, i) ∈ ts.zipIdx := List.mem_zipIdx_iff_getElem?.mpr hi
          exact ⟨_, List.mem_map_of_mem hti⟩
      | width x n => simp [mentions] at hm
  | vector y us => exact hd.elim
  | width y n => exact hd.elim

omit [Scalar R] in
theorem dependsOn_of_mentions {e d : Definition R} (hd : d.IsScalar)
    (hm : e.mentions d.name = true) : e.dependsOn d = true := by
  cases e with
  | width x n => simp [mentions] at hm
  | _ => cases d <;> simp_all [IsScalar, dependsOn, isWidth]

/-- Where no step is left, a definition does not use the name of another one that does not
use itself. -/
theorem not_mentions_of_inlined_eq_nil {e d : Definition R} (hd : d.IsScalar)
    (hself : d.mentions d.name = false) (h : e.inlined d = []) :
    e.mentions d.name = false := by
  by_contra hm
  have hm : e.mentions d.name = true := by simpa using hm
  -- No result uses the name, so that every result differs from `e`.
  have hfresh : ∀ r ∈ inlineResults e d, r.mentions d.name = false := by
    intro r hr
    by_contra hrm
    rcases mentions_of_mem_results hr (by simpa using hrm) with ⟨_, hne⟩ | hdm
    · exact hne hd rfl
    · rw [hself] at hdm
      cases hdm
  have hdiffer : ∀ r ∈ inlineResults e d, (r == e) = false := by
    intro r hr
    by_contra hbeq
    have hsame := mentions_eq_of_beq d.name (by simpa using hbeq : (r == e) = true)
    rw [hfresh r hr, hm] at hsame
    cases hsame
  obtain ⟨r, hr⟩ := exists_mem_results hd hm
  have hchange : (inlineResults e d == [e]) = false := by
    cases hres : inlineResults e d with
    | nil => rfl
    | cons r' rs =>
        have := hdiffer r' (by simp [hres])
        simp [this]
  have hmem : r ∈ e.inlined d := by
    refine List.mem_filter.mpr ⟨?_, by simp [hdiffer r hr]⟩
    rw [inline_eq, dependsOn_of_mentions hd hm, hchange]
    simpa using hr
  rw [h] at hmem
  cases hmem

theorem not_mentions_of_closeStep?_none {ds : List (Definition R)}
    (h : closeStep? ds = none) {d : Definition R} (hd : d ∈ ds) (hscalar : d.IsScalar)
    (hself : d.mentions d.name = false) {e : Definition R} (he : e ∈ ds) :
    e.mentions d.name = false := by
  obtain ⟨before, after, rfl⟩ := List.append_of_mem he
  have hother : d ∈ before ++ after ∨ d = e := by
    simp only [List.mem_append, List.mem_cons] at hd ⊢
    tauto
  rcases hother with hother | rfl
  · exact not_mentions_of_inlined_eq_nil hscalar hself (closeStep?_eq_none h rfl hother)
  · exact hself

/-! ### Definitions without vectors -/

/-- The definition `e` with the name that `d` defines replaced, for definitions without
vectors. -/
def inlineScalar (e d : Definition R) : Definition R :=
  match e, d with
  | .simple x t, .simple y u => .simple x (t.subst y u)
  | .cases x cs, .simple y u => .cases x (cs.map fun c => (c.1.subst y u, c.2.subst y u))
  | .simple x t, .cases y alternatives => byCases x t y alternatives
  | .cases x cs, .cases y alternatives => .cases x (cs.flatMap (splitCase y alternatives))
  | e, _ => e

theorem inlineResults_of_isScalar {e d : Definition R} (he : e.IsScalar)
    (hd : d.IsScalar) : inlineResults e d = [e.inlineScalar d] := by
  cases e with
  | simple x t =>
      cases d with
      | simple y u => cases t <;> rfl
      | cases y alternatives => rfl
      | vector y us => exact hd.elim
      | width y n => exact hd.elim
  | cases x cs =>
      cases d with
      | simple y u => rfl
      | cases y alternatives => rfl
      | vector y us => exact hd.elim
      | width y n => exact hd.elim
  | vector x ts => exact he.elim
  | width x n => exact he.elim

theorem inlined_of_isScalar {e d : Definition R} (he : e.IsScalar) (hd : d.IsScalar) :
    e.inlined d =
      if e.mentions d.name = true ∧ (e.inlineScalar d == e) = false then [e.inlineScalar d]
      else [] := by
  unfold inlined
  rw [inline_eq, dependsOn_of_isScalar he hd, inlineResults_of_isScalar he hd]
  cases hm : e.mentions d.name with
  | false => simp
  | true => cases hb : (e.inlineScalar d == e) <;> simp [hb]

/-- If a definition without vectors changes, it uses the inlined name and stays one
definition. -/
theorem eq_of_inlined_ne_nil {e d : Definition R} (he : e.IsScalar) (hd : d.IsScalar)
    (h : e.inlined d ≠ []) :
    e.mentions d.name = true ∧ e.inlined d = [e.inlineScalar d] := by
  rw [inlined_of_isScalar he hd] at h ⊢
  split at h
  · next hc => exact ⟨hc.1, if_pos hc⟩
  · exact absurd rfl h

theorem isScalar_inlineScalar {e d : Definition R} (he : e.IsScalar) (hd : d.IsScalar) :
    (e.inlineScalar d).IsScalar := by
  cases e <;> cases d <;> simp_all [IsScalar, inlineScalar, byCases]

theorem name_inlineScalar (e d : Definition R) : (e.inlineScalar d).name = e.name := by
  cases e <;> cases d <;> rfl

/-- A step on definitions without vectors replaces one of them in its place, by inlining
another one. -/
theorem closeStep?_of_isScalar {ds next : List (Definition R)}
    (hscalar : ∀ d ∈ ds, d.IsScalar) (h : closeStep? ds = some next) :
    ∃ before e after d, ds = before ++ e :: after ∧ d ∈ before ++ after ∧ d ∈ ds ∧
      e.mentions d.name = true ∧ next = before ++ [e.inlineScalar d] ++ after := by
  obtain ⟨before, e, after, d, rfl, hd, hne, rfl⟩ := closeStep?_eq_some h
  have hmem : d ∈ before ++ e :: after := by
    simp only [List.mem_append, List.mem_cons] at hd ⊢
    tauto
  obtain ⟨hm, hinl⟩ := eq_of_inlined_ne_nil (hscalar e (by simp)) (hscalar d hmem) hne
  exact ⟨before, e, after, d, rfl, hd, hmem, hm, by rw [hinl]⟩

/-- What inlining keeps is kept by a step. -/
theorem forall_mem_of_closeStep? {P : Definition R → Prop} {ds next : List (Definition R)}
    (hscalar : ∀ d ∈ ds, d.IsScalar) (h : closeStep? ds = some next) (hP : ∀ d ∈ ds, P d)
    (hinline : ∀ e d, e.IsScalar → d.IsScalar → P e → P d → P (e.inlineScalar d)) :
    ∀ f ∈ next, P f := by
  obtain ⟨before, e, after, d, rfl, _, hd, _, rfl⟩ := closeStep?_of_isScalar hscalar h
  have hrep := replacedBy_append before after [e.inlineScalar d] e
  intro f hf
  rcases hrep.new f hf with hf | hf
  · exact hP f hf
  · rw [List.mem_singleton.mp hf]
    exact hinline e d (hscalar e hrep.mem) (hscalar d hd) (hP e hrep.mem) (hP d hd)

/-- After inlining, a variable is another one that was used before, or comes from the
inlined definition. -/
theorem mentions_inlineScalar {e d : Definition R} (he : e.IsScalar) (hd : d.IsScalar)
    {z : String} (hz : (e.inlineScalar d).mentions z = true) :
    (z ≠ d.name ∧ e.mentions z = true) ∨ d.mentions z = true := by
  have hmem : e.inlineScalar d ∈ inlineResults e d := by
    rw [inlineResults_of_isScalar he hd]
    exact List.mem_singleton.mpr rfl
  rcases mentions_of_mem_results hmem hz with ⟨h, hne⟩ | h
  · exact Or.inl ⟨hne hd, h⟩
  · exact Or.inr h

end Definition
end SignalFlow
