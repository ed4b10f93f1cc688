import Mathlib.Data.List.Nodup
import Mathlib.Data.List.Perm.Subperm
import Mathlib.Logic.Relation
import SignalFlow.Definition.WellFormed

/-!
# Definitions without a cycle can be ranked

The search for a cycle of dependencies collects the positions that lead into none.  A
position is added only after all positions it depends on, so its place in the collection is
a rank that falls along every dependency.

The search is cut off at a depth of as many positions as there are.  It never gets there:
the positions on the way are distinct.

**Results.**
* `Arranged.not_transGen`: where everything stands behind what must come before it, there
  is no circle.
* `checkFrom_ok`: a search that finds no cycle adds its start, behind all it depends on.
* `exists_rank_of_cycle?`: without a cycle there is a rank.
-/

namespace SignalFlow

section Arrangement

variable {r : Nat → Nat → Prop} {xs : List Nat} {a b : Nat}

/-- Every member of a list stands behind all that must come before it. -/
def Arranged (r : Nat → Nat → Prop) (xs : List Nat) : Prop :=
  ∀ before b after, xs = before ++ b :: after → ∀ a, r a b → a ∈ before

theorem arranged_nil (r : Nat → Nat → Prop) : Arranged r [] := by
  intro before b after h
  simp at h

theorem Arranged.snoc (h : Arranged r xs) (hb : ∀ a, r a b → a ∈ xs) :
    Arranged r (xs ++ [b]) := by
  intro before c after hc a ha
  rcases List.eq_nil_or_concat after with rfl | ⟨after', l, rfl⟩
  · obtain ⟨rfl, hbc⟩ := List.append_inj' hc rfl
    cases hbc
    exact hb a ha
  · have hc' : xs ++ [b] = (before ++ c :: after') ++ [l] := by simpa using hc
    obtain ⟨rfl, _⟩ := List.append_inj' hc' rfl
    exact h before c after' rfl a ha

/-- What must come before a member stands at an earlier place. -/
theorem Arranged.idxOf_lt (h : Arranged r xs) (hb : b ∈ xs) (hab : r a b) :
    a ∈ xs ∧ xs.idxOf a < xs.idxOf b := by
  -- At the first place of `b`, all that must come before it stands before it.
  obtain ⟨before, after, rfl, hfirst⟩ := List.eq_append_cons_of_mem hb
  have hbefore : a ∈ before := h before b after rfl a hab
  refine ⟨List.mem_append_left _ hbefore, ?_⟩
  rw [List.idxOf_append_of_mem hbefore, List.idxOf_append_of_notMem hfirst,
    List.idxOf_cons_self]
  have hlt := List.idxOf_lt_length_of_mem hbefore
  omega

theorem Arranged.idxOf_lt_of_transGen (h : Arranged r xs) (hb : b ∈ xs)
    (hab : Relation.TransGen r a b) : a ∈ xs ∧ xs.idxOf a < xs.idxOf b := by
  induction hab using Relation.TransGen.head_induction_on with
  | single hstep => exact h.idxOf_lt hb hstep
  | head hstep _ ih =>
      obtain ⟨hmem, hlt⟩ := h.idxOf_lt ih.1 hstep
      exact ⟨hmem, Nat.lt_trans hlt ih.2⟩

/-- No member comes before itself. -/
theorem Arranged.not_transGen (h : Arranged r xs) (hb : b ∈ xs) :
    ¬ Relation.TransGen r b b := fun hloop =>
  Nat.lt_irrefl _ (h.idxOf_lt_of_transGen hb hloop).2

end Arrangement

/-- A list from the first place of a member on. -/
theorem exists_eq_append_dropWhile {path : List Nat} {i : Nat} (h : i ∈ path) :
    ∃ before after, path = before ++ i :: after ∧
      path.dropWhile (fun k => k != i) = i :: after := by
  obtain ⟨before, after, rfl, hfirst⟩ := List.eq_append_cons_of_mem h
  refine ⟨before, after, rfl, ?_⟩
  have hbefore : ∀ k ∈ before, (k != i) = true := by
    intro k hk
    have hne : k ≠ i := fun heq => hfirst (heq ▸ hk)
    simpa using hne
  rw [List.dropWhile_append_of_pos hbefore]
  simp

namespace Definition

variable {R : Type}

theorem mem_dependencies {ds : List (Definition R)} {i j : Nat} :
    i ∈ dependencies ds j ↔
      ∃ d e, ds[j]? = some d ∧ ds[i]? = some e ∧ d.dependsOn e = true := by
  unfold dependencies
  cases hj : ds[j]? with
  | none => simp
  | some d =>
      simp only [List.mem_filter, List.mem_range, Option.any_eq_true, Option.some.injEq]
      constructor
      · rintro ⟨_, e, he, hde⟩
        exact ⟨d, e, rfl, he, hde⟩
      · rintro ⟨_, e, rfl, he, hde⟩
        exact ⟨(List.getElem?_eq_some_iff.mp he).1, e, he, hde⟩

/-- Every position of a list stands behind all positions it depends on. -/
def Settled (ds : List (Definition R)) (clear : List Nat) : Prop :=
  ∀ before j after, clear = before ++ j :: after → ∀ i ∈ dependencies ds j, i ∈ before

theorem settled_nil (ds : List (Definition R)) : Settled ds [] :=
  arranged_nil _

theorem Settled.snoc {ds : List (Definition R)} {clear : List Nat} {j : Nat}
    (h : Settled ds clear) (hj : ∀ i ∈ dependencies ds j, i ∈ clear) :
    Settled ds (clear ++ [j]) :=
  Arranged.snoc h hj

/-- What a search adds: the result is settled, keeps what was there, and contains the
start. -/
def Covers (ds : List (Definition R)) (clear clear' : List Nat)
    (found : List Nat) : Prop :=
  Settled ds clear' ∧ clear ⊆ clear' ∧ ∀ i ∈ found, i ∈ clear'

theorem checkEach_ok {ds : List (Definition R)}
    {descend : Nat → List Nat → List Nat → Except (List Nat) (List Nat)} {path : List Nat}
    (hdescend : ∀ i clear clear', i < ds.length → i ∉ path → Settled ds clear →
      descend i path clear = .ok clear' → Covers ds clear clear' [i])
    {todo clear clear' : List Nat} (htodo : ∀ i ∈ todo, i < ds.length)
    (hclear : Settled ds clear) (h : checkEach descend path todo clear = .ok clear') :
    Covers ds clear clear' todo := by
  induction todo generalizing clear with
  | nil =>
      simp only [checkEach, Except.ok.injEq] at h
      subst h
      exact ⟨hclear, fun _ hi => hi, by simp⟩
  | cons i rest ih =>
      have hrest : ∀ k ∈ rest, k < ds.length := fun k hk =>
        htodo k (List.mem_cons_of_mem _ hk)
      simp only [checkEach] at h
      split at h
      · next hi =>
          obtain ⟨hsettled, hsub, hfound⟩ := ih hrest hclear h
          refine ⟨hsettled, hsub, ?_⟩
          rw [List.forall_mem_cons]
          exact ⟨hsub (by simpa using hi), hfound⟩
      · split at h
        · cases h
        · next hpath =>
            split at h
            · cases h
            · next clear₁ hfirst =>
                have hi : i ∉ path := by simpa using hpath
                obtain ⟨hsettled₁, hsub₁, hfound₁⟩ :=
                  hdescend i clear clear₁ (htodo i (by simp)) hi hclear hfirst
                obtain ⟨hsettled, hsub, hfound⟩ := ih hrest hsettled₁ h
                refine ⟨hsettled, fun k hk => hsub (hsub₁ hk), ?_⟩
                rw [List.forall_mem_cons]
                exact ⟨hsub (hfound₁ i (by simp)), hfound⟩

theorem length_lt_of_nodup {path : List Nat} {j n : Nat} (hnodup : path.Nodup)
    (hpath : ∀ k ∈ path, k < n) (hj : j < n) (hfresh : j ∉ path) : path.length < n := by
  have hcons : (j :: path).Nodup := List.nodup_cons.mpr ⟨hfresh, hnodup⟩
  have hsub : j :: path ⊆ List.range n := by
    intro k hk
    rw [List.mem_range]
    rcases List.mem_cons.mp hk with rfl | hk
    · exact hj
    · exact hpath k hk
  have hlen := (List.subperm_of_subset hcons hsub).length_le
  simp only [List.length_cons, List.length_range] at hlen
  omega

/-- A search without a cycle adds its start, behind all it depends on. -/
theorem checkFrom_ok {ds : List (Definition R)} {depth j : Nat}
    {path clear clear' : List Nat} (hnodup : path.Nodup)
    (hpath : ∀ k ∈ path, k < ds.length) (hj : j < ds.length) (hfresh : j ∉ path)
    (hdepth : ds.length ≤ path.length + depth) (hclear : Settled ds clear)
    (h : checkFrom ds depth j path clear = .ok clear') : Covers ds clear clear' [j] := by
  induction depth generalizing j path clear clear' with
  | zero =>
      have hlt := length_lt_of_nodup hnodup hpath hj hfresh
      omega
  | succ depth ih =>
      simp only [checkFrom] at h
      split at h
      · cases h
      · next clear₁ heach =>
          simp only [Except.ok.injEq] at h
          subst h
          have hdeps : ∀ i ∈ dependencies ds j, i < ds.length := by
            intro i hi
            obtain ⟨_, _, _, he, _⟩ := mem_dependencies.mp hi
            exact (List.getElem?_eq_some_iff.mp he).1
          have hdescend : ∀ i clear clear', i < ds.length → i ∉ path ++ [j] →
              Settled ds clear → checkFrom ds depth i (path ++ [j]) clear = .ok clear' →
              Covers ds clear clear' [i] := by
            intro i clear clear' hi hfresh' hclear' hfrom
            refine ih ?_ ?_ hi hfresh' ?_ hclear' hfrom
            · exact List.nodup_append_comm.mp (List.nodup_cons.mpr ⟨hfresh, hnodup⟩)
            · intro k hk
              rcases List.mem_append.mp hk with hk | hk
              · exact hpath k hk
              · rw [List.mem_singleton.mp hk]
                exact hj
            · simp only [List.length_append, List.length_singleton]
              omega
          obtain ⟨hsettled, hsub, hfound⟩ := checkEach_ok hdescend hdeps hclear heach
          exact ⟨hsettled.snoc hfound, fun k hk =>
            List.mem_append_left _ (hsub hk), by simp⟩

theorem checkAll_none {ds : List (Definition R)} {todo clear : List Nat}
    (htodo : ∀ j ∈ todo, j < ds.length) (hclear : Settled ds clear)
    (h : checkAll ds todo clear = none) : ∃ clear', Covers ds clear clear' todo := by
  induction todo generalizing clear with
  | nil => exact ⟨clear, hclear, fun _ hi => hi, by simp⟩
  | cons j rest ih =>
      have hrest : ∀ k ∈ rest, k < ds.length := fun k hk =>
        htodo k (List.mem_cons_of_mem _ hk)
      simp only [checkAll] at h
      split at h
      · next hj =>
          obtain ⟨clear', hsettled, hsub, hfound⟩ := ih hrest hclear h
          refine ⟨clear', hsettled, hsub, ?_⟩
          rw [List.forall_mem_cons]
          exact ⟨hsub (by simpa using hj), hfound⟩
      · split at h
        · cases h
        · next clear₁ hfrom =>
            obtain ⟨hsettled₁, hsub₁, hfound₁⟩ :=
              checkFrom_ok List.nodup_nil (by simp) (htodo j (by simp)) (by simp)
                (by simp) hclear
                hfrom
            obtain ⟨clear', hsettled, hsub, hfound⟩ := ih hrest hsettled₁ h
            refine ⟨clear', hsettled, fun k hk => hsub (hsub₁ hk), ?_⟩
            rw [List.forall_mem_cons]
            exact ⟨hsub (hfound₁ j (by simp)), hfound⟩

/-- Without a cycle there is a rank of positions that falls along every dependency. -/
theorem exists_rank_of_cycle? {ds : List (Definition R)} (h : cycle? ds = none) :
    ∃ rank : Nat → Nat, ∀ i j d e, ds[j]? = some d → ds[i]? = some e →
      d.dependsOn e = true → rank i < rank j := by
  have hall : checkAll ds (List.range ds.length) [] = none := by
    simpa [cycle?] using h
  obtain ⟨clear, hsettled, _, hfound⟩ :=
    checkAll_none (fun j hj => List.mem_range.mp hj) (settled_nil ds) hall
  refine ⟨fun i => clear.idxOf i, ?_⟩
  intro i j d e hj hi hdep
  have hmem : j ∈ clear := by
    refine hfound j (List.mem_range.mpr ?_)
    exact (List.getElem?_eq_some_iff.mp hj).1
  exact (Arranged.idxOf_lt hsettled hmem (mem_dependencies.mpr ⟨d, e, hj, hi, hdep⟩)).2

/-- Without a cycle no definition uses itself. -/
theorem not_mentions_self_of_cycle? {ds : List (Definition R)} (h : cycle? ds = none)
    {d : Definition R} (hd : d ∈ ds) : d.mentions d.name = false := by
  obtain ⟨rank, hrank⟩ := exists_rank_of_cycle? h
  obtain ⟨i, hi⟩ := List.mem_iff_getElem?.mp hd
  by_contra hm
  have hm : d.mentions d.name = true := by simpa using hm
  have hwidth : d.isWidth = false := by
    cases d with
    | simple x t => rfl
    | vector x ts => rfl
    | cases x cs => rfl
    | width x n => simp [mentions] at hm
  have hdep : d.dependsOn d = true := by simp [dependsOn, hwidth, hm]
  exact Nat.lt_irrefl _ (hrank i i d d hi hi hdep)

end Definition
end SignalFlow
