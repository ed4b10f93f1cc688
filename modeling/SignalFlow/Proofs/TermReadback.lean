import SignalFlow.Term.Printer
import SignalFlow.Proofs.Meaning
import SignalFlow.Proofs.TermGrammar
import SignalFlow.Proofs.WrittenNumbers

/-!
# Terms that are written and read

The text of a term is read as a term with the same value, although sums inside of sums, and
products and quotients inside of products, are written without parentheses and grouped
anew.  `Printable.readsBack` follows the printer: at each place the text of a term is
derived with the strength that the place asks for.
-/

namespace SignalFlow
namespace Term

universe w

variable {R : Type} [Scalar R]

/-- A word that is taken for a name. -/
def IsIdentifier (cs : List Char) : Prop :=
  (∃ c ∈ cs.head?, c.isDigit = false) ∧ ∀ c ∈ cs, c ∉ delimiters

/-- A word that is read as a number. -/
def IsNumeral (text : String) (v : R) : Prop :=
  (∃ c ∈ text.toList.head?, c.isDigit = true) ∧ (∀ c ∈ text.toList, c ∉ delimiters) ∧
    Scalar.read? text = some v

/-- Sums and products have operands, names are identifiers, and literals are of a kind. -/
inductive Printable (Literal : R → Prop) : Term R → Prop
  | num {v : R} (hv : Literal v) : Printable Literal (.num v)
  | var {x : String} (hx : IsIdentifier x.toList) : Printable Literal (.var x)
  | add {ts : List (Term R)} (hne : ts ≠ []) (hts : ∀ t ∈ ts, Printable Literal t) :
      Printable Literal (.add ts)
  | mul {ts : List (Term R)} (hne : ts ≠ []) (hts : ∀ t ∈ ts, Printable Literal t) :
      Printable Literal (.mul ts)
  | neg {t : Term R} (ht : Printable Literal t) : Printable Literal (.neg t)
  | div {a b : Term R} (ha : Printable Literal a) (hb : Printable Literal b) :
      Printable Literal (.div a b)
  | pow {a b : Term R} (ha : Printable Literal a) (hb : Printable Literal b) :
      Printable Literal (.pow a b)

/-- Literals are written as numerals that are read as they are, with a sign in front of the
negative ones. -/
structure WritesLiterals (Literal : R → Prop) : Prop where
  of_not_lt : ∀ {v : R}, Literal v → ¬ v < 0 → IsNumeral (Scalar.write v) v
  of_lt : ∀ {v : R}, Literal v → v < 0 → Scalar.write v = "-" ++ Scalar.write (-v) ∧
    IsNumeral (Scalar.write (-v)) (-v)

/-- The terms have one value in every field in which negated literals are negated
values. -/
def Agree (Literal : R → Prop) (t u : Term R) : Prop :=
  ∀ {K : Type w} [Field K] (σ : Reading R K), (∀ v, Literal v → σ.lit (-v) = -σ.lit v) →
    ∀ values : Valuation K, t.eval σ values = u.eval σ values

/-- The text is read at a place of some strength as a term with the value of `t`. -/
def ReadsAt (Literal : R → Prop) (k : Nat) (text : String) (t : Term R) : Prop :=
  ∃ ss u, symbols? text = some ss ∧ Derives k ss u ∧ Agree.{w} Literal u t

section Texts

variable {Literal : R → Prop} {j k : Nat} {text text' : String} {s t u : Term R}

theorem ReadsAt.of_le (h : ReadsAt.{w} Literal k text t) (hle : j ≤ k) :
    ReadsAt.{w} Literal j text t := by
  obtain ⟨ss, u, hss, hderives, hagree⟩ := h
  exact ⟨ss, u, hss, hderives.of_le hle, hagree⟩

theorem ReadsAt.congr (h : ReadsAt.{w} Literal k text t) (hagree : Agree.{w} Literal t u) :
    ReadsAt.{w} Literal k text u := by
  obtain ⟨ss, r, hss, hderives, hr⟩ := h
  exact ⟨ss, r, hss, hderives, fun σ hσ values =>
    (hr σ hσ values).trans (hagree σ hσ values)⟩

theorem ReadsAt.enclosed (h : ReadsAt.{w} Literal 1 text t) :
    ReadsAt.{w} Literal 5 ("(" ++ text ++ ")") t := by
  obtain ⟨ss, u, hss, hderives, hagree⟩ := h
  have hopening : Separates (R := R) "(" [.opening] := by
    constructor <;> simp [delimiters, mark]
  have hclosing : Separates (R := R) ")" [.closing] := by
    constructor <;> simp [delimiters, mark]
  exact ⟨_, u, hclosing.after (hopening.before hss), hderives.enclosed, hagree⟩

theorem ReadsAt.enclose {own place : Nat} (h : ReadsAt.{w} Literal own text t)
    (hown : 1 ≤ own) (hplace : place ≤ 5) :
    ReadsAt.{w} Literal place (enclose own place text) t := by
  rw [Term.enclose]
  split
  · exact (h.of_le hown).enclosed.of_le hplace
  · exact h.of_le (by omega)

theorem ReadsAt.neg (h : ReadsAt.{w} Literal 3 text t) :
    ReadsAt.{w} Literal 3 ("-" ++ text) (.neg t) := by
  obtain ⟨ss, u, hss, hderives, hagree⟩ := h
  have hminus : Separates (R := R) "-" [.minus] := by
    constructor <;> simp [delimiters, mark]
  exact ⟨_, .neg u, hminus.before hss, hderives.neg,
    fun σ hσ values => by simp [hagree σ hσ values]⟩

/-- A product without parentheses continues the product in front of it. -/
theorem Derives.exists_mul (Literal : R → Prop) {ss us : List (Symbol R)}
    (ht : Derives 2 ss t) (hu : Derives 2 us u) :
    ∃ r, Derives 2 (ss ++ .times :: us) r ∧ Agree.{w} Literal r (.mul [t, u]) := by
  generalize hk : 2 = k at hu
  induction hu with
  | @mul us vs a b _ hb iha _ =>
    obtain ⟨r, hr, hagree⟩ := iha rfl
    refine ⟨.mul [r, b], ?_, fun σ hσ values => ?_⟩
    · simpa using hr.mul hb
    · simp [hagree σ hσ values, mul_assoc]
  | @div us vs a b _ hb iha _ =>
    obtain ⟨r, hr, hagree⟩ := iha rfl
    refine ⟨.div r b, ?_, fun σ hσ values => ?_⟩
    · simpa using hr.div hb
    · simp [hagree σ hσ values, mul_div_assoc]
  | weaken h =>
    subst hk
    exact ⟨_, ht.mul h, fun σ hσ values => rfl⟩
  | _ => omega

/-- A sum without parentheses continues the sum in front of it. -/
theorem Derives.exists_add (Literal : R → Prop) {ss us : List (Symbol R)}
    (ht : Derives 1 ss t) (hu : Derives 1 us u) :
    ∃ r, Derives 1 (ss ++ .plus :: us) r ∧ Agree.{w} Literal r (.add [t, u]) := by
  generalize hk : 1 = k at hu
  induction hu with
  | @add us vs a b _ hb iha _ =>
    obtain ⟨r, hr, hagree⟩ := iha rfl
    refine ⟨.add [r, b], ?_, fun σ hσ values => ?_⟩
    · simpa using hr.add hb
    · simp [hagree σ hσ values, add_assoc]
  | @sub us vs a b _ hb iha _ =>
    obtain ⟨r, hr, hagree⟩ := iha rfl
    refine ⟨.add [r, .neg b], ?_, fun σ hσ values => ?_⟩
    · simpa using hr.sub hb
    · simp [hagree σ hσ values, add_assoc]
  | weaken h =>
    subst hk
    exact ⟨_, ht.add h, fun σ hσ values => rfl⟩
  | _ => omega

/-- Texts with a mark between them are read as an operation on what they are read as. -/
theorem ReadsAt.binary {i : Nat} {m : Symbol R} {separator : String}
    {f : Term R → Term R → Term R} (hseparator : Separates separator [m])
    (hderives : ∀ {ss us : List (Symbol R)} {a b : Term R}, Derives i ss a →
      Derives j us b →
      ∃ r, Derives k (ss ++ m :: us) r ∧ Agree.{w} Literal r (f a b))
    (hf : ∀ {K : Type w} [Field K] (σ : Reading R K)
      (values : Valuation K) {a b c d : Term R},
      a.eval σ values = c.eval σ values → b.eval σ values = d.eval σ values →
        (f a b).eval σ values = (f c d).eval σ values)
    (ht : ReadsAt.{w} Literal i text t) (hu : ReadsAt.{w} Literal j text' u) :
    ReadsAt.{w} Literal k (text ++ separator ++ text') (f t u) := by
  obtain ⟨ss, a, hss, ha, hagreeLeft⟩ := ht
  obtain ⟨us, b, hus, hb, hagreeRight⟩ := hu
  obtain ⟨r, hr, hagree⟩ := hderives ha hb
  refine ⟨_, r, hseparator.join hss hus, hr, fun σ hσ values => ?_⟩
  exact (hagree σ hσ values).trans
    (hf σ values (hagreeLeft σ hσ values) (hagreeRight σ hσ values))

theorem ReadsAt.pow (ht : ReadsAt.{w} Literal 5 text t)
    (hu : ReadsAt.{w} Literal 5 text' u) :
    ReadsAt.{w} Literal 4 (text ++ "^" ++ text') (.pow t u) := by
  refine ht.binary (m := .caret) ?_ (fun ha hb => ⟨_, ha.pow hb, fun _ _ _ => rfl⟩) ?_ hu
  · constructor <;> simp [delimiters, mark]
  · intro K _ σ values a b c d ha hb
    simp [ha, hb]

theorem ReadsAt.div (ht : ReadsAt.{w} Literal 2 text t)
    (hu : ReadsAt.{w} Literal 3 text' u) :
    ReadsAt.{w} Literal 2 (text ++ " / " ++ text') (.div t u) := by
  refine ht.binary (m := .over) ?_ (fun ha hb => ⟨_, ha.div hb, fun _ _ _ => rfl⟩) ?_ hu
  · constructor <;> simp [delimiters, mark]
  · intro K _ σ values a b c d ha hb
    simp [ha, hb]

theorem ReadsAt.mul (ht : ReadsAt.{w} Literal 2 text t)
    (hu : ReadsAt.{w} Literal 2 text' u) :
    ReadsAt.{w} Literal 2 (text ++ " * " ++ text') (.mul [t, u]) := by
  refine ht.binary (m := .times) (f := fun a b => .mul [a, b]) ?_
    (fun ha hb => ha.exists_mul Literal hb) ?_ hu
  · constructor <;> simp [delimiters, mark]
  · intro K _ σ values a b c d ha hb
    simp [ha, hb]

theorem ReadsAt.add (ht : ReadsAt.{w} Literal 1 text t)
    (hu : ReadsAt.{w} Literal 1 text' u) :
    ReadsAt.{w} Literal 1 (text ++ " + " ++ text') (.add [t, u]) := by
  refine ht.binary (m := .plus) (f := fun a b => .add [a, b]) ?_
    (fun ha hb => ha.exists_add Literal hb) ?_ hu
  · constructor <;> simp [delimiters, mark]
  · intro K _ σ values a b c d ha hb
    simp [ha, hb]

theorem ReadsAt.sub (ht : ReadsAt.{w} Literal 1 text t)
    (hu : ReadsAt.{w} Literal 2 text' u) :
    ReadsAt.{w} Literal 1 (text ++ " - " ++ text') (.add [t, .neg u]) := by
  refine ht.binary (m := .minus) (f := fun a b => .add [a, .neg b]) ?_
    (fun ha hb => ⟨_, ha.sub hb, fun _ _ _ => rfl⟩) ?_ hu
  · constructor <;> simp [delimiters, mark]
  · intro K _ σ values a b c d ha hb
    simp [ha, hb]

theorem ReadsAt.name {x : String} (hx : IsIdentifier x.toList) :
    ReadsAt.{w} Literal 5 x (.var x) := by
  obtain ⟨⟨c, hc, hdigit⟩, hplain⟩ := hx
  refine ⟨[.name x], .var x, ?_, .name x, fun _ _ _ => rfl⟩
  rw [symbols?, symbolsFrom?_of_plain hplain, List.nil_append]
  cases hlist : x.toList with
  | nil => simp [hlist] at hc
  | cons d ds =>
    have hd : d.isDigit = false := by simp_all
    rw [word?, hd, if_neg Bool.false_ne_true, ← hlist, String.ofList_toList]

theorem ReadsAt.numeral {v : R} (h : IsNumeral text v) :
    ReadsAt.{w} Literal 5 text (.num v) := by
  obtain ⟨⟨c, hc, hdigit⟩, hplain, hread⟩ := h
  refine ⟨[.number v], .num v, ?_, .number v, fun _ _ _ => rfl⟩
  rw [symbols?, symbolsFrom?_of_plain hplain, List.nil_append]
  cases hlist : text.toList with
  | nil => simp [hlist] at hc
  | cons d ds =>
    have hd : d.isDigit = true := by simp_all
    rw [word?, if_pos hd, ← hlist, String.ofList_toList, hread]
    rfl

end Texts

/-! ### The printer -/

section Printer

variable {Literal : R → Prop} (hw : WritesLiterals Literal) {text : String}
  {s t u : Term R}
include hw

theorem ReadsAt.literal {v : R} (hv : Literal v) :
    ReadsAt.{w} Literal (literalStrength v) (Scalar.write v) (.num v) := by
  rw [literalStrength]
  split
  · rename_i hlt
    obtain ⟨hwrite, hnumeral⟩ := hw.of_lt hv hlt
    rw [hwrite]
    refine ((ReadsAt.numeral hnumeral).of_le (by omega)).neg.congr fun σ hσ values => ?_
    simp [hσ v hv]
  · rename_i hlt
    exact .numeral (hw.of_not_lt hv hlt)

theorem ReadsAt.summand_num (h : ReadsAt.{w} Literal 1 text s) {v : R} (hv : Literal v) :
    ReadsAt.{w} Literal 1 (text ++ if v < 0 then " - " ++ Scalar.write (-v)
      else " + " ++ Scalar.write v)
      (.add [s, .num v]) := by
  split
  · rename_i hlt
    obtain ⟨-, hnumeral⟩ := hw.of_lt hv hlt
    rw [← String.append_assoc]
    refine (h.sub ((ReadsAt.numeral hnumeral).of_le (by omega))).congr fun σ hσ values =>
      ?_
    simp [hσ v hv]
  · rename_i hlt
    rw [← String.append_assoc]
    exact h.add ((ReadsAt.numeral (hw.of_not_lt hv hlt)).of_le (by omega))

end Printer

/-- Text of a summand after the first. -/
def summandText : Term R → String
  | .neg t => " - " ++ renderAt 2 t
  | .num v => if v < 0 then " - " ++ Scalar.write (-v) else " + " ++ Scalar.write v
  | t => " + " ++ renderAt 1 t

theorem renderSummands_cons (t : Term R) (ts : List (Term R)) :
    renderSummands (t :: ts) = summandText t ++ renderSummands ts := by
  cases t <;> simp [renderSummands, summandText, String.append_assoc]

/-- The text of a term is read at every place, and after the first summand of a sum, as a
term of the same value. -/
structure ReadsBack (Literal : R → Prop) (t : Term R) : Prop where
  at_place : ∀ place ≤ 5, ReadsAt.{w} Literal place (renderAt place t) t
  as_summand : ∀ {text : String} {s : Term R}, ReadsAt.{w} Literal 1 text s →
    ReadsAt.{w} Literal 1 (text ++ summandText t) (.add [s, t])

theorem ReadsBack.of_place {Literal : R → Prop} {t : Term R}
    (hplace : ∀ place ≤ 5, ReadsAt.{w} Literal place (renderAt place t) t)
    (htext : summandText t = " + " ++ renderAt 1 t) : ReadsBack.{w} Literal t := by
  refine ⟨hplace, fun {text s} hs => ?_⟩
  rw [htext, ← String.append_assoc]
  exact hs.add (hplace 1 (by omega))

theorem ReadsAt.summands {Literal : R → Prop} {ts : List (Term R)}
    (h : ∀ t ∈ ts, ReadsBack.{w} Literal t) {text : String} {s : Term R}
    (hs : ReadsAt.{w} Literal 1 text s) :
    ReadsAt.{w} Literal 1 (text ++ renderSummands ts) (.add (s :: ts)) := by
  induction ts generalizing text s with
  | nil =>
    rw [renderSummands, String.append_empty]
    exact hs.congr fun σ hσ values => by simp
  | cons t ts ih =>
    rw [renderSummands_cons, ← String.append_assoc]
    have hnext := (h t List.mem_cons_self).as_summand hs
    refine (ih (fun u hu => h u (List.mem_cons_of_mem t hu)) hnext).congr
      fun σ hσ values => ?_
    simp [add_assoc]

theorem ReadsAt.factors {Literal : R → Prop} {ts : List (Term R)}
    (h : ∀ t ∈ ts, ReadsBack.{w} Literal t) {text : String} {s : Term R}
    (hs : ReadsAt.{w} Literal 2 text s) :
    ReadsAt.{w} Literal 2 (text ++ renderFactors ts) (.mul (s :: ts)) := by
  induction ts generalizing text s with
  | nil =>
    rw [renderFactors, String.append_empty]
    exact hs.congr fun σ hσ values => by simp
  | cons t ts ih =>
    rw [renderFactors, ← String.append_assoc, ← String.append_assoc]
    have hnext := hs.mul ((h t List.mem_cons_self).at_place 2 (by omega))
    refine (ih (fun u hu => h u (List.mem_cons_of_mem t hu)) hnext).congr
      fun σ hσ values => ?_
    simp [mul_assoc]

theorem Printable.readsBack {Literal : R → Prop} (hw : WritesLiterals Literal) {t : Term R}
    (ht : Printable Literal t) : ReadsBack.{w} Literal t := by
  induction ht with
  | @num v hv =>
    refine ⟨fun place hplace => ?_, fun hs => hs.summand_num hw hv⟩
    rw [renderAt]
    refine (ReadsAt.literal hw hv).enclose ?_ hplace
    rw [literalStrength]
    split <;> omega
  | @var x hx =>
    refine .of_place (fun place hplace => ?_) rfl
    rw [renderAt]
    exact (ReadsAt.name hx).of_le hplace
  | @add ts hne _ ih =>
    refine .of_place (fun place hplace => ?_) rfl
    cases ts with
    | nil => exact absurd rfl hne
    | cons t ts =>
      rw [renderAt, renderSum]
      have hfirst := (ih t List.mem_cons_self).at_place 1 (by omega)
      exact (hfirst.summands fun u hu => ih u (List.mem_cons_of_mem t hu)).enclose
        (by omega) hplace
  | @mul ts hne _ ih =>
    refine .of_place (fun place hplace => ?_) rfl
    cases ts with
    | nil => exact absurd rfl hne
    | cons t ts =>
      rw [renderAt, renderProduct]
      have hfirst := (ih t List.mem_cons_self).at_place 2 (by omega)
      exact (hfirst.factors fun u hu => ih u (List.mem_cons_of_mem t hu)).enclose
        (by omega) hplace
  | @neg t _ ih =>
    refine ⟨fun place hplace => ?_, fun {text s} hs => ?_⟩
    · rw [renderAt]
      exact ((ih.at_place 4 (by omega)).of_le (by omega)).neg.enclose (by omega) hplace
    · rw [summandText, ← String.append_assoc]
      exact hs.sub (ih.at_place 2 (by omega))
  | @div a b _ _ iha ihb =>
    refine .of_place (fun place hplace => ?_) rfl
    rw [renderAt]
    exact ((iha.at_place 2 (by omega)).div (ihb.at_place 3 (by omega))).enclose
      (by omega) hplace
  | @pow a b _ _ iha ihb =>
    refine .of_place (fun place hplace => ?_) rfl
    rw [renderAt]
    exact ((iha.at_place 5 (by omega)).pow (ihb.at_place 5 (by omega))).enclose
      (by omega) hplace

/-- The text of a term has a reading. -/
theorem ReadsBack.exists_reads {Literal : R → Prop} {t : Term R}
    (h : ReadsBack.{w} Literal t) : ∃ u, Reads t.render u ∧ Agree.{w} Literal u t := by
  obtain ⟨ss, u, hss, hderives, hagree⟩ := h.at_place 0 (by omega)
  cases hderives with
  | weaken hderives => exact ⟨u, ⟨ss, hss, hderives⟩, hagree⟩

end Term

namespace Binary64

/-- The literals that are written as they are read: finite ones, except for the negative
zero. -/
def Literal (v : Float) : Prop :=
  Scalar.isFinite v = true ∧ v ≠ -0

theorem isNumeral_write {v : Float} (h : Scalar.isFinite v = true)
    (hsign : signField v = 0) : Term.IsNumeral (Scalar.write v) v := by
  obtain ⟨p, hwrite, hread⟩ := exists_parts_write h hsign
  have htext : (Scalar.write v).toList = p.text := by
    show (write v).toList = p.text
    rw [hwrite, String.toList_ofList]
  obtain ⟨c, cs, hcons, hc⟩ := p.exists_text_eq_cons
  refine ⟨⟨c, by rw [htext, hcons]; rfl, hc⟩, fun d hd => ?_, hread⟩
  have hdelimiters : ∀ d ∈ Term.delimiters, d.isDigit = false ∧ d ≠ '.' := by
    simp [Term.delimiters, Char.isDigit]
  intro hdelimiter
  obtain ⟨hdigit, hpoint⟩ := hdelimiters d hdelimiter
  rw [htext] at hd
  obtain hd | rfl := p.isDigit_or_eq_of_mem_text hd
  · rw [hdigit] at hd
    cases hd
  · exact hpoint rfl

theorem writesLiterals : Term.WritesLiterals Literal where
  of_not_lt := fun ⟨hfinite, hzero⟩ hlt =>
    isNumeral_write hfinite (signField_of_not_lt hfinite hlt hzero)
  of_lt := fun ⟨hfinite, _⟩ hlt =>
    ⟨write_of_lt hfinite hlt,
      isNumeral_write (isFinite_neg hfinite)
      (signField_neg hfinite (signField_of_lt hfinite hlt))⟩

end Binary64

namespace Term

universe w

/-- The text of a term is read, in one way only, as a term that has the same value in every
field. -/
theorem render_reads_same_value {t : Term Float} (ht : t.Printable Binary64.Literal) :
    ∃ u, read? t.render = some u ∧ (∀ r, Reads t.render r ↔ r = u) ∧
      ∀ {K : Type w} [Field K] (σ : Reading Float K),
        (∀ v, Binary64.Literal v → σ.lit (-v) = -σ.lit v) →
          ∀ values : Valuation K, u.eval σ values = t.eval σ values := by
  obtain ⟨u, hu, hagree⟩ := (ht.readsBack Binary64.writesLiterals).exists_reads
  exact ⟨u, hu.read?, fun r => ⟨fun hr => hr.unique hu, fun hr => hr ▸ hu⟩, hagree⟩

/-- A quotient of products with a difference, a negation and a power. -/
def sample : Term Float :=
  .div (.mul [.num (-2), .add [.var "x", .num (-2), .neg (.var "y")]])
    (.neg (.pow (.num 2) (.var "x")))

theorem sample_printable : sample.Printable Binary64.Literal := by
  have htwo : Binary64.Literal 2 := ⟨by decide, by decide⟩
  have hminus : Binary64.Literal (-2) := ⟨by decide, by decide⟩
  have hx : Printable Binary64.Literal (.var "x") :=
    .var (by simp [IsIdentifier, delimiters, Char.isDigit])
  have hy : Printable Binary64.Literal (.var "y") :=
    .var (by simp [IsIdentifier, delimiters, Char.isDigit])
  have hsum :
      Printable Binary64.Literal (.add [.var "x", .num (-2), .neg (.var "y")]) := by
    refine .add (by simp) fun t ht => ?_
    simp only [List.mem_cons, List.not_mem_nil, or_false] at ht
    obtain rfl | rfl | rfl := ht
    · exact hx
    · exact .num hminus
    · exact .neg hy
  refine .div (.mul (by simp) fun t ht => ?_) (.neg (.pow (.num htwo) hx))
  simp only [List.mem_cons, List.not_mem_nil, or_false] at ht
  obtain rfl | rfl := ht
  · exact .num hminus
  · exact hsum

theorem render_reads_sample :
    sample.render = "-2 * (x - 2 - y) / -2^x" ∧
      ∃ u, read? "-2 * (x - 2 - y) / -2^x" = some u ∧
        ∀ (pow : ℚ → ℚ → ℚ) (values : Valuation ℚ),
          u.eval (Binary64.exactReading pow) values = sample.eval
            (Binary64.exactReading pow) values := by
  have htext : sample.render = "-2 * (x - 2 - y) / -2^x" := by rfl
  obtain ⟨u, hread, -, hvalue⟩ := render_reads_same_value sample_printable
  rw [htext] at hread
  exact ⟨htext, u, hread, fun pow values =>
    hvalue _ (fun v _ => Binary64.exactValue_neg v) values⟩

end Term
end SignalFlow
