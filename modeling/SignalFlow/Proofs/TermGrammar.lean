import SignalFlow.Term.Basic

/-!
# The grammar of terms

Terms are read in the usual notation of arithmetic.  `symbols?` splits a text into numbers,
names and marks, and `Derives` is the grammar, by binding strength: sums and differences
(1) and products and quotients (2) group to the left, then come negation (3), powers of
atoms (4), and atoms (5), which are numbers, names and terms in parentheses.

The grammar gives a text at most one reading.  `readSymbols?` finds it: it keeps what has
been read as a stack of frames that wait for their last operand, and closes them as soon as
a weaker mark follows.  `Derives.readSymbols?` is its completeness.
-/

namespace SignalFlow
namespace Term

/-- A number, a name or a mark. -/
inductive Symbol (R : Type) where
  | number (value : R)
  | name (text : String)
  | plus
  | minus
  | times
  | over
  | caret
  | opening
  | closing

variable {R : Type}

/-- The terms that a list of symbols can be read as at a place that asks for some binding
strength. -/
inductive Derives : Nat → List (Symbol R) → Term R → Prop
  | number (v : R) : Derives 5 [.number v] (.num v)
  | name (x : String) : Derives 5 [.name x] (.var x)
  | enclosed {ss : List (Symbol R)} {t : Term R} (h : Derives 1 ss t) :
      Derives 5 (.opening :: (ss ++ [.closing])) t
  | pow {ss us : List (Symbol R)} {a b : Term R} (ha : Derives 5 ss a)
      (hb : Derives 5 us b) :
      Derives 4 (ss ++ .caret :: us) (.pow a b)
  | neg {ss : List (Symbol R)} {t : Term R} (h : Derives 3 ss t) :
      Derives 3 (.minus :: ss) (.neg t)
  | mul {ss us : List (Symbol R)} {t u : Term R} (ht : Derives 2 ss t)
      (hu : Derives 3 us u) :
      Derives 2 (ss ++ .times :: us) (.mul [t, u])
  | div {ss us : List (Symbol R)} {t u : Term R} (ht : Derives 2 ss t)
      (hu : Derives 3 us u) :
      Derives 2 (ss ++ .over :: us) (.div t u)
  | add {ss us : List (Symbol R)} {t u : Term R} (ht : Derives 1 ss t)
      (hu : Derives 2 us u) :
      Derives 1 (ss ++ .plus :: us) (.add [t, u])
  | sub {ss us : List (Symbol R)} {t u : Term R} (ht : Derives 1 ss t)
      (hu : Derives 2 us u) :
      Derives 1 (ss ++ .minus :: us) (.add [t, .neg u])
  | weaken {k : Nat} {ss : List (Symbol R)} {t : Term R} (h : Derives (k + 1) ss t) :
      Derives k ss t

theorem Derives.of_le {j k : Nat} {ss : List (Symbol R)} {t : Term R} (h : Derives k ss t)
    (hle : j ≤ k) : Derives j ss t := by
  induction hle with
  | refl => exact h
  | step _ ih => exact ih h.weaken

/-! ### Reading symbols -/

/-- A part of a term that waits for its last operand. -/
inductive Frame (R : Type) where
  | sum (t : Term R)
  | difference (t : Term R)
  | product (t : Term R)
  | quotient (t : Term R)
  | negation
  | power (t : Term R)
  | opening

/-- How strongly a frame binds its last operand. -/
def Frame.strength : Frame R → Nat
  | .opening => 0
  | .sum _ => 1
  | .difference _ => 1
  | .product _ => 2
  | .quotient _ => 2
  | .negation => 3
  | .power _ => 4

/-- The term that a frame makes with its last operand. -/
def Frame.close : Frame R → Term R → Term R
  | .opening, u => u
  | .sum t, u => .add [t, u]
  | .difference t, u => .add [t, .neg u]
  | .product t, u => .mul [t, u]
  | .quotient t, u => .div t u
  | .negation, u => .neg u
  | .power t, u => .pow t u

/-- Close all frames that bind at least as strongly as asked for. -/
def reduce (k : Nat) : List (Frame R) → Term R → List (Frame R) × Term R
  | [], t => ([], t)
  | f :: fs, t => if k ≤ f.strength then reduce k fs (f.close t) else (f :: fs, t)

/-- A frame may be put around an operand at a place of some strength.  Negations may follow
each other. -/
def Admits (k : Nat) (fs : List (Frame R)) : Prop :=
  ∀ f ∈ fs.head?, f.strength < k ∨ k = 3 ∧ f.strength = 3

/-- The frame on top is a power, whose exponent is an atom. -/
def atPower (fs : List (Frame R)) : Bool :=
  fs.head?.any fun f => f.strength == 4

/-- Read one symbol, with or without an operand before it. -/
def step? : List (Frame R) × Option (Term R) → Symbol R →
      Option (List (Frame R) × Option (Term R))
  | (fs, none), .number v => some (fs, some (.num v))
  | (fs, none), .name x => some (fs, some (.var x))
  | (fs, none), .opening => some (.opening :: fs, none)
  | (fs, none), .minus => if atPower fs then none else some (.negation :: fs, none)
  | (fs, some t), .plus => some (.sum (reduce 1 fs t).2 :: (reduce 1 fs t).1, none)
  | (fs, some t), .minus => some (.difference (reduce 1 fs t).2 :: (reduce 1 fs t).1, none)
  | (fs, some t), .times => some (.product (reduce 2 fs t).2 :: (reduce 2 fs t).1, none)
  | (fs, some t), .over => some (.quotient (reduce 2 fs t).2 :: (reduce 2 fs t).1, none)
  | (fs, some t), .caret => if atPower fs then none else some (.power t :: fs, none)
  | (fs, some t), .closing =>
      match reduce 1 fs t with
      | (.opening :: fs, t) => some (fs, some t)
      | _ => none
  | _, _ => none

/-- Read symbols one after the other. -/
def run? (s : List (Frame R) × Option (Term R)) (ss : List (Symbol R)) :
    Option (List (Frame R) × Option (Term R)) :=
  ss.foldlM step? s

/-- The term that a list of symbols is read as. -/
def readSymbols? (ss : List (Symbol R)) : Option (Term R) :=
  match run? ([], none) ss with
  | some (fs, some t) =>
      match reduce 1 fs t with
      | ([], t) => some t
      | _ => none
  | _ => none

theorem reduce_eq_self {k : Nat} {fs : List (Frame R)} (h : ∀ f ∈ fs.head?, f.strength < k)
    (t : Term R) : reduce k fs t = (fs, t) := by
  cases fs with
  | nil => rfl
  | cons f fs => rw [reduce, if_neg (Nat.not_le.mpr (h f rfl))]

theorem reduce_cons {k : Nat} {f : Frame R} (h : k ≤ f.strength) (fs : List (Frame R))
    (t : Term R) : reduce k (f :: fs) t = reduce k fs (f.close t) := by
  rw [reduce, if_pos h]

theorem Frame.strength_lt (f : Frame R) : f.strength < 5 := by
  cases f <;> simp [strength]

theorem Admits.lt {k : Nat} {fs : List (Frame R)} (h : Admits k fs) (hk : k ≠ 3) :
    ∀ f ∈ fs.head?, f.strength < k :=
  fun f hf => (h f hf).resolve_right fun hthree => hk hthree.1

theorem Admits.succ {k : Nat} {fs : List (Frame R)} (h : Admits k fs) :
    Admits (k + 1) fs := by
  intro f hf
  obtain hlt | ⟨rfl, heq⟩ := h f hf
  · exact .inl (Nat.lt_succ_of_lt hlt)
  · exact .inl (by omega)

theorem admits_cons {k : Nat} {f : Frame R} (h : f.strength < k) (fs : List (Frame R)) :
    Admits k (f :: fs) := by
  rintro g ⟨⟩
  exact .inl h

theorem atPower_eq_false {fs : List (Frame R)} (h : ∀ f ∈ fs.head?, f.strength < 4) :
    atPower fs = false := by
  cases fs with
  | nil => rfl
  | cons f fs => simpa [atPower] using Nat.ne_of_lt (h f rfl)

theorem run?_cons (s : List (Frame R) × Option (Term R)) (m : Symbol R)
    (ss : List (Symbol R)) : run? s (m :: ss) = (step? s m).bind fun s' => run? s' ss :=
  List.foldlM_cons

theorem run?_append (s : List (Frame R) × Option (Term R)) (ss us : List (Symbol R)) :
    run? s (ss ++ us) = (run? s ss).bind fun s' => run? s' us :=
  List.foldlM_append

/-- The symbols are read on top of some frames as an operand: for marks that bind no
stronger than asked for, the frames they leave open can be closed to the term `t`. -/
def Settles (k : Nat) (fs : List (Frame R)) (ss : List (Symbol R)) (t : Term R) : Prop :=
  ∃ gs u, run? (fs, none) ss = some (gs, some u) ∧ ∀ j ≤ k, reduce j gs u = reduce j fs t

/-- A mark between two operands opens a frame with the first one. -/
theorem Settles.binary {k k' : Nat} {m : Symbol R} {f : Frame R} {fs : List (Frame R)}
    {ss us : List (Symbol R)} {t u : Term R} (hleft : Settles k fs ss t)
    (hright : Settles k' (f :: fs) us u) (hstep : ∀ {gs a}, reduce k gs a = (fs, t) →
      step? (gs, some a) m = some (f :: fs, none))
    (hfs : ∀ g ∈ fs.head?, g.strength < k) {j : Nat} (hj : j ≤ k') (hf : j ≤ f.strength) :
    Settles j fs (ss ++ m :: us) (f.close u) := by
  obtain ⟨gs, a, hrunLeft, hreduceLeft⟩ := hleft
  obtain ⟨hs, b, hrunRight, hreduceRight⟩ := hright
  have hclosed : reduce k gs a = (fs, t) := by
    rw [hreduceLeft k (Nat.le_refl k), reduce_eq_self hfs]
  refine ⟨hs, b, ?_, fun i hi => ?_⟩
  · rw [run?_append, hrunLeft, Option.bind_some, run?_cons, hstep hclosed,
      Option.bind_some, hrunRight]
  · rw [hreduceRight i (by omega), reduce_cons (by omega)]

/-- Marks of one strength group to the left. -/
theorem Settles.leftward {k : Nat} {m : Symbol R} {f : Frame R} {fs : List (Frame R)}
    {ss us : List (Symbol R)} {t u : Term R} (hfs : Admits k fs) (hk : k ≠ 3)
    (hleft : Settles k fs ss t)
    (hright : Admits (k + 1) (f :: fs) → Settles (k + 1) (f :: fs) us u)
    (hstep : ∀ {gs a}, reduce k gs a = (fs, t) →
      step? (gs, some a) m = some (f :: fs, none)) (hf : f.strength = k) :
    Settles k fs (ss ++ m :: us) (f.close u) :=
  hleft.binary (hright (admits_cons (by omega) fs)) hstep (hfs.lt hk) (by omega) (by omega)

/-- Reading the symbols of a term at a place that admits it is as good as reading a single
operand. -/
theorem Derives.settles {k : Nat} {ss : List (Symbol R)} {t : Term R} (h : Derives k ss t)
    (hk : 1 ≤ k) {fs : List (Frame R)} (hfs : Admits k fs) : Settles k fs ss t := by
  induction h generalizing fs with
  | number v => exact ⟨fs, .num v, rfl, fun _ _ => rfl⟩
  | name x => exact ⟨fs, .var x, rfl, fun _ _ => rfl⟩
  | @enclosed ss t _ ih =>
    obtain ⟨gs, u, hrun, hreduce⟩ :=
      ih (by omega) (admits_cons (f := .opening) Nat.zero_lt_one fs)
    have hclosed : reduce 1 gs u = (.opening :: fs, t) := by
      rw [hreduce 1 (by omega)]
      rfl
    have hclosing : step? (gs, some u) .closing = some (fs, some t) := by
      simp only [step?, hclosed]
    refine ⟨fs, t, ?_, fun _ _ => rfl⟩
    rw [run?_cons, step?, Option.bind_some, run?_append, hrun, Option.bind_some,
      run?_cons, hclosing]
    rfl
  | @pow ss us a b _ _ iha ihb =>
    have hany : ∀ gs : List (Frame R), Admits 5 gs := fun gs f _ => .inl f.strength_lt
    refine Settles.binary (f := .power a) (iha (by omega) (hany fs))
      (ihb (by omega) (hany _)) ?_
      (fun f _ => f.strength_lt) (by omega) (Nat.le_refl 4)
    intro gs u hclosed
    rw [reduce_eq_self (fun f _ => f.strength_lt), Prod.mk.injEq] at hclosed
    obtain ⟨rfl, rfl⟩ := hclosed
    simp [step?, atPower_eq_false (hfs.lt (by omega))]
  | @neg ss t _ ih =>
    have hpower : atPower fs = false := atPower_eq_false fun f hf => by
      obtain hlt | ⟨-, heq⟩ := hfs f hf <;> omega
    have hadmits : Admits 3 (.negation :: fs) := by
      rintro f ⟨⟩
      exact .inr ⟨rfl, rfl⟩
    obtain ⟨gs, u, hrun, hreduce⟩ := ih hk hadmits
    refine ⟨gs, u, ?_, fun j hj => ?_⟩
    · simp [run?_cons, step?, hpower, hrun]
    · rw [hreduce j hj, reduce_cons hj]
      rfl
  | @mul ss us t u _ _ iht ihu =>
    exact .leftward (f := .product t) hfs (by omega) (iht hk hfs) (ihu (by omega))
        (fun hclosed => by
      simp [step?, hclosed]) rfl
  | @div ss us t u _ _ iht ihu =>
    exact .leftward (f := .quotient t) hfs (by omega) (iht hk hfs) (ihu (by omega))
        (fun hclosed => by
      simp [step?, hclosed]) rfl
  | @add ss us t u _ _ iht ihu =>
    exact .leftward (f := .sum t) hfs (by omega) (iht hk hfs) (ihu (by omega))
        (fun hclosed => by
      simp [step?, hclosed]) rfl
  | @sub ss us t u _ _ iht ihu =>
    exact .leftward (f := .difference t) hfs (by omega) (iht hk hfs) (ihu (by omega))
        (fun hclosed => by
      simp [step?, hclosed]) rfl
  | weaken _ ih =>
    obtain ⟨gs, u, hrun, hreduce⟩ := ih (by omega) hfs.succ
    exact ⟨gs, u, hrun, fun j hj => hreduce j (by omega)⟩

/-- What the grammar derives is read. -/
theorem Derives.readSymbols? {ss : List (Symbol R)} {t : Term R} (h : Derives 1 ss t) :
    readSymbols? ss = some t := by
  have hempty : Admits 1 ([] : List (Frame R)) := fun f hf => by cases hf
  obtain ⟨gs, u, hrun, hreduce⟩ := h.settles (Nat.le_refl 1) hempty
  rw [Term.readSymbols?, hrun]
  simp only [hreduce 1 (Nat.le_refl 1), reduce]

/-- The grammar gives one reading. -/
theorem Derives.unique {ss : List (Symbol R)} {t u : Term R} (ht : Derives 1 ss t)
    (hu : Derives 1 ss u) : t = u :=
  Option.some.inj (ht.readSymbols?.symm.trans hu.readSymbols?)

/-! ### Splitting a text -/

/-- The characters that end a word. -/
def delimiters : List Char :=
  [' ', '+', '-', '*', '/', '^', '(', ')']

/-- The symbol of a delimiter; blanks have none. -/
def mark : Char → List (Symbol R)
  | '+' => [.plus]
  | '-' => [.minus]
  | '*' => [.times]
  | '/' => [.over]
  | '^' => [.caret]
  | '(' => [.opening]
  | ')' => [.closing]
  | _ => []

section Texts

variable [Scalar R]

/-- The symbol of a word: a number if it starts with a digit, and else a name. -/
def word? : List Char → Option (List (Symbol R))
  | [] => some []
  | c :: cs =>
      if c.isDigit then (Scalar.read? (String.ofList (c :: cs))).map fun v => [.number v]
      else some [.name (String.ofList (c :: cs))]

/-- The symbols of a text that continues a word. -/
def symbolsFrom? (word : List Char) : List Char → Option (List (Symbol R))
  | [] => word? word
  | c :: cs =>
      if c ∈ delimiters then
        (word? word).bind fun before => (symbolsFrom? [] cs).map fun after =>
          before ++ mark c ++ after
      else symbolsFrom? (word ++ [c]) cs

/-- The symbols of a text. -/
def symbols? (text : String) : Option (List (Symbol R)) :=
  symbolsFrom? [] text.toList

/-- The text can be read as the term. -/
def Reads (text : String) (t : Term R) : Prop :=
  ∃ ss, symbols? text = some ss ∧ Derives 1 ss t

/-- Read a text. -/
def read? (text : String) : Option (Term R) :=
  (symbols? text).bind readSymbols?

theorem Reads.read? {text : String} {t : Term R} (h : Reads text t) :
    read? text = some t := by
  obtain ⟨ss, hss, hderives⟩ := h
  rw [Term.read?, hss, Option.bind_some, hderives.readSymbols?]

theorem Reads.unique {text : String} {t u : Term R} (ht : Reads text t)
    (hu : Reads text u) : t = u := by
  obtain ⟨ss, hss, hderives⟩ := ht
  obtain ⟨us, hus, hderives'⟩ := hu
  obtain rfl : ss = us := Option.some.inj (hss.symm.trans hus)
  exact hderives.unique hderives'

theorem symbolsFrom?_of_plain {cs : List Char} (hcs : ∀ c ∈ cs, c ∉ delimiters)
    (word : List Char) : symbolsFrom? (R := R) word cs = word? (word ++ cs) := by
  induction cs generalizing word with
  | nil => rw [symbolsFrom?, List.append_nil]
  | cons c cs ih =>
    rw [symbolsFrom?, if_neg (hcs c List.mem_cons_self), ih fun d hd =>
      hcs d (List.mem_cons_of_mem c hd), List.append_assoc, List.singleton_append]

/-- A delimiter splits a text. -/
theorem symbolsFrom?_append {word cs ds : List Char} {c : Char} (hc : c ∈ delimiters)
    {ss us : List (Symbol R)} (hss : symbolsFrom? word cs = some ss)
    (hus : symbolsFrom? [] ds = some us) :
    symbolsFrom? word (cs ++ c :: ds) = some (ss ++ mark c ++ us) := by
  induction cs generalizing word ss with
  | nil =>
    rw [symbolsFrom?] at hss
    rw [List.nil_append, symbolsFrom?, if_pos hc, hss, hus]
    rfl
  | cons d cs ih =>
    rw [List.cons_append, symbolsFrom?]
    rw [symbolsFrom?] at hss
    split
    · rename_i hd
      rw [if_pos hd] at hss
      obtain ⟨before, hbefore, hmap⟩ := Option.bind_eq_some_iff.mp hss
      obtain ⟨after, hafter, rfl⟩ := Option.map_eq_some_iff.mp hmap
      rw [hbefore, ih hafter]
      simp
    · rename_i hd
      rw [if_neg hd] at hss
      exact ih hss

/-- A text of delimiters with the marks `ms`. -/
structure Separates (separator : String) (ms : List (Symbol R)) : Prop where
  ne_nil : separator.toList ≠ []
  mem_delimiters : ∀ c ∈ separator.toList, c ∈ delimiters
  flatMap_mark : separator.toList.flatMap mark = ms

theorem symbolsFrom?_delimiters {separator : List Char}
    (hseparator : ∀ c ∈ separator, c ∈ delimiters) {ds : List Char} {us : List (Symbol R)}
    (hus : symbolsFrom? [] ds = some us) :
    symbolsFrom? [] (separator ++ ds) = some (separator.flatMap mark ++ us) := by
  induction separator with
  | nil => exact hus
  | cons c separator ih =>
    have hrest := ih fun d hd => hseparator d (List.mem_cons_of_mem c hd)
    have hnil : symbolsFrom? (R := R) [] [] = some [] := rfl
    have hcons := symbolsFrom?_append (hseparator c List.mem_cons_self) hnil hrest
    rw [List.cons_append, List.flatMap_cons, List.append_assoc]
    exact hcons

section Separators

variable {left right separator : String} {ms ss us : List (Symbol R)}
  (h : Separates separator ms)
include h

/-- Texts with delimiters between them are split there. -/
theorem Separates.join (hss : symbols? left = some ss) (hus : symbols? right = some us) :
    symbols? (left ++ separator ++ right) = some (ss ++ (ms ++ us)) := by
  obtain ⟨hne, hmem, rfl⟩ := h
  rw [symbols?, String.toList_append, String.toList_append, List.append_assoc]
  cases hseparator : separator.toList with
  | nil => exact absurd hseparator hne
  | cons c cs =>
    rw [hseparator] at hmem
    have hrest := symbolsFrom?_delimiters
      (fun d hd => hmem d (List.mem_cons_of_mem c hd)) hus
    have hsplit := symbolsFrom?_append (hmem c List.mem_cons_self) hss hrest
    rw [List.cons_append, hsplit, List.flatMap_cons, List.append_assoc, List.append_assoc]

theorem Separates.before (hss : symbols? right = some ss) :
    symbols? (separator ++ right) = some (ms ++ ss) := by
  have hempty : symbols? (R := R) "" = some [] := rfl
  simpa using h.join hempty hss

theorem Separates.after (hss : symbols? left = some ss) :
    symbols? (left ++ separator) = some (ss ++ ms) := by
  have hempty : symbols? (R := R) "" = some [] := rfl
  simpa using h.join hss hempty

end Separators

end Texts

end Term
end SignalFlow
