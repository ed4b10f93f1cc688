import SignalFlow.Markup.Token
import SignalFlow.Proofs.EntityDecoding

/-!
# Layouts of tokens

The same tokens can be laid out in many ways: blanks, declarations and comments stand
between them as one likes, except that some tokens must not follow each other directly,
since they would be read as something else.  `Layout` describes the texts in which a list
of tokens is laid out.  The main statement, `tokens?_eq_some_iff`, says that a text is read
as a list of tokens exactly if the list is laid out in it.
-/

namespace SignalFlow
namespace Markup

/-- The inside of a comment: every dash is followed by another character. -/
inductive CommentBody : List Char → Prop
  | nil : CommentBody []
  | plain {c : Char} {body : List Char} (hc : c ≠ '-') (hbody : CommentBody body) :
      CommentBody (c :: body)
  | dashed {c : Char} {body : List Char} (hc : c ≠ '-') (hbody : CommentBody body) :
      CommentBody ('-' :: c :: body)

/-- What is skipped between tokens. -/
inductive Separator : List Char → Prop
  | blank {c : Char} (hc : isSpace c) : Separator [c]
  | declaration {body : List Char} (hbody : '?' ∉ body) :
      Separator ('<' :: '?' :: (body ++ ['?', '>']))
  | comment {body : List Char} (hbody : CommentBody body) :
      Separator ('<' :: '!' :: '-' :: '-' :: (body ++ ['-', '-', '>']))

/-- A name starts with a letter or an underscore; digits, dots, colons and dashes may
follow. -/
def IsName : List Char → Prop
  | [] => False
  | c :: cs => isNameStart c ∧ cs.all isNameChar

instance : DecidablePred IsName
  | [] => .isFalse id
  | c :: cs => inferInstanceAs (Decidable (isNameStart c ∧ cs.all isNameChar))

/-- The quotes around values. -/
def IsQuote (c : Char) : Prop :=
  c = '\x22' ∨ c = '\x27'

/-- A token as it is written, where `Denotes raw text` tells which texts the raw text of a
value can stand for. -/
inductive Spells (Denotes : List Char → List Char → Prop) : Token → List Char → Prop
  | tagStart : Spells Denotes .tagStart ['<']
  | closingStart : Spells Denotes .closingStart ['<', '/']
  | tagEnd : Spells Denotes .tagEnd ['>']
  | emptyEnd : Spells Denotes .emptyEnd ['/', '>']
  | equals : Spells Denotes .equals ['=']
  | name {text : List Char} (htext : IsName text) :
      Spells Denotes (.name (String.ofList text)) text
  | value {quote : Char} {raw text : List Char} (hquote : IsQuote quote)
      (hraw : quote ∉ raw) (htext : Denotes raw text) :
      Spells Denotes (.value (String.ofList text)) (quote :: (raw ++ [quote]))

/-- Tokens of which the second one would be read as a part of the first one. -/
inductive Joins : Token → Token → Prop
  | names (x y : String) : Joins (.name x) (.name y)
  | emptyTag : Joins .tagStart .emptyEnd

/-- The tokens `ts` are laid out in a text that directly follows the token `last`, if there
is one. -/
inductive Layout (Denotes : List Char → List Char → Prop) : Option Token → List Token →
      List Char → Prop
  | done {last : Option Token} : Layout Denotes last [] []
  | skip {last : Option Token} {ts : List Token} {gap cs : List Char}
      (hgap : Separator gap) (hrest : Layout Denotes none ts cs) :
      Layout Denotes last ts (gap ++ cs)
  | token {last : Option Token} {t : Token} {ts : List Token} {lexeme cs : List Char}
      (hlexeme : Spells Denotes t lexeme) (hapart : ∀ u ∈ last, ¬ Joins u t)
      (hrest : Layout Denotes (some t) ts cs) :
      Layout Denotes last (t :: ts) (lexeme ++ cs)

/-- A raw text stands for what its entities are decoded to. -/
def Decodes (raw text : List Char) : Prop :=
  decodeEntities raw = text

/-- The raw text of a value in which all five characters are escaped. -/
def Escapes (raw text : List Char) : Prop :=
  raw = escape text

theorem Escapes.decodes {raw text : List Char} (h : Escapes raw text) :
    Decodes raw text := by
  rw [Decodes, h, decodeEntities_escape]

section Monotonicity

variable {Denotes Denotes' : List Char → List Char → Prop}
  (himp : ∀ {raw text}, Denotes raw text → Denotes' raw text)
include himp

theorem Spells.mono {t : Token} {lexeme : List Char} (h : Spells Denotes t lexeme) :
    Spells Denotes' t lexeme := by
  cases h with
  | tagStart => exact .tagStart
  | closingStart => exact .closingStart
  | tagEnd => exact .tagEnd
  | emptyEnd => exact .emptyEnd
  | equals => exact .equals
  | name htext => exact .name htext
  | value hquote hraw htext => exact .value hquote hraw (himp htext)

theorem Layout.mono {last : Option Token} {ts : List Token} {cs : List Char}
    (h : Layout Denotes last ts cs) : Layout Denotes' last ts cs := by
  induction h with
  | done => exact .done
  | skip hgap _ ih => exact .skip hgap ih
  | token hlexeme hapart _ ih => exact .token (hlexeme.mono himp) hapart ih

end Monotonicity

/-! ### Declarations and comments -/

theorem afterDeclaration?_append {body : List Char} (hbody : '?' ∉ body)
    (rest : List Char) : afterDeclaration? (body ++ '?' :: '>' :: rest) = some rest := by
  induction body with
  | nil => rfl
  | cons c body ih =>
    rw [List.mem_cons, not_or] at hbody
    have hc : c ≠ '?' := Ne.symm hbody.1
    rw [List.cons_append, afterDeclaration?, if_neg hc, ih hbody.2]
    simp [hc]

theorem exists_of_afterDeclaration? {cs rest : List Char}
    (h : afterDeclaration? cs = some rest) :
    ∃ body, '?' ∉ body ∧ cs = body ++ '?' :: '>' :: rest := by
  fun_induction afterDeclaration? cs with
  | case1 => cases h
  | case2 tail => exact ⟨[], by simp, by simp_all⟩
  | case3 => cases h
  | case4 c tail _ hc ih =>
    obtain ⟨body, hbody, rfl⟩ := ih h
    exact ⟨c :: body, by simp [hbody, Ne.symm hc], rfl⟩

theorem afterComment?_append {body : List Char} (hbody : CommentBody body)
    (rest : List Char) :
    afterComment? (body ++ '-' :: '-' :: '>' :: rest) = some rest := by
  induction hbody with
  | nil => rfl
  | plain hc _ ih =>
    rw [List.cons_append, afterComment?, if_neg hc, ih]
    all_goals simp [hc]
  | dashed hc _ ih =>
    rw [List.cons_append, List.cons_append, afterComment?, if_neg hc, ih]
    simp [hc]

theorem exists_of_afterComment? {cs rest : List Char} (h : afterComment? cs = some rest) :
    ∃ body, CommentBody body ∧ cs = body ++ '-' :: '-' :: '>' :: rest := by
  fun_induction afterComment? cs with
  | case1 => cases h
  | case2 tail =>
    obtain rfl : tail = rest := by simpa using h
    exact ⟨[], .nil, rfl⟩
  | case3 => cases h
  | case4 c tail _ hc ih =>
    obtain ⟨body, hbody, rfl⟩ := ih h
    exact ⟨'-' :: c :: body, .dashed hc hbody, rfl⟩
  | case5 => cases h
  | case6 c tail _ _ hc ih =>
    obtain ⟨body, hbody, rfl⟩ := ih h
    exact ⟨c :: body, .plain hc hbody, rfl⟩

/-! ### One token -/

/-- What follows a token is not read as a part of it. -/
def Token.Stops : Token → List Char → Prop
  | .tagStart, rest => ¬ ['/'] <+: rest ∧ ¬ ['?'] <+: rest ∧ ¬ ['!', '-', '-'] <+: rest
  | .name _, rest => ∀ c ∈ rest.head?, isNameChar c = false
  | _, _ => True

/-- No character of a tag or of `=` starts a name, a value or a blank. -/
theorem nextToken?_cons {c : Char} (hc : c ∉ ['<', '/', '>', '=']) (cs : List Char) :
    nextToken? (c :: cs) =
      if isSpace c then some (none, cs)
      else if c = '\x22' || c = '\x27' then (quoted? c cs).map fun t => (some t.1, t.2)
      else if isNameStart c then
        some (some (.name (String.ofList (c :: cs.takeWhile isNameChar))),
          cs.dropWhile isNameChar)
      else none := by
  simp only [List.mem_cons, List.not_mem_nil, or_false, not_or] at hc
  unfold nextToken?
  split <;> simp_all

theorem quoted?_append {quote : Char} {raw : List Char} (hraw : quote ∉ raw)
    (rest : List Char) :
    quoted? quote (raw ++ quote :: rest) = some
      (.value (String.ofList (decodeEntities raw)), rest) := by
  have hinside : ∀ c ∈ raw, (c != quote) = true := by
    intro c hc
    rw [bne_iff_ne]
    rintro rfl
    exact hraw hc
  rw [quoted?, List.dropWhile_append_of_pos hinside, List.takeWhile_append_of_pos hinside]
  simp

theorem exists_of_quoted? {quote : Char} {cs rest : List Char} {t : Token}
    (h : quoted? quote cs = some (t, rest)) :
    ∃ raw, quote ∉ raw ∧ t = .value (String.ofList (decodeEntities raw)) ∧
      cs = raw ++ quote :: rest := by
  rw [quoted?] at h
  cases hdrop : cs.dropWhile fun c => c != quote with
  | nil => simp [hdrop] at h
  | cons c tail =>
    simp only [hdrop, Option.some.injEq, Prod.mk.injEq] at h
    obtain ⟨rfl, rfl⟩ := h
    have hc : c = quote := by
      have hstop := List.head?_dropWhile_not (fun c => c != quote) cs
      simpa [hdrop] using hstop
    refine ⟨cs.takeWhile fun c => c != quote, ?_, rfl, ?_⟩
    · intro hmem
      have hinside := List.all_takeWhile (p := fun c => c != quote) (l := cs)
      simpa using List.all_eq_true.mp hinside quote hmem
    · nth_rewrite 1 [← List.takeWhile_append_dropWhile (p := fun c =>
        c != quote) (l := cs)]
      rw [hdrop, hc]

theorem isSpace_iff (c : Char) : isSpace c ↔ c = ' ' ∨ c = '\t' ∨ c = '\r' ∨ c = '\n' := by
  simp [isSpace, or_assoc]

theorem isNameChar_of_isNameStart {c : Char} (hc : isNameStart c) : isNameChar c := by
  simp only [isNameStart, Bool.or_eq_true] at hc
  simp only [isNameChar, Char.isAlphanum, Bool.or_eq_true]
  tauto

theorem notMem_of_isSpace {c : Char} (hc : isSpace c) : c ∉ ['<', '/', '>', '='] := by
  obtain rfl | rfl | rfl | rfl := (isSpace_iff c).mp hc <;> decide

/-- A character that starts a name starts nothing else. -/
theorem notMem_of_isNameStart {c : Char} (hc : isNameStart c) :
    c ∉ ['<', '/', '>', '='] ∧ ¬ isSpace c ∧ ¬ IsQuote c := by
  refine ⟨fun hmem => ?_, fun hspace => ?_, fun hquote => ?_⟩
  · simp only [List.mem_cons, List.not_mem_nil, or_false] at hmem
    obtain rfl | rfl | rfl | rfl := hmem <;> exact absurd hc (by decide)
  · obtain rfl | rfl | rfl | rfl := (isSpace_iff c).mp hspace <;>
      exact absurd hc (by decide)
  · obtain rfl | rfl := hquote <;> exact absurd hc (by decide)

theorem IsQuote.notMem {c : Char} (hc : IsQuote c) :
    c ∉ ['<', '/', '>', '='] ∧ ¬ isSpace c := by
  obtain rfl | rfl := hc <;> decide

theorem nextToken?_of_separator {gap : List Char} (hgap : Separator gap)
    (rest : List Char) : nextToken? (gap ++ rest) = some (none, rest) := by
  cases hgap with
  | blank hc =>
      rw [List.singleton_append, nextToken?_cons (notMem_of_isSpace hc), if_pos hc]
  | declaration hbody => simp [nextToken?, afterDeclaration?_append hbody]
  | comment hbody => simp [nextToken?, afterComment?_append hbody]

theorem nextToken?_of_spells {t : Token} {lexeme rest : List Char}
    (hlexeme : Spells Decodes t lexeme) (hstops : t.Stops rest) :
    nextToken? (lexeme ++ rest) = some (some t, rest) := by
  cases hlexeme with
  | tagStart =>
    obtain ⟨hslash, hmark, hdashes⟩ := hstops
    rw [List.singleton_append, nextToken?]
    · rintro tail rfl
      exact hslash ⟨tail, rfl⟩
    · rintro tail rfl
      exact hmark ⟨tail, rfl⟩
    · rintro tail rfl
      exact hdashes ⟨tail, rfl⟩
  | closingStart => rfl
  | tagEnd => rfl
  | emptyEnd => rfl
  | equals => rfl
  | name htext =>
    cases lexeme with
    | nil => exact absurd htext id
    | cons c cs =>
      obtain ⟨hc, hcs⟩ := htext
      rw [List.all_eq_true] at hcs
      obtain ⟨hother, hspace, hquote⟩ := notMem_of_isNameStart hc
      have hnone : rest.takeWhile isNameChar = [] ∧ rest.dropWhile isNameChar = rest := by
        cases rest with
        | nil => exact ⟨rfl, rfl⟩
        | cons d ds =>
          have hd : isNameChar d = false := hstops d rfl
          simp [hd]
      rw [List.cons_append, nextToken?_cons hother, if_neg hspace,
        if_neg (by simpa [IsQuote] using hquote), if_pos hc, List.takeWhile_append_of_pos
        hcs, List.dropWhile_append_of_pos hcs, hnone.1, hnone.2, List.append_nil]
  | @value quote raw text hquote hraw htext =>
    obtain ⟨hother, hspace⟩ := hquote.notMem
    rw [Decodes] at htext
    rw [List.cons_append, nextToken?_cons hother, if_neg hspace,
      if_pos (by simpa [IsQuote] using hquote), List.append_assoc, List.singleton_append,
      quoted?_append hraw, htext]
    rfl

/-- A step skips a separator or takes a token that what follows does not continue. -/
theorem nextToken?_cases {cs rest : List Char} {o : Option Token}
    (h : nextToken? cs = some (o, rest)) :
    (o = none ∧ ∃ gap, Separator gap ∧ cs = gap ++ rest) ∨
      ∃ t lexeme, o = some t ∧ Spells Decodes t lexeme ∧ t.Stops rest ∧
        cs = lexeme ++ rest := by
  revert h
  fun_cases nextToken? cs with
  | case1 tail =>
    rintro ⟨⟩
    exact .inr ⟨_, _, rfl, .closingStart, trivial, rfl⟩
  | case2 tail =>
    intro h
    obtain ⟨after, hafter, ⟨⟩⟩ := Option.map_eq_some_iff.mp h
    obtain ⟨body, hbody, rfl⟩ := exists_of_afterDeclaration? hafter
    exact .inl ⟨rfl, _, .declaration hbody, by simp⟩
  | case3 tail =>
    intro h
    obtain ⟨after, hafter, ⟨⟩⟩ := Option.map_eq_some_iff.mp h
    obtain ⟨body, hbody, rfl⟩ := exists_of_afterComment? hafter
    exact .inl ⟨rfl, _, .comment hbody, by simp⟩
  | case4 tail hslash hmark hdashes =>
    rintro ⟨⟩
    refine .inr ⟨_, _, rfl, .tagStart, ⟨?_, ?_, ?_⟩, rfl⟩
    · rintro ⟨after, rfl⟩
      exact hslash after rfl
    · rintro ⟨after, rfl⟩
      exact hmark after rfl
    · rintro ⟨after, rfl⟩
      exact hdashes after rfl
  | case5 tail =>
    rintro ⟨⟩
    exact .inr ⟨_, _, rfl, .emptyEnd, trivial, rfl⟩
  | case6 tail =>
    rintro ⟨⟩
    exact .inr ⟨_, _, rfl, .tagEnd, trivial, rfl⟩
  | case7 tail =>
    rintro ⟨⟩
    exact .inr ⟨_, _, rfl, .equals, trivial, rfl⟩
  | case8 => rintro ⟨⟩
  | case9 c tail _ _ _ _ _ _ _ hspace =>
    rintro ⟨⟩
    exact .inl ⟨rfl, [c], .blank hspace, rfl⟩
  | case10 c tail _ _ _ _ _ _ _ _ hquote =>
    intro h
    obtain ⟨⟨t, after⟩, hquoted, ⟨⟩⟩ := Option.map_eq_some_iff.mp h
    obtain ⟨raw, hraw, rfl, rfl⟩ := exists_of_quoted? hquoted
    refine .inr ⟨_, c :: (raw ++ [c]), rfl, .value ?_ hraw rfl, trivial, by simp⟩
    simpa [IsQuote] using hquote
  | case11 c tail _ _ _ _ _ _ _ _ _ hstart =>
    rintro ⟨⟩
    refine .inr ⟨_, c :: tail.takeWhile isNameChar, rfl,
      .name ⟨hstart, List.all_takeWhile⟩, ?_, ?_⟩
    · intro d hd
      have hstop := List.head?_dropWhile_not isNameChar tail
      rw [Option.mem_def.mp hd] at hstop
      simpa using hstop
    · rw [List.cons_append, List.takeWhile_append_dropWhile]
  | case12 => rintro ⟨⟩

/-! ### Whole texts -/

theorem Separator.ne_nil {gap : List Char} (h : Separator gap) : gap ≠ [] := by
  cases h <;> exact List.cons_ne_nil _ _

theorem Spells.ne_nil {Denotes : List Char → List Char → Prop} {t : Token}
    {lexeme : List Char} (h : Spells Denotes t lexeme) : lexeme ≠ [] := by
  cases h with
  | name htext =>
    rintro rfl
    exact htext
  | _ => exact List.cons_ne_nil _ _

/-- Tokens that stop before each other do not join. -/
theorem Spells.not_joins {Denotes : List Char → List Char → Prop} {t u : Token}
    {lexeme rest : List Char} (h : Spells Denotes t lexeme)
    (hstops : u.Stops (lexeme ++ rest)) : ¬ Joins u t := by
  rintro ⟨⟩
  · cases h with
    | name htext =>
      cases lexeme with
      | nil => exact htext
      | cons c cs =>
        have hc := hstops c rfl
        simp [isNameChar_of_isNameStart htext.1] at hc
  · cases h
    exact hstops.1 ⟨_, rfl⟩

theorem Token.stops_tagStart {c : Char} (hc : c ∉ ['/', '?', '!']) (cs : List Char) :
    Token.tagStart.Stops (c :: cs) := by
  simp only [List.mem_cons, List.not_mem_nil, or_false, not_or] at hc
  obtain ⟨hslash, hmark, hdashes⟩ := hc
  refine ⟨fun h => ?_, fun h => ?_, fun h => ?_⟩
  · exact hslash (List.cons_prefix_cons.mp h).1.symm
  · exact hmark (List.cons_prefix_cons.mp h).1.symm
  · exact hdashes (List.cons_prefix_cons.mp h).1.symm

theorem Token.stops_cons {c : Char} (hc : isNameChar c = false)
    (hother : c ∉ ['/', '?', '!']) (t : Token) (cs : List Char) : t.Stops (c :: cs) := by
  cases t with
  | tagStart => exact Token.stops_tagStart hother cs
  | name x =>
    rintro d ⟨⟩
    exact hc
  | _ => trivial

theorem Separator.stops {gap : List Char} (h : Separator gap) (t : Token)
    (rest : List Char) : t.Stops (gap ++ rest) := by
  cases h with
  | @blank c hc =>
    obtain rfl | rfl | rfl | rfl := (isSpace_iff c).mp hc <;>
      exact t.stops_cons (by decide) (by decide) rest
  | declaration => exact t.stops_cons (by decide) (by decide) _
  | comment => exact t.stops_cons (by decide) (by decide) _

/-- A token that does not join the one before it is not read as a part of it. -/
theorem Spells.stops {Denotes : List Char → List Char → Prop} {t u : Token}
    {lexeme : List Char} (h : Spells Denotes t lexeme) (hapart : ¬ Joins u t)
    (rest : List Char) : u.Stops (lexeme ++ rest) := by
  cases h with
  | tagStart => exact u.stops_cons (by decide) (by decide) _
  | closingStart => exact u.stops_cons (by decide) (by decide) _
  | tagEnd => exact u.stops_cons (by decide) (by decide) _
  | equals => exact u.stops_cons (by decide) (by decide) _
  | value hquote =>
      obtain rfl | rfl := hquote <;> exact u.stops_cons (by decide) (by decide) _
  | emptyEnd =>
    cases u with
    | tagStart => exact absurd .emptyTag hapart
    | name x =>
      rintro d ⟨⟩
      decide
    | _ => trivial
  | name htext =>
    cases u with
    | name x => exact absurd (.names _ _) hapart
    | tagStart =>
      cases lexeme with
      | nil => exact absurd htext id
      | cons c cs =>
        refine Token.stops_tagStart (fun hmem => ?_) _
        simp only [List.mem_cons, List.not_mem_nil, or_false] at hmem
        obtain rfl | rfl | rfl := hmem <;> exact absurd htext.1 (by decide)
    | _ => trivial

theorem Layout.stops {Denotes : List Char → List Char → Prop} {t : Token} {ts : List Token}
    {cs : List Char} (h : Layout Denotes (some t) ts cs) : t.Stops cs := by
  cases h with
  | done => cases t <;> simp [Token.Stops]
  | skip hgap => exact hgap.stops t _
  | token hlexeme hapart => exact hlexeme.stops (hapart t rfl) _

/-- A text that is read as tokens is a layout of them. -/
theorem Layout.of_tokensWithin? {fuel : Nat} {cs : List Char} {ts : List Token}
    {last : Option Token} (hstops : ∀ u ∈ last, u.Stops cs)
    (h : tokensWithin? fuel cs = some ts) : Layout Decodes last ts cs := by
  induction fuel generalizing cs ts last with
  | zero =>
    cases cs with
    | nil =>
      obtain ⟨⟩ := h
      exact .done
    | cons c cs => cases h
  | succ fuel ih =>
    cases cs with
    | nil =>
      obtain ⟨⟩ := h
      exact .done
    | cons c cs =>
      rw [tokensWithin?] at h
      cases hnext : nextToken? (c :: cs) with
      | none => simp [hnext] at h
      | some step =>
        obtain ⟨o, rest⟩ := step
        rw [hnext] at h
        obtain ⟨rfl, gap, hgap, hcs⟩ | ⟨t, lexeme, rfl, hlexeme, ht, hcs⟩ :=
          nextToken?_cases hnext
        · rw [hcs]
          exact .skip hgap (ih (by simp) h)
        · obtain ⟨us, hus, rfl⟩ := Option.map_eq_some_iff.mp h
          rw [hcs] at hstops ⊢
          refine .token hlexeme (fun u hu => hlexeme.not_joins (hstops u hu)) (ih ?_ hus)
          rintro u ⟨⟩
          exact ht

theorem tokensWithin?_succ {cs rest : List Char} {o : Option Token}
    (h : nextToken? cs = some (o, rest)) (fuel : Nat) :
    tokensWithin? (fuel + 1) cs = (tokensWithin? fuel rest).map (o.toList ++ ·) := by
  cases cs with
  | nil => cases h
  | cons c cs =>
    rw [tokensWithin?, h]
    cases o with
    | none => simp
    | some t => rfl

/-- A layout of tokens is read as these tokens. -/
theorem Layout.tokensWithin? {last : Option Token} {ts : List Token} {cs : List Char}
    (h : Layout Decodes last ts cs) {fuel : Nat} (hfuel : cs.length ≤ fuel) :
    tokensWithin? fuel cs = some ts := by
  induction h generalizing fuel with
  | done => simp [Markup.tokensWithin?]
  | @skip last ts gap cs hgap _ ih =>
    have hgapLength := List.length_pos_iff.mpr hgap.ne_nil
    rw [List.length_append] at hfuel
    obtain ⟨fuel, rfl⟩ : ∃ n, fuel = n + 1 := ⟨fuel - 1, by omega⟩
    rw [tokensWithin?_succ (nextToken?_of_separator hgap cs), ih (by omega)]
    rfl
  | @token last t ts lexeme cs hlexeme _ hrest ih =>
    have hlexemeLength := List.length_pos_iff.mpr hlexeme.ne_nil
    rw [List.length_append] at hfuel
    obtain ⟨fuel, rfl⟩ : ∃ n, fuel = n + 1 := ⟨fuel - 1, by omega⟩
    rw [tokensWithin?_succ (nextToken?_of_spells hlexeme hrest.stops), ih (by omega)]
    rfl

/-- A text is read as the tokens that are laid out in it. -/
theorem tokens?_eq_some_iff (text : String) (ts : List Token) :
    tokens? text = some ts ↔ Layout Decodes none ts text.toList :=
  ⟨Layout.of_tokensWithin? (by simp), fun h => h.tokensWithin? (Nat.le_refl _)⟩

end Markup
end SignalFlow
