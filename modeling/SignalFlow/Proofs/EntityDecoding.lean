import Mathlib.Data.Char
import Mathlib.Data.List.Induction
import SignalFlow.Markup.Entity

/-!
# Decoding in one pass

Entities are decoded by one replacement of the whole text after the other.  `decodePass`
reads the text only once and decodes the entities of a table as it meets them.
`replaceAll_decodePass` says that replacing one more entity in a decoded text is one pass
with a longer table, if no decoded character can be part of that entity, and
`Successive.foldl_replaceAll` that a table in which this holds all along is decoded in a
single pass.  The table of `decodeEntities` is of this kind, since the ampersand is its
last entity.  A text is therefore recovered from its escaped form, `decodeEntities_escape`.

`scan` and `reservedForm` spell the five entities out.  `decoding_scans_once` is the
summary for them.
-/

namespace SignalFlow
namespace Markup

/-- The text with the entities of a table decoded in one pass from left to right; `skip`
characters belong to an entity that has been decoded. -/
def decodePass (table : List (List Char × Char)) : Nat → List Char → List Char
  | _, [] => []
  | skip + 1, _ :: cs => decodePass table skip cs
  | 0, c :: cs =>
      match table.find? fun e => e.1.isPrefixOf (c :: cs) with
      | some e => e.2 :: decodePass table (e.1.length - 1) cs
      | none => c :: decodePass table 0 cs

theorem decodePass_skip (table : List (List Char × Char)) (skip : Nat) (cs : List Char) :
    decodePass table skip cs = decodePass table 0 (cs.drop skip) := by
  induction skip generalizing cs with
  | zero => rfl
  | succ skip ih =>
    cases cs with
    | nil => rfl
    | cons c cs => exact ih cs

theorem replaceFrom_skip (pattern replacement : List Char) (skip : Nat) (cs : List Char) :
    replaceFrom pattern replacement skip cs = replaceFrom pattern replacement 0
      (cs.drop skip) := by
  induction skip generalizing cs with
  | zero => rfl
  | succ skip ih =>
    cases cs with
    | nil => rfl
    | cons c cs => exact ih cs

section Patterns

variable {table : List (List Char × Char)} {mark : Char} {body rest : List Char}

theorem decodePass_cons_of_find?_eq_none {c : Char} {cs : List Char}
    (h : table.find? (fun e => e.1.isPrefixOf (c :: cs)) = none) :
    decodePass table 0 (c :: cs) = c :: decodePass table 0 cs := by
  rw [decodePass, h]

/-- An entity of the table that comes first at its place is decoded. -/
theorem decodePass_append_of_find? {pattern : List Char} {char : Char}
    (hpattern : pattern ≠ [])
    (h : table.find? (fun e => e.1.isPrefixOf (pattern ++ rest)) = some (pattern, char)) :
    decodePass table 0 (pattern ++ rest) = char :: decodePass table 0 rest := by
  cases pattern with
  | nil => exact absurd rfl hpattern
  | cons c body =>
    rw [List.cons_append] at h ⊢
    rw [decodePass, h]
    simp only [List.length_cons, Nat.add_sub_cancel]
    rw [decodePass_skip, List.drop_left]

theorem replaceAll_append {pattern : List Char} (replacement : List Char)
    (h : pattern ≠ []) :
    replaceAll pattern replacement (pattern ++ rest) = replacement ++
      replaceAll pattern replacement rest := by
  cases pattern with
  | nil => exact absurd rfl h
  | cons c body =>
    have hprefix : (c :: body).isPrefixOf (c :: (body ++ rest)) = true :=
      List.isPrefixOf_iff_prefix.mpr (List.prefix_append (c :: body) rest)
    rw [replaceAll, List.cons_append, replaceFrom, if_pos hprefix, replaceFrom_skip]
    simp only [List.length_cons, Nat.add_sub_cancel, List.drop_left, replaceAll]

theorem replaceAll_cons_of_mismatch {pattern : List Char} (replacement : List Char)
    {c : Char} {cs : List Char} (h : ¬ pattern <+: c :: cs) :
    replaceAll pattern replacement (c :: cs) = c :: replaceAll pattern replacement cs := by
  rw [replaceAll, replaceFrom, if_neg fun hprefix =>
    h (List.isPrefixOf_iff_prefix.mp hprefix), replaceAll]

/-- All entities of a table start with the same character. -/
def StartWith (mark : Char) (table : List (List Char × Char)) : Prop :=
  ∀ e ∈ table, e.1.head? = some mark

theorem StartWith.not_isPrefixOf (htable : StartWith mark table) {e : List Char × Char}
    (he : e ∈ table) {c : Char} {cs : List Char} (hc : c ≠ mark) :
    e.1.isPrefixOf (c :: cs) = false := by
  have hhead := htable e he
  cases hpattern : e.1 with
  | nil => simp [hpattern] at hhead
  | cons d body =>
    have hd : d = mark := by simpa [hpattern] using hhead
    rw [hd, List.isPrefixOf_cons_cons]
    simp [Ne.symm hc]

/-- A character at which no entity starts is copied. -/
theorem StartWith.decodePass_cons (htable : StartWith mark table) {c : Char}
    {cs : List Char} (hc : c ≠ mark) :
    decodePass table 0 (c :: cs) = c :: decodePass table 0 cs := by
  apply decodePass_cons_of_find?_eq_none
  rw [List.find?_eq_none]
  intro e he
  simp [htable.not_isPrefixOf he hc]

theorem StartWith.decodePass_append (htable : StartWith mark table) (hbody : mark ∉ body) :
    decodePass table 0 (body ++ rest) = body ++ decodePass table 0 rest := by
  induction body with
  | nil => rfl
  | cons c body ih =>
    rw [List.mem_cons, not_or] at hbody
    rw [List.cons_append, htable.decodePass_cons (Ne.symm hbody.1), ih hbody.2,
      List.cons_append]

/-- What stands in the decoded text, and can not have been decoded, stands in the text. -/
theorem prefix_of_prefix_decodePass (hdecoded : ∀ e ∈ table, e.2 ∉ body) {cs : List Char}
    (h : body <+: decodePass table 0 cs) : body <+: cs := by
  induction body generalizing cs with
  | nil => exact List.nil_prefix
  | cons b body ih =>
    cases cs with
    | nil => exact h
    | cons c cs =>
      cases hfind : table.find? fun e => e.1.isPrefixOf (c :: cs) with
      | some e =>
        rw [decodePass, hfind] at h
        have hb : b = e.2 := (List.cons_prefix_cons.mp h).1
        exact absurd (hb ▸ List.mem_cons_self)
          (hdecoded e (List.mem_of_find?_eq_some hfind))
      | none =>
        rw [decodePass_cons_of_find?_eq_none hfind] at h
        obtain ⟨hbc, hrest⟩ := List.cons_prefix_cons.mp h
        have hbody : ∀ e ∈ table, e.2 ∉ body := fun e he hmem =>
          hdecoded e he (List.mem_cons_of_mem _ hmem)
        exact List.cons_prefix_cons.mpr ⟨hbc, ih hbody hrest⟩

/-- Replacing an entity in a decoded text is one pass with the entity at the end of the
table. -/
theorem replaceAll_decodePass (htable : StartWith mark table) (hmark : mark ∉ body)
    (hdecoded : ∀ e ∈ table, e.2 ∉ mark :: body) (char : Char) (cs : List Char) :
    replaceAll (mark :: body) [char] (decodePass table 0 cs) =
      decodePass (table ++ [(mark :: body, char)]) 0 cs := by
  have hbody : ∀ e ∈ table, e.2 ∉ body := fun e he hmem =>
    hdecoded e he (List.mem_cons_of_mem _ hmem)
  -- the induction is on the length, since an entity is decoded as a whole
  induction hn : cs.length using Nat.strongRecOn generalizing cs with
  | _ n ih =>
    subst hn
    cases cs with
    | nil => rfl
    | cons c cs =>
      cases hfind : table.find? fun e => e.1.isPrefixOf (c :: cs) with
      | some e =>
        have hchar : e.2 ≠ mark := fun heq =>
          hdecoded e (List.mem_of_find?_eq_some hfind) (heq ▸ List.mem_cons_self)
        have hlonger : (table ++ [(mark :: body, char)]).find?
            (fun e => e.1.isPrefixOf (c :: cs)) = some e := by
          rw [List.find?_append, hfind, Option.some_or]
        rw [decodePass, hfind, decodePass, hlonger]
        simp only
        rw [replaceAll_cons_of_mismatch _ fun h =>
          hchar (List.cons_prefix_cons.mp h).1.symm, decodePass_skip,
            ih (cs.drop (e.1.length - 1)).length (by grind) _ rfl, ← decodePass_skip]
      | none =>
        rw [decodePass_cons_of_find?_eq_none hfind]
        by_cases hprefix : mark :: body <+: c :: cs
        · obtain ⟨rest, hcs⟩ := hprefix
          rw [List.cons_append, List.cons.injEq] at hcs
          obtain ⟨rfl, rfl⟩ := hcs
          have hlonger : (table ++ [(mark :: body, char)]).find?
              (fun e => e.1.isPrefixOf (mark :: body ++ rest)) =
              some (mark :: body, char) := by
            rw [List.find?_append, List.cons_append, hfind, Option.none_or,
              List.find?_singleton]
            exact if_pos
              (List.isPrefixOf_iff_prefix.mpr (List.prefix_append (mark :: body) rest))
          rw [htable.decodePass_append hmark, ← List.cons_append,
            replaceAll_append _ (List.cons_ne_nil _ _), ih rest.length (by grind) _ rfl,
            ← List.cons_append,
            decodePass_append_of_find? (List.cons_ne_nil _ _) hlonger,
            List.singleton_append]
        · have hdecodedPrefix : ¬ mark :: body <+: c :: decodePass table 0 cs := by
            intro h
            obtain ⟨hc, hrest⟩ := List.cons_prefix_cons.mp h
            exact hprefix
              (List.cons_prefix_cons.mpr ⟨hc, prefix_of_prefix_decodePass hbody hrest⟩)
          have hlonger :
              (table ++ [(mark :: body, char)]).find?
              (fun e => e.1.isPrefixOf (c :: cs)) = none := by
            rw [List.find?_append, hfind, Option.none_or, List.find?_singleton,
              if_neg fun h => hprefix (List.isPrefixOf_iff_prefix.mp h)]
          rw [replaceAll_cons_of_mismatch _ hdecodedPrefix, ih cs.length (by simp) _ rfl,
            decodePass_cons_of_find?_eq_none hlonger]

theorem decodePass_nil (cs : List Char) : decodePass [] 0 cs = cs := by
  induction cs with
  | nil => rfl
  | cons c cs ih => rw [decodePass_cons_of_find?_eq_none rfl, ih]

/-- The entities of a table can be replaced one after the other: the mark stands at the
start of an entity and nowhere else in it, and no character that has been decoded before is
a part of it. -/
structure Successive (mark : Char) (table : List (List Char × Char)) : Prop where
  marked : ∀ e ∈ table, ∃ body, e.1 = mark :: body ∧ mark ∉ body
  apart : table.Pairwise fun e later => e.2 ∉ later.1

theorem Successive.startWith (h : Successive mark table) : StartWith mark table := by
  intro e he
  obtain ⟨body, hpattern, -⟩ := h.marked e he
  rw [hpattern, List.head?_cons]

/-- Replacing the entities one after the other is a single pass. -/
theorem Successive.foldl_replaceAll (h : Successive mark table) (cs : List Char) :
    table.foldl (fun cs e => replaceAll e.1 [e.2] cs) cs = decodePass table 0 cs := by
  -- from the back, since the last entity of the table is the one that is replaced in a
  -- decoded text
  induction table using List.reverseRecOn with
  | nil => exact (decodePass_nil cs).symm
  | append_singleton table e ih =>
    obtain ⟨hbefore, -, hlater⟩ := List.pairwise_append.mp h.apart
    have hfront : Successive mark table :=
      ⟨fun d hd => h.marked d (List.mem_append_left [e] hd), hbefore⟩
    obtain ⟨pattern, char⟩ := e
    obtain ⟨body, hpattern, hmark⟩ :=
      h.marked (pattern, char) (List.mem_append_right table List.mem_cons_self)
    subst hpattern
    have hdecoded : ∀ d ∈ table, d.2 ∉ mark :: body := fun d hd =>
      hlater d hd _ List.mem_cons_self
    rw [List.foldl_append, ih hfront, List.foldl_cons, List.foldl_nil,
      replaceAll_decodePass hfront.startWith hmark hdecoded]

end Patterns

/-- The ampersand is a part of every entity, and it is the last character that is
decoded. -/
theorem successive_entities : Successive '&' entities where
  marked := by simp [entities]
  apart := by decide

/-- The five replacements are a single pass: what has been decoded is not decoded again. -/
theorem decodeEntities_eq_decodePass (cs : List Char) :
    decodeEntities cs = decodePass entities 0 cs :=
  successive_entities.foldl_replaceAll cs

-- in the reverse order the decoded ampersand would start an entity
example : decodeEntities "&amp;lt;".toList = "&lt;".toList ∧
    entities.reverse.foldl (fun cs e => replaceAll e.1 [e.2] cs) "&amp;lt;".toList =
      "<".toList := by
  decide

/-- A character as it is written in a value. -/
def escapeChar (c : Char) : List Char :=
  match entities.find? fun e => e.2 == c with
  | some e => e.1
  | none => [c]

/-- A text with the five characters that have entities escaped. -/
def escape (cs : List Char) : List Char :=
  cs.flatMap escapeChar

theorem escapeChar_cases (c : Char) :
    (∃ e ∈ entities, e.2 = c ∧ escapeChar c = e.1) ∨ (∀ e ∈ entities, e.2 ≠ c) ∧
      escapeChar c = [c] := by
  rw [escapeChar]
  cases hfind : entities.find? fun e => e.2 == c with
  | some e =>
    have heq := List.find?_some hfind
    exact .inl ⟨e, List.mem_of_find?_eq_some hfind, by simpa using heq, rfl⟩
  | none =>
    rw [List.find?_eq_none] at hfind
    exact .inr ⟨fun e he heq => hfind e he (by simp [heq]), rfl⟩

/-- No entity is the start of another one. -/
theorem find?_entities {e : List Char × Char} (he : e ∈ entities) (rest : List Char) :
    entities.find? (fun d => d.1.isPrefixOf (e.1 ++ rest)) = some e := by
  simp only [entities, List.mem_cons, List.not_mem_nil, or_false] at he
  obtain rfl | rfl | rfl | rfl | rfl := he <;> rfl

theorem decodePass_entity {pattern : List Char} {char : Char}
    (he : (pattern, char) ∈ entities) (rest : List Char) :
    decodePass entities 0 (pattern ++ rest) = char :: decodePass entities 0 rest := by
  have hnonempty : pattern ≠ [] := by
    intro hnil
    simpa [hnil] using successive_entities.startWith _ he
  exact decodePass_append_of_find? hnonempty (find?_entities he rest)

theorem decodePass_escapeChar (c : Char) (cs : List Char) :
    decodePass entities 0 (escapeChar c ++ cs) = c :: decodePass entities 0 cs := by
  obtain ⟨e, he, rfl, hescape⟩ | ⟨hplain, hescape⟩ := escapeChar_cases c
  · rw [hescape, decodePass_entity he]
  · have hc : c ≠ '&' := (hplain ("&amp;".toList, '&') (by simp [entities])).symm
    rw [hescape, List.singleton_append, successive_entities.startWith.decodePass_cons hc]

/-- An escaped text is decoded to the text itself, whatever it is followed by. -/
theorem decodeEntities_escape_append (cs rest : List Char) :
    decodeEntities (escape cs ++ rest) = cs ++ decodeEntities rest := by
  simp only [decodeEntities_eq_decodePass]
  induction cs with
  | nil => rfl
  | cons c cs ih =>
    rw [escape, List.flatMap_cons, List.append_assoc, decodePass_escapeChar, ← escape, ih,
      List.cons_append]

theorem decodeEntities_escape (cs : List Char) : decodeEntities (escape cs) = cs := by
  have happend := decodeEntities_escape_append cs []
  rwa [List.append_nil, show decodeEntities [] = [] from rfl, List.append_nil] at happend

/-- A quote does not stand in an escaped text. -/
theorem quote_notMem_escape {quote : Char} (hquote : quote = '\x22' ∨ quote = '\x27')
    (cs : List Char) : quote ∉ escape cs := by
  have hentity : ∀ e ∈ entities, quote ∉ e.1 := by
    obtain rfl | rfl := hquote <;> decide
  have hlisted : ∃ e ∈ entities, e.2 = quote := by
    obtain rfl | rfl := hquote <;> decide
  rw [escape, List.mem_flatMap]
  rintro ⟨c, -, hc⟩
  obtain ⟨e, he, -, hescape⟩ | ⟨hplain, hescape⟩ := escapeChar_cases c
  · exact hentity e he (hescape ▸ hc)
  · obtain ⟨e, he, heq⟩ := hlisted
    rw [hescape, List.mem_singleton] at hc
    exact hplain e he (heq.trans hc)

/-! ### The entities spelt out -/

/-- The text read once from left to right, where an entity is replaced by its character and
everything else is copied. -/
def scan : List Char → List Char
  | '&' :: 'l' :: 't' :: ';' :: cs => '<' :: scan cs
  | '&' :: 'g' :: 't' :: ';' :: cs => '>' :: scan cs
  | '&' :: 'q' :: 'u' :: 'o' :: 't' :: ';' :: cs => '\x22' :: scan cs
  | '&' :: 'a' :: 'p' :: 'o' :: 's' :: ';' :: cs => '\x27' :: scan cs
  | '&' :: 'a' :: 'm' :: 'p' :: ';' :: cs => '&' :: scan cs
  | c :: cs => c :: scan cs
  | [] => []

theorem decodePass_entities_eq_scan (cs : List Char) :
    decodePass entities 0 cs = scan cs := by
  fun_induction scan cs with
  | case1 cs ih =>
    rw [← ih]
    exact decodePass_entity (show ("&lt;".toList, '<') ∈ entities by simp [entities]) cs
  | case2 cs ih =>
    rw [← ih]
    exact decodePass_entity (show ("&gt;".toList, '>') ∈ entities by simp [entities]) cs
  | case3 cs ih =>
    rw [← ih]
    exact decodePass_entity
      (show ("&quot;".toList, '\x22') ∈ entities by simp [entities]) cs
  | case4 cs ih =>
    rw [← ih]
    exact decodePass_entity
      (show ("&apos;".toList, '\x27') ∈ entities by simp [entities]) cs
  | case5 cs ih =>
    rw [← ih]
    exact decodePass_entity (show ("&amp;".toList, '&') ∈ entities by simp [entities]) cs
  | case6 c cs hlt hgt hquot hapos hamp ih =>
    rw [← ih]
    apply decodePass_cons_of_find?_eq_none
    rw [List.find?_eq_none]
    intro e he hprefix
    obtain ⟨rest, hrest⟩ := List.isPrefixOf_iff_prefix.mp hprefix
    simp only [entities, List.mem_cons, List.not_mem_nil, or_false] at he
    obtain rfl | rfl | rfl | rfl | rfl := he <;> obtain ⟨hc, hcs⟩ := List.cons.inj hrest
    · exact hlt rest hc.symm hcs.symm
    · exact hgt rest hc.symm hcs.symm
    · exact hquot rest hc.symm hcs.symm
    · exact hapos rest hc.symm hcs.symm
    · exact hamp rest hc.symm hcs.symm
  | case7 => rfl

/-- A character of an escaped text, in which the five reserved characters are written as
entities. -/
def reservedForm : Char → List Char
  | '&' => "&amp;".toList
  | '<' => "&lt;".toList
  | '>' => "&gt;".toList
  | '\x22' => "&quot;".toList
  | '\x27' => "&apos;".toList
  | c => [c]

theorem escapeChar_eq_reservedForm (c : Char) : escapeChar c = reservedForm c := by
  fun_cases reservedForm c with
  | case1 => rfl
  | case2 => rfl
  | case3 => rfl
  | case4 => rfl
  | case5 => rfl
  | case6 c hamp hlt hgt hquot hapos =>
    obtain ⟨e, he, heq, -⟩ | ⟨-, hescape⟩ := escapeChar_cases c
    · simp only [entities, List.mem_cons, List.not_mem_nil, or_false] at he
      obtain rfl | rfl | rfl | rfl | rfl := he
      · exact absurd heq.symm hlt
      · exact absurd heq.symm hgt
      · exact absurd heq.symm hquot
      · exact absurd heq.symm hapos
      · exact absurd heq.symm hamp
    · exact hescape

theorem escape_eq_flatMap_reservedForm (cs : List Char) :
    escape cs = cs.flatMap reservedForm := by
  rw [escape, funext escapeChar_eq_reservedForm]

/-- The five replacements read the text once from left to right.  An escaped text is
decoded to the text itself, and nothing in it is decoded again together with what follows
it. -/
theorem decoding_scans_once (text rest : List Char) :
    decodeEntities text = scan text ∧
      decodeEntities (text.flatMap reservedForm ++ rest) = text ++ decodeEntities rest ∧
      decodeEntities (text.flatMap reservedForm) = text := by
  rw [← escape_eq_flatMap_reservedForm]
  refine ⟨?_, decodeEntities_escape_append text rest, decodeEntities_escape text⟩
  rw [decodeEntities_eq_decodePass, decodePass_entities_eq_scan]

end Markup
end SignalFlow
