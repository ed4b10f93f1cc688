import SignalFlow.Markup.Element
import SignalFlow.Proofs.MarkupLayout

/-!
# The grammar of documents

`Forest` is the grammar: the lists of tokens that elements in a row can be written as, with
the empty or the paired form for an element without children and a closing tag that repeats
the name.  An element is written as a forest of one tree.  `Document` says that a text is
an element in that grammar, laid out with its values escaped.  Documents are read back as
their element, and nothing but a layout of one element is read.
-/

namespace SignalFlow
namespace Markup

/-- The attributes of a tag as tokens. -/
def attributeTokens (attrs : List (String × String)) : List Token :=
  attrs.flatMap fun a => [.name a.1, .equals, .value a.2]

/-- The tokens of elements in a row. -/
inductive Forest : List Element → List Token → Prop
  | nil : Forest [] []
  | empty {tag : String} {attrs : List (String × String)} {es : List Element}
      {rest : List Token} (hrest : Forest es rest) :
      Forest (.node tag attrs [] :: es)
        (.tagStart :: .name tag :: (attributeTokens attrs ++ .emptyEnd :: rest))
  | paired {tag : String} {attrs : List (String × String)} {children es : List Element}
      {inside rest : List Token} (hinside : Forest children inside)
      (hrest : Forest es rest) :
      Forest (.node tag attrs children :: es)
        (.tagStart :: .name tag :: (attributeTokens attrs ++
          .tagEnd :: (inside ++ .closingStart :: .name tag :: .tagEnd :: rest)))

/-- The text is an element in one of its written forms, with escaped values. -/
def Document (e : Element) (cs : List Char) : Prop :=
  ∃ ts, Forest [e] ts ∧ Layout Escapes none ts cs

/-- The names of the element, of its attributes and of the elements inside are names. -/
inductive Element.Named : Element → Prop
  | node {tag : String} {attrs : List (String × String)} {children : List Element}
      (htag : IsName tag.toList) (hattrs : ∀ a ∈ attrs, IsName a.1.toList)
      (hchildren : ∀ e ∈ children, e.Named) :
      Element.Named (.node tag attrs children)

/-! ### Reading tokens -/

theorem takeAttributes_append (attrs : List (String × String)) {t : Token}
    (ht : ∀ x, t ≠ .name x) (rest : List Token) :
    takeAttributes (attributeTokens attrs ++ t :: rest) = (attrs, t :: rest) := by
  induction attrs with
  | nil =>
    cases t with
    | name x => exact absurd rfl (ht x)
    | _ => rfl
  | cons a attrs ih =>
    simp only [attributeTokens, List.flatMap_cons, List.cons_append, List.nil_append,
      takeAttributes] at ih ⊢
    rw [ih]

theorem attributeTokens_takeAttributes (ts : List Token) :
    ts = attributeTokens (takeAttributes ts).1 ++ (takeAttributes ts).2 := by
  fun_induction takeAttributes ts with
  | case1 key text rest attrs after h ih =>
    rw [h] at ih
    simp only [attributeTokens, List.flatMap_cons, List.cons_append, List.nil_append]
      at ih ⊢
    rw [← ih]
  | case2 => rfl

theorem Forest.cons {e : Element} {es : List Element} {ts us : List Token}
    (he : Forest [e] ts) (hes : Forest es us) : Forest (e :: es) (ts ++ us) := by
  cases he with
  | empty hnil =>
    cases hnil
    simpa using Forest.empty hes
  | paired hinside hnil =>
    cases hnil
    simpa using Forest.paired hinside hes

section OneElement

variable {fuel : Nat} {tag : String} {attrs : List (String × String)}
  {children : List Element}
variable {after rest : List Token}

theorem takeElement?_empty :
    takeElement? (fuel + 1)
      (.tagStart :: .name tag :: (attributeTokens attrs ++ .emptyEnd :: rest)) =
      some (.node tag attrs [], rest) := by
  rw [takeElement?, takeAttributes_append attrs (by simp)]

theorem takeElement?_paired
    (h : takeElements fuel after =
      (children, .closingStart :: .name tag :: .tagEnd :: rest)) :
    takeElement? (fuel + 1)
      (.tagStart :: .name tag :: (attributeTokens attrs ++ .tagEnd :: after)) =
      some (.node tag attrs children, rest) := by
  rw [takeElement?, takeAttributes_append attrs (by simp)]
  simp only
  rw [h]
  simp

/-- An element is taken in the empty or in the paired form. -/
theorem takeElement?_cases {e : Element} {ts : List Token}
    (h : takeElement? fuel ts = some (e, rest)) :
    ∃ n tag attrs, fuel = n + 1 ∧
      ((e = .node tag attrs [] ∧
        ts = .tagStart :: .name tag :: (attributeTokens attrs ++ .emptyEnd :: rest)) ∨
        ∃ children after, takeElements n after =
          (children, .closingStart :: .name tag :: .tagEnd :: rest) ∧
          e = .node tag attrs children ∧
          ts = .tagStart :: .name tag :: (attributeTokens attrs ++ .tagEnd :: after)) := by
  unfold takeElement? at h
  split at h
  · rename_i n tag tail
    have htail := attributeTokens_takeAttributes tail
    generalize takeAttributes tail = taken at h htail
    obtain ⟨attrs, following⟩ := taken
    refine ⟨n, tag, attrs, rfl, ?_⟩
    simp only at h htail
    split at h
    · obtain ⟨⟩ := h
      exact .inl ⟨rfl, by rw [← htail]⟩
    · rename_i after
      split at h
      · rename_i children closing end_ hchildren
        split at h
        · rename_i hclosing
          obtain ⟨⟩ := h
          rw [beq_iff_eq] at hclosing
          exact .inr ⟨children, after, hclosing ▸ hchildren, rfl, by rw [← htail]⟩
        · cases h
      · cases h
    · cases h
  · cases h

end OneElement

/-- An element or a row of elements that is taken is in the grammar. -/
theorem Forest.of_take (fuel : Nat) :
    (∀ {ts rest : List Token} {e : Element}, takeElement? fuel ts = some (e, rest) →
      ∃ us, Forest [e] us ∧ ts = us ++ rest) ∧
    ∀ ts : List Token, ∃ us, Forest (takeElements fuel ts).1 us ∧
      ts = us ++ (takeElements fuel ts).2 := by
  induction fuel with
  | zero => exact ⟨fun h => by simp [takeElement?] at h, fun ts => ⟨[], .nil, rfl⟩⟩
  | succ fuel ih =>
    obtain ⟨ihOne, ihMany⟩ := ih
    constructor
    · intro ts rest e h
      obtain ⟨n, tag, attrs, hn, ⟨rfl, rfl⟩ | ⟨children, after, hchildren, rfl, rfl⟩⟩ :=
        takeElement?_cases h
      · exact ⟨_, .empty .nil, by simp⟩
      · obtain rfl : fuel = n := by omega
        obtain ⟨inside, hinside, hafter⟩ := ihMany after
        rw [hchildren] at hinside hafter
        exact ⟨_, .paired hinside .nil, by simp [hafter]⟩
    · intro ts
      rw [takeElements]
      cases htake : takeElement? fuel ts with
      | none => exact ⟨[], .nil, rfl⟩
      | some taken =>
        obtain ⟨e, after⟩ := taken
        obtain ⟨us, hus, rfl⟩ := ihOne htake
        obtain ⟨vs, hvs, hafter⟩ := ihMany after
        refine ⟨us ++ vs, hus.cons hvs, ?_⟩
        rw [List.append_assoc, ← hafter]

theorem takeElements_of_head? {ts : List Token} (h : ts.head? ≠ some .tagStart)
    (fuel : Nat) : takeElements fuel ts = ([], ts) := by
  cases fuel with
  | zero => rfl
  | succ fuel =>
    have hnone : takeElement? fuel ts = none := by
      rw [Option.eq_none_iff_forall_ne_some]
      rintro ⟨e, rest⟩ htake
      obtain ⟨n, tag, attrs, -, ⟨-, rfl⟩ | ⟨children, after, -, -, rfl⟩⟩ :=
        takeElement?_cases htake <;> exact h rfl
    rw [takeElements, hnone]

theorem takeElements_of_takeElement? {fuel : Nat} {ts after rest : List Token}
    {e : Element} {es : List Element} (he : takeElement? fuel ts = some (e, after))
    (hes : takeElements fuel after = (es, rest)) :
    takeElements (fuel + 1) ts = (e :: es, rest) := by
  rw [takeElements, he]
  simp only [hes]

/-- The elements of a row are taken with fuel for each token. -/
theorem Forest.takeElements {es : List Element} {ts : List Token} (h : Forest es ts)
    {rest : List Token} (hrest : rest.head? ≠ some .tagStart) {fuel : Nat}
    (hfuel : ts.length < fuel) : takeElements fuel (ts ++ rest) = (es, rest) := by
  induction h generalizing rest fuel with
  | nil => exact takeElements_of_head? hrest fuel
  | @empty tag attrs es after _ ih =>
    simp only [List.length_cons, List.length_append] at hfuel
    obtain ⟨n, rfl⟩ : ∃ n, fuel = n + 2 := ⟨fuel - 2, by omega⟩
    simp only [List.cons_append, List.append_assoc]
    exact takeElements_of_takeElement? takeElement?_empty (ih hrest (by omega))
  | @paired tag attrs children es inside after _ _ ihInside ihRest =>
    simp only [List.length_cons, List.length_append] at hfuel
    obtain ⟨n, rfl⟩ : ∃ n, fuel = n + 2 := ⟨fuel - 2, by omega⟩
    simp only [List.cons_append, List.append_assoc]
    exact takeElements_of_takeElement?
      (takeElement?_paired (ihInside (by simp) (by omega))) (ihRest hrest (by omega))

/-- A list of tokens is read as the element that it is written as. -/
theorem Element.ofTokens?_eq_some_iff (ts : List Token) (e : Element) :
    Element.ofTokens? ts = some e ↔ Forest [e] ts := by
  constructor
  · intro h
    rw [Element.ofTokens?] at h
    split at h
    · rename_i taken htake
      obtain ⟨⟩ := h
      obtain ⟨us, hus, rfl⟩ := (Forest.of_take _).1 htake
      simpa using hus
    · cases h
  · intro h
    have htake : takeElement? (ts.length + 2) ts = some (e, []) := by
      cases h with
      | empty hnil =>
        cases hnil
        exact takeElement?_empty
      | paired hinside hnil =>
        cases hnil
        apply takeElement?_paired
        apply hinside.takeElements (by simp)
        simp only [List.length_cons, List.length_append]
        omega
    rw [Element.ofTokens?, htake]

theorem Element.read?_eq_some_iff_forest (text : String) (e : Element) :
    Element.read? text = some e ↔ ∃ ts, tokens? text = some ts ∧ Forest [e] ts := by
  simp only [Element.read?, Option.bind_eq_some_iff, Element.ofTokens?_eq_some_iff]

/-! ### Names -/

theorem Layout.isName {Denotes : List Char → List Char → Prop} {last : Option Token}
    {ts : List Token} {cs : List Char} (h : Layout Denotes last ts cs) {x : String}
    (hx : Token.name x ∈ ts) : IsName x.toList := by
  induction h with
  | done => cases hx
  | skip _ _ ih => exact ih hx
  | token hlexeme _ _ ih =>
    rw [List.mem_cons] at hx
    obtain rfl | hx := hx
    · cases hlexeme with
      | name htext => rwa [String.toList_ofList]
    · exact ih hx

theorem mem_attributeTokens {attrs : List (String × String)} {a : String × String}
    (ha : a ∈ attrs) : Token.name a.1 ∈ attributeTokens attrs :=
  List.mem_flatMap.mpr ⟨a, ha, List.mem_cons_self⟩

/-- Elements of which all names in their tokens are names. -/
theorem Forest.named {es : List Element} {ts : List Token} (h : Forest es ts)
    (hnames : ∀ x, Token.name x ∈ ts → IsName x.toList) : ∀ e ∈ es, e.Named := by
  induction h with
  | nil => simp
  | empty _ ih =>
    intro e he
    rw [List.mem_cons] at he
    obtain rfl | he := he
    · exact .node (hnames _ (by simp))
        (fun a ha => hnames _ (by simp [mem_attributeTokens ha])) (by simp)
    · exact ih (fun x hx => hnames x (by simp [hx])) e he
  | paired _ _ ihInside ihRest =>
    intro e he
    rw [List.mem_cons] at he
    obtain rfl | he := he
    · refine .node (hnames _ (by simp))
        (fun a ha => hnames _ (by simp [mem_attributeTokens ha])) ?_
      exact ihInside fun x hx => hnames x (by simp [hx])
    · exact ihRest (fun x hx => hnames x (by simp [hx])) e he

/-! ### Writing elements -/

/-- A token in its written form; values are escaped. -/
def Token.spell (quote : Char) : Token → List Char
  | .tagStart => ['<']
  | .closingStart => ['<', '/']
  | .tagEnd => ['>']
  | .emptyEnd => ['/', '>']
  | .equals => ['=']
  | .name x => x.toList
  | .value text => quote :: (escape text.toList ++ [quote])

mutual

/-- The tokens of an element; one without children is written in the empty form if `short`
is set. -/
def Element.toTokens (short : Bool) : Element → List Token
  | .node tag attrs children =>
      .tagStart :: .name tag :: (attributeTokens attrs ++
        if short && children.isEmpty then [.emptyEnd]
        else .tagEnd :: (forestTokens short children ++
          [.closingStart, .name tag, .tagEnd]))

/-- The tokens of elements in a row. -/
def forestTokens (short : Bool) : List Element → List Token
  | [] => []
  | e :: es => e.toTokens short ++ forestTokens short es

end

/-- A text of an element, with a blank after each token. -/
def Element.text (quote : Char) (short : Bool) (e : Element) : List Char :=
  (e.toTokens short).flatMap fun t => t.spell quote ++ [' ']

theorem spells_spell {quote : Char} (hquote : IsQuote quote) {t : Token}
    (ht : ∀ x, t = .name x → IsName x.toList) : Spells Escapes t (t.spell quote) := by
  cases t with
  | tagStart => exact .tagStart
  | closingStart => exact .closingStart
  | tagEnd => exact .tagEnd
  | emptyEnd => exact .emptyEnd
  | equals => exact .equals
  | name x =>
    have hspells : Spells Escapes (.name (String.ofList x.toList)) x.toList :=
      .name (ht x rfl)
    rwa [String.ofList_toList] at hspells
  | value text =>
    have hspells : Spells Escapes (.value (String.ofList text.toList))
        (quote :: (escape text.toList ++ [quote])) :=
      .value hquote (quote_notMem_escape hquote text.toList) rfl
    rwa [String.ofList_toList] at hspells

theorem layout_spell {quote : Char} (hquote : IsQuote quote) {ts : List Token}
    (hnames : ∀ x, Token.name x ∈ ts → IsName x.toList) :
    Layout Escapes none ts (ts.flatMap fun t => t.spell quote ++ [' ']) := by
  induction ts with
  | nil => exact .done
  | cons t ts ih =>
    rw [List.flatMap_cons, List.append_assoc]
    refine .token (spells_spell hquote ?_) (by simp) (.skip (.blank (by decide)) (ih ?_))
    · rintro x rfl
      exact hnames x List.mem_cons_self
    · exact fun x hx => hnames x (List.mem_cons_of_mem t hx)

theorem attributeTokens_named {attrs : List (String × String)}
    (hattrs : ∀ a ∈ attrs, IsName a.1.toList) {x : String}
    (hx : Token.name x ∈ attributeTokens attrs) : IsName x.toList := by
  obtain ⟨a, ha, hmem⟩ := List.mem_flatMap.mp hx
  obtain rfl : x = a.1 := by simpa using hmem
  exact hattrs a ha

/-- Tokens in the grammar of which all names are names. -/
def ProperForest (es : List Element) (ts : List Token) : Prop :=
  Forest es ts ∧ ∀ x, Token.name x ∈ ts → IsName x.toList

theorem properForest_forestTokens {short : Bool} {es : List Element}
    (h : ∀ e ∈ es, ProperForest [e] (e.toTokens short)) :
    ProperForest es (forestTokens short es) := by
  induction es with
  | nil => exact ⟨.nil, by simp [forestTokens]⟩
  | cons e es ih =>
    obtain ⟨hforest, hnames⟩ := h e List.mem_cons_self
    obtain ⟨hrow, hrowNames⟩ := ih fun d hd => h d (List.mem_cons_of_mem e hd)
    rw [forestTokens]
    refine ⟨hforest.cons hrow, fun x hx => ?_⟩
    rw [List.mem_append] at hx
    exact hx.elim (hnames x) (hrowNames x)

theorem Element.Named.properForest {e : Element} (he : e.Named) (short : Bool) :
    ProperForest [e] (e.toTokens short) := by
  induction he with
  | @node tag attrs children htag hattrs _ ih =>
    rw [Element.toTokens]
    split
    case isTrue hshort =>
      obtain rfl : children = [] := by simp_all
      refine ⟨.empty .nil, fun x hx => ?_⟩
      have hx : x = tag ∨ Token.name x ∈ attributeTokens attrs := by simpa using hx
      obtain rfl | hx := hx
      · exact htag
      · exact attributeTokens_named hattrs hx
    case isFalse =>
      obtain ⟨hforest, hnames⟩ := properForest_forestTokens ih
      refine ⟨.paired hforest .nil, fun x hx => ?_⟩
      have hx : x = tag ∨ Token.name x ∈ attributeTokens attrs ∨
          Token.name x ∈ forestTokens short children ∨
          x = tag := by
        simpa using hx
      obtain rfl | hx | hx | rfl := hx
      · exact htag
      · exact attributeTokens_named hattrs hx
      · exact hnames x hx
      · exact htag

theorem Element.Named.document_text {e : Element} (he : e.Named) {quote : Char}
    (hquote : IsQuote quote) (short : Bool) : Document e (e.text quote short) :=
  ⟨_, (he.properForest short).1, layout_spell hquote (he.properForest short).2⟩

/-- Documents are exactly what is read: each written form of an element with escaped values
is read as that element, and a text that is read is a layout of the tokens of one element
with proper names. -/
theorem Element.read_iff_grammar :
    (∀ (e : Element) (quote : Char) (short : Bool), e.Named → IsQuote quote →
      Document e (e.text quote short)) ∧
    (∀ (e : Element) (text : String), Document e text.toList →
      Element.read? text = some e) ∧
    (∀ (text : String) (e : Element), Element.read? text = some e ↔
      e.Named ∧ ∃ ts, tokens? text = some ts ∧ Forest [e] ts) ∧
    ∀ (text : String) (ts : List Token), tokens? text = some ts ↔
      Layout Decodes none ts text.toList := by
  refine ⟨fun e quote short he hquote => he.document_text hquote short, ?_, ?_,
    tokens?_eq_some_iff⟩
  · rintro e text ⟨ts, hforest, hlayout⟩
    rw [Element.read?_eq_some_iff_forest]
    exact ⟨ts, (tokens?_eq_some_iff text ts).mpr (hlayout.mono Escapes.decodes), hforest⟩
  · intro text e
    rw [Element.read?_eq_some_iff_forest]
    refine ⟨?_, And.right⟩
    rintro ⟨ts, htokens, hforest⟩
    have hlayout := (tokens?_eq_some_iff text ts).mp htokens
    exact ⟨hforest.named (fun x hx => hlayout.isName hx) e List.mem_cons_self, ts,
      htokens, hforest⟩

/-- An element with a child, and a value of characters that are escaped. -/
def quotation : Element :=
  .node "says" [("text", "\x22<&>\x27"), ("by", "")] [.node "b.1" [] []]

theorem quotation_named : quotation.Named := by
  refine .node (by decide) (by decide) ?_
  rintro e (_ | ⟨_, ⟨⟩⟩)
  exact .node (by decide) (by simp) (by simp)

/-- A text of `quotation` with a declaration, a comment, both quotes and a closing tag for
the child. -/
def quotationText : String :=
  "<?v?><says text='&quot;&lt;&amp;&gt;&apos;' by=\x22\x22><!-- - --><b.1></b.1\t></says>"

/-- The tokens of the quotation. -/
def quotationTokens : List Token :=
  [.tagStart, .name "says", .name "text", .equals, .value "\x22<&>\x27", .name "by",
    .equals, .value "", .tagEnd, .tagStart, .name "b.1", .tagEnd, .closingStart,
    .name "b.1", .tagEnd, .closingStart, .name "says", .tagEnd]

theorem tokens?_quotationText : tokens? quotationText = some quotationTokens := by
  decide

theorem forest_quotation : Forest [quotation] quotationTokens :=
  .paired (.paired .nil .nil) .nil

theorem Element.read_quotation :
    Element.read? quotationText = some quotation ∧
      ∀ short, Element.read? (String.ofList (quotation.text '\x27' short)) =
        some quotation := by
  obtain ⟨hwritten, hread, haccepted, -⟩ := Element.read_iff_grammar
  refine ⟨(haccepted _ _).mpr ⟨quotation_named, _, tokens?_quotationText,
    forest_quotation⟩, fun short => ?_⟩
  apply hread
  rw [String.toList_ofList]
  exact hwritten quotation '\x27' short quotation_named (.inr rfl)

end Markup
end SignalFlow
