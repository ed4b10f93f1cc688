import SignalFlow.Markup.Entity

/-!
# Tokens of markup

Tags, names and quoted values.  Blanks, declarations and comments separate tokens and are
skipped; a declaration has no question mark inside, and a comment no two dashes in a row.
-/

namespace SignalFlow
namespace Markup

/-- A token of a markup document. -/
inductive Token where
  /-- The bracket that opens a tag. -/
  | tagStart
  /-- The bracket and slash that open a closing tag. -/
  | closingStart
  /-- The bracket that ends a tag. -/
  | tagEnd
  /-- The slash and bracket that end a tag without content. -/
  | emptyEnd
  | equals
  | name (text : String)
  | value (text : String)
  deriving Repr, DecidableEq

/-- Blanks between tokens. -/
def isSpace (c : Char) : Bool :=
  c = ' ' || c = '\t' || c = '\r' || c = '\n'

/-- The first character of a name. -/
def isNameStart (c : Char) : Bool :=
  c.isAlpha || c = '_'

/-- A character of a name. -/
def isNameChar (c : Char) : Bool :=
  c.isAlphanum || c = '_' || c = '.' || c = ':' || c = '-'

/-- What follows a declaration. -/
def afterDeclaration? : List Char → Option (List Char)
  | [] => none
  | '?' :: '>' :: rest => some rest
  | c :: rest => if c = '?' then none else afterDeclaration? rest

/-- What follows a comment.  A dash inside is followed by another character. -/
def afterComment? : List Char → Option (List Char)
  | [] => none
  | '-' :: '-' :: '>' :: rest => some rest
  | '-' :: c :: rest => if c = '-' then none else afterComment? rest
  | c :: rest => if c = '-' then none else afterComment? rest

/-- A value up to its closing quote, and what follows. -/
def quoted? (quote : Char) (cs : List Char) : Option (Token × List Char) :=
  match cs.dropWhile fun c => c != quote with
  | [] => none
  | _ :: rest =>
      some (.value (String.ofList (decodeEntities (cs.takeWhile fun c => c != quote))),
        rest)

/-- The next token, or none if something is skipped, and what follows. -/
def nextToken? : List Char → Option (Option Token × List Char)
  | '<' :: '/' :: rest => some (some .closingStart, rest)
  | '<' :: '?' :: rest => (afterDeclaration? rest).map (none, ·)
  | '<' :: '!' :: '-' :: '-' :: rest => (afterComment? rest).map (none, ·)
  | '<' :: rest => some (some .tagStart, rest)
  | '/' :: '>' :: rest => some (some .emptyEnd, rest)
  | '>' :: rest => some (some .tagEnd, rest)
  | '=' :: rest => some (some .equals, rest)
  | [] => none
  | c :: rest =>
      if isSpace c then some (none, rest)
      else if c = '\x22' || c = '\x27' then
        (quoted? c rest).map fun t => (some t.1, t.2)
      else if isNameStart c then
        some (some (.name (String.ofList (c :: rest.takeWhile isNameChar))),
          rest.dropWhile isNameChar)
      else none

/-- The tokens of a text, of which there are at most as many as characters. -/
def tokensWithin? : Nat → List Char → Option (List Token)
  | _, [] => some []
  | 0, _ :: _ => none
  | fuel + 1, c :: cs =>
      match nextToken? (c :: cs) with
      | none => none
      | some (none, rest) => tokensWithin? fuel rest
      | some (some t, rest) => (tokensWithin? fuel rest).map (t :: ·)

/-- The tokens of a text. -/
def tokens? (text : String) : Option (List Token) :=
  tokensWithin? text.toList.length text.toList

end Markup
end SignalFlow
