import SignalFlow.Markup.Token

/-!
# Elements of markup

An element has a name, attributes and elements inside it.  A document is a single element.
-/

namespace SignalFlow
namespace Markup

/-- An element with its attributes and children in order. -/
inductive Element where
  | node (name : String) (attributes : List (String × String)) (children : List Element)

instance : Inhabited Element := ⟨.node "" [] []⟩

namespace Element

/-- Name of an element. -/
def name : Element → String
  | .node x _ _ => x

/-- Attributes of an element. -/
def attributes : Element → List (String × String)
  | .node _ attrs _ => attrs

/-- Elements inside an element. -/
def children : Element → List Element
  | .node _ _ es => es

/-- The first attribute with a name. -/
def attribute? (e : Element) (key : String) : Option String :=
  e.attributes.lookup key

/-- The elements inside that have a name. -/
def childrenNamed (e : Element) (name : String) : List Element :=
  e.children.filter fun c => c.name == name

end Element

/-- The attributes in front of a list of tokens, and what follows. -/
def takeAttributes : List Token → List (String × String) × List Token
  | .name key :: .equals :: .value text :: rest =>
      let (attrs, rest) := takeAttributes rest
      ((key, text) :: attrs, rest)
  | ts => ([], ts)

mutual

/-- One element in front of a list of tokens, and what follows. -/
def takeElement? : Nat → List Token → Option (Element × List Token)
  | fuel + 1, .tagStart :: .name tag :: rest =>
      let (attrs, rest) := takeAttributes rest
      match rest with
      | .emptyEnd :: rest => some (.node tag attrs [], rest)
      | .tagEnd :: rest =>
          match takeElements fuel rest with
          | (children, .closingStart :: .name closing :: .tagEnd :: rest) =>
              if closing == tag then some (.node tag attrs children, rest) else none
          | _ => none
      | _ => none
  | _, _ => none

/-- All elements in front of a list of tokens, and what follows. -/
def takeElements : Nat → List Token → List Element × List Token
  | 0, ts => ([], ts)
  | fuel + 1, ts =>
      match takeElement? fuel ts with
      | none => ([], ts)
      | some (e, rest) =>
          let (es, rest) := takeElements fuel rest
          (e :: es, rest)

end

/-- The element that a list of tokens consists of. -/
def Element.ofTokens? (ts : List Token) : Option Element :=
  match takeElement? (ts.length + 2) ts with
  | some (e, []) => some e
  | _ => none

/-- Read a document. -/
def Element.read? (text : String) : Option Element :=
  (tokens? text).bind Element.ofTokens?

end Markup
end SignalFlow
