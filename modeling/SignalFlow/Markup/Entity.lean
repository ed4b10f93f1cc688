/-!
# Entities

Five characters of attribute values can be written as entities.  Values are decoded by
replacing the entities one kind after the other, the ampersand last.
-/

namespace SignalFlow
namespace Markup

/-- Replace every occurrence of `pattern` from left to right; `skip` characters belong to
an occurrence that has been replaced. -/
def replaceFrom (pattern replacement : List Char) : Nat → List Char → List Char
  | _, [] => []
  | skip + 1, _ :: cs => replaceFrom pattern replacement skip cs
  | 0, c :: cs =>
      if pattern.isPrefixOf (c :: cs) then
        replacement ++ replaceFrom pattern replacement (pattern.length - 1) cs
      else c :: replaceFrom pattern replacement 0 cs

/-- Replace every occurrence of `pattern`. -/
def replaceAll (pattern replacement : List Char) (cs : List Char) : List Char :=
  replaceFrom pattern replacement 0 cs

/-- The entities with the characters they stand for. -/
def entities : List (List Char × Char) :=
  [("&lt;".toList, '<'), ("&gt;".toList, '>'), ("&quot;".toList, '\x22'),
    ("&apos;".toList, '\x27'), ("&amp;".toList, '&')]

/-- The text with its entities decoded. -/
def decodeEntities (cs : List Char) : List Char :=
  entities.foldl (fun cs e => replaceAll e.1 [e.2] cs) cs

end Markup
end SignalFlow
