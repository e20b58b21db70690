/-!
# Substitution in texts

Every occurrence of a word is replaced, from left to right and without
overlaps.  Replacements are not searched again.
-/

namespace VisualQuery

/-- Replace the occurrences of a nonempty word, after `skip` characters that
belong to an occurrence already replaced. -/
def substituteFrom (word replacement : List Char) : (skip : Nat) → List Char → List Char
  | _, [] => []
  | skip + 1, _ :: rest => substituteFrom word replacement skip rest
  | 0, c :: rest =>
    if word.isPrefixOf (c :: rest) then
      replacement ++ substituteFrom word replacement (word.length - 1) rest
    else c :: substituteFrom word replacement 0 rest

/-- Replace every occurrence of a nonempty word in a text. -/
def substitute (word replacement text : String) : String :=
  String.ofList (substituteFrom word.toList replacement.toList 0 text.toList)

end VisualQuery
