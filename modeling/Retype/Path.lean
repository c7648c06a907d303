import Retype.Text.Quoted

/-!
# Paths into a value

A path leads from a value to one of its parts, the outermost step first. It is written as
`[0].name["key"]`.
-/

namespace Retype

/-- One step from a value to a part of it. -/
inductive Step where
  /-- To an item of a list, set or tuple. -/
  | index (position : Nat)
  /-- To an entry of a map. -/
  | key (name : String)
  /-- To an attribute of an object. -/
  | attr (name : String)
deriving DecidableEq

/-- The text of a step. -/
def Step.text : Step → String
  | .index position => "[" ++ toString position ++ "]"
  | .key name => "[" ++ Text.quoted name ++ "]"
  | .attr name => "." ++ name

/-- The steps from a value to a part of it, the outermost first. -/
abbrev Path := List Step

/-- The text of a path. -/
def Path.text (path : Path) : String := String.join (path.map Step.text)

end Retype
