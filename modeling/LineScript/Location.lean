/-!
# Places in a script
-/

namespace LineScript

/-- A place in a named source. Lines and columns count from one; zero says that it is unknown. -/
structure Location where
  file : String
  line : Int
  column : Int
deriving DecidableEq, Inhabited

namespace Location

/-- The place of what comes from no source. -/
def unknown : Location := ⟨"<unknown>", 0, 0⟩

/-- The text of a place in messages. -/
def text (place : Location) : String :=
  s!"{place.file}:{place.line}:{place.column}"

end Location

end LineScript
