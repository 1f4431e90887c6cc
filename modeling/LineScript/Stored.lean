import LineScript.Failure
import LineScript.Text.Lines

/-!
# What is stored at a path

A source is read from a file as UTF-8, whatever its line ends are. A directory cannot be read.
-/

namespace LineScript

/-- What a path names. -/
inductive Stored where
  | file (octets : List UInt8)
  | directory

namespace Stored

/-- A path as messages show it: without empty parts and parts that stay where they are. -/
def shownPath (path : String) : String :=
  let parts := (path.splitOn "/").filter fun part => !part.isEmpty && part ≠ "."
  let relative := "/".intercalate parts
  let slashes := (path.toList.takeWhile (· = '/')).length
  if slashes = 0 then if parts.isEmpty then "." else relative
  else (if slashes = 2 then "//" else "/") ++ relative

/-- The text of a file, with line feeds for its line ends. -/
def fileText (octets : List UInt8) : Except Failure String :=
  match Text.Utf8.read octets with
  | .ok text => .ok (String.ofList (Text.unifyNewlines text))
  | .error fault => .error (.undecodable fault)

/-- The text of what is stored at a path. -/
def text (path : String) : Stored → Except Failure String
  | .file octets => fileText octets
  | .directory => .error (.directorySource (shownPath path))

end Stored

end LineScript
