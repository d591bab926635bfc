import Mathlib

/-!
# Path texts

A path as the operating system takes it is a text; its components are what a walk along it does.
Repeated separators and inner `.` components are dropped, a leading `.` is kept.
-/

namespace Ocx

inductive Component
  /-- The root of the file system. -/
  | rootDir
  | curDir
  | parentDir
  | normal (name : String)
deriving DecidableEq, Repr

/-- The component a piece between separators stands for. -/
def Component.ofPiece : List Char → Option Component
  | [] => none
  | ['.'] => none
  | ['.', '.'] => some .parentDir
  | name => some (.normal (String.ofList name))

def components (path : String) : List Component :=
  let pieces := path.toList.splitOn '/'
  let lead :=
    if path.toList.head? = some '/' then [Component.rootDir]
    else if pieces.head? = some ['.'] then [Component.curDir]
    else []
  lead ++ pieces.filterMap Component.ofPiece

end Ocx
