/-!
# Lines in progress

A backtrace remembers for each path the line that is being worked on, in the order in which the
paths came up first. A line that is done leaves its path in place, so that a later line of the same
path takes the same place again. Only lines that are not done and not empty are shown.
-/

namespace LambdaCalculus

structure SourceLine where
  text : String
  number : Int
deriving DecidableEq

/-- A path and its line in progress, if there is one. -/
structure Place where
  path : String
  line : Option SourceLine
deriving DecidableEq

/-- The paths that came up so far. -/
abbrev Backtrace := List Place

namespace Backtrace

/-- Sets the line in progress of a path. A new path comes last. -/
def set (path : String) (line : Option SourceLine) : Backtrace → Backtrace
  | [] => [⟨path, line⟩]
  | place :: rest => if place.path = path then ⟨path, line⟩ :: rest else place :: set path line rest

def live (trace : Backtrace) : List (String × SourceLine) :=
  trace.filterMap fun place =>
    match place.line with
    | some line => if line.text.isEmpty then none else some (place.path, line)
    | none => none

end Backtrace

end LambdaCalculus
