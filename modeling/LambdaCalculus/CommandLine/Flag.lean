/-!
# Flags

The flags of the command line with their spellings, and the texts that explain them. A flag has a
long spelling, all but one a short one too, and some take a value.
-/

namespace LambdaCalculus.CommandLine

/-- What can be asked for by a flag. -/
inductive Flag where
  | help | file | maxSteps | verbose
deriving DecidableEq

namespace Flag

def takesValue : Flag → Bool
  | file => true
  | maxSteps => true
  | _ => false

/-- A flag with all its spellings, as messages name it. -/
def title : Flag → String
  | help => "-h/--help"
  | file => "-f/--file"
  | maxSteps => "--max-steps"
  | verbose => "-v/--verbose"

/-- The long spellings, in the order in which they are offered. -/
def longSpellings : List (String × Flag) :=
  [("--help", help), ("--file", file), ("--max-steps", maxSteps), ("--verbose", verbose)]

def letters : List (Char × Flag) := [('h', help), ('f', file), ('v', verbose)]

end Flag

def usageLine : String := "usage: lcore [-h] [-f FILE] [--max-steps MAX_STEPS] [-v] [terms ...]\n"

def helpText : String :=
  usageLine ++
  "\nUntyped lambda calculus interpreter\n" ++
  "\npositional arguments:\n" ++
  "  terms                 λ-terms to reduce\n" ++
  "\noptions:\n" ++
  "  -h, --help            show this help message and exit\n" ++
  "  -f FILE, --file FILE  file with one λ-term per line to reduce\n" ++
  "  --max-steps MAX_STEPS\n" ++
  "                        β-steps allowed per term (default: 10000, 0 for no\n" ++
  "                        limit)\n" ++
  "  -v, --verbose         print every β-step\n"

end LambdaCalculus.CommandLine
