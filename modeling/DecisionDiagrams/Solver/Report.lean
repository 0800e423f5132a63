import DecisionDiagrams.Report.Counters
import DecisionDiagrams.Solver.Stored

/-! What a solver shows: the names of variables and diagrams, and its counters as lines of text. A line is a marker,
the name, an equals sign and the value. The name is put together from parts with underscores between them, and then
rewritten; how this is done is left open. A name or value with line breaks in it makes several lines. -/

namespace DecisionDiagrams

namespace Log

def marker : String := "%%%mzn-stat:"

def closing : String := "%%%mzn-stat-end"

def name (parts : List String) : String := String.intercalate "_" parts

/-- A line without its break, of which a carriage return at the end is a part. The line is given in
reverse. -/
def unbroken : List Char → String
  | '\r' :: line => String.ofList line.reverse
  | line => String.ofList line.reverse

/-- Cuts a text at its line breaks, where `line` holds the present line so far in reverse. Behind
the last break there is no line unless it has characters. -/
def cut (line : List Char) : List Char → List String
  | [] => if line.isEmpty then [] else [String.ofList line.reverse]
  | '\n' :: rest => unbroken line :: cut [] rest
  | c :: rest => cut (c :: line) rest

def linesOf (text : String) : List String := cut [] text.toList

def write (rename : String → String) (name value : String) : List String :=
  linesOf (marker ++ " " ++ rename name ++ "=" ++ value ++ "\n")

def block (rename : String → String) (owner : String) (entries : List (String × Nat)) : List String :=
  entries.flatMap fun e => write rename (owner ++ "_" ++ e.1) (toString e.2)

end Log

def variableName (x : Var) : String := "x" ++ toString x

def propagatorName (i : Nat) : String := "PropagatorId(" ++ toString i ++ ")"

namespace StoredSolver

def log (rename : String → String) (s : StoredSolver) : List String :=
  let diagrams := (List.range s.diagrams.size).flatMap fun i =>
    match s.diagrams[i]? with
    | some d => Log.block rename (Log.name ["DecisionDiagram", "number", toString i]) d.total.entries
    | none => []
  Log.block rename "solver" s.counters.entries ++ diagrams ++ [Log.closing]

end StoredSolver
end DecisionDiagrams
