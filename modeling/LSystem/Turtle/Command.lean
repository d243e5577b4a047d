import LSystem.Letter

/-! # Drawing commands

What the turtle is told to do, and the table from symbols to commands.
-/

namespace LSystem

inductive Command where
  | draw
  | move
  | turnLeft
  | turnRight
  | turnAround
  | push
  | pop
  | ignore
deriving DecidableEq, Repr

/-- Assignments of commands to symbols, the latest first. -/
abbrev CommandTable := List (String × Command)

namespace CommandTable

def assign (t : CommandTable) (symbol : String) (c : Command) : CommandTable := (symbol, c) :: t

def assignAll (t : CommandTable) (pairs : List (String × Command)) : CommandTable :=
  pairs.foldl (fun t (s, c) => t.assign s c) t

def get? (t : CommandTable) (symbol : String) : Option Command := t.lookup symbol

@[simp] theorem get?_nil (s : String) : get? [] s = none := rfl

def standardPairs : List (String × Command) :=
  [("F", .draw), ("f", .move), ("+", .turnLeft), ("-", .turnRight), ("|", .turnAround),
    ("[", .push), ("]", .pop)]

/-- The command of a letter. An edge draws unless its symbol has a command, and a node is always
ignored. -/
def command (t : CommandTable) : Letter → Command
  | .plain s => (t.get? s).getD .ignore
  | .edge s _ => (t.get? s).getD .draw
  | .node .. => .ignore

end CommandTable

end LSystem
