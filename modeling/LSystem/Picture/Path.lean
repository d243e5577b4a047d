/-! # Paths

Relative paths with `/` between names. Empty names and `.` stay where they are, `..` leads out of a
folder. Paths and names are limited in the bytes of their UTF-8 form.
-/

namespace LSystem.Path

def pieces : List Char → List (List Char)
  | [] => [[]]
  | c :: cs =>
    match c == '/', pieces cs with
    | true, ps => [] :: ps
    | false, p :: ps => (c :: p) :: ps
    | false, [] => [[c]]

def names (path : String) : List String :=
  ((pieces path.toList).filter (· ≠ [])).map String.ofList

def maxPathBytes : Nat := 4095

def maxNameBytes : Nat := 255

def fileName? (path : String) : Option String :=
  match ((names path).filter (· ≠ ".")).getLast? with
  | some ".." => none
  | last => last

/-- What follows the last dot of the file name, provided that something is before that dot. -/
def extension? (path : String) : Option String := do
  let name ← fileName? path
  let reversed := name.toList.reverse
  match reversed.dropWhile (· ≠ '.') with
  | _ :: _ :: _ => some (String.ofList (reversed.takeWhile (· ≠ '.')).reverse)
  | _ => none

example : extension? "x.y.bmp" = some "bmp" := by decide +kernel
example : extension? "a." = some "" := by decide +kernel
example : extension? ".bmp" = none ∧ extension? "dir.bmp/x" = none := by decide +kernel

end LSystem.Path
