import LSystem.Decimal.Layout
import LSystem.Text.Quoted

/-! # Errors

What can go wrong between a document and a picture. The causes are values; their wording is in the
`message` functions and nowhere else.
-/

namespace LSystem

inductive RuleFault where
  | noSuccessors
  | badWeight (weight : Float)
  | zeroWeights
  | repeatedPredecessor
  | longPredecessor
  | twoSuccessors
  | missingSuccessor
deriving DecidableEq

def RuleFault.message : RuleFault → String
  | noSuccessors => "no successors given"
  | badWeight w => "weight " ++ plainDouble w ++ " is negative or not finite"
  | zeroWeights => "weights sum to zero"
  | repeatedPredecessor => "duplicate predecessor"
  | longPredecessor => "predecessor must be a single letter"
  | twoSuccessors => "both \x60successor\x60 and \x60successors\x60 given"
  | missingSuccessor => "no successor given"

inductive SymbolPlace where
  | startWord
  | predecessor
  | successorOf (predecessor : String)
deriving DecidableEq

def SymbolPlace.message : SymbolPlace → String
  | startWord => "axiom"
  | predecessor => "rule predecessors"
  | successorOf p => "successor of \x60" ++ p ++ "\x60"

inductive ParameterFault where
  | stepLength (value : Float32)
  | turnAngle (value : Float32)
  | emptyCanvas (width height : Nat)
  | longSide (limit width height : Nat)
  | lineWidth (limit value : Nat)
  | margin (value : Float32)
deriving DecidableEq

def ParameterFault.message : ParameterFault → String
  | stepLength x => "step_length must be positive, got " ++ plainSingle x
  | turnAngle x => "turn_angle must be finite, got " ++ plainSingle x
  | emptyCanvas w h => "canvas must be non-empty, got " ++ toString w ++ "x" ++ toString h
  | longSide limit w h =>
    "canvas sides are capped at " ++ toString limit ++ ", got " ++ toString w ++ "x" ++ toString h
  | lineWidth limit n => "line_width is capped at " ++ toString limit ++ ", got " ++ toString n
  | margin x => "margin must be non-negative, got " ++ plainSingle x

inductive WriteFault where
  | noFormat
  | unknownFormat (extension : String)
  | nulInPath
  | longName
  | missingFolder
  | fileAsFolder
  | folderAsFile
  | badDimensions
deriving DecidableEq

def WriteFault.message : WriteFault → String
  | noFormat => "The image format could not be determined"
  | unknownFormat e =>
    "The file extension \x60." ++ quoted e ++ "\x60 was not recognized as an image format"
  | nulInPath => "file name contained an unexpected NUL byte"
  | longName => "File name too long (os error 36)"
  | missingFolder => "No such file or directory (os error 2)"
  | fileAsFolder => "Not a directory (os error 20)"
  | folderAsFile => "Is a directory (os error 21)"
  | badDimensions => "The Image's dimensions are either too small or too large"

/-- A number that leaves the range of its type, which ends a run without an answer. -/
inductive Overflow where
  | weights
  | depth
  | canvas
  | coordinate
deriving DecidableEq

inductive SketchError where
  | invalidRule (predecessor : String) (fault : RuleFault)
  | unknownSymbol (symbol : String) (place : SymbolPlace)
  | unbalancedBracket (index : Nat)
  | unclosedBranch (depth : Nat)
  | invalidParameter (fault : ParameterFault)
  | wordLimitExceeded (generation length limit : Nat)
  | notWritten (path : String) (fault : WriteFault)
  | overflow (cause : Overflow)
deriving DecidableEq

def SketchError.message : SketchError → String
  | invalidRule p fault => "invalid rule for \x60" ++ p ++ "\x60: " ++ fault.message
  | unknownSymbol s place => "unknown symbol \x60" ++ s ++ "\x60 in " ++ place.message
  | unbalancedBracket i => "unbalanced \x60]\x60 at letter " ++ toString i
  | unclosedBranch n => toString n ++ " branch(es) left open at end of word"
  | invalidParameter fault => "invalid parameter: " ++ fault.message
  | wordLimitExceeded g n limit =>
    "generation " ++ toString g ++ " produced " ++ toString n ++ " letters (limit " ++
      toString limit ++ ")"
  | notWritten path fault => "failed to write image to " ++ path ++ ": " ++ fault.message
  | overflow .weights => "the sum of the weights overflows"
  | overflow .depth => "the number of generations overflows"
  | overflow .canvas => "the size of the canvas overflows"
  | overflow .coordinate => "a pixel coordinate overflows"

end LSystem
