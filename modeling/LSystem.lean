import LSystem.Alphabet.Arrangements
import LSystem.Stored.Sketch
import LSystem.Json.Printer
import LSystem.Sketch.Rendering
import LSystem.Proofs.Turtle.Branch
import LSystem.Proofs.Turtle.Path
import LSystem.Proofs.Turtle.Tally
import LSystem.Proofs.Turtle.Diagnosis
import LSystem.Proofs.Alphabet.Arrangements
import LSystem.Proofs.Derivation.Generations
import LSystem.Proofs.Derivation.WordLimit
import LSystem.Proofs.Derivation.Closure
import LSystem.Proofs.Derivation.Choices
import LSystem.Proofs.Derivation.Composition
import LSystem.Proofs.Raster.LinePlaces
import LSystem.Proofs.Raster.LineTrace
import LSystem.Proofs.Raster.Brush
import LSystem.Proofs.Raster.Painting
import LSystem.Proofs.Word.Factoring
import LSystem.Proofs.Sketch.Picture
import LSystem.Proofs.Binary.Grid
import LSystem.Proofs.Binary.Rounding
import LSystem.Proofs.Binary.Packing
import LSystem.Proofs.Binary.Arithmetic
import LSystem.Proofs.Binary.Machine
import LSystem.Proofs.Random.Weights
import LSystem.Proofs.Random.Validation
import LSystem.Proofs.Random.Level
import LSystem.Proofs.Random.Choice
import LSystem.Proofs.Grammar.RuleSets
import LSystem.Proofs.Grammar.Adding
import LSystem.Proofs.Grammar.Policies
import LSystem.Proofs.Sketch.Building
import LSystem.Proofs.Binary.Single
import LSystem.Proofs.Binary.Remainder
import LSystem.Proofs.Turtle.Heading
import LSystem.Proofs.Raster.Clipping
import LSystem.Proofs.Stored.Record
import LSystem.Proofs.Stored.Shape
import LSystem.Proofs.Stored.Sketch
import LSystem.Proofs.Derivation.Concatenation
import LSystem.Proofs.Derivation.Growth
import LSystem.Proofs.Sketch.Reading
import LSystem.Proofs.Geometry.ExactClipping
import LSystem.Proofs.Raster.Visibility
import LSystem.Proofs.Raster.Fitting
import LSystem.Proofs.Raster.Endpoints
import LSystem.Proofs.Turtle.Resolution
import LSystem.Proofs.Derivation.Relevance
import LSystem.Proofs.Word.Separation
import LSystem.Proofs.Turtle.Turning
import LSystem.Proofs.Binary.Extended
import LSystem.Proofs.Turtle.Bounds
