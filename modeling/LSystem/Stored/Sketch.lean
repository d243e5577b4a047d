import LSystem.Stored.Shape
import LSystem.Json.Parser
import LSystem.Sketch.Basic

/-! # Stored sketches

A sketch may leave out any field of its own, of its grammar, of its rules and of its picture
settings; each takes its default.
-/

namespace LSystem

def AlphabetPolicy.name : AlphabetPolicy → String
  | .strict => "strict"
  | .inferred => "inferred"

instance : Stored AlphabetPolicy where
  toJson p := .string p.name
  ofJson? := named? ([AlphabetPolicy.strict, .inferred].map fun p => (p.name, p))

instance : Stored WeightedText where
  toJson w := .record [("word", toJson w.word), ("weight", toJson w.weight)]
  ofJson? v := do
    let f ← Fields.of? ["word", "weight"] v
    return ⟨← f.required "word", ← f.required "weight"⟩

instance : Stored RuleText where
  toJson r := .record [("predecessor", toJson r.predecessor), ("successor", toJson r.successor),
    ("successors", toJson r.successors)]
  ofJson? v := do
    let f ← Fields.of? ["predecessor", "successor", "successors"] v
    let d : RuleText := {}
    return {
      predecessor := ← f.optional "predecessor" d.predecessor
      successor := ← f.optional "successor" d.successor
      successors := ← f.optional "successors" d.successors }

instance : Stored GrammarText where
  toJson g := .record [("alphabet", toJson g.alphabet), ("axiom", toJson g.start),
    ("rules", toJson g.rules), ("policy", toJson g.policy), ("max_word_len", toJson g.wordLimit)]
  ofJson? v := do
    let f ← Fields.of? ["alphabet", "axiom", "rules", "policy", "max_word_len"] v
    let d : GrammarText := {}
    return {
      alphabet := ← f.optional "alphabet" d.alphabet
      start := ← f.optional "axiom" d.start
      rules := ← f.optional "rules" d.rules
      policy := ← f.optional "policy" d.policy
      wordLimit := ← f.optional "max_word_len" d.wordLimit }

instance : Stored RenderSettings where
  toJson s := .record [("depth", toJson s.depth), ("seed", toJson s.seed),
    ("step_length", toJson s.stepLength), ("turn_angle", toJson s.turnAngle),
    ("start", toJson s.start), ("width", toJson s.width), ("height", toJson s.height),
    ("background", toJson s.background), ("line_color", toJson s.lineColor),
    ("line_width", toJson s.lineWidth), ("fit", toJson s.fit), ("margin", toJson s.margin)]
  ofJson? v := do
    let f ← Fields.of? ["depth", "seed", "step_length", "turn_angle", "start", "width", "height",
      "background", "line_color", "line_width", "fit", "margin"] v
    let d : RenderSettings := {}
    return {
      depth := ← f.optional "depth" d.depth
      seed := ← f.optional "seed" d.seed
      stepLength := ← f.optional "step_length" d.stepLength
      turnAngle := ← f.optional "turn_angle" d.turnAngle
      start := ← f.optional "start" d.start
      width := ← f.optional "width" d.width
      height := ← f.optional "height" d.height
      background := ← f.optional "background" d.background
      lineColor := ← f.optional "line_color" d.lineColor
      lineWidth := ← f.optional "line_width" d.lineWidth
      fit := ← f.optional "fit" d.fit
      margin := ← f.optional "margin" d.margin }

instance : Stored SketchText where
  toJson s := .record [("grammar", toJson s.grammar), ("render", toJson s.render)]
  ofJson? v := do
    let f ← Fields.of? ["grammar", "render"] v
    let d : SketchText := {}
    return {
      grammar := ← f.optional "grammar" d.grammar
      render := ← f.optional "render" d.render }

instance : Stored Report where
  toJson r := .record [("letters", toJson r.letters), ("segments", toJson r.segments),
    ("drawn", toJson r.drawn), ("unmatched_pops", toJson r.unmatchedPops),
    ("open_branches", toJson r.openBranches)]
  ofJson? v := do
    let f ← Fields.of? ["letters", "segments", "drawn", "unmatched_pops", "open_branches"] v
    return {
      letters := ← f.required "letters"
      segments := ← f.required "segments"
      drawn := ← f.required "drawn"
      unmatchedPops := ← f.required "unmatched_pops"
      openBranches := ← f.required "open_branches" }

def readDocument? {α : Type} [Stored α] (text : String) : Option α :=
  (Json.parse? text).bind ofJson?

end LSystem
