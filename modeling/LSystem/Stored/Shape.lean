import LSystem.Stored.Record
import LSystem.Raster.Canvas
import LSystem.Raster.Transform
import LSystem.Turtle.Command
import LSystem.Turtle.State

/-! # Stored letters and shapes -/

namespace LSystem

instance : Stored (Point Float32) where
  toJson p := .array [toJson p.x, toJson p.y]
  ofJson?
    | .array [x, y] => do return ⟨← ofJson? x, ← ofJson? y⟩
    | _ => none

instance : Stored Color where
  toJson c := .array [toJson c.red, toJson c.green, toJson c.blue]
  ofJson?
    | .array [r, g, b] => do return ⟨← ofJson? r, ← ofJson? g, ← ofJson? b⟩
    | _ => none

def Hand.name : Hand → String
  | .left => "Left"
  | .right => "Right"

instance : Stored Hand where
  toJson h := .string h.name
  ofJson? := named? ([Hand.left, .right].map fun h => (h.name, h))

def Command.name : Command → String
  | .draw => "Draw"
  | .move => "Move"
  | .turnLeft => "TurnLeft"
  | .turnRight => "TurnRight"
  | .turnAround => "TurnAround"
  | .push => "Push"
  | .pop => "Pop"
  | .ignore => "Ignore"

def Command.all : List Command :=
  [.draw, .move, .turnLeft, .turnRight, .turnAround, .push, .pop, .ignore]

instance : Stored Command where
  toJson c := .string c.name
  ofJson? := named? (Command.all.map fun c => (c.name, c))

instance : Stored Anchor where
  toJson p := .record [("point", toJson p.point), ("direction", toJson p.direction)]
  ofJson? v := do
    let f ← Fields.of? ["point", "direction"] v
    return ⟨← f.required "point", ← f.required "direction"⟩

/-- A letter is stored as an object with the name of its kind as the only key. -/
instance : Stored Letter where
  toJson
    | .plain s => .record [("Symbol", toJson s)]
    | .edge s hand => .record [("Edge", .record [("symbol", toJson s), ("kind", toJson hand)])]
    | .node s entry exit frame =>
      .record [("Node", .record [("symbol", toJson s), ("entry", toJson entry),
        ("exit", toJson exit), ("frame", toJson frame)])]
  ofJson?
    | .object [(some "Symbol", v)] => Letter.plain <$> ofJson? v
    | .object [(some "Edge", v)] => do
      let f ← Fields.of? ["symbol", "kind"] v
      return .edge (← f.required "symbol") (← f.required "kind")
    | .object [(some "Node", v)] => do
      let f ← Fields.of? ["symbol", "entry", "exit", "frame"] v
      return .node (← f.required "symbol") (← f.required "entry") (← f.required "exit")
        (← f.required "frame")
    | _ => none

instance : Stored Turtle where
  toJson t := .record [("position", toJson t.position), ("heading", toJson t.heading),
    ("pen_down", toJson t.penDown)]
  ofJson? v := do
    let f ← Fields.of? ["position", "heading", "pen_down"] v
    return ⟨← f.required "position", ← f.required "heading", ← f.required "pen_down"⟩

instance : Stored Segment where
  toJson s := .record [("from", toJson s.start), ("to", toJson s.stop), ("drawn", toJson s.drawn)]
  ofJson? v := do
    let f ← Fields.of? ["from", "to", "drawn"] v
    return ⟨← f.required "from", ← f.required "to", ← f.required "drawn"⟩

instance : Stored (Transform Float32) where
  toJson t := .record [("origin", toJson t.origin), ("scale", toJson t.scale),
    ("flip_y", toJson t.flipY)]
  ofJson? v := do
    let f ← Fields.of? ["origin", "scale", "flip_y"] v
    return ⟨← f.required "origin", ← f.required "scale", ← f.required "flip_y"⟩

end LSystem
