import LogicSchematic.Decimal.Text
import LogicSchematic.Json.Writer
import LogicSchematic.Schematic

/-!
# Schematics in JSON

A schematic is written as its nodes and its wires. The path of a wire is a text, a move to its start
and lines to its other corners: `M 0 0 L 5 0 L 5 7 L 9 7`.
-/
namespace LogicSchematic

/-- The coordinates of a point, with a space between. -/
def Point.text (p : Point Float) : String :=
  plainNumber p.x ++ " " ++ plainNumber p.y

/-- The text of a path. -/
def WirePath.text (p : WirePath Float) : String :=
  "M " ++ " L ".intercalate (p.points.map Point.text)

/-- The document of a node; a node without label has no such member. -/
def PositionedNode.json (n : PositionedNode Float) : Json.Indented :=
  let label := match n.label with
    | some l => [("label", Json.inLine (Json.quote l))]
    | none => []
  Json.indentedObject ([
    ("id", Json.inLine (Nat.repr n.id)),
    ("kind", Json.inLine (Json.quote n.kind.name)),
    ("level", Json.inLine (Nat.repr n.level)),
    ("x", Json.inLine (jsonNumber n.position.x)),
    ("y", Json.inLine (jsonNumber n.position.y))] ++ label)

/-- The document of a wire. -/
def RoutedWire.json (w : RoutedWire Float) : Json.Indented :=
  Json.indentedObject [
    ("id", Json.inLine (Nat.repr w.id)),
    ("from", Json.inLine (Nat.repr w.wire.source)),
    ("from_index", Json.inLine (Nat.repr w.wire.sourcePin)),
    ("to", Json.inLine (Nat.repr w.wire.target)),
    ("to_index", Json.inLine (Nat.repr w.wire.targetPin)),
    ("path", Json.inLine (Json.quote w.path.text))]

/-- The document of a schematic, with a line feed at its end. -/
def Schematic.json (s : Schematic Float) : String :=
  let nodes := Json.indentedList (s.nodes.map PositionedNode.json)
  let wires := Json.indentedList (s.wires.map RoutedWire.json)
  Json.indentedObject [("nodes", nodes), ("wires", wires)] 0 ++ "\n"

end LogicSchematic
