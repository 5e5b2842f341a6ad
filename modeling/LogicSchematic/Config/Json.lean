import LogicSchematic.Config
import LogicSchematic.Decimal.Text
import LogicSchematic.Json.Numeral
import LogicSchematic.Json.Writer

/-!
# Configurations in JSON

A configuration is an object, or a list of the values of its fields in order; so are the constants
of placement and routing in it. Fields that are not given have their usual values and unknown names
are passed over, but a field given twice is refused, and so are more values than fields.
-/
namespace LogicSchematic

namespace Json

/-- Whether a string is a given text. -/
def isText (q : Quoted) (text : String) : Bool :=
  stringText? q == some text

/-- The values that an object gives for a field, by its name. -/
def valuesOf (name : String) (names : List String) (values : List Json) : List Json :=
  (names.zip values).filterMap fun (n, v) => if n = name then some v else none

/-- The values of the fields of a structure, where given. -/
def fields? (fieldNames : List String) : Json → Option (List (Option Json))
  | .object names values => do
    let names ← names.mapM stringText?
    fieldNames.mapM fun name =>
      match valuesOf name names values with
      | [] => some none
      | [v] => some (some v)
      | _ => none
  | .array items =>
    if items.length ≤ fieldNames.length then
      some (items.map some ++ List.replicate (fieldNames.length - items.length) none)
    else none
  | _ => none

/-- The value of a field: as given, or the usual one. -/
def fieldOr {β : Type} (usual : β) (read : Json → Option β) (field : Option Json) : Option β :=
  match field with
  | some j => read j
  | none => some usual

/-- A truth value. -/
def bool? : Json → Option Bool
  | .bool b => some b
  | _ => none

/-- A natural number of 64 bits. -/
def nat? : Json → Option Nat
  | .number n => n.nat?
  | _ => none

/-- A floating-point number. -/
def float? : Json → Option Float
  | .number n => n.float?
  | _ => none

/-- A gate, by its name: a string, or an object with nothing but the name and a null. -/
def gate? : Json → Option Gate
  | .string q => Gate.all.find? fun g => isText q g.name
  | .object [q] [.null] => Gate.all.find? fun g => isText q g.name
  | _ => none

/-- A set of gates, as the list of its members. -/
def gateSet? : Json → Option GateSet
  | .array items => (items.mapM gate?).map GateSet.ofList
  | _ => none

end Json

namespace GateSet

/-- Reads a set of gates from a document. -/
def ofJson? (bytes : List UInt8) : Option GateSet :=
  (Json.parse? bytes).bind Json.gateSet?

/-- The document of a set of gates. -/
def json (s : GateSet) : String :=
  Json.compactList (s.toList.map fun g => Json.quote g.name)

end GateSet

namespace PlacementConstants

/-- The names of the constants, in order. -/
def fieldNames : List String :=
  ["margin", "level_width", "input_top", "input_spacing", "min_gap", "tie_threshold", "default_y"]

/-- The constants, in order. -/
def toList {α : Type} (c : PlacementConstants α) : List α :=
  [c.margin, c.levelWidth, c.inputTop, c.inputSpacing, c.minGap, c.tieThreshold, c.defaultY]

/-- Reads the constants of placement. -/
def ofJson? (j : Json) : Option (PlacementConstants Float) := do
  let given ← j.fields? fieldNames
  let values ← (given.zip standard.toList).mapM fun (field, usual) =>
    Json.fieldOr usual Json.float? field
  match values with
  | [margin, levelWidth, inputTop, inputSpacing, minGap, tieThreshold, defaultY] =>
    return ⟨margin, levelWidth, inputTop, inputSpacing, minGap, tieThreshold, defaultY⟩
  | _ => none

/-- The document of the constants of placement. -/
def json (c : PlacementConstants Float) : String :=
  Json.compactObject (fieldNames.zip (c.toList.map jsonNumber))

end PlacementConstants

namespace RoutingConstants

/-- The names of the constants, in order. -/
def fieldNames : List String :=
  ["level_width", "long_span_ratio", "gutter_ratio", "lane_count", "lane_spacing", "clearance"]

/-- Reads the constants of routing. -/
def ofJson? (j : Json) : Option (RoutingConstants Float) := do
  let usual : RoutingConstants Float := standard
  match ← j.fields? fieldNames with
  | [levelWidth, longSpanRatio, gutterRatio, laneCount, laneSpacing, clearance] =>
    let levelWidth ← Json.fieldOr usual.levelWidth Json.float? levelWidth
    let longSpanRatio ← Json.fieldOr usual.longSpanRatio Json.float? longSpanRatio
    let gutterRatio ← Json.fieldOr usual.gutterRatio Json.float? gutterRatio
    let laneCount ← Json.fieldOr usual.laneCount Json.nat? laneCount
    let laneSpacing ← Json.fieldOr usual.laneSpacing Json.float? laneSpacing
    let clearance ← Json.fieldOr usual.clearance Json.float? clearance
    return ⟨levelWidth, longSpanRatio, gutterRatio, laneCount, laneSpacing, clearance⟩
  | _ => none

/-- The document of the constants of routing. -/
def json (c : RoutingConstants Float) : String :=
  Json.compactObject (fieldNames.zip [
    jsonNumber c.levelWidth, jsonNumber c.longSpanRatio, jsonNumber c.gutterRatio,
    Nat.repr c.laneCount, jsonNumber c.laneSpacing, jsonNumber c.clearance])

end RoutingConstants

namespace Config

/-- The names of the fields, in order. -/
def fieldNames : List String := ["gates", "strict", "max_depth", "layout", "route"]

/-- Reads a configuration. -/
def ofJson? (bytes : List UInt8) : Option (Config Float) := do
  let usual : Config Float := standard
  match ← (← Json.parse? bytes).fields? fieldNames with
  | [gates, strict, maxDepth, placement, routing] =>
    let gates ← Json.fieldOr usual.gates Json.gateSet? gates
    let strict ← Json.fieldOr usual.strict Json.bool? strict
    let maxDepth ← Json.fieldOr usual.maxDepth Json.nat? maxDepth
    let placement ← Json.fieldOr usual.placement PlacementConstants.ofJson? placement
    let routing ← Json.fieldOr usual.routing RoutingConstants.ofJson? routing
    return ⟨gates, strict, maxDepth, placement, routing⟩
  | _ => none

/-- The document of a configuration. -/
def json (c : Config Float) : String :=
  Json.compactObject (fieldNames.zip [
    c.gates.json, Json.boolText c.strict, Nat.repr c.maxDepth, c.placement.json, c.routing.json])

end Config

end LogicSchematic
