import LogicSchematic.GateSet
import LogicSchematic.Layout.Constants
import LogicSchematic.Synthesis

/-!
# Configurations

What a run may be told: the gates it may use, how it reads, how deep identities may nest, and the
distances on the schematic.
-/
namespace LogicSchematic

/-- The configuration of a run. -/
structure Config (α : Type) where
  gates : GateSet
  /-- Whether defects of the equations are errors. -/
  strict : Bool
  /-- How deep identities may nest. -/
  maxDepth : Nat
  placement : PlacementConstants α
  routing : RoutingConstants α

namespace Config

/-- The usual configuration. -/
def standard {α : Type} [Scalar α] : Config α where
  gates := GateSet.standard
  strict := false
  maxDepth := Synthesizer.standardDepth
  placement := PlacementConstants.standard
  routing := RoutingConstants.standard

/-- The synthesizer of a configuration. -/
def synthesizer {α : Type} (c : Config α) : Synthesizer := ⟨c.gates, c.maxDepth⟩

end Config

end LogicSchematic
