import LogicSchematic.CommandLine
import LogicSchematic.Files.Directory
import LogicSchematic.Main
import LogicSchematic.Session
import LogicSchematic.Proofs.Expr.Meaning
import LogicSchematic.Proofs.Expr.Shape
import LogicSchematic.Proofs.Mapping.Unfold
import LogicSchematic.Proofs.Mapping.Arena
import LogicSchematic.Proofs.Mapping.Finish
import LogicSchematic.Proofs.Synthesis.Meaning
import LogicSchematic.Proofs.Synthesis.Circuit
import LogicSchematic.Proofs.Equivalence
import LogicSchematic.Proofs.Synthesis.Outcome
import LogicSchematic.Proofs.Synthesis.Universal
import LogicSchematic.Proofs.Expr.Parsed
import LogicSchematic.Proofs.Text.UpperCase
import LogicSchematic.Proofs.Token
import LogicSchematic.Proofs.Netlist.Check
import LogicSchematic.Proofs.Netlist.Growth
import LogicSchematic.Proofs.Simulation
import LogicSchematic.Proofs.Netlist.Builder
import LogicSchematic.Proofs.Netlist.Meaning
import LogicSchematic.Proofs.Generation
import LogicSchematic.Proofs.Expr.Grammar
import LogicSchematic.Proofs.Expr.Leniency
import LogicSchematic.Proofs.Expr.RoundTrip
import LogicSchematic.Proofs.Netlist.Composition
import LogicSchematic.Proofs.Netlist.Bench
import LogicSchematic.Proofs.Netlist.Signals
import LogicSchematic.Proofs.Synthesis.Sharing
import LogicSchematic.Proofs.Synthesis.Size
import LogicSchematic.Proofs.Expr.Boolean
import LogicSchematic.Proofs.Simulation.Bits
import LogicSchematic.Proofs.Simulation.Patterns
import LogicSchematic.Proofs.Netlist.Built
import LogicSchematic.Proofs.Netlist.Verdict
import LogicSchematic.Proofs.Netlist.Consistency
import LogicSchematic.Proofs.Netlist.Building
import LogicSchematic.Proofs.Mapping.Checked
import LogicSchematic.Proofs.Layout.Checked
import LogicSchematic.Proofs.Synthesis.Rewriting
import LogicSchematic.Proofs.Synthesis.Monotone
import LogicSchematic.Proofs.Netlist.Levels
import LogicSchematic.Proofs.Netlist.Structure
import LogicSchematic.Proofs.Safety
import LogicSchematic.Proofs.Netlist.Operations
import LogicSchematic.Proofs.Netlist.Incremental
import LogicSchematic.Proofs.Netlist.Bench.Circuit
import LogicSchematic.Proofs.Netlist.Bench.Description
import LogicSchematic.Proofs.Netlist.Bench.Names
import LogicSchematic.Proofs.Simulation.Values
import LogicSchematic.Proofs.Layout.Columns
import LogicSchematic.Proofs.Layout.Exact
import LogicSchematic.Proofs.Layout.Wires
import LogicSchematic.Proofs.Layout.Sorting
import LogicSchematic.Proofs.Layout.Heights
import LogicSchematic.Proofs.Layout.Bends
import LogicSchematic.Proofs.Mapping.Parts
import LogicSchematic.Proofs.Synthesis.Remapping
import LogicSchematic.Proofs.Generation.Report
import LogicSchematic.Proofs.Session
import LogicSchematic.Proofs.Simulation.Rounds
import LogicSchematic.Proofs.Expr.Flattening
import LogicSchematic.Proofs.Expr.Equivalence
import LogicSchematic.Proofs.Token.Canonical
import LogicSchematic.Proofs.Mapping.Tables
import LogicSchematic.Proofs.Mapping.Collection
