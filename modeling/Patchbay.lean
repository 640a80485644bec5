import Patchbay.Proofs.Compilation.Canonical
import Patchbay.Arithmetic
import Patchbay.Building.Basic
import Patchbay.Building.Export
import Patchbay.Building.Run
import Patchbay.Catalog.Basic
import Patchbay.Catalog.Builtin
import Patchbay.Catalog.UnitClass
import Patchbay.Checking.Basic
import Patchbay.Checking.Run
import Patchbay.Command.Arguments
import Patchbay.Command.Basic
import Patchbay.Command.Run
import Patchbay.Compilation
import Patchbay.Decimal.Basic
import Patchbay.Decimal.Reader
import Patchbay.Decimal.Shortest
import Patchbay.Decimal.Text
import Patchbay.Diagnostic
import Patchbay.Engine.Basic
import Patchbay.Engine.Extent
import Patchbay.Engine.Performance
import Patchbay.Engine.Voices
import Patchbay.Engine.Wiring
import Patchbay.Graph.Basic
import Patchbay.Graph.Json
import Patchbay.Graph.Schedule
import Patchbay.Json.Basic
import Patchbay.Json.Number
import Patchbay.Json.Printer
import Patchbay.Json.Reader
import Patchbay.Json.Record
import Patchbay.Library.Basic
import Patchbay.Library.Standard
import Patchbay.Main
import Patchbay.Program.Basic
import Patchbay.Program.Fault
import Patchbay.Program.Reader
import Patchbay.Program.Step
import Patchbay.Quantity
import Patchbay.Recording
import Patchbay.Settings.Basic
import Patchbay.Settings.Yaml
import Patchbay.SortedMap
import Patchbay.Table
import Patchbay.Text.Blank
import Patchbay.Text.Hex
import Patchbay.Text.Quoted
import Patchbay.Text.Shown
import Patchbay.Token.Basic
import Patchbay.Token.Scan
import Patchbay.Unit.Basic
import Patchbay.Unit.Envelope
import Patchbay.Unit.Filter
import Patchbay.Unit.Kind
import Patchbay.Unit.Noise
import Patchbay.Unit.Oscillator
import Patchbay.Unit.Tape
import Patchbay.Yaml.Basic
import Patchbay.Yaml.Block
import Patchbay.Yaml.Character
import Patchbay.Yaml.Label
import Patchbay.Yaml.Reader
import Patchbay.Yaml.Scalar
import Patchbay.Yaml.Token
import Patchbay.Proofs.Building.Valid
import Patchbay.Proofs.Graph.Schedule
import Patchbay.Proofs.Graph.Search
import Patchbay.Proofs.SortedMap
import Patchbay.Proofs.Building.Invariant
import Patchbay.Proofs.Building.Built
import Patchbay.Proofs.Building.Export
import Patchbay.Proofs.Building.WellFormed
import Patchbay.Proofs.Program.Chains
import Patchbay.Proofs.Program.Context
import Patchbay.Proofs.Program.Directions
import Patchbay.Proofs.Program.ErrorFree
import Patchbay.Proofs.Checking.Typing
import Patchbay.Proofs.Checking.Visits
import Patchbay.Proofs.Building.Frame
import Patchbay.Proofs.Building.Soundness
import Patchbay.Proofs.Building.Faults
import Patchbay.Proofs.Building.Changes
import Patchbay.Proofs.Building.Sums
import Patchbay.Proofs.Meaning.Basic
import Patchbay.Proofs.Meaning.Operators
import Patchbay.Proofs.Meaning.Lowering
import Patchbay.Proofs.Meaning.Preserved
import Patchbay.Proofs.Engine.Numbering
import Patchbay.Proofs.Engine.Reference
import Patchbay.Proofs.Engine.Places
import Patchbay.Proofs.Engine.Wired
import Patchbay.Proofs.Engine.Represents
import Patchbay.Proofs.Engine.Simulation
import Patchbay.Proofs.Engine.Refinement
import Patchbay.Proofs.Engine.Allocation
import Patchbay.Proofs.Engine.Freshness
import Patchbay.Proofs.Engine.Notes
import Patchbay.Proofs.Engine.Events
import Patchbay.Proofs.Program.RoundTrip
import Patchbay.Proofs.Decimal.Finite
import Patchbay.Proofs.Json.Numbers
import Patchbay.Proofs.Json.RoundTrip
import Patchbay.Proofs.Json.Record
import Patchbay.Proofs.Graph.RoundTrip
import Patchbay.Proofs.Compilation.Chains
import Patchbay.Proofs.Compilation.Options
import Patchbay.Proofs.Compilation.Layout
import Patchbay.Proofs.Compilation.RoundTrip
import Patchbay.Proofs.Program.Nesting
import Patchbay.Proofs.Token.Literal
import Patchbay.Proofs.Token.Coverage
import Patchbay.Proofs.Checking.Definitions
import Patchbay.Proofs.Checking.Directions
import Patchbay.Proofs.Checking.Distinct
import Patchbay.Proofs.Building.Bindings
import Patchbay.Proofs.Engine.Frame
import Patchbay.Proofs.Engine.Gaps
import Patchbay.Proofs.Engine.Isolation
import Patchbay.Proofs.Engine.Knobs
import Patchbay.Proofs.Building.Scopes
import Patchbay.Proofs.Building.Crossings
import Patchbay.Proofs.Engine.Guarded
import Patchbay.Proofs.Engine.Bounds
import Patchbay.Proofs.Engine.Lookups
import Patchbay.Proofs.Library.Registrations
import Patchbay.Proofs.Library.Contents
import Patchbay.Proofs.Building.Appending
import Patchbay.Proofs.Unit.Tape
import Patchbay.Proofs.Unit.Delay
import Patchbay.Proofs.Unit.Envelope
import Patchbay.Proofs.Unit.Timing
import Patchbay.Proofs.Engine.Performance
import Patchbay.Proofs.Decimal.Sign
import Patchbay.Proofs.Token.Describe
import Patchbay.Proofs.Program.Placement
import Patchbay.Proofs.Checking.Spans
import Patchbay.Proofs.Building.Spans
import Patchbay.Proofs.Compilation.Spans
import Patchbay.Proofs.Token.Lines
import Patchbay.Proofs.Engine.Slots
import Patchbay.Proofs.Diagnostic
import Patchbay.Proofs.Program.Progress
