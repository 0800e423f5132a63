import DecisionDiagrams.Cells
import DecisionDiagrams.Constraint.AllDifferent
import DecisionDiagrams.Constraint.Basic
import DecisionDiagrams.Constraint.Counting
import DecisionDiagrams.Constraint.Precedence
import DecisionDiagrams.Constraint.Scope
import DecisionDiagrams.Constraint.Sequence
import DecisionDiagrams.Constraint.Sum
import DecisionDiagrams.Diagram.Agenda
import DecisionDiagrams.Diagram.Arrival
import DecisionDiagrams.Diagram.Growth
import DecisionDiagrams.Diagram.Maintenance
import DecisionDiagrams.Diagram.Refinement
import DecisionDiagrams.Diagram.Removal
import DecisionDiagrams.Diagram.Tracker
import DecisionDiagrams.Diagram.Update
import DecisionDiagrams.Diagram.Workspace
import DecisionDiagrams.Domain
import DecisionDiagrams.Graph
import DecisionDiagrams.Graph.Arena
import DecisionDiagrams.Graph.Dot
import DecisionDiagrams.Graph.Shape
import DecisionDiagrams.History
import DecisionDiagrams.Options
import DecisionDiagrams.Preference
import DecisionDiagrams.Proofs.Constraint.AllDifferent
import DecisionDiagrams.Proofs.Constraint.Counted
import DecisionDiagrams.Proofs.Constraint.Counting
import DecisionDiagrams.Proofs.Constraint.Deciding
import DecisionDiagrams.Proofs.Constraint.Encoded
import DecisionDiagrams.Proofs.Constraint.Encoding
import DecisionDiagrams.Proofs.Constraint.Joining
import DecisionDiagrams.Proofs.Constraint.Library
import DecisionDiagrams.Proofs.Constraint.Precedence
import DecisionDiagrams.Proofs.Constraint.Scopes
import DecisionDiagrams.Proofs.Constraint.Sequence
import DecisionDiagrams.Proofs.Constraint.Sum
import DecisionDiagrams.Proofs.Constraint.Tame
import DecisionDiagrams.Proofs.Constraint.Totals
import DecisionDiagrams.Proofs.Domains
import DecisionDiagrams.Proofs.Engine.Abreast
import DecisionDiagrams.Proofs.Engine.Agreement
import DecisionDiagrams.Proofs.Engine.Ample
import DecisionDiagrams.Proofs.Engine.Arrivals
import DecisionDiagrams.Proofs.Engine.Blend
import DecisionDiagrams.Proofs.Engine.Cascade
import DecisionDiagrams.Proofs.Engine.Coherent
import DecisionDiagrams.Proofs.Engine.Computes
import DecisionDiagrams.Proofs.Engine.Course
import DecisionDiagrams.Proofs.Engine.Covered
import DecisionDiagrams.Proofs.Engine.Covering
import DecisionDiagrams.Proofs.Engine.Dividing
import DecisionDiagrams.Proofs.Engine.Drafts
import DecisionDiagrams.Proofs.Engine.Ebbing
import DecisionDiagrams.Proofs.Engine.Ending
import DecisionDiagrams.Proofs.Engine.Exactness
import DecisionDiagrams.Proofs.Engine.Extending
import DecisionDiagrams.Proofs.Engine.Faithful
import DecisionDiagrams.Proofs.Engine.Fixpoint
import DecisionDiagrams.Proofs.Engine.Founding
import DecisionDiagrams.Proofs.Engine.Grouping
import DecisionDiagrams.Proofs.Engine.Lasting
import DecisionDiagrams.Proofs.Engine.Laws
import DecisionDiagrams.Proofs.Engine.Layering
import DecisionDiagrams.Proofs.Engine.Mirroring
import DecisionDiagrams.Proofs.Engine.Obeyed
import DecisionDiagrams.Proofs.Engine.Obeying
import DecisionDiagrams.Proofs.Engine.Offshoots
import DecisionDiagrams.Proofs.Engine.Outline
import DecisionDiagrams.Proofs.Engine.Passes
import DecisionDiagrams.Proofs.Engine.PathCount
import DecisionDiagrams.Proofs.Engine.Paths
import DecisionDiagrams.Proofs.Engine.Pooling
import DecisionDiagrams.Proofs.Engine.Renewal
import DecisionDiagrams.Proofs.Engine.Rerouting
import DecisionDiagrams.Proofs.Engine.Rising
import DecisionDiagrams.Proofs.Engine.Room
import DecisionDiagrams.Proofs.Engine.Screened
import DecisionDiagrams.Proofs.Engine.Screening
import DecisionDiagrams.Proofs.Engine.Sharpening
import DecisionDiagrams.Proofs.Engine.Siblings
import DecisionDiagrams.Proofs.Engine.Splitting
import DecisionDiagrams.Proofs.Engine.Sustained
import DecisionDiagrams.Proofs.Engine.Threads
import DecisionDiagrams.Proofs.Engine.Tracking
import DecisionDiagrams.Proofs.Engine.Unfailing
import DecisionDiagrams.Proofs.Engine.Unrelaxed
import DecisionDiagrams.Proofs.Engine.Upkeep
import DecisionDiagrams.Proofs.Engine.Vetted
import DecisionDiagrams.Proofs.Engine.Words
import DecisionDiagrams.Proofs.Graph.Arena
import DecisionDiagrams.Proofs.Graph.Operations
import DecisionDiagrams.Proofs.Graph.Reversal
import DecisionDiagrams.Proofs.Graph.Sameness
import DecisionDiagrams.Proofs.Graph.Spares
import DecisionDiagrams.Proofs.Graph.Wellformed
import DecisionDiagrams.Proofs.Journal
import DecisionDiagrams.Proofs.Preference
import DecisionDiagrams.Proofs.Sets.Elements
import DecisionDiagrams.Proofs.Solver.Announce
import DecisionDiagrams.Proofs.Solver.Assignments
import DecisionDiagrams.Proofs.Solver.Caching
import DecisionDiagrams.Proofs.Solver.Coherence
import DecisionDiagrams.Proofs.Solver.Consistency
import DecisionDiagrams.Proofs.Solver.Enumerates
import DecisionDiagrams.Proofs.Solver.Everywhere
import DecisionDiagrams.Proofs.Solver.Excursions
import DecisionDiagrams.Proofs.Solver.Fixpoint
import DecisionDiagrams.Proofs.Solver.Idle
import DecisionDiagrams.Proofs.Solver.Labels
import DecisionDiagrams.Proofs.Solver.Largest
import DecisionDiagrams.Proofs.Solver.Leaves
import DecisionDiagrams.Proofs.Solver.Matures
import DecisionDiagrams.Proofs.Solver.NodeTests
import DecisionDiagrams.Proofs.Solver.Obeys
import DecisionDiagrams.Proofs.Solver.Operations
import DecisionDiagrams.Proofs.Solver.PartialSums
import DecisionDiagrams.Proofs.Solver.Proper
import DecisionDiagrams.Proofs.Solver.Roomy
import DecisionDiagrams.Proofs.Solver.Rounds
import DecisionDiagrams.Proofs.Solver.Runs
import DecisionDiagrams.Proofs.Solver.Slender
import DecisionDiagrams.Proofs.Solver.Solutions
import DecisionDiagrams.Proofs.Solver.Statistics
import DecisionDiagrams.Proofs.Solver.Sustains
import DecisionDiagrams.Proofs.Solver.Termination
import DecisionDiagrams.Proofs.Solver.Unambiguous
import DecisionDiagrams.Proofs.Solver.Unmixed
import DecisionDiagrams.Proofs.Solver.Unrelaxed
import DecisionDiagrams.Proofs.Spec.Appends
import DecisionDiagrams.Proofs.Spec.Beside
import DecisionDiagrams.Proofs.Spec.Combining
import DecisionDiagrams.Proofs.Spec.Compiled
import DecisionDiagrams.Proofs.Spec.Declared
import DecisionDiagrams.Proofs.Spec.Gathers
import DecisionDiagrams.Proofs.Spec.Joins
import DecisionDiagrams.Proofs.Spec.Merging
import DecisionDiagrams.Proofs.Spec.Order
import DecisionDiagrams.Proofs.Spec.Readers
import DecisionDiagrams.Proofs.Spec.Registered
import DecisionDiagrams.Proofs.Spec.Stepping
import DecisionDiagrams.Proofs.Spec.Tuples
import DecisionDiagrams.Proofs.State.Alters
import DecisionDiagrams.Proofs.State.Buffer
import DecisionDiagrams.Proofs.State.Clean
import DecisionDiagrams.Proofs.State.Equality
import DecisionDiagrams.Proofs.State.ReadBack
import DecisionDiagrams.Proofs.State.Sets
import DecisionDiagrams.Proofs.State.Slots
import DecisionDiagrams.Proofs.State.Words
import DecisionDiagrams.Proofs.State.Writes
import DecisionDiagrams.Proofs.Store.Bitmap
import DecisionDiagrams.Proofs.Store.Levels
import DecisionDiagrams.Proofs.Store.Refinement
import DecisionDiagrams.Proofs.Store.Restricting
import DecisionDiagrams.Proofs.Store.Sets
import DecisionDiagrams.Proofs.Store.Undoing
import DecisionDiagrams.Proofs.Stored.Cells
import DecisionDiagrams.Proofs.Stored.Changes
import DecisionDiagrams.Proofs.Stored.Commands
import DecisionDiagrams.Proofs.Stored.Diagrams
import DecisionDiagrams.Proofs.Stored.Domains
import DecisionDiagrams.Proofs.Stored.Excursions
import DecisionDiagrams.Proofs.Stored.Propagation
import DecisionDiagrams.Proofs.Work.Agenda
import DecisionDiagrams.Proofs.Work.Census
import DecisionDiagrams.Proofs.Work.Edits
import DecisionDiagrams.Proofs.Work.Evolves
import DecisionDiagrams.Proofs.Work.Ledger
import DecisionDiagrams.Proofs.Work.Linking
import DecisionDiagrams.Proofs.Work.Lockstep
import DecisionDiagrams.Proofs.Work.Outcome
import DecisionDiagrams.Proofs.Work.Recorded
import DecisionDiagrams.Proofs.Work.Secures
import DecisionDiagrams.Proofs.Work.Tidy
import DecisionDiagrams.Proofs.Work.Tracker
import DecisionDiagrams.Report.Counters
import DecisionDiagrams.Script.Block
import DecisionDiagrams.Script.Custom
import DecisionDiagrams.Script.Expr
import DecisionDiagrams.Sets.IndexSet
import DecisionDiagrams.Sets.IntSet
import DecisionDiagrams.Solver.Basic
import DecisionDiagrams.Solver.Operation
import DecisionDiagrams.Solver.Post
import DecisionDiagrams.Solver.Report
import DecisionDiagrams.Solver.Search
import DecisionDiagrams.Solver.Stored
import DecisionDiagrams.Spec.Basic
import DecisionDiagrams.Spec.Model
import DecisionDiagrams.Spec.Validity
import DecisionDiagrams.State.Access
import DecisionDiagrams.State.Basic
import DecisionDiagrams.State.Buffer
import DecisionDiagrams.State.Field
import DecisionDiagrams.State.Layout
import DecisionDiagrams.State.SetView
import DecisionDiagrams.State.View
import DecisionDiagrams.Store
