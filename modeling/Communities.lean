import Communities.Main
import Communities.Proofs.CommandLine.Session
import Communities.Proofs.EdgeList.Grammar
import Communities.Proofs.EdgeList.Seed.Grammar
import Communities.Proofs.LocalSearch.Plain
import Communities.Proofs.Modularity.Move
import Communities.Proofs.Modularity.Value
import Communities.Proofs.Network.Compose
import Communities.Proofs.Network.Form
import Communities.Proofs.Partition.Relabel
import Communities.Proofs.Roster.ClosedUp
import Communities.Proofs.Solver.Coarse
import Communities.Proofs.Solver.FixedPoint
import Communities.Proofs.Solver.Objections
import Communities.Proofs.Solver.Presentation
import Communities.Proofs.Solver.Progress
import Communities.Proofs.Solver.Resume
import Communities.Proofs.Solver.Reuse
import Communities.Proofs.Solver.Scale
import Communities.Proofs.Solver.Seeded
import Communities.Proofs.Solver.SweepCap
import Communities.Proofs.Solver.Termination
import Communities.Proofs.SourceGraph.StrayIds
import Communities.Proofs.Table.Columns
