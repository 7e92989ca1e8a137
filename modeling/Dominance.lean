import Dominance.Block
import Dominance.EdgeKind
import Dominance.Config
import Dominance.Error
import Dominance.Event
import Dominance.BlockSet
import Dominance.Multimap
import Dominance.Flow
import Dominance.Flow.Path
import Dominance.Multigraph
import Dominance.Multigraph.Edit
import Dominance.Preorder
import Dominance.Preorder.Call
import Dominance.Preorder.Recursive
import Dominance.Numbering
import Dominance.Forest
import Dominance.Forest.Move
import Dominance.Sweep
import Dominance.Sweep.Action
import Dominance.Tree.Basic
import Dominance.Tree.Order
import Dominance.Tree.Insertion
import Dominance.Tree.Frontier
import Dominance.Tree.Tables
import Dominance.Tree.Check
import Dominance.Tree.Build
import Dominance.Drawing.Escape
import Dominance.Drawing.Unescape
import Dominance.Drawing.Lines
import Dominance.Drawing.Basic
import Dominance.Drawing.Reading
import Dominance.MethodBody.Basic
import Dominance.MethodBody.Drawing
import Dominance.MethodBody.Operation
import Dominance.MethodBody.WarmUp
import Dominance.Strict.Sweep
import Dominance.Strict.Tree
import Dominance.Strict.BlockSet
import Dominance.Strict.Writes
import Dominance.Strict.Multigraph
import Dominance.Strict.MethodBody
import Dominance.Proofs.BlockSet
import Dominance.Proofs.Multigraph
import Dominance.Proofs.Adjacency
import Dominance.Proofs.Preorder
import Dominance.Proofs.Laziness
import Dominance.Proofs.Recursive
import Dominance.Proofs.Multiplicity
import Dominance.Proofs.Ancestor
import Dominance.Proofs.Semidominator
import Dominance.Proofs.Dominator
import Dominance.Proofs.Numbering
import Dominance.Proofs.Correspondence
import Dominance.Proofs.Forest
import Dominance.Proofs.Forest.Meaning
import Dominance.Proofs.Forest.Moves
import Dominance.Proofs.Sweep
import Dominance.Proofs.Sweep.Actions
import Dominance.Proofs.Sweep.Compression
import Dominance.Proofs.Sweep.Buckets
import Dominance.Proofs.DisjointWalks
import Dominance.Proofs.Tree.Places
import Dominance.Proofs.Tree.Exact
import Dominance.Proofs.Tree.Above
import Dominance.Proofs.Tree.Chain
import Dominance.Proofs.Tree.ImmediateDominator
import Dominance.Proofs.Tree.PathDominance
import Dominance.Proofs.Tree.Shared
import Dominance.Proofs.Tree.Semidominator
import Dominance.Proofs.Tree.Parents
import Dominance.Proofs.Tree.Order
import Dominance.Proofs.Tree.Insertion
import Dominance.Proofs.Tree.Frontier
import Dominance.Proofs.Tree.PathFrontier
import Dominance.Proofs.Tree.Children
import Dominance.Proofs.Tree.Check
import Dominance.Proofs.Tree.Configured
import Dominance.Proofs.Strict.Forest
import Dominance.Proofs.Strict.Sweep
import Dominance.Proofs.Strict.Tree
import Dominance.Proofs.Strict.Order
import Dominance.Proofs.Strict.Check
import Dominance.Proofs.Drawing.Escape
import Dominance.Proofs.Drawing.Reading
import Dominance.Proofs.MethodBody.Changes
import Dominance.Proofs.MethodBody.Cache
import Dominance.Proofs.MethodBody.Roots
import Dominance.Proofs.MethodBody.Economy
import Dominance.Proofs.MethodBody.DeadBlocks
import Dominance.Proofs.MethodBody.Drawing
import Dominance.Proofs.MethodBody.TreeDrawing
import Dominance.Proofs.MethodBody.WarmUp
