import TreeWalk.Main
import TreeWalk.FileTree
import TreeWalk.Node.Listing
import TreeWalk.Renaming
import TreeWalk.Direct.Eval
import TreeWalk.Eval.Visit.Locality
import TreeWalk.Tree.Completion
import TreeWalk.Tree.Position
import TreeWalk.Tree.Recovery
import TreeWalk.Tree.Spelling
import TreeWalk.Proofs.Layout.Lowering
import TreeWalk.Proofs.Layout.Recovery
import TreeWalk.Proofs.Direct.Matching
import TreeWalk.Proofs.Eval.Rules
import TreeWalk.Proofs.Direct.Simulation
import TreeWalk.Proofs.Eval.Threads
import TreeWalk.Proofs.Eval.Induction
import TreeWalk.Proofs.Eval.Frames
import TreeWalk.Proofs.Eval.Fuel
import TreeWalk.Proofs.Eval.Returns
import TreeWalk.Proofs.Eval.CallValue
import TreeWalk.Proofs.Eval.ParameterLists
import TreeWalk.Proofs.Rendering
import TreeWalk.Proofs.Eval.Alike
import TreeWalk.Proofs.Eval.ReturnSlots
import TreeWalk.Proofs.Eval.Output
import TreeWalk.Proofs.Eval.Promises
import TreeWalk.Proofs.Eval.Globals
import TreeWalk.Proofs.Eval.Handles
import TreeWalk.Proofs.Eval.LocalBinding
import TreeWalk.Proofs.Eval.RecursionLimit
import TreeWalk.Proofs.Eval.Raising
import TreeWalk.Proofs.Eval.WellFormed
import TreeWalk.Proofs.Eval.CallFootprint
import TreeWalk.Proofs.Eval.InRange
import TreeWalk.Proofs.Direct.CallResults
import TreeWalk.Proofs.Eval.Repetition
import TreeWalk.Proofs.Tree.Spelling
import TreeWalk.Proofs.Direct.Completion
import TreeWalk.Proofs.Arithmetic.Exact
import TreeWalk.Proofs.CommandLine
import TreeWalk.Proofs.Layout.Numbering
import TreeWalk.Proofs.Options
import TreeWalk.Proofs.Eval.Stack
import TreeWalk.Proofs.Eval.Underway
import TreeWalk.Proofs.Eval.Permanence
import TreeWalk.Proofs.Layout.Constructions
import TreeWalk.Proofs.Tree.DepthLimit
import TreeWalk.Proofs.Direct.Grounds
