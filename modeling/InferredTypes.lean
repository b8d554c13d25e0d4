import InferredTypes.Assoc
import InferredTypes.Diagnostic
import InferredTypes.Environment.Assignable
import InferredTypes.Environment.Basic
import InferredTypes.Environment.Hierarchy
import InferredTypes.Environment.Standard
import InferredTypes.Environment.Typing
import InferredTypes.Guard.Basic
import InferredTypes.Guard.Run
import InferredTypes.Guard.Script
import InferredTypes.Host
import InferredTypes.Inference
import InferredTypes.Journal
import InferredTypes.Placeholder
import InferredTypes.Placement
import InferredTypes.Pool
import InferredTypes.Program.Decl
import InferredTypes.Program.Expr
import InferredTypes.Program.Location
import InferredTypes.Program.TypeRef
import InferredTypes.Proofs.Acyclic
import InferredTypes.Proofs.ArrayLayers
import InferredTypes.Proofs.Assumptions
import InferredTypes.Proofs.CircularReferences
import InferredTypes.Proofs.Cone
import InferredTypes.Proofs.DepthFirst
import InferredTypes.Proofs.ExactView
import InferredTypes.Proofs.HostCalls
import InferredTypes.Proofs.Imports
import InferredTypes.Proofs.InitializerTyping
import InferredTypes.Proofs.JoinedTexts
import InferredTypes.Proofs.Judgment
import InferredTypes.Proofs.LastWrites
import InferredTypes.Proofs.Lexical
import InferredTypes.Proofs.LineGrammar
import InferredTypes.Proofs.OpenCreations
import InferredTypes.Proofs.Outcome
import InferredTypes.Proofs.PlainSearch
import InferredTypes.Proofs.RawOrder
import InferredTypes.Proofs.Reach
import InferredTypes.Proofs.ReadBack
import InferredTypes.Proofs.Reentry
import InferredTypes.Proofs.Restoration
import InferredTypes.Proofs.SameTables
import InferredTypes.Proofs.ScriptMachine
import InferredTypes.Proofs.Sites
import InferredTypes.Proofs.SmallPrograms
import InferredTypes.Proofs.SourcePositions
import InferredTypes.Proofs.SubstitutionLaws
import InferredTypes.Proofs.Supertypes
import InferredTypes.Proofs.Termination
import InferredTypes.Proofs.TextLines
import InferredTypes.Proofs.Tracing
import InferredTypes.Proofs.TypeShape
import InferredTypes.Proofs.TypeText
import InferredTypes.Proofs.TypeVariables
import InferredTypes.Proofs.Unwinding
import InferredTypes.Proofs.Values
import InferredTypes.Proofs.ViewComposition
import InferredTypes.Proofs.WidestLeaf
import InferredTypes.Proofs.WrittenArguments
import InferredTypes.Proofs.WrittenSettings
import InferredTypes.Request
import InferredTypes.ScriptedHost
import InferredTypes.Settings.Basic
import InferredTypes.Settings.Properties
import InferredTypes.Text.Blank
import InferredTypes.Text.Lines
import InferredTypes.Ty.Basic
import InferredTypes.Ty.Render
import InferredTypes.Ty.Substitution
