import TolkAnalysis.Decl.Basic
import TolkAnalysis.Decl.Index
import TolkAnalysis.Decl.View
import TolkAnalysis.Grammar.Error
import TolkAnalysis.Grammar.Expression
import TolkAnalysis.Grammar.Item
import TolkAnalysis.Grammar.Parse
import TolkAnalysis.Grammar.Parser
import TolkAnalysis.Grammar.Statement
import TolkAnalysis.Grammar.TypeExpr
import TolkAnalysis.Inference.Basic
import TolkAnalysis.Inference.Decl
import TolkAnalysis.Inference.Expression
import TolkAnalysis.Inference.Infer
import TolkAnalysis.Inference.TypeExpr
import TolkAnalysis.Path.Import
import TolkAnalysis.Path.Normal
import TolkAnalysis.Proofs.Decl.Index
import TolkAnalysis.Proofs.Decl.Same
import TolkAnalysis.Proofs.Grammar.Concat
import TolkAnalysis.Proofs.Grammar.ErrorLog
import TolkAnalysis.Proofs.Grammar.GetMethod
import TolkAnalysis.Proofs.Grammar.Item
import TolkAnalysis.Proofs.Grammar.Layout
import TolkAnalysis.Proofs.Grammar.Leaves
import TolkAnalysis.Proofs.Grammar.Precedence
import TolkAnalysis.Proofs.Grammar.Progress
import TolkAnalysis.Proofs.Grammar.Recovery
import TolkAnalysis.Proofs.Grammar.Resuming
import TolkAnalysis.Proofs.Grammar.Speculation
import TolkAnalysis.Proofs.Grammar.TypeComplete
import TolkAnalysis.Proofs.Inference.Closed
import TolkAnalysis.Proofs.Inference.Field
import TolkAnalysis.Proofs.Inference.Pattern
import TolkAnalysis.Proofs.Inference.Transparent
import TolkAnalysis.Proofs.Query.Memoized
import TolkAnalysis.Proofs.Query.Run
import TolkAnalysis.Proofs.References.Exact
import TolkAnalysis.Proofs.References.Limit
import TolkAnalysis.Proofs.Resolution.First
import TolkAnalysis.Proofs.Resolution.Lexical
import TolkAnalysis.Proofs.Resolution.TypePosition
import TolkAnalysis.Proofs.Session.History
import TolkAnalysis.Proofs.Session.LoadOrder
import TolkAnalysis.Proofs.Session.Registry
import TolkAnalysis.Proofs.Session.Transcription
import TolkAnalysis.Proofs.Session.Visible
import TolkAnalysis.Proofs.Size.Afresh
import TolkAnalysis.Proofs.Size.Cap
import TolkAnalysis.Proofs.Size.Literal
import TolkAnalysis.Proofs.Size.Memo
import TolkAnalysis.Proofs.Size.Respelling
import TolkAnalysis.Proofs.Size.Tag
import TolkAnalysis.Proofs.Size.Termination
import TolkAnalysis.Proofs.Size.Total
import TolkAnalysis.Proofs.Source.Line
import TolkAnalysis.Proofs.Token.Lossless
import TolkAnalysis.Proofs.Tree.Innermost
import TolkAnalysis.Proofs.Tree.Order
import TolkAnalysis.Proofs.Tree.Replay
import TolkAnalysis.Proofs.Tree.Walk
import TolkAnalysis.Proofs.Ty.Assignable
import TolkAnalysis.Proofs.Ty.Composition
import TolkAnalysis.Proofs.Ty.Deduction
import TolkAnalysis.Proofs.Ty.FirstBinding
import TolkAnalysis.Proofs.Ty.Fit
import TolkAnalysis.Proofs.Ty.Hygiene
import TolkAnalysis.Proofs.Ty.Join
import TolkAnalysis.Proofs.Ty.JoinList
import TolkAnalysis.Query.Basic
import TolkAnalysis.Query.Cache
import TolkAnalysis.Query.Script
import TolkAnalysis.References.Options
import TolkAnalysis.References.Scope
import TolkAnalysis.References.Search
import TolkAnalysis.Resolution.Member
import TolkAnalysis.Resolution.Resolve
import TolkAnalysis.Resolution.Scope
import TolkAnalysis.Resolution.Search
import TolkAnalysis.Resolution.State
import TolkAnalysis.Session.Basic
import TolkAnalysis.Session.Config
import TolkAnalysis.Session.Oracle
import TolkAnalysis.Session.Stubs
import TolkAnalysis.Session.Workspace
import TolkAnalysis.Size.CellSize
import TolkAnalysis.Size.Estimate
import TolkAnalysis.Size.Opcode
import TolkAnalysis.Source.Line
import TolkAnalysis.Source.Span
import TolkAnalysis.Text.Enclosed
import TolkAnalysis.Text.Hidden
import TolkAnalysis.Text.Quoted
import TolkAnalysis.Token.Basic
import TolkAnalysis.Token.Kind
import TolkAnalysis.Token.Scan
import TolkAnalysis.Tree.Arena
import TolkAnalysis.Tree.Basic
import TolkAnalysis.Tree.Dump
import TolkAnalysis.Tree.Field
import TolkAnalysis.Tree.Kind
import TolkAnalysis.Tree.Walk
import TolkAnalysis.Ty.Assignable
import TolkAnalysis.Ty.Basic
import TolkAnalysis.Ty.Equality
import TolkAnalysis.Ty.Join
import TolkAnalysis.Ty.Substitution
import TolkAnalysis.Ty.Union
