import Chunkwise.Attempt
import Chunkwise.Binder.Bodies
import Chunkwise.Binder.Conversion
import Chunkwise.Binder.Declare
import Chunkwise.Binder.Expr
import Chunkwise.Binder.Host
import Chunkwise.Binder.Member
import Chunkwise.Binder.Names
import Chunkwise.Binder.Populate
import Chunkwise.Binder.Scope
import Chunkwise.Binder.State
import Chunkwise.Binder.Stmt
import Chunkwise.Binder.Unit
import Chunkwise.Classify
import Chunkwise.Decimal.Read
import Chunkwise.Decimal.Shortest
import Chunkwise.Diagnostic.Basic
import Chunkwise.Diagnostic.Json
import Chunkwise.Diagnostic.Log
import Chunkwise.Diagnostic.Problem
import Chunkwise.Double.Parts
import Chunkwise.Image.Basic
import Chunkwise.Image.Builtin
import Chunkwise.Image.Display
import Chunkwise.Image.Undo
import Chunkwise.Json.Basic
import Chunkwise.Json.Read
import Chunkwise.Machine.Eval
import Chunkwise.Machine.Operation
import Chunkwise.Machine.Run
import Chunkwise.Machine.State
import Chunkwise.Main
import Chunkwise.Parser.Chunk
import Chunkwise.Parser.Cursor
import Chunkwise.Parser.Decl
import Chunkwise.Parser.Expr
import Chunkwise.Parser.Stmt
import Chunkwise.Program.Code
import Chunkwise.Program.Members
import Chunkwise.Program.Reach
import Chunkwise.Program.Registry
import Chunkwise.Program.Store
import Chunkwise.Program.Value
import Chunkwise.Proofs.Attempt
import Chunkwise.Proofs.Binder.Bodies
import Chunkwise.Proofs.Binder.Declare
import Chunkwise.Proofs.Binder.Directives
import Chunkwise.Proofs.Binder.Expr
import Chunkwise.Proofs.Binder.Filling
import Chunkwise.Proofs.Binder.Host
import Chunkwise.Proofs.Binder.Member
import Chunkwise.Proofs.Binder.Names
import Chunkwise.Proofs.Binder.Ongoing
import Chunkwise.Proofs.Binder.Placement
import Chunkwise.Proofs.Binder.Populate
import Chunkwise.Proofs.Binder.Scope
import Chunkwise.Proofs.Binder.Stmt
import Chunkwise.Proofs.Binder.Unit
import Chunkwise.Proofs.Cut.Basic
import Chunkwise.Proofs.Cut.Decl
import Chunkwise.Proofs.Cut.Expr
import Chunkwise.Proofs.Cut.Stmt
import Chunkwise.Proofs.Cut.Tracks
import Chunkwise.Proofs.Cut.Viable
import Chunkwise.Proofs.Image.Inverse
import Chunkwise.Proofs.Image.Lookup
import Chunkwise.Proofs.Image.Rollback
import Chunkwise.Proofs.Image.Shape
import Chunkwise.Proofs.Machine.Contract
import Chunkwise.Proofs.Machine.Eval
import Chunkwise.Proofs.Machine.Exec
import Chunkwise.Proofs.Machine.Flow
import Chunkwise.Proofs.Machine.Later
import Chunkwise.Proofs.Machine.Operation
import Chunkwise.Proofs.Machine.Run
import Chunkwise.Proofs.Machine.Store
import Chunkwise.Proofs.Parser.Decl
import Chunkwise.Proofs.Parser.Expr
import Chunkwise.Proofs.Parser.Grammar
import Chunkwise.Proofs.Parser.Reading
import Chunkwise.Proofs.Parser.Sentence
import Chunkwise.Proofs.Parser.Stmt
import Chunkwise.Proofs.RoundTrip.Unit
import Chunkwise.Proofs.Session.Binding
import Chunkwise.Proofs.Session.Commit
import Chunkwise.Proofs.Session.Directory
import Chunkwise.Proofs.Session.Dispatch
import Chunkwise.Proofs.Session.Endings
import Chunkwise.Proofs.Session.History
import Chunkwise.Proofs.Session.Initial
import Chunkwise.Proofs.Session.Interrupt
import Chunkwise.Proofs.Session.Release
import Chunkwise.Proofs.Session.Safety
import Chunkwise.Proofs.Session.Splitting
import Chunkwise.Proofs.Session.Storage
import Chunkwise.Proofs.Session.Valid
import Chunkwise.Proofs.Session.Variables
import Chunkwise.Proofs.Shell.Lines
import Chunkwise.Proofs.Token.Trivia
import Chunkwise.Proofs.Typing.Code
import Chunkwise.Proofs.Typing.Image
import Chunkwise.Proofs.Typing.Value
import Chunkwise.Proofs.Typing.Weaken
import Chunkwise.Session.Compile
import Chunkwise.Session.Evaluator
import Chunkwise.Session.Executor
import Chunkwise.Session.Fingerprint
import Chunkwise.Session.Settings
import Chunkwise.Shell.Console
import Chunkwise.Shell.Options
import Chunkwise.Shell.Repl
import Chunkwise.Source.Span
import Chunkwise.Source.Text
import Chunkwise.Syntax.Decl
import Chunkwise.Syntax.Expr
import Chunkwise.Syntax.Stmt
import Chunkwise.Text.Blank
import Chunkwise.Text.Quoted
import Chunkwise.Token.Basic
import Chunkwise.Token.Lexeme
import Chunkwise.Token.Lexer
import Chunkwise.Proofs.Token.Partition
import Chunkwise.Proofs.Token.Rendering
import Chunkwise.Proofs.Parser.First
import Chunkwise.Proofs.Faithful.Contract
import Chunkwise.Proofs.Faithful.Counterpart
import Chunkwise.Proofs.Faithful.Member
import Chunkwise.Proofs.Faithful.Expr
import Chunkwise.Proofs.Faithful.Stmt
import Chunkwise.Proofs.Faithful.Host
import Chunkwise.Proofs.Faithful.Table
import Chunkwise.Proofs.Faithful.Declare
import Chunkwise.Proofs.Faithful.Populate
import Chunkwise.Proofs.Faithful.Bodies
import Chunkwise.Proofs.Faithful.Unit
import Chunkwise.Proofs.Session.Faithful
import Chunkwise.Proofs.Binder.Overload
import Chunkwise.Proofs.Binder.Stages
import Chunkwise.Proofs.Binder.Apart
import Chunkwise.Proofs.Session.Members
import Chunkwise.Proofs.Readonly.Guard
import Chunkwise.Proofs.Readonly.Stmt
import Chunkwise.Proofs.Readonly.Host
import Chunkwise.Proofs.Readonly.Bodies
import Chunkwise.Proofs.Session.Chronicle
import Chunkwise.Proofs.Session.Readonly
import Chunkwise.Proofs.Cache.Contract
import Chunkwise.Proofs.Cache.Body
import Chunkwise.Proofs.Cache.Declare
import Chunkwise.Proofs.Cache.Member
import Chunkwise.Proofs.Cache.Unit
import Chunkwise.Proofs.Session.Transparent
import Chunkwise.Proofs.Binder.Compound
import Chunkwise.Proofs.Machine.Bounded
import Chunkwise.Proofs.Machine.Interrupted
import Chunkwise.Proofs.Machine.Depth
import Chunkwise.Proofs.Order.Bodies
import Chunkwise.Proofs.Order.Declare
import Chunkwise.Proofs.Order.Populate
import Chunkwise.Proofs.Order.Rounds
import Chunkwise.Proofs.Order.Unit
import Chunkwise.Proofs.Session.Reordered
import Chunkwise.Proofs.Binder.Arithmetic
import Chunkwise.Proofs.Session.Retyped
import Chunkwise.Proofs.Extent.Source
import Chunkwise.Proofs.Extent.Progress
import Chunkwise.Proofs.Diagnostic.Stream
import Chunkwise.Proofs.Binder.Nesting
import Chunkwise.Proofs.Shell.Commands
