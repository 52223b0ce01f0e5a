import ShaderPass.Compiler
import ShaderPass.Condition.Parse
import ShaderPass.Conditional
import ShaderPass.Config.Directory
import ShaderPass.Config.Format
import ShaderPass.Directive.Line
import ShaderPass.Directive.Parse
import ShaderPass.Json.Read
import ShaderPass.Keyword
import ShaderPass.Macro.Expansion
import ShaderPass.Notice
import ShaderPass.Number.Literal
import ShaderPass.Preprocess.Condition
import ShaderPass.Preprocess.Library
import ShaderPass.Preprocess.Session
import ShaderPass.Proofs.Assembly
import ShaderPass.Proofs.Condition.Grammar
import ShaderPass.Proofs.Condition.Literals
import ShaderPass.Proofs.Condition.Parse
import ShaderPass.Proofs.Condition.Tokens
import ShaderPass.Proofs.Condition.Value
import ShaderPass.Proofs.Config
import ShaderPass.Proofs.Config.Directory
import ShaderPass.Proofs.Config.RoundTrip
import ShaderPass.Proofs.Dictionary
import ShaderPass.Proofs.Directive.Openings
import ShaderPass.Proofs.Directive.Spelling
import ShaderPass.Proofs.Failures
import ShaderPass.Proofs.Inclusion
import ShaderPass.Proofs.Lexeme.Extension
import ShaderPass.Proofs.Lexeme.Faults
import ShaderPass.Proofs.Lexeme.LineStart
import ShaderPass.Proofs.Lexeme.Reading
import ShaderPass.Proofs.Lexeme.Rescan
import ShaderPass.Proofs.Lexeme.Words
import ShaderPass.Proofs.Macro.Complete
import ShaderPass.Proofs.Macro.Invocation
import ShaderPass.Proofs.Macro.Lexemes
import ShaderPass.Proofs.Macro.Objects
import ShaderPass.Proofs.Macro.Termination
import ShaderPass.Proofs.Outcome
import ShaderPass.Proofs.Passed
import ShaderPass.Proofs.Preprocess.Balance
import ShaderPass.Proofs.Preprocess.Branches
import ShaderPass.Proofs.Preprocess.Causality
import ShaderPass.Proofs.Preprocess.Definedness
import ShaderPass.Proofs.Preprocess.Failures
import ShaderPass.Proofs.Preprocess.History
import ShaderPass.Proofs.Preprocess.Lines
import ShaderPass.Proofs.Preprocess.Names
import ShaderPass.Proofs.Preprocess.Nesting
import ShaderPass.Proofs.Preprocess.OnLines
import ShaderPass.Proofs.Preprocess.Once
import ShaderPass.Proofs.Preprocess.Operands
import ShaderPass.Proofs.Preprocess.Places
import ShaderPass.Proofs.Preprocess.PlainText
import ShaderPass.Proofs.Preprocess.Rescan
import ShaderPass.Proofs.Preprocess.Skipped
import ShaderPass.Proofs.Preprocess.SourceMap
import ShaderPass.Proofs.Preprocess.SourceOrder
import ShaderPass.Proofs.Preprocess.Texts
import ShaderPass.Proofs.RenderState
import ShaderPass.Proofs.Reuse
import ShaderPass.Proofs.Shader.Acceptance
import ShaderPass.Proofs.Shader.Assignments
import ShaderPass.Proofs.Shader.Blocks
import ShaderPass.Proofs.Shader.Braces
import ShaderPass.Proofs.Shader.Choices
import ShaderPass.Proofs.Shader.Coverage
import ShaderPass.Proofs.Shader.Declarations
import ShaderPass.Proofs.Shader.Derivation
import ShaderPass.Proofs.Shader.Directives
import ShaderPass.Proofs.Shader.Grammar
import ShaderPass.Proofs.Shader.Layout
import ShaderPass.Proofs.Shader.Numbers
import ShaderPass.Proofs.Shader.Positions
import ShaderPass.Proofs.Shader.StatePlaces
import ShaderPass.Proofs.Shader.Tokens
import ShaderPass.Proofs.Shader.Unambiguous
import ShaderPass.Proofs.Source.LineColumn
import ShaderPass.Proofs.Source.Pieces
import ShaderPass.Proofs.Source.Spans
import ShaderPass.Proofs.Source.Table
import ShaderPass.Proofs.Text.Order
import ShaderPass.Proofs.Text.Slice
import ShaderPass.Proofs.VirtualPath.NormalForm
import ShaderPass.RenderState
import ShaderPass.Shader.Cause
import ShaderPass.Shader.Parse
import ShaderPass.Shader.Token
import ShaderPass.Source.Map
import ShaderPass.Source.Piece
import ShaderPass.Source.Span
import ShaderPass.VirtualPath
