import Glossator.CommandLine.Output
import Glossator.Config.Discovery
import Glossator.Config.Json
import Glossator.Json.Reader
import Glossator.Main
import Glossator.Report.Json
import Glossator.Session
import Glossator.Text.Identifier
import Glossator.Proofs.Java.ClassRecords
import Glossator.Proofs.Java.Declarations
import Glossator.Proofs.Java.Visible
import Glossator.Proofs.Text.Lines
import Glossator.Proofs.Java.RecordText
import Glossator.Proofs.Java.HeaderParts
import Glossator.Proofs.Java.RecordFields
import Glossator.Proofs.Grammar.Automaton
import Glossator.Proofs.Python.Lines
import Glossator.Proofs.Python.Enumeration
import Glossator.Proofs.Python.Extraction
import Glossator.Proofs.Grammar.Stack
import Glossator.Proofs.Grammar.Parser
import Glossator.Proofs.Grammar.Derivation
import Glossator.Proofs.Grammar.Table
import Glossator.Proofs.Python.Grammar
import Glossator.Proofs.Python.Layout
import Glossator.Proofs.Python.Token
import Glossator.Proofs.Python.Lexer
import Glossator.Proofs.Text.Trim
import Glossator.Proofs.Detection
import Glossator.Proofs.Engine
import Glossator.Proofs.Config.Discovery
import Glossator.Proofs.Python.Docstring
import Glossator.Proofs.Python.Parameters
import Glossator.Proofs.CommandLine
import Glossator.Proofs.Scan
import Glossator.Proofs.Java.HeaderLineEnds
import Glossator.Proofs.Java.ReaderLineEnds
import Glossator.Proofs.Java.TypeLineEnds
import Glossator.Proofs.LineEnds
import Glossator.Proofs.Influence
import Glossator.Proofs.Session
import Glossator.Proofs.Java.Lexer
import Glossator.Proofs.Java.OwnLine
import Glossator.Proofs.Python.Dedent
import Glossator.Proofs.Python.Literal
import Glossator.Proofs.Java.PartText
import Glossator.Proofs.Java.CommentRun
import Glossator.Proofs.Java.CommentLines
import Glossator.Proofs.Java.DocComment
import Glossator.Proofs.Java.Annotation
import Glossator.Proofs.Recognition
import Glossator.Proofs.Java.Parameters
import Glossator.Proofs.Java.ReturnType
import Glossator.Proofs.Java.Heading
import Glossator.Proofs.Java.Callable
import Glossator.Proofs.Detection.Extension
import Glossator.Proofs.Config.Loading
import Glossator.Proofs.Java.MethodSearch
import Glossator.Proofs.Java.ShortestBlock
import Glossator.Proofs.Python.EndLine
