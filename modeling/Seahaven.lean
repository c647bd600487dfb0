import Seahaven.Text
import Seahaven.Lossy
import Seahaven.Io
import Seahaven.Lib.Anchors
import Seahaven.Lib.Frontier
import Seahaven.Lib.Logged
import Seahaven.Lib.Op
import Seahaven.Lib.Fuel
import Seahaven.Lib.Offsets
import Seahaven.Lib.Peg
import Seahaven.Lib.Reader
import Seahaven.Lib.Streams
import Seahaven.Host.Tree
import Seahaven.Host.Walk
import Seahaven.Host.Call
import Seahaven.Host.Beneath
import Seahaven.Host.Edits
import Seahaven.Host.Cap
import Seahaven.Host.CreateAll
import Seahaven.Vfs.Path
import Seahaven.Vfs.Resolution
import Seahaven.Vfs.Mount
import Seahaven.Vfs.Respell
import Seahaven.Vfs.Locate
import Seahaven.Vfs.Fs
import Seahaven.Vfs.Relabel
import Seahaven.Vfs.Names
import Seahaven.Vfs.LocateLoop
import Seahaven.Vfs.Cursor
import Seahaven.Lib.Descent
import Seahaven.Vfs.Answers
import Seahaven.Vfs.Fate
import Seahaven.Vfs.Tame
import Seahaven.Vfs.CourseRun
import Seahaven.Vfs.Loops
import Seahaven.Vfs.Unreadable
import Seahaven.Shell.FieldRule
import Seahaven.Shell.AnsiQuote
import Seahaven.Shell.Expanding
import Seahaven.Vfs.Lockstep
import Seahaven.Vfs.Depth
import Seahaven.Vfs.Listing
import Seahaven.Vfs.Routes
import Seahaven.Vfs.WalkRun
import Seahaven.Vfs.Walked
import Seahaven.Vfs.Session
import Seahaven.Vfs.Table
import Seahaven.Vfs.Dir
import Seahaven.Vfs.Walk
import Seahaven.Vfs.Frame
import Seahaven.Vfs.Effects
import Seahaven.Vfs.Shadow
import Seahaven.Vfs.Final
import Seahaven.Vfs.Through
import Seahaven.Vfs.Chain
import Seahaven.Vfs.Visit
import Seahaven.Vfs.Clobber
import Seahaven.Vfs.Inside
import Seahaven.Vfs.ReadOnly
import Seahaven.Broker.Wire
import Seahaven.Broker.Cursor
import Seahaven.Broker.Handoff
import Seahaven.Broker.Lineage
import Seahaven.Broker.Adoption
import Seahaven.Shell.Trust
import Seahaven.Shell.Consent
import Seahaven.Shell.Discovery
import Seahaven.Platform.Stdio
import Seahaven.Platform.Cmd
import Seahaven.Platform.Input
import Seahaven.Platform.Jobs
import Seahaven.Shell.Policy
import Seahaven.Shell.Command
import Seahaven.Shell.World
import Seahaven.Shell.ClosedWorld
import Seahaven.Shell.OpenFiles
import Seahaven.Shell.Descriptors
import Seahaven.Shell.Redirect
import Seahaven.Shell.DescriptorPath
import Seahaven.Shell.OneDirectory
import Seahaven.Shell.Fold
import Seahaven.Shell.Pattern
import Seahaven.Shell.Match
import Seahaven.Shell.Extglob
import Seahaven.Shell.Metacharacters
import Seahaven.Shell.Letters
import Seahaven.Shell.Literal
import Seahaven.Shell.Scopes
import Seahaven.Shell.Visible
import Seahaven.Shell.EntryCount
import Seahaven.Shell.Failed
import Seahaven.Shell.Decimal
import Seahaven.Shell.Transform
import Seahaven.Shell.Subscript
import Seahaven.Arithmetic.Syntax
import Seahaven.Arithmetic.Grammar
import Seahaven.Arithmetic.Depth
import Seahaven.Arithmetic.Literals
import Seahaven.Arithmetic.Eval
import Seahaven.Arithmetic.Recursion
import Seahaven.Arithmetic.Semantics
import Seahaven.Arithmetic.Operators
import Seahaven.Arithmetic.Termination
import Seahaven.Arithmetic.Compound
import Seahaven.Shell.Affix
import Seahaven.Shell.Pipeline
import Seahaven.Shell.Variables
import Seahaven.Shell.Environment
import Seahaven.Shell.Readonly
import Seahaven.Shell.Braces
import Seahaven.Shell.BraceRun
import Seahaven.Parser.Token
import Seahaven.Parser.Tokenizer
import Seahaven.Parser.Rounds
import Seahaven.Parser.Panics
import Seahaven.Parser.Continued
import Seahaven.Parser.Nesting
import Seahaven.Parser.Loss
import Seahaven.Parser.Lossless
import Seahaven.Parser.Word
import Seahaven.Lib.Grammar
import Seahaven.Parser.WordGrammar
import Seahaven.Parser.Digits
import Seahaven.Parser.Scan
import Seahaven.Shell.Escape
import Seahaven.Shell.Fields
import Seahaven.Shell.Quoted
import Seahaven.Shell.Printing
import Seahaven.Shell.Reprint
import Seahaven.Shell.Substring
import Seahaven.Lib.Follow
import Seahaven.Shell.LoopControl
import Seahaven.Shell.PipelineStatus
import Seahaven.Shell.Assignment
import Seahaven.Shell.Temporary
import Seahaven.Shell.Declaration
import Seahaven.Shell.Declared
import Seahaven.Shell.Quoting
import Seahaven.Shell.Joining
import Seahaven.Shell.AssignDefault
import Seahaven.Shell.Allocation
import Seahaven.Shell.Arguments
import Seahaven.Shell.Positional
import Seahaven.Shell.History
import Seahaven.Shell.JobTable
import Seahaven.Shell.JobWaiting
import Seahaven.Shell.DescriptorPath
import Seahaven.Shell.OneDirectory
import Seahaven.Shell.PathCache
import Seahaven.Shell.TrapTransparency
import Seahaven.Vfs.StoredTarget
import Seahaven.Vfs.Narrowed
import Seahaven.Shell.MountFlag
import Seahaven.Shell.ShellFlags
import Seahaven.Shell.ReadFields
import Seahaven.Shell.ReadInput
import Seahaven.Shell.MapFile
import Seahaven.Lib.Scan
import Seahaven.Shell.Getopts
import Seahaven.Shell.HistorySearch
import Seahaven.Parser.TestCommand
import Seahaven.Parser.TestRules
