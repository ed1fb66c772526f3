import Ptywrap.CInt
import Ptywrap.RowMajor
import Ptywrap.Patch
import Ptywrap.Transducer
import Ptywrap.Decimal
import Ptywrap.Occurrence
import Ptywrap.Delimited
import Ptywrap.Realloc
import Ptywrap.ProcTable
import Ptywrap.Ledger
import Ptywrap.Interleave
import Ptywrap.Machine
import Ptywrap.Monitor
import Ptywrap.FdTable
import Ptywrap.Session
import Ptywrap.Api
import Ptywrap.Send
import Ptywrap.Senders
import Ptywrap.Alive
import Ptywrap.Handle
import Ptywrap.Grid
import Ptywrap.Lifecycle
import Ptywrap.Terminal
import Ptywrap.Parser
import Ptywrap.Sgr
import Ptywrap.SgrFields
import Ptywrap.Process
import Ptywrap.Contain
import Ptywrap.Effect
import Ptywrap.Sizes
import Ptywrap.Scan
import Ptywrap.Encode
import Ptywrap.Scratch
import Ptywrap.SgrLists
import Ptywrap.Surplus
import Ptywrap.Print
import Ptywrap.Printout
import Ptywrap.Unsupported
import Ptywrap.Resync
import Ptywrap.Utf8
import Ptywrap.Printable
import Ptywrap.Transcript
import Ptywrap.Erasing
import Ptywrap.Addressing
import Ptywrap.Colours
import Ptywrap.Reset
import Ptywrap.Page
import Ptywrap.Lines
import Ptywrap.Repaint
import Ptywrap.Store
import Ptywrap.Screenshot
import Ptywrap.Fence
import Ptywrap.Runs
import Ptywrap.Annotation
import Ptywrap.Picture
import Ptywrap.Document
import Ptywrap.Builder
import Ptywrap.Growth
import Ptywrap.Tokens
import Ptywrap.Sections
import Ptywrap.Reader
import Ptywrap.Teardown
import Ptywrap.Descriptors
import Ptywrap.Bounds
import Ptywrap.Progress
import Ptywrap.Exits
import Ptywrap.Pacing
