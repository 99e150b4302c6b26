import Luaxx.Lib.Blocks
import Luaxx.Lib.Buckets
import Luaxx.Lib.LittleEndian
import Luaxx.Lib.Result
import Luaxx.Lib.Codec
import Luaxx.Lib.Ctype
import Luaxx.Lib.Links
import Luaxx.Lib.Spans
import Luaxx.Lib.Stdio
import Luaxx.Lib.Int32
import Luaxx.Lib.Memory
import Luaxx.Lib.First
import Luaxx.Lib.Scan
import Luaxx.Lib.FreeList
import Luaxx.Md5.Rfc1321
import Luaxx.Md5.Checksum
import Luaxx.Md5.Verified
import Luaxx.Core.Number
import Luaxx.Core.Whole
import Luaxx.Core.Value
import Luaxx.Core.Object
import Luaxx.Core.Opcodes
import Luaxx.Call.Stack
import Luaxx.Call.Precall
import Luaxx.Bytecode.Checkcode
import Luaxx.Bytecode.Undump
import Luaxx.Bytecode.Format
import Luaxx.Bytecode.RoundTrip
import Luaxx.Bytecode.WellFormed
import Luaxx.Pattern.Match
import Luaxx.Pattern.Semantics
import Luaxx.Pattern.Verified
import Luaxx.Table.Table
import Luaxx.Table.Invariant
import Luaxx.Table.Insert
import Luaxx.Table.Newkey
import Luaxx.Table.Store
import Luaxx.Table.Resize
import Luaxx.Table.Rehash
import Luaxx.Table.Refinement
import Luaxx.Vm.Execute
import Luaxx.Vm.Verifier
import Luaxx.Vm.Names
import Luaxx.Table.Next
import Luaxx.Table.DeadKeys
import Luaxx.Table.Traversal
import Luaxx.Auxlib.Buffer
import Luaxx.Auxlib.Adding
import Luaxx.Csv.Csv
import Luaxx.Csv.RoundTrip
import Luaxx.Csv.Bounds
import Luaxx.Csv.Reader
import Luaxx.Csv.Rows
import Luaxx.Http.Http
import Luaxx.Http.Scan
import Luaxx.Http.Document
import Luaxx.Http.Resolve
import Luaxx.Json.Strbuf
import Luaxx.Json.Output
import Luaxx.Json.Encode
import Luaxx.Json.Text
import Luaxx.Json.Decode
import Luaxx.Json.Grammar
import Luaxx.Json.Strings
import Luaxx.Json.Numbers
import Luaxx.Json.Lexer
import Luaxx.Json.Parser
import Luaxx.Json.Accepted
import Luaxx.Json.Strict
import Luaxx.Json.Errors
import Luaxx.Json.Arrays
import Luaxx.Json.Written
import Luaxx.Json.RoundTrip
import Luaxx.Json.Lossless
import Luaxx.Json.Requests
import Luaxx.Json.Safety
import Luaxx.Json.Cursor
import Luaxx.Bstring.Bstring
import Luaxx.Bstring.Refinement
import Luaxx.Bstring.Runs
import Luaxx.Io.Agreement
import Luaxx.Tm.Events
import Luaxx.Tm.Flags
import Luaxx.Tm.Cache
import Luaxx.Code.Meaning
import Luaxx.Gc.Runs
import Luaxx.Intern.Lstring
import Luaxx.Intern.Interning
import Luaxx.Vm.Concat
import Luaxx.Table.Length
import Luaxx.Parser.Verified
import Luaxx.Tm.Newindex
import Luaxx.Pattern.Offsets
import Luaxx.Parser.LocalNames
import Luaxx.Table.Sizing
import Luaxx.Lib.Failures
import Luaxx.Table.Allocations
import Luaxx.Table.Failures
import Luaxx.Auxlib.References
import Luaxx.Pattern.Captures
import Luaxx.Pattern.Strlib
import Luaxx.Pattern.Plain
import Luaxx.Pattern.Replace
import Luaxx.Format.Format
import Luaxx.Format.Bounds
import Luaxx.Lib.Traced
import Luaxx.Lib.Segments
import Luaxx.Tablib.Sort
import Luaxx.Tablib.Quicksort
import Luaxx.Tablib.Sorted
import Luaxx.Lexer.Zio
import Luaxx.Lexer.Llex
import Luaxx.Lexer.Chunks
import Luaxx.Lexer.Quoted
import Luaxx.Lexer.Loading
import Luaxx.Json.Growth
import Luaxx.Bstring.Deleting
import Luaxx.Bstring.Appending
import Luaxx.Zip.Reading
import Luaxx.Http.Bookmarks
import Luaxx.Http.Levels
import Luaxx.Http.Buffers
import Luaxx.Lib.SmallFloat
import Luaxx.Core.FloatByte
import Luaxx.Parser.Constructor
import Luaxx.Lexer.Reference
import Luaxx.Lexer.Views
import Luaxx.Lexer.Scanning
import Luaxx.Lexer.Brackets
import Luaxx.Lexer.Tokens
import Luaxx.Lexer.Items
import Luaxx.Lexer.Sequence
import Luaxx.Call.Arguments
import Luaxx.Coro.Coroutine
import Luaxx.Coro.Machine
import Luaxx.Coro.Passing
import Luaxx.Coro.Resume
import Luaxx.Coro.Agreement
import Luaxx.Coro.Steps
import Luaxx.Coro.Runs
import Luaxx.Control.Entry
import Luaxx.Control.Machine
import Luaxx.Control.Upvalues
import Luaxx.Control.Frames
import Luaxx.Control.Watched
import Luaxx.Control.Calls
import Luaxx.Control.Protected
import Luaxx.Collector.Heap
import Luaxx.Collector.Mark
import Luaxx.Collector.Sweep
import Luaxx.Collector.Mutator
import Luaxx.Collector.Invariant
import Luaxx.Collector.Marking
import Luaxx.Collector.Traversal
import Luaxx.Collector.Propagation
import Luaxx.Collector.Ground
import Luaxx.Collector.Atomic
import Luaxx.Collector.Clearing
import Luaxx.Collector.Cycle
import Luaxx.Collector.Freeing
import Luaxx.Collector.Sweeping
import Luaxx.Collector.Stores
import Luaxx.Collector.Program
import Luaxx.Collector.Making
import Luaxx.Collector.Finalizing
import Luaxx.Collector.Running
