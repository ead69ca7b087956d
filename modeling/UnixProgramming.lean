import UnixProgramming.Pipe.Proc
import UnixProgramming.Pipe.Duplex
import UnixProgramming.Heap.DList
import UnixProgramming.Ssl.Basic
import UnixProgramming.Ssl.Sockio
import UnixProgramming.Ssl.Firewall
import UnixProgramming.Ssl.Spm
import UnixProgramming.Ssl.Store
import UnixProgramming.Pipe.Wp
import UnixProgramming.Ssl.Requests
import UnixProgramming.Ssl.Registration
import UnixProgramming.Ssl.Wedge
import UnixProgramming.Pipe.Broken
import UnixProgramming.Ssl.Writes
import UnixProgramming.Ssl.Decision
import UnixProgramming.Ssl.Rules
import UnixProgramming.Ssl.Reread
import UnixProgramming.Ssl.Restart
import UnixProgramming.Ssl.Residue
import UnixProgramming.Ssl.Library
import UnixProgramming.Ssl.Dialogue
import UnixProgramming.Ssl.Registry
import UnixProgramming.Ssl.Closing
import UnixProgramming.Runs.Basic
import UnixProgramming.Ssl.Smaskwait
import UnixProgramming.Solns.Connection
import UnixProgramming.Ssl.Listing
import UnixProgramming.Pipe.Delivery
import UnixProgramming.Ssl.Formats
import UnixProgramming.Ssl.Sscanf
import UnixProgramming.Solns.Memmap
import UnixProgramming.Solns.Signals
import UnixProgramming.Ssl.Strings
import UnixProgramming.Ssl.Sreadbytes
import UnixProgramming.Ssl.Pieces
import UnixProgramming.Ssl.Scanf
import UnixProgramming.Ssl.Matching
import UnixProgramming.Ssl.Measure
import UnixProgramming.Ssl.Texts
import UnixProgramming.Ssl.Returned
import UnixProgramming.Ssl.Stored
import UnixProgramming.Dbg.Basic
import UnixProgramming.Dbg.Calls
import UnixProgramming.Dbg.Commands
import UnixProgramming.Dbg.Effects
import UnixProgramming.Dbg.Prerequisites
import UnixProgramming.Dbg.Database
import UnixProgramming.Dbg.Words
import UnixProgramming.Dbg.Lines
import UnixProgramming.Dbg.Grammar
import UnixProgramming.Dbg.Nesting
import UnixProgramming.Dbg.Jumps
import UnixProgramming.Dbg.Chain
import UnixProgramming.Dbg.Redirect
import UnixProgramming.Dbg.Alike
import UnixProgramming.Dbg.Threads
import UnixProgramming.Heap.Chars
import UnixProgramming.Heap.Keyed
import UnixProgramming.Pipe.Answers
import UnixProgramming.Ssl.Descriptors
import UnixProgramming.Ssl.Escapes
import UnixProgramming.Ssl.Paths
import UnixProgramming.Ssl.Caller
import UnixProgramming.Ssl.Sopenv
import UnixProgramming.Dbg.Paths
import UnixProgramming.Dbg.Visible
import UnixProgramming.Dbg.Names
import UnixProgramming.Dbg.History
import UnixProgramming.Dbg.Arrays
import UnixProgramming.Dbg.Initdbg
import UnixProgramming.Heap.Cursor
import UnixProgramming.Ssl.Pointers
import UnixProgramming.Dbg.Tokens
import UnixProgramming.Ssl.Rdcolor
import UnixProgramming.Solns.Matmult
import UnixProgramming.Thrd.Pingpong
import UnixProgramming.Solns.Uplister
import UnixProgramming.Solns.Interceptor
import UnixProgramming.Solns.Locks
import UnixProgramming.Solns.Packets
import UnixProgramming.Calls.Prog
import UnixProgramming.Calls.Pool
import UnixProgramming.Calls.Order
import UnixProgramming.Heap.File
import UnixProgramming.Heap.Layout
import UnixProgramming.Heap.Chain
import UnixProgramming.Db.Basic
import UnixProgramming.Db.Interface
import UnixProgramming.Db.Record
import UnixProgramming.Db.Image
import UnixProgramming.Db.Table
import UnixProgramming.Db.Terms
import UnixProgramming.Db.Reads
import UnixProgramming.Db.Frame
import UnixProgramming.Db.Writes
import UnixProgramming.Db.Steps
import UnixProgramming.Db.Search
import UnixProgramming.Db.Remove
import UnixProgramming.Db.Insert
import UnixProgramming.Db.Store
import UnixProgramming.Db.Open
import UnixProgramming.Db.Library
import UnixProgramming.Db.Order
import UnixProgramming.Db.Crash
import UnixProgramming.Db.Alone
import UnixProgramming.Db.Scan
import UnixProgramming.Counted.Basic
import UnixProgramming.Counted.Table
import UnixProgramming.Counted.Terms
import UnixProgramming.Counted.Steps
import UnixProgramming.Counted.Threads
import UnixProgramming.Counted.Alloc
import UnixProgramming.Counted.Hold
import UnixProgramming.Counted.Rele
import UnixProgramming.Counted.Library
import UnixProgramming.Counted.Order
