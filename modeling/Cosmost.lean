import Cosmost.Lib.Run
import Cosmost.Lib.Interval
import Cosmost.Fs.Scope
import Cosmost.Fs.Unlink
import Cosmost.Fs.Rename
import Cosmost.Fs.Create
import Cosmost.Fs.Naming
import Cosmost.Fs.Format
import Cosmost.ProcessName.Shared
import Cosmost.Batch.Report
import Cosmost.Batch.Hull
import Cosmost.Batch.Attribution
import Cosmost.Lib.Total
import Cosmost.Lib.Pieces
import Cosmost.Bblog.Exit
import Cosmost.Bblog.Packed
import Cosmost.Bblog.Install
import Cosmost.Bblog.Agree
import Cosmost.Bblog.Wait
import Cosmost.Bblog.Whole
import Cosmost.Bblog.Bounds
import Cosmost.Bblog.Live
import Cosmost.Bblog.Fallback
import Cosmost.Bblog.Naming
import Cosmost.Signal
import Cosmost.Batch.Transfer
import Cosmost.Batch.OneOpen
import Cosmost.Batch.Inherit
import Cosmost.Bblog.Reentry
import Cosmost.Batch.Merge
import Cosmost.Batch.Blocks
import Cosmost.Fs.Decision
import Cosmost.Lib.Owners
import Cosmost.Tracer.Slots
import Cosmost.Flusher.Life
import Cosmost.Flusher.Idle
import Cosmost.Record
import Cosmost.Bblog.Leak
import Cosmost.Timer
import Cosmost.Blog.Shared
import Cosmost.Tracer.Flush
import Cosmost.Batch.Codec
import Cosmost.Lib.JsonText
import Cosmost.Batch.Text
import Cosmost.Batch.Told
import Cosmost.Bblog.Entry
import Cosmost.Bblog.Numbered
import Cosmost.Log
import Cosmost.Lib.Ring
import Cosmost.Tracer.Queue
import Cosmost.Fs.Mmap
import Cosmost.Fs.Program
import Cosmost.Fs.Replay
import Cosmost.Fs.Told
import Cosmost.ProcessLog
import Cosmost.Ended
import Cosmost.Tracer.Drain
import Cosmost.Lifetime
import Cosmost.Interleaved
