import Mathlib.Algebra.Group.Nat.Defs
import Mathlib.Tactic.Common

/-!
# Sizes and limits

The constants of `fs.h`, `bblog.h`, `batch.c`, `blog.c` and of the log headers, for the build of `Android.mk`
(`PER_FILE_BATCHING`, `BATCH_BLOCKS`, `BUFFER_BATCHING`), and `noBatchBufferSize`, the record buffer of the build
without `BUFFER_BATCHING`.
-/

namespace Cosmost

/-- `PATH_MAX`. -/
def pathMax : Nat := 4096

/-- `LOGGER_ENTRY_MAX_PAYLOAD`. -/
def loggerEntryMaxPayload : Nat := 4076

/-- `BUFFER_SIZE` with `BUFFER_BATCHING`. -/
def bufferSize : Nat := pathMax + pathMax

/-- `BUFFER_SIZE` without `BUFFER_BATCHING`. -/
def noBatchBufferSize : Nat := loggerEntryMaxPayload - 64

/-- `IOSTR_BUFSIZE`. -/
def iostrBufsize : Nat := bufferSize - pathMax

/-- `PID_MAX`. -/
def pidMax : Nat := 32767

/-- `MAX_PREFIX_LEN` of `bblog.h`, and `MAX_PREFIX_SIZE` of `blog.c`. -/
def maxPrefixLen : Nat := 512

/-- `PIBR_BUF_SIZE`: the payload less the packed word. -/
def pibrBufSize : Nat := loggerEntryMaxPayload - 8

theorem bufferSize_eq : bufferSize = 8192 := rfl
theorem noBatchBufferSize_eq : noBatchBufferSize = 4012 := rfl
theorem iostrBufsize_eq : iostrBufsize = 4096 := rfl
theorem loggerEntryMaxPayload_eq : loggerEntryMaxPayload = 4076 := rfl
theorem pibrBufSize_eq : pibrBufSize = 4068 := rfl
theorem pidMax_eq : pidMax = 32767 := rfl
theorem maxPrefixLen_eq : maxPrefixLen = 512 := rfl

end Cosmost
