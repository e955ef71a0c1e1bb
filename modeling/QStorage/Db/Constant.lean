import Mathlib.Tactic.Ring

/-!
# Constants of the log (`db/constant.h`)
-/

namespace QStorage.Db

/-- The page of the disk; log writes are multiples of it. -/
def kBlockSize : ℕ := 8 * 1024

/-- Bytes of the ring buffer, a power of two. -/
def kBufferSize : ℕ := 8 * 1024 * 1024

def kBufferSizeMask : ℕ := kBufferSize - 1

def kPageSize : ℕ := 4 * 1024

def kLogFileSize : ℕ := 1024 * 1024 * 1024

theorem kBufferSize_eq : kBufferSize = 2 ^ 23 := rfl

theorem kBufferSizeMask_eq : kBufferSizeMask = 2 ^ 23 - 1 := rfl

end QStorage.Db
