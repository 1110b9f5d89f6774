/-!
The figures of a service at one moment, as text for people and as compact JSON.
-/
namespace Standstill

structure Stats where
  threadsCount : Nat := 0
  peakCount : Nat := 0
  totalStarts : Nat := 0
  nonDaemonCount : Nat := 0
  mutexesInUse : Nat := 0
  condsInUse : Nat := 0
  suspendRequests : Nat := 0
  resumeRequests : Nat := 0
  suspendAllCount : Nat := 0
  suspendWaitMicros : Nat := 0
  contentionCount : Nat := 0
  contentionMicros : Nat := 0
  deriving DecidableEq, Repr

namespace Stats

/-- Decimal digits, moved right by blanks to a column of `width` characters. -/
def column (width n : Nat) : String :=
  let digits := toString n
  "".pushn ' ' (width - digits.length) ++ digits

def text (s : Stats) : String :=
  "Runtime Statistics:\n"
  ++ "  Threads:            live " ++ column 6 s.threadsCount ++ ", peak " ++ column 6 s.peakCount
  ++ ", started " ++ column 8 s.totalStarts ++ "\n"
  ++ "  Non-daemon threads: " ++ column 6 s.nonDaemonCount ++ "\n"
  ++ "  Pools:              mutexes " ++ column 6 s.mutexesInUse ++ ", conds "
  ++ column 6 s.condsInUse ++ "\n"
  ++ "  Suspension:         suspend " ++ column 6 s.suspendRequests ++ ", resume "
  ++ column 6 s.resumeRequests ++ ", suspend-all " ++ column 6 s.suspendAllCount ++ ", wait "
  ++ column 10 s.suspendWaitMicros ++ " us\n"
  ++ "  Lock contention:    " ++ column 6 s.contentionCount ++ " waits, "
  ++ column 10 s.contentionMicros ++ " us\n"

/-- The figures with their names, in the order in which they are written. -/
def fields (s : Stats) : List (String × Nat) :=
  [("threads_count", s.threadsCount), ("peak_count", s.peakCount),
   ("total_starts", s.totalStarts), ("non_daemon_count", s.nonDaemonCount),
   ("mutexes_in_use", s.mutexesInUse), ("conds_in_use", s.condsInUse),
   ("suspend_requests", s.suspendRequests), ("resume_requests", s.resumeRequests),
   ("suspend_all_count", s.suspendAllCount), ("suspend_wait_total_us", s.suspendWaitMicros),
   ("lock_contention_count", s.contentionCount),
   ("lock_contention_total_us", s.contentionMicros)]

end Stats

end Standstill
