import Memra.Lib.Occurs

/-!
# Stop strings, blocking and streaming

`truncateAtStop` cuts the whole text of a blocking response; a `StopScrubber` cuts a stream delta
by delta, holding back text that may become a stop string. Offsets count characters: the source's
byte offsets lie on character boundaries and order cuts alike.
-/

namespace Memra

open Lib

def truncateAtStop (text : List Char) (stops : List (List Char)) : List Char :=
  match earliest stops text with
  | some offset => text.take offset
  | none => text

/-- Longest proper prefix of `tag` that `s` ends with. -/
def partialStopSuffix (s tag : List Char) : ℕ := borderLen s tag

structure StopScrubber where
  stops : List (List Char)
  buf : List Char
  done : Bool
deriving DecidableEq, Repr

namespace StopScrubber

def new (stops : List (List Char)) : StopScrubber := { stops, buf := [], done := false }

/-- How much of the buffer may be the start of a stop string. -/
def keep (stops : List (List Char)) (buf : List Char) : ℕ :=
  ((stops.map (partialStopSuffix buf)).max?).getD 0

/-- Feed a content delta; returns the text now safe to emit. -/
def push (st : StopScrubber) (text : List Char) : StopScrubber × List Char :=
  if st.done then (st, [])
  else
    let buf := st.buf ++ text
    match earliest st.stops buf with
    | some i => ({ st with buf := [], done := true }, buf.take i)
    | none =>
      let emitTo := buf.length - keep st.stops buf
      ({ st with buf := buf.drop emitTo }, buf.take emitTo)

/-- End of stream: release held-back text. -/
def finish (st : StopScrubber) : StopScrubber × List Char :=
  if st.done then ({ st with buf := [] }, []) else ({ st with buf := [] }, st.buf)

/-- The pushes of a stream, with the text emitted so far. -/
def pushAll : StopScrubber → List (List Char) → StopScrubber × List Char
  | st, [] => (st, [])
  | st, text :: rest =>
    let (st, out) := st.push text
    let (st, outs) := st.pushAll rest
    (st, out ++ outs)

end StopScrubber

/-- The content deltas of a finished stream, joined (`sse_response`: one `push` for each delta, then
`finish`). The scrubber is installed only when there is a stop string. -/
def streamText (stops : List (List Char)) (deltas : List (List Char)) : List Char :=
  if stops.isEmpty then deltas.flatten
  else
    let (st, out) := (StopScrubber.new stops).pushAll deltas
    out ++ st.finish.2

/-- The content of a finished blocking response to the same deltas (`blocking_response`). -/
def blockingText (stops : List (List Char)) (deltas : List (List Char)) : List Char :=
  truncateAtStop deltas.flatten stops

end Memra
