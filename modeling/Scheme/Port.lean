import Scheme.World
/-!
# Ports

Operations on a closed port fail and change nothing. Closing is for good.
-/

namespace Scheme.World

def closedReader : Reader :=
  { cursor := { upcoming := [], abandoned := some [] } }

def reader (w : World) (ref : Ref .inputPort) : Reader :=
  (w.inputs[ref.index]?).getD closedReader

/-- Uses the reader of an open port and logs what it reports. -/
def withReader {α : Type} (ref : Ref .inputPort) (use : Reader → α × Reader) : Action α :=
  fun w =>
    let r := w.reader ref
    if r.isClosed then fail .inputClosed w
    else
      let (a, r) := use r
      let (entries, r) := r.drain
      let w := w.noteAll entries
      .value a { w with inputs := w.inputs.setIfInBounds ref.index r }

/-- The value of what was read. Failures have been logged by the reader. -/
def receive (reading : Reading) : Action Value :=
  fun w =>
    match reading with
    | .datum d =>
      let (v, heap) := w.heap.build d
      .value v { w with heap }
    | .endOfInput => .value .endOfFile w
    | .failed cause => .fault (.failed cause) w
    | .cutShort => .fault .cutShort w

def readDatum (ref : Ref .inputPort) : Action Value := do
  let reading ← withReader ref Reader.read
  receive reading

/-- A character as a value, the end of file as the object that stands for it. -/
def characterValue (c : Option Char) : Value :=
  match c with
  | some c => .character c
  | none => .endOfFile

def readChar (ref : Ref .inputPort) : Action Value := do
  let c ← withReader ref Reader.readChar
  pure (characterValue c)

def peekChar (ref : Ref .inputPort) : Action Value := do
  let c ← withReader ref Reader.peekChar
  pure (characterValue c)

def closeInput (ref : Ref .inputPort) (w : World) : World :=
  { w with
    inputs := w.inputs.modify ref.index Reader.close
    followers := w.followers.filter (·.port ≠ ref) }

/-- Sets what an input port will read. -/
def provide (ref : Ref .inputPort) (events : List Event) (w : World) : World :=
  { w with inputs := w.inputs.modify ref.index fun r =>
      { r with cursor := { r.cursor with upcoming := events } } }

/-- Lets an open port read what its file holds now beyond the bytes that were taken in. -/
def follow (f : Follower) (w : World) : Follower × World :=
  let (intake, line) := f.intake.settle f.intake.lines (w.reader f.port).cursor.upcoming
  let offset := f.offset + (f.intake.rest.length - intake.rest.length)
  let intake : Intake := { held := intake.held, rest := (w.host.bytesAt f.place).drop offset }
  ({ f with intake, offset }, w.provide f.port (line ++ Event.ofBytes intake.bytes))

/-- Tells the ports that read a file of a change. -/
def fileChanged (place : String) (w : World) : World :=
  if w.followers.any (·.place = place) then
    let step (f : Follower) (done : List Follower × World) : List Follower × World :=
      if f.place = place then
        let (f, w) := done.2.follow f
        (f :: done.1, w)
      else (f :: done.1, done.2)
    let (followers, w) := w.followers.foldr step ([], w)
    { w with followers }
  else w

/-- Tells of a change to what a sink writes. -/
def sinkChanged (sink : Sink) (w : World) : World :=
  match sink with
  | .file place _ => w.fileChanged place
  | _ => w

def sink (w : World) (ref : Ref .outputPort) : Option Sink :=
  (w.outputs[ref.index]?).join

/-- Writes a text, which is flushed at once. -/
def writeText (ref : Ref .outputPort) (text : String) : Action Unit :=
  fun w =>
    match w.sink ref with
    | none => fail .outputClosed w
    | some sink =>
      let { heap, inputs, outputs, followers, host, log, tracing, depth, maxDepth, lastToken } := w
      let (reason, sink, host) := host.write sink text
      let outputs := outputs.setIfInBounds ref.index (some sink)
      let w : World :=
        { heap, inputs, outputs, followers, host, log, tracing, depth, maxDepth, lastToken }
      let w := w.sinkChanged sink
      match reason with
      | none => .value () w
      | some reason => fail (.writeFailed reason) w

def closeOutput (ref : Ref .outputPort) (w : World) : World :=
  match w.sink ref with
  | none => w
  | some sink =>
    let w := { w with outputs := w.outputs.setIfInBounds ref.index none }
    match w.host.flush sink with
    | none => w
    | some reason => w.note (.flushFailed reason)

/-- Adds a port that reads the bytes of a file. -/
def addInput (place : String) (bytes : List UInt8) (w : World) : Ref .inputPort × World :=
  let port := ⟨w.inputs.size⟩
  let followers :=
    if w.host.rules.live then { port, place, intake := { rest := bytes } } :: w.followers
    else w.followers
  (port, { w with inputs := w.inputs.push { cursor := .ofBytes bytes }, followers })

def openInput (name : Value) : Action (Ref .inputPort) := do
  let path ← textOf name
  fun w =>
    let w := { w with host := w.host.want path }
    match w.host.openInput path with
    | .error reason => fail (.cannotRead path reason) w
    | .ok (place, bytes) =>
      let (port, w) := w.addInput place bytes
      .value port w

def openOutput (name : Value) : Action (Ref .outputPort) := do
  let path ← textOf name
  fun w =>
    let w := { w with host := w.host.want path }
    match w.host.openOutput path with
    | .error reason => fail (.cannotWrite path reason) w
    | .ok (sink, host) =>
      let w := { w with host, outputs := w.outputs.push (some sink) }
      .value ⟨w.outputs.size - 1⟩ (w.sinkChanged sink)

end Scheme.World
