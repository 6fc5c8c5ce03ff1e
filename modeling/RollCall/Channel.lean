/-!
# Channels

What a session reads comes in pieces, and reading can be interrupted or fail; what it writes goes to
a sink that may have room for only so many bytes and whose flush may fail. Both are values here, so
that a session can be asked what it does on channels that fail.
-/

namespace RollCall

/-- What one attempt to read brings. -/
inductive Delivery where
  /-- Some bytes; none of them means that the input has ended. -/
  | bytes (piece : List UInt8)
  | interrupted
  | failure (text : String)

/-- What reading to the end has brought, and the failure that ended it if one did. -/
structure Intake where
  bytes : List UInt8
  failure? : Option String

def drain : List Delivery → Intake
  | [] => ⟨[], none⟩
  | .interrupted :: later => drain later
  | .failure text :: _ => ⟨[], some text⟩
  | .bytes piece :: later =>
    if piece.isEmpty then ⟨[], none⟩
    else
      let rest := drain later
      ⟨piece ++ rest.bytes, rest.failure?⟩

/-- Where a session writes: the room that is left, `none` for no limit; the failures of a write that
finds no room and of a flush, if they are not the usual ones; and what has happened so far. -/
structure Sink where
  room : Option Nat := none
  writeFailure? : Option String := none
  flushFailure? : Option String := none
  received : Array UInt8 := #[]
  flushes : Nat := 0

namespace Sink

/-- The failure of a write that finds no room, where the sink has no other text for it. -/
def noRoom : String :=
  "failed to write whole buffer"

/-- The sink after these bytes have reached it. -/
def accept (s : Sink) (bytes : List UInt8) : Sink :=
  { s with
    room := s.room.map (· - bytes.length)
    received := s.received.appendList bytes }

/-- Writes some bytes, or as many of them as there is room for. -/
def write (s : Sink) (bytes : List UInt8) : Except String Unit × Sink :=
  match s.room with
  | none => (.ok (), s.accept bytes)
  | some room =>
    if bytes.length ≤ room then (.ok (), s.accept bytes)
    else (.error (s.writeFailure?.getD noRoom), s.accept (bytes.take room))

def writeEach (s : Sink) : List (List UInt8) → Except String Unit × Sink
  | [] => (.ok (), s)
  | bytes :: rest =>
    match s.write bytes with
    | (.ok (), next) => next.writeEach rest
    | (.error text, next) => (.error text, next)

def flush (s : Sink) : Except String Unit × Sink :=
  (match s.flushFailure? with
    | none => .ok ()
    | some text => .error text,
    { s with flushes := s.flushes + 1 })

end Sink

end RollCall
