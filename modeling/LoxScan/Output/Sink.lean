import LoxScan.Text.Utf8

/-!
# Sinks

A sink takes text and keeps its bytes. It may have room for only so many of them, and one of its
flushes may fail. The write that runs out of room still keeps the bytes that fit; the sink is full
from then on, and every write that has something to add fails.

* **`toList_write`**: after a write a sink holds the bytes it had and those of the text, as far as
  there is room.
* **`write_error_iff`**: a write fails exactly if its bytes do not all fit. A write of nothing never
  fails, and neither does one that fills the sink to the last byte.
-/

namespace LoxScan

/-- Why writing to a stream or reading from one failed. -/
inductive StreamError
  | sinkFull
  | flushFailed
  | invalidUtf8
deriving DecidableEq

/-- The text of a failure. -/
def StreamError.text : StreamError → String
  | sinkFull => "sink full"
  | flushFailed => "flush failed"
  | invalidUtf8 => "stream did not contain valid UTF-8"

/-- What was written, the number of flushes so far, how many bytes there is room for in all, and
which flush fails, counted from one. -/
structure Sink where
  capacity : Option Nat := none
  failingFlush : Option Nat := none
  written : Array UInt8 := #[]
  flushes : Nat := 0
deriving DecidableEq

namespace Sink

/-- The bytes that a sink holds. -/
def toList (s : Sink) : List UInt8 :=
  s.written.toList

/-- Those of some bytes for which there is room. -/
def fitting (s : Sink) (bytes : List UInt8) : List UInt8 :=
  match s.capacity with
  | none => bytes
  | some room => bytes.take (room - s.written.size)

/-- Writes a text as far as there is room. -/
def write (s : Sink) (text : String) : Sink × Option StreamError :=
  let bytes := Utf8.encode text.toList
  let fits := s.fitting bytes
  ({ s with written := s.written ++ fits.toArray },
    if fits.length < bytes.length then some .sinkFull else none)

/-- Flushes a sink. A flush that fails is counted like any other. -/
def flush (s : Sink) : Sink × Option StreamError :=
  ({ s with flushes := s.flushes + 1 },
    if s.failingFlush = some (s.flushes + 1) then some .flushFailed else none)

/-- A write adds the bytes for which there is room. -/
@[simp] theorem toList_write (s : Sink) (text : String) :
    (s.write text).1.toList = s.toList ++ s.fitting (Utf8.encode text.toList) := by
  simp [write, toList]

@[simp] theorem toList_flush (s : Sink) : s.flush.1.toList = s.toList :=
  rfl

@[simp] theorem capacity_write (s : Sink) (text : String) :
    (s.write text).1.capacity = s.capacity :=
  rfl

@[simp] theorem flushes_write (s : Sink) (text : String) : (s.write text).1.flushes = s.flushes :=
  rfl

@[simp] theorem capacity_flush (s : Sink) : s.flush.1.capacity = s.capacity :=
  rfl

@[simp] theorem flushes_flush (s : Sink) : s.flush.1.flushes = s.flushes + 1 :=
  rfl

/-- A write fails exactly if its bytes do not all fit. -/
theorem write_error_iff (s : Sink) (text : String) :
    (s.write text).2 = some .sinkFull ↔
      (s.fitting (Utf8.encode text.toList)).length < (Utf8.encode text.toList).length := by
  simp [write]

end Sink

end LoxScan
