import LoxScan.Output.Sink

/-!
# Writers

A writer takes text and flushes, and keeps failures to itself. It is what remains of an output for
one who writes messages and has no use for knowing that they did not arrive. A sink is a writer once
its failures are passed over.
-/

namespace LoxScan

/-- Something that text can be written to, whether it arrives or not. -/
class Writer (ω : Type) where
  /-- Writes a text. -/
  write : ω → String → ω
  /-- Sees to it that what was written arrives. -/
  flush : ω → ω

instance : Writer Sink where
  write s text := (s.write text).1
  flush s := s.flush.1

/-- Writes texts in order. -/
def Writer.writeAll {ω : Type} [Writer ω] (w : ω) (texts : List String) : ω :=
  texts.foldl write w

end LoxScan
