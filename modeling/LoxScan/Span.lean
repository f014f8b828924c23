import LoxScan.Word

/-!
# Byte ranges of a source text

A `Span` is the half-open byte range of a piece of source. Its bounds are words, so a range of byte
counts is cut off at the largest word bound by bound (`Span.ofRange`). Nothing orders the two
bounds: a span is a pair, and a range written backwards is kept as it is written.
-/

namespace LoxScan

/-- The bytes from `start` up to, but not including, `stop`. -/
structure Span where
  start : Word
  stop : Word
deriving DecidableEq

namespace Span

/-- The span of a range of byte counts, each bound saturated on its own. -/
def ofRange (start stop : Nat) : Span :=
  ⟨Word.saturate start, Word.saturate stop⟩

/-- The empty span at an offset. -/
def point (offset : Word) : Span :=
  ⟨offset, offset⟩

@[simp] theorem start_ofRange (start stop : Nat) :
    (ofRange start stop).start = Word.saturate start :=
  rfl

@[simp] theorem stop_ofRange (start stop : Nat) : (ofRange start stop).stop = Word.saturate stop :=
  rfl

end Span

end LoxScan
