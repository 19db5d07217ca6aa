/-!
# CallGrammar.Span

Places in a source text.  A `Span` is a half-open range of byte offsets; the
syntax trees and the reader of trees know no more about places than that two
of them have a least place covering both (`Location`).
-/

namespace CallGrammar

/-- A kind of place in which any two places `a` and `b` can be joined to the
place `merge a b` that reaches from the one to the other. -/
class Location (σ : Type) where
  merge : σ → σ → σ

/-- The bytes from `start` on, up to but not including `stop`. -/
structure Span where
  start : Nat
  stop : Nat
  deriving DecidableEq, Inhabited

namespace Span

/-- The span of a node that stands nowhere. -/
def nowhere : Span := ⟨0, 0⟩

/-- The least span that covers both. -/
def merge (a b : Span) : Span :=
  ⟨min a.start b.start, max a.stop b.stop⟩

instance : Location Span := ⟨merge⟩

/-- A span that covers no byte: it ends where it starts, or earlier. -/
def isEmpty (s : Span) : Bool := s.stop ≤ s.start

/-- The span moved `n` bytes to the right. -/
def shift (n : Nat) (s : Span) : Span := ⟨s.start + n, s.stop + n⟩

end Span

end CallGrammar
