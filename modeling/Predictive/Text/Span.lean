/-
Byte offsets and half-open byte spans. Offsets are recorded up to a fixed limit
and every addition stops there, so a place beyond the limit is reported at it.
-/

namespace Predictive

namespace Offset

/-- The largest offset, line or column that is recorded. -/
def limit : Nat := 4294967295

/-- A size that does not fit is recorded as the limit. -/
def ofSize (size : Nat) : Nat := min size limit

/-- Addition of recorded numbers stops at the limit. -/
def add (left right : Nat) : Nat := min (left + right) limit

theorem add_le_limit (left right : Nat) : add left right ≤ limit :=
  Nat.min_le_right _ _

theorem add_eq_of_le {left right : Nat} (fits : left + right ≤ limit) :
    add left right = left + right :=
  Nat.min_eq_left fits

theorem add_add (base left right : Nat) :
    add (add base left) right = add base (left + right) := by
  simp only [add]
  omega

end Offset

/-- The bytes from `start` up to, and without, `stop`. The bounds are kept as
given: a span whose bounds are reversed has length zero and holds no offset. -/
structure Span where
  start : Nat
  stop : Nat
  deriving DecidableEq, Repr, Inhabited

namespace Span

/-- The span of `length` bytes from `start`. -/
def sized (start length : Nat) : Span := ⟨start, Offset.add start length⟩

def emptyAt (offset : Nat) : Span := ⟨offset, offset⟩

def length (span : Span) : Nat := span.stop - span.start

/-- A span is empty when its bounds agree; reversed bounds do not count. -/
def isEmpty (span : Span) : Bool := span.start == span.stop

def contains (span : Span) (offset : Nat) : Bool :=
  span.start ≤ offset && offset < span.stop

def render (span : Span) : String := s!"{span.start}..{span.stop}"

end Span

end Predictive
