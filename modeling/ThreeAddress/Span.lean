import ThreeAddress.Text.Basic

/-! Extents of source text. -/

namespace ThreeAddress

/-- An extent of source text: the offset of its first byte and the offset behind its last. -/
structure Span where
  start : UInt64
  stop : UInt64
deriving DecidableEq, Repr

namespace Span

def null : Span := ⟨0, 0⟩

def isNull (span : Span) : Bool :=
  span == null

/-- The number of bytes, which wraps around for a span that ends before it starts. -/
def length (span : Span) : UInt64 :=
  span.stop - span.start

/-- The least span around both, where the span of nothing adds nothing. -/
def extend (span other : Span) : Span :=
  if span.isNull then other
  else if other.isNull then span
  else
    { start := if other.start < span.start then other.start else span.start
      stop := if other.stop > span.stop then other.stop else span.stop }

def text (span : Span) : Text :=
  "(" ++ Text.ofNat span.start.toNat ++ "…" ++ Text.ofNat span.stop.toNat ++ ")"

end Span

end ThreeAddress
