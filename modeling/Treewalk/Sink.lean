/-!
# Where output goes

A sink keeps the bytes printed to it, up to a limit if it has one. Of a text that does not fit it
keeps the bytes that do.
-/

namespace Treewalk

/-- Bytes printed so far, and how many there may be. -/
structure Sink where
  bytes : ByteArray := .empty
  limit : Option Nat := none
deriving Inhabited

namespace Sink

/-- How many more bytes of `count` find room. -/
def room (s : Sink) (count : Nat) : Nat :=
  match s.limit with
  | some n => min count (n - s.bytes.size)
  | none => count

/-- Whether all bytes of `text` find room. -/
def fits (s : Sink) (text : String) : Bool := s.room text.utf8ByteSize == text.utf8ByteSize

/-- The sink with the bytes of `text` that find room. -/
def write (s : Sink) (text : String) : Sink :=
  if s.fits text then { s with bytes := s.bytes ++ text.toUTF8 }
  else { s with bytes := s.bytes ++ text.toUTF8.extract 0 (s.room text.utf8ByteSize) }

end Sink

end Treewalk
