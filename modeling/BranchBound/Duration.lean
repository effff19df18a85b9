/-! # Lengths of time

A length of time is a whole number of nanoseconds. -/

namespace BranchBound

/-- A length of time. -/
structure Duration where
  /-- The length in nanoseconds. -/
  nanoseconds : Nat
  deriving DecidableEq, Repr, Inhabited

namespace Duration

/-- No time at all. -/
def zero : Duration := ⟨0⟩

/-- Seconds and nanoseconds together; the nanoseconds may exceed a second. -/
def ofParts (seconds nanoseconds : Nat) : Duration := ⟨seconds * 1000000000 + nanoseconds⟩

/-- A number of milliseconds. -/
def ofMillis (milliseconds : Nat) : Duration := ⟨milliseconds * 1000000⟩

/-- The whole seconds in a length of time. -/
def seconds (d : Duration) : Nat := d.nanoseconds / 1000000000

/-- The nanoseconds beyond the whole seconds. -/
def subseconds (d : Duration) : Nat := d.nanoseconds % 1000000000

/-- The whole milliseconds in a length of time. -/
def millis (d : Duration) : Nat := d.nanoseconds / 1000000

/-- Two lengths of time one after the other. -/
def add (d e : Duration) : Duration := ⟨d.nanoseconds + e.nanoseconds⟩

/-- The time from `e` to `d`. -/
def since (d e : Duration) : Duration := ⟨d.nanoseconds - e.nanoseconds⟩

/-- Seconds and remaining nanoseconds make up the whole. -/
@[simp] theorem ofParts_seconds_subseconds (d : Duration) :
    ofParts d.seconds d.subseconds = d := by
  simp only [ofParts, seconds, subseconds]
  congr 1
  omega

end Duration

end BranchBound
