/-!
# Refusals

Why a request gets no answer of its own. A refused request changes nothing. Each refusal
is a cause; its code and, where it has one, its message are given here once.

A request can have several faults. It first says what it is about: a version, a reader,
the writer. If that is not there, the request is refused for it, whatever else is wrong.
So the rest of a request, its **arguments**, comes with it read or unread.
-/

namespace VersionedMap

/-- A reason for not carrying out a request. -/
inductive Refusal
  /-- The request cannot be read: the named part is missing or wrong. -/
  | unreadable (part : String)
  /-- The request holds something that should be a key with its value, and is not. -/
  | notAPair
  /-- The view of the map has been freed. -/
  | viewFreed
  /-- No version goes by that number. -/
  | noEntry
  /-- The number is taken. -/
  | inUse
  /-- No reader goes by that number. -/
  | noReader
  /-- The request would wait for a lock that only the requester can release. -/
  | wouldBlock
  /-- One more acquisition would carry out of the reader count. -/
  | wouldCarry
  /-- The lock is not held. -/
  | notLocked
  /-- The lock is not held without a writer. -/
  | notExclusive
  /-- There is no writer. -/
  | noWriter
  /-- A draft has been prepared already. -/
  | prepared
  /-- No draft has been prepared. -/
  | notPrepared
  /-- The bucket is locked or has a version. -/
  | notFresh
  /-- The table would outgrow its limit. -/
  | tooLarge
  /-- As many requests wait as may. -/
  | busy
  /-- The request has its place elsewhere. -/
  | notHere
deriving DecidableEq

namespace Refusal

/-- The kind of a refusal. -/
def code : Refusal → String
  | unreadable _ | notAPair => "bad_input"
  | viewFreed => "panic"
  | noEntry => "no_entry"
  | inUse => "in_use"
  | noReader => "no_reader"
  | wouldBlock => "would_block"
  | wouldCarry => "would_carry"
  | notLocked => "not_locked"
  | notExclusive => "not_exclusive"
  | noWriter => "no_writer"
  | prepared => "prepared"
  | notPrepared => "not_prepared"
  | notFresh => "not_fresh"
  | tooLarge => "too_large"
  | busy => "busy"
  | notHere => "not_here"

/-- The text that goes with some refusals. -/
def message? : Refusal → Option String
  | unreadable part => some ("field " ++ part)
  | notAPair => some "pair"
  | viewFreed => some "the LockedMap has already been freed"
  | _ => none

end Refusal

/-- An argument of a request, or why it cannot be read. -/
abbrev Argument (α : Type) := Except Refusal α

end VersionedMap
