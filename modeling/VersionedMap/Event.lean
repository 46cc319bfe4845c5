/-!
# Events

What a map reports about its own upkeep. Events carry facts only; how a report is
worded is settled here once, by `Event.level` and `Event.message`.
-/

namespace VersionedMap

/-- A report of upkeep. -/
inductive Event
  /--
  A bucket moved the bulk of its reader count off the reference word. Gives the identifier
  of the current version and the count before the move.
  -/
  | rebalanced (id count : UInt32)
  /-- A table was replaced by a larger one with all its items. -/
  | grew (before after count : Nat)
  /-- A table was replaced by an empty one of the same size. -/
  | cleared (buckets : Nat)
deriving DecidableEq

/-- The importance of an event. -/
def Event.level : Event → String
  | .rebalanced .. => "TRACE"
  | .grew .. | .cleared .. => "DEBUG"

/-- The text of an event. -/
def Event.message : Event → String
  | .rebalanced .. => "rebalanced bucket reference count"
  | .grew .. => "grew state"
  | .cleared .. => "cleared state"

end VersionedMap
