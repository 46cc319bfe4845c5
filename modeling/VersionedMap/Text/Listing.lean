import VersionedMap.Text.Quoted

/-!
# Listings

The listing of a map is its entries between braces, a colon after every key. It comes in
one line, or with every entry on a line of its own.
-/

namespace VersionedMap.Text

variable {κ ν : Type} [Shown κ] [Shown ν]

/-- One entry of a listing. -/
def listEntry (e : κ × ν) : String := Shown.shown e.1 ++ ": " ++ Shown.shown e.2

/-- The entries of a map in one line. -/
def listing (l : List (κ × ν)) : String :=
  "\x7b" ++ ", ".intercalate (l.map listEntry) ++ "\x7d"

/-- The entries of a map on lines of their own. -/
def longListing (l : List (κ × ν)) : String :=
  if l.isEmpty then listing l
  else "\x7b\n" ++ String.join (l.map fun e => "    " ++ listEntry e ++ ",\n") ++ "\x7d"

/-- The entries of a map, on lines of their own if `long` is set. -/
def list (long : Bool) (l : List (κ × ν)) : String := if long then longListing l else listing l

/-- What stands for the listing of a view that has been freed. -/
def freedView : String := "LockedMap \x7b freed \x7d"

end VersionedMap.Text
