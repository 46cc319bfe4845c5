import VersionedMap.Text.Unprintable

/-!
# Quoted texts

A text is printed between double quotes. A double quote and a backslash inside it are
written with a backslash before them, the usual controls by a letter, and any other
character that is not printed by its code in braces.
-/

namespace VersionedMap.Text

/-- The digits of a number in base sixteen, small letters. -/
def hexDigits (n : Nat) : List Char := Nat.toDigits 16 n

/-- How a character is written between double quotes. -/
def escape : Char → List Char
  | '"' => ['\\', '"']
  | '\\' => ['\\', '\\']
  | '\n' => ['\\', 'n']
  | '\r' => ['\\', 'r']
  | '\t' => ['\\', 't']
  | '\x00' => ['\\', '0']
  | c =>
    if isUnprintable c then ['\\', 'u', '\x7b'] ++ hexDigits c.toNat ++ ['\x7d'] else [c]

/-- A text between double quotes. -/
def quote (s : String) : String := String.ofList ('"' :: s.toList.flatMap escape ++ ['"'])

/-- Types whose values can be shown in the listing of a map. -/
class Shown (α : Type) where
  /-- The text of a value. -/
  shown : α → String

instance : Shown UInt64 := ⟨fun n => toString n.toNat⟩

instance : Shown Int64 := ⟨fun n => toString n.toInt⟩

instance : Shown String := ⟨quote⟩

end VersionedMap.Text
