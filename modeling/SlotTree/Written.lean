/-
  Written — the text of a key or a value.

  A tree of any keys can be drawn once the keys have a text. Strings are
  written between double quotes, with escapes for the quote, the backslash and
  the control characters.
-/
namespace SlotTree

/-- Things that have a text. -/
class Written (α : Type) where
  text : α → String

/-- Whether a character is a control character. -/
def isControl (c : Char) : Bool := c.toNat < 32 || (127 ≤ c.toNat && c.toNat < 160)

/-- A number in lower-case hexadecimal digits, without leading zeros. -/
def hexText (n : Nat) : String := String.ofList (Nat.toDigits 16 n)

/-- What is written for a character between double quotes. -/
def escaped (c : Char) : String :=
  if c = '"' then "\\\""
  else if c = '\\' then "\\\\"
  else if c = '\n' then "\\n"
  else if c = '\r' then "\\r"
  else if c = '\t' then "\\t"
  else if c.toNat = 0 then "\\0"
  else if isControl c then "\\u\x7b" ++ hexText c.toNat ++ "\x7d"
  else c.toString

/-- A string between double quotes. -/
def quoted (s : String) : String := "\"" ++ String.join (s.toList.map escaped) ++ "\""

/-- Texts with commas between them. -/
def commaSeparated (texts : List String) : String := String.intercalate ", " texts

instance : Written Int := ⟨fun n => toString n⟩

instance : Written String := ⟨quoted⟩

end SlotTree
