/-
Quoted texts: characters and strings shown between quotes, with every
character that would not print replaced by an escape.

The tab, the line feed, the carriage return, the null character, the
backslash and the quote in use have escapes of their own. Every other
invisible character is written `\u{...}` with its code in lowercase
hexadecimal, and all the rest stand for themselves.
-/
import ChainHead.Text.Invisible

namespace ChainHead.Text.Quoted

/-- The escape of a character by its code. -/
def escape (c : Char) : List Char :=
  "\\u\x7b".toList ++ Nat.toDigits 16 c.toNat ++ "\x7d".toList

/-- One character as it stands between two of the given quotes. -/
def body (quote c : Char) : List Char :=
  if c = quote ∨ c = '\\' then ['\\', c]
  else if c = '\t' then ['\\', 't']
  else if c = '\r' then ['\\', 'r']
  else if c = '\n' then ['\\', 'n']
  else if c.toNat = 0 then ['\\', '0']
  else if Invisible.holds c then escape c
  else [c]

/-- A character between single quotes. -/
def char (c : Char) : String :=
  String.ofList (['\''] ++ body '\'' c ++ ['\''])

/-- A string between double quotes. -/
def string (s : String) : String :=
  String.ofList (['"'] ++ s.toList.flatMap (body '"') ++ ['"'])

/-- Strings between double quotes, in brackets and with commas between. -/
def strings (ss : List String) : String :=
  "[" ++ ", ".intercalate (ss.map string) ++ "]"

end ChainHead.Text.Quoted
