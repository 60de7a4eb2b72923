import InterfaceForms.Text.Basic
import InterfaceForms.Text.Visible

/-!
# Quoted texts

A text is quoted by writing each of its characters so that neither the closing quote nor anything
that cannot be seen stands in it. There are two such writings: that of JSON, which spells out
control characters only, and that of the debug view, which spells out every character that is not
visible.
-/

namespace InterfaceForms.Text

/-- The lower-case hexadecimal digits of a number. -/
def ofHex (n : Nat) : Text := Nat.toDigits 16 n

/-- The text between double quotes, each character written by `escape`. -/
def quoteWith (escape : Char → Text) (t : Text) : Text := '"' :: t.flatMap escape ++ ['"']

/-- A character in a JSON string. -/
def escapeJson (c : Char) : Text :=
  if c = '"' then ['\\', '"']
  else if c = '\\' then ['\\', '\\']
  else if c = '\x08' then ['\\', 'b']
  else if c = '\x0c' then ['\\', 'f']
  else if c = '\n' then ['\\', 'n']
  else if c = '\r' then ['\\', 'r']
  else if c = '\t' then ['\\', 't']
  else if c.toNat < 16 then "\\u000".toList ++ ofHex c.toNat
  else if c.toNat < 32 then "\\u00".toList ++ ofHex c.toNat
  else [c]

def quoteJson (t : Text) : Text := quoteWith escapeJson t

/-- A character in a string of the debug view. -/
def escapeDebug (c : Char) : Text :=
  if c = '"' then ['\\', '"']
  else if c = '\\' then ['\\', '\\']
  else if c = '\x00' then ['\\', '0']
  else if c = '\n' then ['\\', 'n']
  else if c = '\r' then ['\\', 'r']
  else if c = '\t' then ['\\', 't']
  else if isVisible c then [c]
  else "\\u\x7b".toList ++ ofHex c.toNat ++ ['\x7d']

def quoteDebug (t : Text) : Text := quoteWith escapeDebug t

end InterfaceForms.Text
