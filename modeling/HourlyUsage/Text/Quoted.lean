import HourlyUsage.Text.Unprintable

/-!
# Quoted text in messages

A message shows a text between double quotes.  Quotes, backslashes and
characters without a shape of their own are escaped, so the message stays on
one line and shows every character.
-/

namespace HourlyUsage
namespace Text

/-- The character as it stands between quotes. -/
def quotedChar (c : Char) : List Char :=
  if c = '\x00' then ['\\', '0']
  else if c = '\t' then ['\\', 't']
  else if c = '\n' then ['\\', 'n']
  else if c = '\r' then ['\\', 'r']
  else if c = '"' ∨ c = '\\' then ['\\', c]
  else if isUnprintable c then
    '\\' :: 'u' :: '\x7b' :: (Nat.toDigits 16 c.toNat ++ ['\x7d'])
  else [c]

def quoted (s : String) : String :=
  String.ofList ('"' :: (s.toList.flatMap quotedChar ++ ['"']))

end Text
end HourlyUsage
