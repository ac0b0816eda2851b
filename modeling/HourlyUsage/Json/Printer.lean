import HourlyUsage.Calendar.Timestamp.Text
import HourlyUsage.Json.Value

/-!
# Printed JSON

Values as bytes, either compact or laid out with two spaces for each level.
Strings escape quotes, backslashes and control characters, and nothing else;
a floating-point number that is not finite is null.
-/

namespace HourlyUsage
namespace Json

open Text

/-- The byte as it stands between quotes. -/
def printByte (b : UInt8) : Bytes :=
  if b = Ascii.quote ∨ b = Ascii.backslash then [Ascii.backslash, b]
  else if b = Ascii.backspace then [Ascii.backslash, Ascii.lowerB]
  else if b = Ascii.tab then [Ascii.backslash, Ascii.lowerT]
  else if b = Ascii.newline then [Ascii.backslash, Ascii.lowerN]
  else if b = Ascii.formFeed then [Ascii.backslash, Ascii.lowerF]
  else if b = Ascii.carriageReturn then [Ascii.backslash, Ascii.lowerR]
  else if b < 0x20 then
    [Ascii.backslash, Ascii.lowerU, Ascii.zero, Ascii.zero, Ascii.hexByte (b.toNat / 16),
      Ascii.hexByte (b.toNat % 16)]
  else [b]

def printString (s : String) : Bytes :=
  Ascii.quote :: ((utf8 s).flatMap printByte ++ [Ascii.quote])

def ascii (cs : List Char) : Bytes := cs.map fun c ↦ c.toUInt8

def printInt (n : Int) : Bytes := ascii (signedDecimal n)

def printFloat (x : Binary64) : Bytes :=
  if x.isFinite then ascii x.chars else ascii ['n', 'u', 'l', 'l']

def printInstant (t : Instant) : Bytes := Ascii.quote :: (ascii t.chars ++ [Ascii.quote])

def separate (separator : Bytes) : List Bytes → Bytes
  | [] => []
  | [b] => b
  | b :: bs => b ++ separator ++ separate separator bs

/-! ## Compact form -/

def compactArray (items : List Bytes) : Bytes :=
  Ascii.openBracket :: (separate [Ascii.comma] items ++ [Ascii.closeBracket])

/-- An object of members whose values are printed already. -/
def compactObject (members : List (String × Bytes)) : Bytes :=
  Ascii.openBrace ::
    (separate [Ascii.comma] (members.map fun m ↦ printString m.1 ++ Ascii.colon :: m.2) ++
      [Ascii.closeBrace])

mutual

def Value.print : Value → Bytes
  | .null => ascii ['n', 'u', 'l', 'l']
  | .bool b => ascii (if b then ['t', 'r', 'u', 'e'] else ['f', 'a', 'l', 's', 'e'])
  | .number (.int n) => printInt n
  | .number (.float x) => printFloat x
  | .string s => printString s
  | .array items => compactArray (printItems items)
  | .object members => compactObject (printMembers members)

def printItems : List Value → List Bytes
  | [] => []
  | v :: vs => v.print :: printItems vs

def printMembers : List (String × Value) → List (String × Bytes)
  | [] => []
  | (k, v) :: ms => (k, v.print) :: printMembers ms

end

/-! ## Indented form -/

def freshLine (level : Nat) : Bytes :=
  Ascii.newline :: List.replicate (2 * level) Ascii.space

/-- An array of items that are printed already, the bracket at this level. -/
def indentedArray (level : Nat) (items : List Bytes) : Bytes :=
  if items.isEmpty then [Ascii.openBracket, Ascii.closeBracket]
  else
    Ascii.openBracket :: freshLine (level + 1) ++
      separate (Ascii.comma :: freshLine (level + 1)) items ++ freshLine level ++
      [Ascii.closeBracket]

/-- An object of members whose values are printed already, the brace at this level. -/
def indentedObject (level : Nat) (members : List (String × Bytes)) : Bytes :=
  if members.isEmpty then [Ascii.openBrace, Ascii.closeBrace]
  else
    Ascii.openBrace :: freshLine (level + 1) ++
      separate (Ascii.comma :: freshLine (level + 1))
        (members.map fun m ↦ printString m.1 ++ Ascii.colon :: Ascii.space :: m.2) ++
      freshLine level ++ [Ascii.closeBrace]

end Json
end HourlyUsage
