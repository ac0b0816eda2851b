import HourlyUsage.Json.Fault

/-!
# White space, words and strings of JSON

Readers of what JSON values are made of.  Each takes the bytes that are left
and returns what it read with the bytes behind it.
-/

namespace HourlyUsage
namespace Json

open Text

/-- A reader returns its result and the bytes behind it. -/
abbrev Reader (α : Type) := Bytes → Except Fault (α × Bytes)

def isSpace (b : UInt8) : Bool :=
  b == Ascii.space || b == Ascii.newline || b == Ascii.tab || b == Ascii.carriageReturn

def skipSpace (bs : Bytes) : Bytes := bs.dropWhile isSpace

def word : (letters : Bytes) → Bytes → Except Fault Bytes
  | [], bs => .ok bs
  | _ :: _, [] => Fault.here .eofInValue []
  | e :: es, b :: bs => if b = e then word es bs else Fault.here .expectedIdent bs

/-! ## Strings -/

/-- The value of four hexadecimal digits. -/
def hex4? (a b c d : UInt8) : Option Nat := do
  let a ← Ascii.hexValue? a
  let b ← Ascii.hexValue? b
  let c ← Ascii.hexValue? c
  let d ← Ascii.hexValue? d
  return ((a * 16 + b) * 16 + c) * 16 + d

def codeUnit : Reader Nat
  | a :: b :: c :: d :: rest =>
    match hex4? a b c d with
    | some n => .ok (n, rest)
    | none => Fault.here .invalidEscape rest
  | _ => Fault.here .eofInString []

/-- Reads one given byte of the second half of a surrogate pair. -/
def pairMark (mark : UInt8) : Bytes → Except Fault Bytes
  | [] => Fault.here .eofInString []
  | b :: rest => if b = mark then .ok rest else Fault.here .unfinishedSurrogatePair rest

/-- Reads what follows the letter of a numeric escape: a code unit, or the two of a surrogate
pair. -/
def numericEscape : Reader Char := fun bs ↦ do
  let (n, rest) ← codeUnit bs
  if 0xDC00 ≤ n ∧ n ≤ 0xDFFF then Fault.here .loneSurrogate rest
  else if 0xD800 ≤ n ∧ n ≤ 0xDBFF then
    let rest ← pairMark Ascii.backslash rest
    let rest ← pairMark Ascii.lowerU rest
    let (low, rest) ← codeUnit rest
    if 0xDC00 ≤ low ∧ low ≤ 0xDFFF then
      return (Char.ofNat (0x10000 + (n - 0xD800) * 0x400 + (low - 0xDC00)), rest)
    else Fault.here .loneSurrogate rest
  else return (Char.ofNat n, rest)

def plainEscape? (b : UInt8) : Option UInt8 :=
  if b = Ascii.quote ∨ b = Ascii.backslash ∨ b = Ascii.slash then some b
  else if b = Ascii.lowerB then some Ascii.backspace
  else if b = Ascii.lowerF then some Ascii.formFeed
  else if b = Ascii.lowerN then some Ascii.newline
  else if b = Ascii.lowerR then some Ascii.carriageReturn
  else if b = Ascii.lowerT then some Ascii.tab
  else none

/-- Reads what follows a backslash. -/
def escape : Reader Bytes
  | [] => Fault.here .eofInString []
  | b :: rest =>
    if b = Ascii.lowerU then do
      let (c, rest) ← numericEscape rest
      return (String.utf8EncodeChar c, rest)
    else match plainEscape? b with
      | some e => .ok ([e], rest)
      | none => Fault.here .invalidEscape rest

/-- Reads the bytes of a string behind its opening quote, and the closing quote.  `fuel` bounds the
characters read. -/
def stringBytes : (fuel : Nat) → Reader Bytes
  | 0, bs => Fault.here .eofInString bs
  | _ + 1, [] => Fault.here .eofInString []
  | fuel + 1, b :: rest =>
    if b = Ascii.quote then .ok ([], rest)
    else if b = Ascii.backslash then do
      let (e, rest) ← escape rest
      let (s, rest) ← stringBytes fuel rest
      return (e ++ s, rest)
    else if b < 0x20 then Fault.here .controlCharacter rest
    else do
      let (s, rest) ← stringBytes fuel rest
      return (b :: s, rest)

/-- Reads a string behind its opening quote.  The bytes of a string in well-formed UTF-8 are
themselves well-formed. -/
def string : Reader String := fun bs ↦ do
  let (s, rest) ← stringBytes (bs.length + 1) bs
  match ofUtf8? s with
  | some s => return (s, rest)
  | none => Fault.here .invalidEscape rest

end Json
end HourlyUsage
