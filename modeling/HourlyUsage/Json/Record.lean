import HourlyUsage.Json.Skip
import HourlyUsage.Json.Value

/-!
# Records

A record is read from an object, whose members may come in any order and of
which unknown ones are skipped, or from an array with the fields in their
order.  Each field is checked as it is read, so an earlier bad value decides.
-/

namespace HourlyUsage
namespace Json

open Text

/-! ## Field types -/

/-- Refuses the value that stands where another type is expected.  A scalar is read before it is
refused, an array or object is not. -/
def refuse {α : Type} (expected : String) (bs : Bytes) : Except Fault α := do
  match ← scalar? bs with
  | some (.null, rest) => Fault.here (.wrongType .null expected) rest
  | some (.bool b, rest) => Fault.here (.wrongType (.bool b) expected) rest
  | some (.number (.int n), rest) => Fault.here (.wrongType (.integer n) expected) rest
  | some (.number (.float x), rest) => Fault.here (.wrongType (.float x) expected) rest
  | some (.string s, rest) => Fault.here (.wrongType (.string s) expected) rest
  | some (.array _, rest) => Fault.here (.wrongType .array expected) rest
  | some (.object _, rest) => Fault.here (.wrongType .object expected) rest
  | none =>
    Fault.here (.wrongType (if bs.head? = some Ascii.openBracket then .array else .object) expected)
      bs

/-- Reads a string, which is described as `expected` where there is none. -/
def readStringAs (expected : String) : Reader String := fun bs ↦
  match skipSpace bs with
  | [] => Fault.next .eofInValue []
  | b :: rest => if b = Ascii.quote then string rest else refuse expected (b :: rest)

def readString : Reader String := readStringAs "a string"

def readInstant : Reader Instant := fun bs ↦ do
  let (s, rest) ← readStringAs "an RFC 3339 formatted date and time string" bs
  match Timestamp.Relaxed.read s.toList with
  | .ok t => return (t, rest)
  | .error f => Fault.here (.badTimestamp f) rest

def readFloat : Reader Binary64 := fun bs ↦
  match skipSpace bs with
  | [] => Fault.next .eofInValue []
  | b :: rest =>
    if b = Ascii.minus then do
      let (x, rest) ← Number.read true rest
      return (x.toFloat, rest)
    else if Ascii.isDigit b then do
      let (x, rest) ← Number.read false (b :: rest)
      return (x.toFloat, rest)
    else refuse "f64" (b :: rest)

/-! ## Fields and records -/

structure Field (δ : Type) where
  name : String
  isSet : δ → Bool
  read : δ → Reader δ

structure Record (δ α : Type) where
  name : String
  empty : δ
  fields : List (Field δ)
  build : δ → Option α

namespace Record

variable {δ α : Type}

def description (r : Record δ α) : String := "struct " ++ r.name

def lengthDescription (r : Record δ α) : String :=
  r.description ++ " with " ++ String.ofList (decimal r.fields.length) ++
    (if r.fields.length = 1 then " element" else " elements")

def firstMissing (r : Record δ α) (d : δ) : String :=
  match r.fields.find? fun f ↦ !f.isSet d with
  | some f => f.name
  | none => ""

/-- Where a repeated key is reported: behind the white space that follows it, and behind the object
if that ends there. -/
def settle (bs : Bytes) : Bytes :=
  match skipSpace bs with
  | Ascii.closeBrace :: rest => rest
  | rest => rest

/-- Reads the members of an object up to its closing brace.  `fuel` bounds their number. -/
def readMembers (r : Record δ α) : (fuel : Nat) → (first : Bool) → δ → Reader δ
  | 0, _, _, bs => Fault.next .eofInObject bs
  | fuel + 1, first, d, bs => do
    let (more, bs) ← nextMember first bs
    if more then
      let (key, bs) ← string bs
      match r.fields.find? fun f ↦ f.name = key with
      | some f =>
        if f.isSet d then Fault.here (.duplicateField key) (settle bs)
        else
          let bs ← colon bs
          let (d, bs) ← f.read d bs
          readMembers r fuel false d bs
      | none =>
        let bs ← colon bs
        let bs ← skipValue bs
        readMembers r fuel false d bs
    else return (d, bs)

/-- Reads the fields in their order from the items of an array.  `count` fields come before
them. -/
def readItems (r : Record δ α) : (count : Nat) → List (Field δ) → δ → Reader δ
  | _, [], d, bs => .ok (d, bs)
  | count, f :: fields, d, bs => do
    let (more, bs) ← nextItem (count == 0) bs
    if more then
      let (d, bs) ← f.read d bs
      readItems r (count + 1) fields d bs
    else
      let bs ← endArray bs
      Fault.here (.wrongLength count r.lengthDescription) bs

def read (r : Record δ α) : Reader α := fun bs ↦
  match skipSpace bs with
  | [] => Fault.next .eofInValue []
  | b :: rest =>
    if b = Ascii.openBracket then do
      let (d, rest) ← r.readItems 0 r.fields r.empty rest
      let rest ← endArray rest
      match r.build d with
      | some a => return (a, rest)
      | none => Fault.here (.missingField (r.firstMissing d)) rest
    else if b = Ascii.openBrace then do
      let (d, rest) ← r.readMembers (rest.length + 1) true r.empty rest
      let rest ← endObject rest
      match r.build d with
      | some a => return (a, rest)
      | none => Fault.here (.missingField (r.firstMissing d)) rest
    else refuse r.description (b :: rest)

end Record

/-- A field whose value is kept as an option. -/
def optionField {δ β : Type} (name : String) (get : δ → Option β) (set : δ → β → δ)
    (read : Reader β) : Field δ where
  name := name
  isSet d := (get d).isSome
  read d := fun bs ↦ do
    let (b, rest) ← read bs
    return (set d b, rest)

end Json
end HourlyUsage
