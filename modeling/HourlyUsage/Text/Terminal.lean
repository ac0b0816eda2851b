/-!
# Text for terminals

Messages set parts of their text off with control sequences, which terminals
read as commands.  A stream that is no terminal shows a text without the
sequences in it, whoever wrote them, and without all other control characters
but white space.
-/

namespace HourlyUsage
namespace Text

/-! ## Emphasis -/

/-- What a part of a message is set off as. -/
inductive Emphasis where
  | failure
  | name
  | refused
  deriving DecidableEq

def Emphasis.opening : Emphasis → String
  | .failure => "\x1b[1m\x1b[31m"
  | .name => "\x1b[1m"
  | .refused => "\x1b[33m"

def emphasisEnd : String := "\x1b[0m"

def emphasize (e : Emphasis) (s : String) : String := e.opening ++ s ++ emphasisEnd

/-! ## Control sequences -/

/-- How far a text has come in a control sequence. -/
inductive ControlState where
  | outside
  /-- Behind an escape. -/
  | escape
  /-- Behind an escape and characters in front of the one that ends its sequence. -/
  | escapeInner
  /-- In the parameters of a control sequence. -/
  | parameters
  /-- At the start of a device control string. -/
  | device
  /-- In the parameters of a device control string. -/
  | deviceParameters
  /-- Behind the parameters of a device control string. -/
  | deviceInner
  /-- In a string that a terminator ends. -/
  | controlString
  /-- In a command that a bell ends. -/
  | command
  deriving DecidableEq

def within (first last : Nat) (c : Char) : Bool := first ≤ c.toNat && c.toNat ≤ last

def stringTerminator : UInt8 := 0x9C

namespace ControlState

/-- The state behind one more character.  An escape begins a sequence in whatever sequence it
stands, and the two cancelling characters end them all. -/
def next (p : ControlState) (c : Char) : ControlState :=
  if c = '\x1b' then .escape
  else if c = '\x18' ∨ c = '\x1a' then .outside
  else match p with
    | .outside => .outside
    | .escape =>
      if within 0x20 0x2F c then .escapeInner
      else if c = '[' then .parameters
      else if c = ']' then .command
      else if c = 'P' then .device
      else if c = 'X' ∨ c = '^' ∨ c = '_' then .controlString
      else if within 0x30 0x7E c then .outside
      else .escape
    | .escapeInner => if within 0x30 0x7E c then .outside else .escapeInner
    | .parameters => if within 0x40 0x7E c then .outside else .parameters
    | .device =>
      if within 0x20 0x2F c then .deviceInner
      else if within 0x30 0x3F c then .deviceParameters
      else if within 0x40 0x7E c then .controlString
      else .device
    | .deviceParameters =>
      if within 0x20 0x2F c then .deviceInner
      else if within 0x3C 0x7E c then .controlString
      else .deviceParameters
    | .deviceInner => if within 0x30 0x7E c then .controlString else .deviceInner
    | .controlString =>
      if (String.utf8EncodeChar c).contains stringTerminator then .outside else .controlString
    | .command => if c = '\x07' then .outside else .command

end ControlState

/-! ## What is shown -/

/-- The control characters that count as white space. -/
def isLayout (c : Char) : Bool := c == '\t' || c == '\n' || c == '\x0c' || c == '\r'

/-- Is a character shown outside of control sequences? -/
def isShown (c : Char) : Bool := isLayout c || (0x20 ≤ c.toNat && c != '\x7f')

/-- Does a character end the silence that a control sequence keeps?  White space does while the
sequence is no string. -/
def ControlState.admits (p : ControlState) (c : Char) : Bool :=
  match p with
  | .outside => isShown c
  | .escape => isLayout c
  | .escapeInner => isLayout c
  | .parameters => isLayout c
  | _ => false

/-- The characters that are shown.  Once one is, so are those behind it, up to the next control
character; a sequence that white space broke into goes on behind it. -/
def shownChars : (p : ControlState) → (showing : Bool) → List Char → List Char
  | _, _, [] => []
  | p, showing, c :: cs =>
    if (showing && isShown c) || p.admits c then
      c :: shownChars (if c.toNat < 0x80 then p else .outside) true cs
    else shownChars (p.next c) false cs

def withoutControls (s : String) : String :=
  String.ofList (shownChars .outside false s.toList)

/-! ## Facts -/

theorem isShown_of_admits {p : ControlState} {c : Char} (h : p.admits c = true) :
    isShown c = true := by
  cases p <;> simp_all [ControlState.admits, isShown]

theorem isShown_of_mem_shownChars {c : Char} {cs : List Char} {p : ControlState} {showing : Bool}
    (h : c ∈ shownChars p showing cs) : isShown c = true := by
  induction cs generalizing p showing with
  | nil => simp [shownChars] at h
  | cons d ds ih =>
    rw [shownChars] at h
    split at h
    · rename_i hd
      rcases List.mem_cons.mp h with rfl | h
      · simp only [Bool.or_eq_true, Bool.and_eq_true] at hd
        exact hd.elim (fun hd ↦ hd.2) isShown_of_admits
      · exact ih h
    · exact ih h

/-- A text without control characters is shown as it is. -/
theorem shownChars_eq_self {cs : List Char} {showing : Bool} (h : ∀ c ∈ cs, isShown c = true) :
    shownChars .outside showing cs = cs := by
  induction cs generalizing showing with
  | nil => rfl
  | cons c cs ih =>
    have hc : isShown c = true := h c (List.mem_cons_self ..)
    have hcs := fun d hd ↦ h d (List.mem_cons_of_mem _ hd)
    simp [shownChars, ControlState.admits, hc, ih hcs]

end Text
end HourlyUsage
