import HourlyUsage.Json.Fault

/-!
# Failures

What can go wrong while usage is planned, read, written or exported.  Each
failure is a cause with the data that its message shows.
-/

namespace HourlyUsage

open Text

inductive IoError where
  | notFound
  | notADirectory
  | isADirectory
  | busy
  | invalidArgument
  | nameTooLong
  | tooManyLinks
  | nulInName
  | notUtf8
  | nothingWritten
  | other (message : String)
  deriving DecidableEq

def IoError.message : IoError → String
  | .notFound => "No such file or directory (os error 2)"
  | .busy => "Device or resource busy (os error 16)"
  | .notADirectory => "Not a directory (os error 20)"
  | .isADirectory => "Is a directory (os error 21)"
  | .invalidArgument => "Invalid argument (os error 22)"
  | .nameTooLong => "File name too long (os error 36)"
  | .tooManyLinks => "Too many levels of symbolic links (os error 40)"
  | .nulInName => "file name contained an unexpected NUL byte"
  | .notUtf8 => "stream did not contain valid UTF-8"
  | .nothingWritten => "failed to write whole buffer"
  | .other message => message

inductive UsageError where
  | invalidWindow
  | invalidRange
  | exhausted
  | encoding (source : Json.Error)
  | write (source : IoError)
  | io (source : IoError)
  | parse (key : String) (line : Nat) (source : Json.Error)
  deriving DecidableEq

namespace UsageError

def message : UsageError → String
  | .invalidWindow => "window must be 1h or greater"
  | .invalidRange => "endTime must occur after startTime"
  | .exhausted => "usage query iterator is exhausted"
  | .encoding source => "encoding error: " ++ source.message
  | .write source => "write error: " ++ source.message
  | .io source => "I/O error: " ++ source.message
  | .parse key line source =>
    "malformed event in " ++ key ++ " at line " ++ String.ofList (decimal line) ++ ": " ++
      source.message

/-- The message of the failure underneath, if there is one. -/
def source? : UsageError → Option String
  | .encoding source => some source.message
  | .write source => some source.message
  | .io source => some source.message
  | .parse _ _ source => some source.message
  | _ => none

end UsageError

inductive CommandError where
  | usage (source : UsageError)
  | command (detail : String)
  | format (detail : String)
  | invalidArgument (detail : String)
  | io (source : IoError)
  deriving DecidableEq

namespace CommandError

def message : CommandError → String
  | .usage source => source.message
  | .command detail => "command error: " ++ detail
  | .format detail => "format error: " ++ detail
  | .invalidArgument detail => "invalid argument: " ++ detail
  | .io source => "IO error: " ++ source.message

def source? : CommandError → Option String
  | .usage source => some source.message
  | .io source => some source.message
  | _ => none

end CommandError
end HourlyUsage
