import HourlyUsage.Command
import HourlyUsage.CommandLine.Argument
import HourlyUsage.Text.Terminal

/-!
# The grammar of the command line

A command line names a group of commands and a command of that group, each with
options of its own.  The output format may be given at every level.
-/

namespace HourlyUsage
namespace CommandLine

open Text

inductive Level where
  | top
  | usage
  | query
  | plan
  | exportTo
  deriving DecidableEq

inductive Opt where
  | format
  | account
  | start
  | stop
  | window
  | store
  | output
  deriving DecidableEq

namespace Opt

def all : List Opt := [.format, .account, .start, .stop, .window, .store, .output]

def long : Opt → String
  | .format => "format"
  | .account => "account"
  | .start => "start"
  | .stop => "end"
  | .window => "window"
  | .store => "store"
  | .output => "output"

def short? : Opt → Option Char
  | .format => some 'f'
  | .account => some 'a'
  | .start => none
  | .stop => none
  | .window => some 'w'
  | .store => some 's'
  | .output => some 'o'

def display : Opt → String
  | .format => "--format <FORMAT>"
  | .account => "--account <ACCOUNT>"
  | .start => "--start <START>"
  | .stop => "--end <END>"
  | .window => "--window <WINDOW>"
  | .store => "--store <STORE>"
  | .output => "--output <OUTPUT>"

end Opt

namespace Level

def options : Level → List Opt
  | .top => [.format]
  | .usage => [.format]
  | .query => [.account, .start, .stop, .format]
  | .plan => [.account, .start, .stop, .window, .format]
  | .exportTo => [.account, .start, .stop, .window, .store, .output, .format]

def required : Level → List Opt
  | .top => []
  | .usage => []
  | .query => [.account, .start, .stop]
  | .plan => [.account, .start, .stop]
  | .exportTo => [.account, .start, .stop, .store, .output]

def children : Level → List (String × Level)
  | .top => [("usage", .usage)]
  | .usage => [("query", .query), ("plan", .plan), ("export", .exportTo)]
  | _ => []

def invocation : Level → String
  | .top => "up"
  | .usage => "up usage"
  | .query => "up usage query"
  | .plan => "up usage plan"
  | .exportTo => "up usage export"

def about : Level → String
  | .top => "Managed control plane CLI for usage queries and export"
  | .usage => "Query and export control plane usage"
  | .query => "Show the partition key range covering a time range"
  | .plan => "Show how a time range is split into query windows"
  | .exportTo => "Export usage events from a partitioned store as a JSON array"

def child? (l : Level) (name : String) : Option Level :=
  (l.children.find? fun c ↦ c.1 = name).map Prod.snd

def ofLong? (l : Level) (name : String) : Option Opt := l.options.find? fun o ↦ o.long = name

def ofShort? (l : Level) (c : Char) : Option Opt := l.options.find? fun o ↦ o.short? = some c

end Level

inductive Refusal where
  | help (level : Level)
  | version
  | helpOnMissing (level : Level)
  | missingCommand (level : Level)
  | missingValue (option : Opt)
  | unknownFormat (value : String)
  | badValue (option : Opt) (value : String) (e : ArgumentError)
  | repeated (option : Opt)
  | unknownArgument (shown : String)
  | unneededValue (flag value : String)
  | unknownCommand (name : String)
  | missingRequired
  deriving DecidableEq

namespace Refusal

def named (s : String) : String := "'" ++ emphasize .name s ++ "'"

def refused (s : String) : String := "'" ++ emphasize .refused s ++ "'"

/-- Help and version are what was asked for. -/
def exitCode : Refusal → Nat
  | .help _ => 0
  | .version => 0
  | _ => 2

def reason : Refusal → String
  | .help level => level.about
  | .version => "up 0.1.0"
  | .helpOnMissing level => level.about
  | .missingCommand level =>
    refused level.invocation ++ " requires a subcommand but one was not provided"
  | .missingValue option =>
    "a value is required for " ++ named option.display ++ " but none was supplied"
  | .unknownFormat value => "invalid value " ++ refused value ++ " for " ++ named Opt.format.display
  | .badValue option value e =>
    "invalid value " ++ refused value ++ " for " ++ named option.display ++ ": " ++ e.message
  | .repeated option =>
    "the argument " ++ refused option.display ++ " cannot be used multiple times"
  | .unknownArgument shown => "unexpected argument " ++ refused shown ++ " found"
  | .unneededValue flag value =>
    "unexpected value " ++ refused value ++ " for " ++ named flag ++
      " found; no more were expected"
  | .unknownCommand name => "unrecognized subcommand " ++ refused name
  | .missingRequired => "the following required arguments were not provided:"

/-- Is a refusal a failure, and not a text that shows how to go on? -/
def isFailure : Refusal → Bool
  | .help _ => false
  | .version => false
  | .helpOnMissing _ => false
  | _ => true

/-- The message of a refusal for a terminal.  A failure tells where to find help. -/
def message (r : Refusal) : String :=
  if r.isFailure then
    emphasize .failure "error:" ++ " " ++ r.reason ++ "\n\nFor more information, try " ++
      named "--help" ++ ".\n"
  else r.reason ++ "\n"

/-- The message of the value that was refused, if one was. -/
def valueMessage? : Refusal → Option String
  | .badValue _ _ e => some e.message
  | _ => none

end Refusal
end CommandLine
end HourlyUsage
