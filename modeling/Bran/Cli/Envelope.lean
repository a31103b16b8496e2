import Bran.Document.PartName

/-!
# Envelopes

The results of the command line program and the envelope around what it prints.
-/

namespace Bran.Cli

open Text

def jsonEscape (s : Str) : Str :=
  s.flatMap fun c =>
    if c = '"' then "\\\"".toList
    else if c = '\\' then "\\\\".toList
    else if c = '\n' then "\\n".toList
    else if c = '\r' then "\\r".toList
    else if c = '\t' then "\\t".toList
    else if Document.Opc.isControl c then "\\u".toList ++ hexadecimal 4 c.toNat
    else [c]

/-- A string between quotation marks. -/
def quoted (s : Str) : Str := '"' :: jsonEscape s ++ ['"']

def makeEnvelope (command status data : Str) (warnings failures : List Str)
    (provenance metrics : Str) : Str :=
  "\x7b\"schema_version\":\"1.0.0\",\"command\":".toList ++ quoted command ++
    ",\"status\":".toList ++ quoted status ++ ",\"data\":".toList ++ data ++
    ",\"warnings\":[".toList ++ join [','] (warnings.map quoted) ++
    "],\"failures\":[".toList ++ join [','] (failures.map quoted) ++
    "],\"provenance\":".toList ++ provenance ++ ",\"metrics\":".toList ++ metrics ++ ['}']

/-- An envelope that holds only a failure. -/
def errorEnvelope (command detail : Str) : Str :=
  makeEnvelope command "error".toList "null".toList [] [detail] "\x7b\x7d".toList "\x7b\x7d".toList

def makeQueryError (detail : Str) : Str := errorEnvelope "query".toList detail

def makePacketError (detail : Str) : Str := errorEnvelope "packet".toList detail

def makeCheckError (detail : Str) : Str := errorEnvelope "check".toList detail

def unknownCommandError : Str := errorEnvelope [] "unknown_command".toList

def missingCommandError : Str := errorEnvelope [] "missing_command".toList

inductive TypedExit
  | success
  | validation
  | usage
  | operation
  deriving DecidableEq

structure CliResult where
  output : Str
  exitCode : TypedExit
  isError : Bool
  deriving DecidableEq

namespace CliResult

def success (output : Str) : CliResult := ⟨output, .success, false⟩

def usage (output : Str) : CliResult := ⟨output, .usage, true⟩

def operation (output : Str) : CliResult := ⟨output, .operation, true⟩

end CliResult

end Bran.Cli
