import WordMachine.Cli.Command

/-! The command-line program. -/
namespace WordMachine.Cli

def osText (details : String) (code : UInt32) : String :=
  details ++ " (os error " ++ code.toNat.repr ++ ")"

def errorText : IO.Error → String
  | .noFileOrDirectory _ code details => osText details code
  | .inappropriateType _ code details => osText details code
  | .permissionDenied _ code details => osText details code
  | .resourceExhausted _ code details => osText details code
  | .invalidArgument _ code details => osText details code
  | .otherError code details => osText details code
  | e => toString e

def osFiles : Files IO where
  readText path := do
    try
      match String.fromUTF8? (← IO.FS.withFile path .read (·.readBinToEnd)) with
      | some text => return .ok text
      | none => return .error FileError.notText.message
    catch e => return .error (errorText e)
  writeBytes path bytes := do
    try
      IO.FS.writeBinFile path (ByteArray.mk bytes)
      return .ok ()
    catch e => return .error (errorText e)

end WordMachine.Cli

def main (args : List String) : IO UInt32 := do
  let report ← WordMachine.Cli.respond WordMachine.Cli.osFiles args
  IO.print report.stdout
  IO.eprint report.stderr
  return UInt32.ofNat report.code
