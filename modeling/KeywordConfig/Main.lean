import KeywordConfig.CommandLine

namespace KeywordConfig.CommandLine

def fileError : IO.Error → FileError
  | .noFileOrDirectory .. => .notFound
  | .inappropriateType _ 20 _ => .notDirectory
  | .inappropriateType _ 21 _ => .isDirectory
  | .invalidArgument _ 36 _ => .nameTooLong
  | .permissionDenied _ code details => .other s!"{details} (os error {code})"
  | .userError _ => .other "stream did not contain valid UTF-8"
  | e => .other (toString e)

def attempt (action : IO α) : IO (Except FileError α) := do
  match ← action.toBaseIO with
  | .ok a => return .ok a
  | .error e => return .error (fileError e)

def fileSystem : Host IO where
  read path := attempt (IO.FS.readFile path)
  write path content := attempt (IO.FS.writeFile path content)
  complaint _ := "syntax error"

end KeywordConfig.CommandLine

def main (args : List String) : IO UInt32 := do
  let exit ← KeywordConfig.CommandLine.run KeywordConfig.CommandLine.fileSystem args
  IO.print exit.stdout
  IO.eprint exit.stderr
  return UInt32.ofNat exit.code
