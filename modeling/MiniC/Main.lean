import MiniC.Command.Run

/-! The command line program. -/
namespace MiniC

namespace Command

/-- The reason of a failed file operation. -/
def AccessError.ofSystem : IO.Error → AccessError
  | .noFileOrDirectory .. => notFound
  | .inappropriateType .. => isDirectory
  | e => other (toString e)

/-- The outcome of a file operation. -/
def attempt {α : Type} (act : IO α) : IO (Except AccessError α) := do
  try
    return .ok (← act)
  catch e =>
    return .error (.ofSystem e)

/-- The host that acts on the file system and the standard streams. -/
def systemHost : Host IO where
  readFile path := do return (← attempt (IO.FS.readBinFile path)) >>= decode
  readInput := do return (← attempt (do (← IO.getStdin).readBinToEnd)) >>= decode
  writeFile path text := attempt (IO.FS.writeBinFile path text.toUTF8)
  writeOutput text := attempt (do (← IO.getStdout).putStr text)

end Command

end MiniC

/-- Runs the command with the arguments of the program. -/
def main (arguments : List String) : IO UInt32 := do
  let ending ← MiniC.Command.command MiniC.Command.systemHost arguments
  IO.eprint ending.report
  return ending.exitCode
