import RecipeLint.CommandLine.Run

/-!
# The program

Runs its command line in the world: the report goes to standard output, a failure to standard
error.
-/

namespace RecipeLint.CommandLine

namespace SystemError

/-- An error by its number, which is negative in some layers, and its description, which starts
with a small letter in some. -/
def ofDetails (code : UInt32) (details : String) : SystemError where
  description := details.capitalize
  number := (if code < 0x80000000 then code else 0 - code).toNat

def ofError : IO.Error → SystemError
  | .alreadyExists _ code details | .interrupted _ code details
  | .noFileOrDirectory _ code details | .invalidArgument _ code details
  | .permissionDenied _ code details | .resourceExhausted _ code details
  | .inappropriateType _ code details | .noSuchThing _ code details
  | .otherError code details | .resourceBusy code details | .resourceVanished code details
  | .unsupportedOperation code details | .hardwareFault code details
  | .unsatisfiedConstraints code details | .illegalOperation code details
  | .protocolError code details | .timeExpired code details => ofDetails code details
  | .unexpectedEof => ⟨"Unexpected end of file", 0⟩
  | .userError details => ⟨details, 0⟩

end SystemError

namespace World

/-- The bytes of a stream to its end, behind some bytes. -/
partial def drain (stream : IO.FS.Stream) (bytes : ByteArray) : IO ByteArray := do
  let more ← stream.read 65536
  if more.isEmpty then return bytes else drain stream (bytes ++ more)

def load (path : Text) : IO (Except SystemError (List UInt8)) := do
  try
    let bytes ← IO.FS.readBinFile path.str
    return .ok bytes.toList
  catch e => return .error (.ofError e)

def findConfigDirectory : IO (Option Text) := do
  let ofHome? := (← IO.getEnv "HOME").map fun home => join home.toList ".config".toList
  let given? := (← IO.getEnv "XDG_CONFIG_HOME").map String.toList
  return (given?.filter ("/".toList.isPrefixOf ·)).or ofHome?

def process : IO (World IO) := do
  let directory? ← findConfigDirectory
  return {
    readFile := load
    readInput := return (← drain (← IO.getStdin) .empty).toList
    configDirectory? := directory? }

end World

end RecipeLint.CommandLine

def main (args : List String) : IO UInt32 := do
  let world ← RecipeLint.CommandLine.World.process
  let outcome ← world.run (args.map String.toList)
  IO.print (RecipeLint.Text.str outcome.output)
  if let some failure := outcome.failure? then
    IO.eprintln ("Error: " ++ failure.message)
  return outcome.exitCode.toUInt32
