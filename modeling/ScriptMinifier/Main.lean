import ScriptMinifier.Command

namespace ScriptMinifier

partial def readAll (stream : IO.FS.Stream) (done : ByteArray) : IO ByteArray := do
  let chunk ← stream.read 65536
  if chunk.isEmpty then return done else readAll stream (done ++ chunk)

def Response.write (response : Response) : IO Unit := do
  let output ← IO.getStdout
  output.write ⟨response.output.toArray⟩
  output.flush
  (← IO.getStderr).putStr response.errors

def command : IO UInt32 := do
  let input ← try readAll (← IO.getStdin) .empty catch e =>
    IO.eprintln s!"failed to read stdin: {e}"
    return 1
  let response := Response.ofInput input.data.toList
  try response.write catch e =>
    IO.eprintln s!"failed to write stdout: {e}"
    return 1
  return response.status

end ScriptMinifier

def main : IO UInt32 := ScriptMinifier.command
