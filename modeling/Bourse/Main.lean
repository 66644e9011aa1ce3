import Bourse.Market.Setup
import Bourse.Session
import Bourse.Store.Memory

/-!
# `Bourse.Main` — an exchange on standard input and output

Serves one client, whose stream of requests comes in on standard input and whose lines go out on
standard output. The settings come from the environment, and events are kept in memory.
-/

namespace Bourse.Main

/-- The names of the variables that settings are read from. -/
def settingNames : List String := ["EXCHANGE_LISTEN_ADDR", "EXCHANGE_MAX_FRAME_LEN", "EXCHANGE_LOG"]

/-- The settings that the environment asks for. -/
def readConfig : IO Config := do
  let values ← settingNames.mapM fun name => return (name, ← IO.getEnv name)
  return Config.ofVariables fun name => (values.lookup name).join

/-- The number of bytes that are asked for at a time. -/
def pieceSize : USize := 1024

/-- What is said of a frame that is declined. -/
def explain (_ : List UInt8) : String := "it is not a request"

/-- Sends responses to the client. -/
def send (output : IO.FS.Stream) (responses : List Response) : IO Unit := do
  output.write (Session.lines responses).toByteArray
  output.flush

/-- Serves the client until its stream ends. -/
partial def serve (input output : IO.FS.Stream) (session : Session MemoryStore) : IO Unit := do
  let bytes ← input.read pieceSize
  if bytes.isEmpty then
    send output (session.close explain).1
  else
    let received := session.receive explain bytes.data.toList
    send output received.1
    serve input output received.2

end Bourse.Main

open Bourse in
/-- Starts an exchange and serves the client. -/
def main : IO UInt32 := do
  let config ← Main.readConfig
  match Market.ofConfig config ({} : MemoryStore) with
  | .error cause =>
    IO.eprintln cause.message
    return 1
  | .ok market =>
    let session := Session.connect { market } config.maxFrameLength
    Main.serve (← IO.getStdin) (← IO.getStdout) session
    return 0
