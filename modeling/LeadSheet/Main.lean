import LeadSheet.Command.Run

/-!
# The program

The program on a real system: files are those of the system, and the outcome
is printed.
-/

namespace LeadSheet

/-- Why the system did not read or write a file. -/
def HostFault.ofError : IO.Error → HostFault
  | .noFileOrDirectory .. => .missing
  | .inappropriateType _ code _ => if code = 20 then .notDirectory else .isDirectory
  | .invalidArgument _ code details =>
    if code = 36 then .nameTooLong else .other code.toNat details
  | e => .other 5 (toString e)

/-- Runs an action on a file. -/
def onFile {α : Type} (action : IO α) : IO (Except HostFault α) := do
  try
    let a ← action
    pure (.ok a)
  catch e => pure (.error (HostFault.ofError e))

/-- The system as a host. -/
def systemHost : Host IO where
  input := do
    let stdin ← IO.getStdin
    let mut bytes := ByteArray.empty
    let mut more := true
    while more do
      let block ← stdin.read 65536
      bytes := bytes ++ block
      more := !block.isEmpty
    pure bytes.toList
  read path := onFile (ByteArray.toList <$> IO.FS.readBinFile path)
  write path bytes := onFile (IO.FS.writeBinFile path ⟨bytes.toArray⟩)

end LeadSheet

open LeadSheet in
/-- Runs the program on the arguments. -/
def main (args : List String) : IO UInt32 := do
  let outcome ← systemHost.run args
  IO.eprint outcome.told
  IO.print outcome.shown
  match outcome.ending with
  | .exit status => pure status.toUInt32
  | .crash _ => pure 1
