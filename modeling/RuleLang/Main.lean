import RuleLang.Command

/-!
The command on a real host.
-/
namespace RuleLang.Command

/-- The number of a refusal; some calls give it with its sign turned. -/
def refusalNumber (n : UInt32) : Nat := if n < 0x80000000 then n.toNat else (0 - n).toNat

def refusalOf : IO.Error → Refusal
  | .noFileOrDirectory .. => .missing
  | .inappropriateType _ n text | .invalidArgument _ n text | .permissionDenied _ n text =>
    let known := [Refusal.notADirectory, .isADirectory, .nameTooLong]
    (known.find? (·.number = refusalNumber n)).getD (.other (refusalNumber n) text)
  | e => .other 5 e.toString

def attempt {α : Type} (action : IO α) : IO (Except Refusal α) := do
  try return .ok (← action)
  catch e => return .error (refusalOf e)

instance : Host IO where
  Handle := IO.FS.Handle
  readFile path := do
    match ← attempt (IO.FS.Handle.mk path .read) with
    | .error refusal => return .error ⟨refusal, path⟩
    | .ok file =>
      match ← attempt file.readBinToEnd with
      -- a directory opens like a file
      | .error .isADirectory => return .error ⟨.isADirectory, path⟩
      | .error refusal => return .error ⟨refusal, none⟩
      | .ok octets => return .ok octets.toList
  openFile path := attempt (IO.FS.Handle.mk path .write)
  fill file contents := attempt do
    file.write ⟨contents.toArray⟩
    file.flush
  print text := do return (← attempt ((← IO.getStdout).putStr text)).mapError .refused
  report text := do (← IO.getStderr).putStr text
  holds _ _ := return true

def serve (arguments : List String) : IO UInt32 := do
  match ← execute (← IO.getEnv "RULEX_LOG_LEVEL") arguments with
  | .code n => return n.toUInt32
  | .broken trouble =>
    (← IO.getStderr).putStr (trouble.message ++ "\n")
    return 1

end RuleLang.Command

def main (arguments : List String) : IO UInt32 := RuleLang.Command.serve arguments
