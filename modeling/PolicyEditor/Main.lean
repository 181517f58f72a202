import PolicyEditor.CommandLine.Execute

/-!
The program: reads the files and variables that its arguments lead to, executes the command and
prints what it comes to. It starts no other programs and no servers, so the engines answer as if
they were not installed.
-/

namespace PolicyEditor.CommandLine

open scoped PolicyEditor.Json.UsualNesting

def readVariables : IO (List (String × String)) := do
  let read (name : String) : IO (Option (String × String)) := do
    return (← IO.getEnv name).map (name, ·)
  return (← Settings.variableNames.mapM read).filterMap id

def readFiles (arguments : List String) : IO (List (String × String)) := do
  let named := arguments.flatMap fun a =>
    a :: ((splitEquals a.toList).2.map String.ofList).toList
  let read (name : String) : IO (Option (String × String)) := do
    try return some (name, ← IO.FS.readFile name)
    catch _ => return none
  return (← named.eraseDups.mapM read).filterMap id

def readPlace : IO (List String) := do
  return (File.Path.ofString ((← IO.getEnv "PWD").getD "/")).parts

def perform (arguments : List String) : IO UInt32 := do
  let setup := FrontEnd.Setup.ofEnvironment (← readVariables) .bare
  let directory : File.Directory := ⟨← readPlace, ← readFiles arguments⟩
  let (outcome, _) := (execute setup directory {} arguments).run setup.engines
  for item in outcome.printed do
    IO.print item.plainText
  for (name, content) in outcome.written do
    IO.FS.writeFile name content
  match outcome.ending with
  | .ok code => return code.toUInt32
  | .error fault =>
    IO.eprintln (fault.message?.getD "The system refused.")
    return 1

end PolicyEditor.CommandLine

def main (arguments : List String) : IO UInt32 :=
  PolicyEditor.CommandLine.perform arguments
