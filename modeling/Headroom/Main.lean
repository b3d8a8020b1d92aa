import Headroom.Probe

/-!
# The command line

Collects the variables and the files that the probe may ask for, runs it, and writes what it leaves
behind.
-/

namespace Headroom.Main

/-- The variables that the program knows, in both spellings. -/
def knownVariables : List Bytes :=
  let ours := Settings.Key.all.map Settings.Key.var
    ++ [text "CLIFFGUARD_LOG_LEVEL", text "CLIFFGUARD_CPU_SOURCE", text "CLIFFGUARD_PROC_ROOT"]
  ours ++ ours.filterMap Environment.otherSpelling? ++ [text "XDG_CONFIG_HOME", text "HOME"]

/-- The paths that the program may open. -/
def knownPaths (env : Environment) (arguments : List Bytes) : List Bytes :=
  let asked := match Probe.parse arguments {} with
    | .ok o => o.config
    | .error _ => []
  asked :: env.configPath?.toList ++ [env.procPath (text "/proc/thread-self/stat")]

def stringOf (b : Bytes) : String := (String.fromUTF8? ⟨b.toArray⟩).getD ""

end Headroom.Main

open Headroom Headroom.Main in
/-- Runs the probe on the arguments. -/
def main (args : List String) : IO UInt32 := do
  let arguments := args.map text
  let bindings ← knownVariables.filterMapM fun name => do
    return (← IO.getEnv (stringOf name)).map fun value => (name, text value)
  let environment : Environment := ⟨bindings⟩
  let files ← (knownPaths environment arguments).filterMapM fun path => do
    try
      let content ← IO.FS.readBinFile (stringOf path)
      return some (path, some content.toList)
    catch _ => return none
  let outcome := Probe.run
    { environment, files := .ofList files, hardware := 0, threadClock := true
      refusedLaunches := [] }
    arguments
  (← IO.getStdout).write ⟨outcome.stdout.toArray⟩
  (← IO.getStderr).write ⟨outcome.stderr.toArray⟩
  return outcome.exit.toUInt32
