import PainterScene.Studio.Run

/-!
# The studio as a program

Prints the report of the demonstration scene. `STUDIO_LOG` names the level down to which log entries
are written to standard error.
-/

open PainterScene

def main : IO UInt32 := do
  let threshold := Log.Threshold.ofSetting (← IO.getEnv "STUDIO_LOG")
  match Studio.runDemo Studio.camera SplitRule.standard with
  | .error problem =>
    IO.eprintln s!"Error: {problem.message}"
    return 1
  | .ok run =>
    for entry in Log.select threshold run.log do
      IO.eprintln s!"[{padRight 5 entry.level.name} {entry.target}] {entry.message}"
    for line in run.report do
      IO.println line
    return 0
