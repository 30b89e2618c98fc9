/-!
# Log entries

What a run tells beside its report: entries with a level, the part of the program they come from,
and a message. A threshold lets through the entries that are severe enough.
-/

namespace PainterScene

namespace Log

inductive Level
  | error
  | warn
  | info
  | debug
  | trace
deriving DecidableEq

def Level.name : Level → String
  | error => "ERROR"
  | warn => "WARN"
  | info => "INFO"
  | debug => "DEBUG"
  | trace => "TRACE"

/-- How much a level lets through: the more, the less severe it is. -/
def Level.rank : Level → Nat
  | error => 1
  | warn => 2
  | info => 3
  | debug => 4
  | trace => 5

/-- The least severe level that is let through, if any is. -/
abbrev Threshold := Option Level

/-- The threshold that a setting names: `info` when there is no setting, `error` for an empty one,
and nothing for `off` and for a word that names no level. -/
def Threshold.ofSetting : Option String → Threshold
  | none => some .info
  | some "" => some .error
  | some word =>
    match word.toLower with
    | "error" => some .error
    | "warn" => some .warn
    | "info" => some .info
    | "debug" => some .debug
    | "trace" => some .trace
    | _ => none

def Threshold.admits (threshold : Threshold) (level : Level) : Bool :=
  threshold.any fun least => level.rank ≤ least.rank

structure Entry where
  level : Level
  target : String
  message : String
deriving DecidableEq

def select (threshold : Threshold) (entries : List Entry) : List Entry :=
  entries.filter fun entry => threshold.admits entry.level

end Log

end PainterScene
