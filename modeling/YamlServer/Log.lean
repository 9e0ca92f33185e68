/-!
# Logs

Records of what went wrong without stopping the server. Each has a level, the part of the server
that wrote it, and a message; a threshold decides which ones are kept.

* `Log.Record`: a record.
* `Log.kept`: the records that pass a threshold.
* `Log.levelOf?`: the threshold of a level's name.
-/

namespace YamlServer
namespace Log

inductive Level where
  | warning
  | error
deriving Repr, DecidableEq

def Level.number : Level → Nat
  | .warning => 30
  | .error => 40

def Level.name : Level → String
  | .warning => "WARNING"
  | .error => "ERROR"

structure Record where
  level : Level
  logger : String
  message : String
deriving Repr, DecidableEq

def kept (threshold : Nat) (records : List Record) : List Record :=
  records.filter fun r => threshold ≤ r.level.number

def levelOf? (name : String) : Option Nat :=
  match name with
  | "NOTSET" => some 0
  | "DEBUG" => some 10
  | "INFO" => some 20
  | "WARNING" | "WARN" => some 30
  | "ERROR" => some 40
  | "CRITICAL" | "FATAL" => some 50
  | _ => none

end Log
end YamlServer
