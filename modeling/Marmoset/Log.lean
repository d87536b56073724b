/-!
How much a run tells about its progress.
-/

namespace Marmoset

inductive LogLevel
  | notset | debug | info | warning | error | critical
deriving DecidableEq

namespace LogLevel

def rank : LogLevel → Nat
  | notset => 0
  | debug => 10
  | info => 20
  | warning => 30
  | error => 40
  | critical => 50

def names : List (String × LogLevel) :=
  [("CRITICAL", critical), ("FATAL", critical), ("ERROR", error), ("WARNING", warning),
    ("WARN", warning), ("INFO", info), ("DEBUG", debug), ("NOTSET", notset)]

-- Capitals of letters; a dotless i and a long s have plain ones.
def capital (c : Char) : Char :=
  if c = 'ı' then 'I' else if c = 'ſ' then 'S' else c.toUpper

-- The level that a setting names in small or capital letters; else only warnings are told.
def ofSetting (setting : String) : LogLevel :=
  (names.lookup (String.ofList (setting.toList.map capital))).getD warning

-- Whether a message of level `l` is told where `threshold` is set.
def isTold (threshold l : LogLevel) : Bool :=
  threshold.rank ≤ l.rank

end LogLevel

end Marmoset
