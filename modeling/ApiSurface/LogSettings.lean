namespace ApiSurface

inductive LogSettings.Format where
  | text
  | tree
  | json
deriving DecidableEq, Repr

-- The format with a given name in whatever case of the Latin letters; text for all other names.
def LogSettings.Format.ofName (name : String) : LogSettings.Format :=
  match name.toLower with
  | "tree" => tree
  | "json" => json
  | _      => text

-- The log is off unless a filter is set.
structure LogSettings where
  -- Which events are logged; none if the log is off.
  filter : Option String := none
  format : LogSettings.Format := .text
deriving DecidableEq, Repr

namespace LogSettings

-- The settings that the variables of an environment make.
def ofLookup (lookup : String → Option String) : LogSettings where
  filter := lookup "POLYBIND_LOG" <|> lookup "RUST_LOG"
  format := ((lookup "POLYBIND_LOG_FORMAT").map .ofName).getD .text

def isEnabled (s : LogSettings) : Bool :=
  s.filter.isSome

end LogSettings

end ApiSurface
