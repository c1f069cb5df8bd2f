import ApiSurface.Diagnostic.Template
import ApiSurface.Json.Value

namespace ApiSurface

inductive Category where
  | warning
  | error
  | message
deriving DecidableEq, Repr

def Category.label : Category → String
  | warning => "warning"
  | error   => "error"
  | message => "message"

-- A text with placeholders that diagnostics are made from, with their code and category.
structure Notice where
  code     : Nat
  category : Category
  template : String
deriving DecidableEq, Repr

namespace Notice

def illegalParameter : Notice where
  code     := 1001
  category := .error
  template := "type '{0}' of kind {1} is not legal as parameter '{2}' of method '{3}'"

def illegalReturn : Notice where
  code     := 1002
  category := .error
  template := "type '{0}' of kind {1} is not legal as the return type of method '{2}'"

def inconsistentModel : Notice where
  code     := 2001
  category := .error
  template := "internal type model inconsistency while checking method '{0}': {1}"

def all : List Notice :=
  [illegalParameter, illegalReturn, inconsistentModel]

def ofCode? (code : Nat) : Option Notice :=
  all.find? (·.code = code)

end Notice

structure Diagnostic where
  category : Category
  code     : Nat
  subject  : String
  text     : String
deriving DecidableEq, Repr

namespace Diagnostic

def error (subject text : String) (code : Nat) : Diagnostic where
  category := .error
  code
  subject
  text

-- The diagnostic that a notice gives with its placeholders filled.
def ofNotice (subject : String) (notice : Notice) (args : List String) : Diagnostic where
  category := notice.category
  code     := notice.code
  subject
  text     := Template.fill notice.template args

def isError (d : Diagnostic) : Bool :=
  d.category = .error

def display (d : Diagnostic) : String :=
  d.category.label ++ " PB" ++ toString d.code ++ ": " ++ d.subject ++ ": " ++ d.text

def toValue (d : Diagnostic) : Json.Value :=
  .object [("category", .string d.category.label), ("code", .natural d.code),
    ("subject", .string d.subject), ("messageText", .string d.text)]

end Diagnostic

end ApiSurface
