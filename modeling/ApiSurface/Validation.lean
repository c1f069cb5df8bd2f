import ApiSurface.Diagnostic
import ApiSurface.Legality.Permissions
import ApiSurface.Legality.Rule

namespace ApiSurface

inductive Verdict where
  | legal
  | illegal (reason : String)
deriving DecidableEq, Repr

namespace Verdict

def isLegal : Verdict → Bool
  | legal     => true
  | illegal _ => false

-- The diagnostic for an illegal position.
def offence? (subject : String) (notice : Notice) : Verdict → Option Diagnostic
  | legal          => none
  | illegal reason =>
    some { category := notice.category, code := notice.code, subject, text := reason }

end Verdict

namespace Permissions

-- Judges a type at a position; the reason for an illegal type is the notice with the given
-- arguments.
def judge (p : Permissions) (method : Method) (position : Position) (type : Model)
    (notice : Notice) (args : List String) : Except Inconsistency Verdict := do
  if ← Rule.usage position method type (p.allowsAny method position) then return .legal
  else return .illegal (Template.fill notice.template args)

def judgeParam (p : Permissions) (method : Method) (name : String) (type : Model) :
    Except Inconsistency Verdict :=
  p.judge method .parameter type .illegalParameter
    [type.display, type.kind.label, name, method.name]

def judgeReturn (p : Permissions) (method : Method) (type : Model) :
    Except Inconsistency Verdict :=
  p.judge method .result type .illegalReturn [type.display, type.kind.label, method.name]

-- The diagnostics for the illegal positions of a signature, the return type last.
def validate (p : Permissions) (s : Signature) : Except Inconsistency (List Diagnostic) := do
  let subject := s.method.qualifiedName
  let params ← s.params.mapM fun (name, type) => p.judgeParam s.method name type
  let result ← p.judgeReturn s.method s.returnType
  return params.filterMap (·.offence? subject .illegalParameter)
    ++ (result.offence? subject .illegalReturn).toList

-- The diagnostics for one signature of a batch, where an inconsistency is a diagnostic too.
def report (p : Permissions) (s : Signature) : List Diagnostic :=
  match p.validate s with
  | .ok found  => found
  | .error err => [.ofNotice s.method.qualifiedName .inconsistentModel [s.method.name, err.message]]

def reportAll (p : Permissions) (signatures : List Signature) : List Diagnostic :=
  signatures.flatMap p.report

end Permissions

end ApiSurface
