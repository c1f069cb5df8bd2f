namespace ApiSurface.Template

-- The argument for a placeholder, given the text behind its opening brace, and the number of
-- characters up to the end of the placeholder.
def placeholder? (args : List String) (cs : List Char) : Option (String × Nat) :=
  let digits := cs.takeWhile Char.isDigit
  if !digits.isEmpty && (cs.drop digits.length).head? == some '}' then
    args[Nat.ofDigitChars 10 digits 0]?.map (·, digits.length + 1)
  else none

-- Fills the placeholders of a text. The first `spent` characters belong to a placeholder that has
-- been replaced already.
def fillFrom (args : List String) : (spent : Nat) → List Char → List Char
  | _,     []      => []
  | n + 1, _ :: cs => fillFrom args n cs
  | 0,     c :: cs =>
    if c = '{' then
      match placeholder? args cs with
      | some (arg, n) => arg.toList ++ fillFrom args n cs
      | none          => c :: fillFrom args 0 cs
    else c :: fillFrom args 0 cs

-- Puts each argument in the place of its number in braces. A number without an argument stays.
def fill (template : String) (args : List String) : String :=
  String.ofList (fillFrom args 0 template.toList)

end ApiSurface.Template
