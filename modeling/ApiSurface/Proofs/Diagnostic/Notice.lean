import ApiSurface.Proofs.Diagnostic.Template

namespace ApiSurface.Template

variable {args : List String} {arg text rest : String} {c : Char} {cs cs' : List Char}

theorem fillFrom_plain (h : '{' ∉ cs) :
    fillFrom args 0 (cs ++ cs') = cs ++ fillFrom args 0 cs' := by
  induction cs
  case nil          => rfl
  case cons c cs hi =>
    obtain ⟨hc, hcs⟩ := not_or.mp (mt List.mem_cons.mpr h)
    rw [List.cons_append, fillFrom, if_neg (Ne.symm hc), hi hcs, List.cons_append]

theorem fill_plain (h : '{' ∉ text.toList) :
    fill (text ++ rest) args = text ++ fill rest args := by
  rw [fill, String.toList_append, fillFrom_plain h, String.ofList_append, String.ofList_toList,
    fill]

theorem fill_last (h : '{' ∉ text.toList) : fill text args = text := by
  rw [← String.append_empty (s := text), fill_plain h]
  rfl

-- A placeholder whose number has one digit.
def digitHole (c : Char) : String :=
  String.ofList ['{', c, '}']

theorem fill_digitHole (hc : c.isDigit) (ha : args[Nat.ofDigitChars 10 [c] 0]? = some arg) :
    fill (digitHole c ++ rest) args = arg ++ fill rest args := by
  have hn : Names args [c] arg := ⟨List.cons_ne_nil _ _, List.forall_mem_singleton.mpr hc, ha⟩
  have hs : (digitHole c ++ rest).toList = '{' :: ([c] ++ '}' :: rest.toList) := by
    rw [digitHole, String.toList_append, String.toList_ofList]
    rfl
  rw [fill, hs, fillFrom_hole hn, String.ofList_append, String.ofList_toList, fill]

theorem fill_illegalParameter (type kind param method : String) :
    fill Notice.illegalParameter.template [type, kind, param, method]
      = "type '" ++ type ++ "' of kind " ++ kind ++ " is not legal as parameter '" ++ param
        ++ "' of method '" ++ method ++ "'" := by
  have ht : Notice.illegalParameter.template
      = "type '" ++ (digitHole '0' ++ ("' of kind " ++ (digitHole '1'
        ++ (" is not legal as parameter '" ++ (digitHole '2' ++ ("' of method '"
          ++ (digitHole '3' ++ "'"))))))) :=
    rfl
  rw [ht, fill_plain (by simp), fill_digitHole rfl rfl, fill_plain (by simp),
    fill_digitHole rfl rfl, fill_plain (by simp), fill_digitHole rfl rfl, fill_plain (by simp),
    fill_digitHole rfl rfl, fill_last (by simp)]
  simp only [String.append_assoc]

theorem fill_illegalReturn (type kind method : String) :
    fill Notice.illegalReturn.template [type, kind, method]
      = "type '" ++ type ++ "' of kind " ++ kind ++ " is not legal as the return type of method '"
        ++ method ++ "'" := by
  have ht : Notice.illegalReturn.template
      = "type '" ++ (digitHole '0' ++ ("' of kind " ++ (digitHole '1'
        ++ (" is not legal as the return type of method '" ++ (digitHole '2' ++ "'"))))) :=
    rfl
  rw [ht, fill_plain (by simp), fill_digitHole rfl rfl, fill_plain (by simp),
    fill_digitHole rfl rfl, fill_plain (by simp), fill_digitHole rfl rfl, fill_last (by simp)]
  simp only [String.append_assoc]

theorem fill_inconsistentModel (name reason : String) :
    fill Notice.inconsistentModel.template [name, reason]
      = "internal type model inconsistency while checking method '" ++ name ++ "': "
        ++ reason := by
  have ht : Notice.inconsistentModel.template
      = "internal type model inconsistency while checking method '" ++ (digitHole '0'
        ++ ("': " ++ (digitHole '1' ++ ""))) :=
    rfl
  rw [ht, fill_plain (by simp), fill_digitHole rfl rfl, fill_plain (by simp),
    fill_digitHole rfl rfl, fill_last (by simp)]
  simp only [String.append_assoc, String.append_empty]

end ApiSurface.Template
