import ApiSurface.Diagnostic
import Mathlib.Data.List.Infix
import Mathlib.Data.List.TakeWhile

namespace ApiSurface.Template

-- `Names args digits arg` means that the digits are the number of an argument, which is `arg`.
structure Names (args : List String) (digits : List Char) (arg : String) : Prop where
  nonempty : digits ≠ []
  isDigit  : ∀ c ∈ digits, c.isDigit
  argument : args[Nat.ofDigitChars 10 digits 0]? = some arg

-- A part of a template: text, or a placeholder with the argument that it stands for.
inductive Part where
  | text (cs : List Char)
  | hole (digits : List Char) (arg : String)

-- The part as it stands in the template.
def Part.written : Part → List Char
  | text cs       => cs
  | hole digits _ => '{' :: (digits ++ ['}'])

-- The part as it stands in the filled text.
def Part.filled : Part → List Char
  | text cs    => cs
  | hole _ arg => arg.toList

-- `Splits args parts cs` means that the template `cs` falls into these parts, and that the holes
-- among them are the placeholders for arguments, wherever one stands in the template.
structure Splits (args : List String) (parts : List Part) (cs : List Char) : Prop where
  written : parts.flatMap Part.written = cs
  sound   : ∀ digits arg, .hole digits arg ∈ parts → Names args digits arg
  all     : ∀ before digits arg after, Names args digits arg →
    cs = before ++ '{' :: (digits ++ '}' :: after) →
    ∃ ps qs, parts = ps ++ .hole digits arg :: qs
      ∧ ps.flatMap Part.written = before ∧ qs.flatMap Part.written = after

variable {args : List String} {arg : String} {n : Nat} {c : Char} {cs digits rest : List Char}
  {parts : List Part}

theorem fillFrom_eq_drop : fillFrom args n cs = fillFrom args 0 (cs.drop n) := by
  induction cs generalizing n
  case nil          => rw [List.drop_nil, fillFrom, fillFrom]
  case cons c cs hi =>
    cases n
    case zero   => rfl
    case succ n => rw [fillFrom, hi, List.drop_succ_cons]

namespace Names

theorem takeWhile_eq (h : Names args digits arg) :
    (digits ++ '}' :: rest).takeWhile Char.isDigit = digits := by
  rw [List.takeWhile_append_of_pos h.isDigit, List.takeWhile_cons_of_neg (by decide),
    List.append_nil]

theorem placeholder?_eq (h : Names args digits arg) :
    placeholder? args (digits ++ '}' :: rest) = some (arg, digits.length + 1) := by
  have he : digits.isEmpty = false := List.isEmpty_eq_false_iff.mpr h.nonempty
  simp only [placeholder?, h.takeWhile_eq, List.drop_left, List.head?_cons, he, h.argument]
  rfl

-- What stands behind an opening brace is a placeholder in one way only.
theorem unique {digits' rest' : List Char} {arg' : String} (h : Names args digits arg)
    (h' : Names args digits' arg') (he : digits ++ '}' :: rest = digits' ++ '}' :: rest') :
    digits = digits' ∧ arg = arg' ∧ rest = rest' := by
  have hd := congrArg (List.takeWhile Char.isDigit) he
  rw [h.takeWhile_eq, h'.takeWhile_eq] at hd
  cases hd
  have ha := Option.some.inj (h.argument.symm.trans h'.argument)
  exact ⟨rfl, ha, (List.cons.inj (List.append_cancel_left he)).right⟩

-- There is no opening brace within a placeholder.
theorem exists_of_brace {before after : List Char} (h : Names args digits arg)
    (he : digits ++ '}' :: rest = before ++ '{' :: after) :
    ∃ between, before = digits ++ '}' :: between ∧ rest = between ++ '{' :: after := by
  obtain ⟨_ | ⟨c, between⟩, hb, hr⟩ | ⟨_ | ⟨c, between⟩, hd, hr⟩ := List.append_eq_append_iff.mp he
  case inl.nil  => cases hr
  case inl.cons =>
    obtain ⟨rfl, hs⟩ := List.cons.inj hr
    exact ⟨between, hb, hs⟩
  case inr.nil  => cases hr
  case inr.cons =>
    obtain ⟨rfl, _⟩ := List.cons.inj hr
    exact absurd (h.isDigit '{' (by simp [hd])) (by decide)

end Names

theorem exists_names (h : placeholder? args cs = some (arg, n)) :
    ∃ digits rest, Names args digits arg ∧ cs = digits ++ '}' :: rest := by
  simp only [placeholder?] at h
  split at h
  case isFalse => cases h
  case isTrue hd =>
    obtain ⟨hn, hc⟩ := Bool.and_eq_true_iff.mp hd
    obtain ⟨_, ha, he⟩ := Option.map_eq_some_iff.mp h
    obtain ⟨rfl, _⟩ := Prod.mk.inj he
    obtain ⟨rest, hr⟩ := List.head?_eq_some_iff.mp (beq_iff_eq.mp hc)
    have hs := List.prefix_append_drop (cs.takeWhile_prefix Char.isDigit)
    rw [hr] at hs
    have hn : cs.takeWhile Char.isDigit ≠ [] := by simpa using hn
    exact ⟨_, rest, ⟨hn, fun _ => List.mem_takeWhile_imp, ha⟩, hs⟩

theorem fillFrom_hole (h : Names args digits arg) :
    fillFrom args 0 ('{' :: (digits ++ '}' :: rest))
      = arg.toList ++ fillFrom args 0 rest := by
  have hr : (digits ++ '}' :: rest).drop (digits.length + 1) = rest := by
    rw [← List.drop_drop, List.drop_left, List.drop_succ_cons, List.drop_zero]
  rw [fillFrom, if_pos rfl, h.placeholder?_eq]
  simp only
  rw [fillFrom_eq_drop, hr]

-- A character is kept if no placeholder begins with it.
theorem fillFrom_kept
    (h : ∀ digits arg rest, Names args digits arg →
      c :: cs ≠ '{' :: (digits ++ '}' :: rest)) :
    fillFrom args 0 (c :: cs) = c :: fillFrom args 0 cs := by
  rw [fillFrom]
  split
  case isFalse   => rfl
  case isTrue hc =>
    cases hp : placeholder? args cs
    case none   => rfl
    case some p =>
      obtain ⟨digits, rest, hn, rfl⟩ := exists_names hp
      exact absurd (hc ▸ rfl) (h digits p.1 rest hn)

namespace Splits

theorem nil : Splits args [] [] where
  written := rfl
  sound   := by simp
  all     := by simp

-- No other placeholder begins within a placeholder, as there are but digits in it.
theorem hole (hn : Names args digits arg) (h : Splits args parts cs) :
    Splits args (.hole digits arg :: parts) ('{' :: (digits ++ '}' :: cs)) where
  written := by
    rw [List.flatMap_cons, h.written, Part.written, List.cons_append, List.append_assoc]
    rfl
  sound   := by
    intro digits' arg' hm
    obtain he | hm := List.mem_cons.mp hm
    case inl => cases he; exact hn
    case inr => exact h.sound _ _ hm
  all     := by
    intro before digits' arg' after hn' he
    cases before
    case nil =>
      obtain ⟨rfl, rfl, rfl⟩ := hn.unique hn' (List.cons.inj he).right
      exact ⟨[], parts, rfl, rfl, h.written⟩
    case cons b before =>
      obtain ⟨rfl, hb⟩ := List.cons.inj he
      obtain ⟨between, rfl, hs⟩ := hn.exists_of_brace hb
      obtain ⟨ps, qs, rfl, hb, ha⟩ := h.all _ _ _ _ hn' hs
      refine ⟨.hole digits arg :: ps, qs, rfl, ?_, ha⟩
      rw [List.flatMap_cons, hb, Part.written, List.cons_append, List.append_assoc]
      rfl

theorem text
    (hc : ∀ digits arg rest, Names args digits arg →
      c :: cs ≠ '{' :: (digits ++ '}' :: rest))
    (h : Splits args parts cs) : Splits args (.text [c] :: parts) (c :: cs) where
  written := by
    rw [List.flatMap_cons, h.written]
    rfl
  sound   := by
    intro digits arg hm
    obtain he | hm := List.mem_cons.mp hm
    case inl => cases he
    case inr => exact h.sound _ _ hm
  all     := by
    intro before digits arg after hn he
    cases before
    case nil => exact absurd he (hc _ _ _ hn)
    case cons b before =>
      obtain ⟨rfl, hs⟩ := List.cons.inj he
      obtain ⟨ps, qs, rfl, rfl, ha⟩ := h.all _ _ _ _ hn hs
      exact ⟨.text [c] :: ps, qs, rfl, rfl, ha⟩

-- No number is that of an argument if there are none.
theorem filled_eq (h : Splits [] parts cs) : parts.flatMap Part.filled = cs := by
  rw [← h.written]
  refine List.flatMap_congr fun part hp => ?_
  cases part
  case text            => rfl
  case hole digits arg => exact absurd (h.sound digits arg hp).argument (by simp)

end Splits

-- The parts of a template are found from left to right, and filling it fills them.
theorem exists_splits (args : List String) (cs : List Char) :
    ∃ parts, Splits args parts cs ∧ parts.flatMap Part.filled = fillFrom args 0 cs := by
  induction hn : cs.length using Nat.strongRecOn generalizing cs
  case ind n hi =>
    by_cases hp : ∃ digits arg rest,
        Names args digits arg ∧ cs = '{' :: (digits ++ '}' :: rest)
    case pos =>
      obtain ⟨digits, arg, rest, hd, rfl⟩ := hp
      have hl : rest.length < n := by
        simp only [List.length_cons, List.length_append] at hn
        omega
      obtain ⟨parts, hs, hf⟩ := hi _ hl rest rfl
      exact ⟨.hole digits arg :: parts, .hole hd hs, by
        rw [fillFrom_hole hd, List.flatMap_cons, hf]; rfl⟩
    case neg =>
      match cs with
      | []      => exact ⟨[], .nil, rfl⟩
      | c :: cs =>
        have hc : ∀ digits arg rest, Names args digits arg →
            c :: cs ≠ '{' :: (digits ++ '}' :: rest) :=
          fun _ _ _ hd he => hp ⟨_, _, _, hd, he⟩
        obtain ⟨parts, hs, hf⟩ := hi _ (hn ▸ Nat.lt_succ_self _) cs rfl
        exact ⟨.text [c] :: parts, .text hc hs, by
          rw [fillFrom_kept hc, List.flatMap_cons, hf]; rfl⟩

-- All placeholders of a template give way to their arguments at once, and everything else stays.
-- A template is filled with its arguments as they are, and without arguments it stays as it is.
theorem fill_simultaneous (template : String) (args : List String) :
    (∃ parts, Splits args parts template.toList
      ∧ (fill template args).toList = parts.flatMap Part.filled)
    ∧ fill template [] = template := by
  obtain ⟨parts, hs, hf⟩ := exists_splits args template.toList
  obtain ⟨parts', hs', hf'⟩ := exists_splits [] template.toList
  refine ⟨⟨parts, hs, ?_⟩, ?_⟩
  case refine_1 => rw [fill, String.toList_ofList, hf]
  case refine_2 => rw [fill, ← hf', hs'.filled_eq, String.ofList_toList]

example : fill r"{0}{{001}{2} {} {0" ["{1}", "x"] = r"{1}{x{2} {} {0" := by
  decide

end ApiSurface.Template
