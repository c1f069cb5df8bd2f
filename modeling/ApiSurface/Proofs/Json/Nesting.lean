import ApiSurface.Proofs.Json.Rendered
import Mathlib.Tactic.Tauto

namespace ApiSurface.Json

-- Where a character of a text stands: outside of the strings, in one, or behind a backslash in one.
inductive Place where
  | outside
  | quoted
  | escaped

-- The greatest number of brackets that are open at once in a text, with `n` of them opened before.
-- Brackets inside strings do not count.
def nestingFrom : Place → (n : Nat) → List Char → Nat
  | _,        n, []      => n
  | .outside, n, c :: cs =>
    if c = '"' then nestingFrom .quoted n cs
    else if c = '[' ∨ c = '{' then nestingFrom .outside (n + 1) cs
    else if c = ']' ∨ c = '}' then max n (nestingFrom .outside (n - 1) cs)
    else nestingFrom .outside n cs
  | .quoted,  n, c :: cs =>
    if c = '"' then nestingFrom .outside n cs
    else if c = '\\' then nestingFrom .escaped n cs
    else nestingFrom .quoted n cs
  | .escaped, n, _ :: cs => nestingFrom .quoted n cs

-- The number of arrays and objects that stand within each other in a JSON text.
def nesting (s : String) : Nat :=
  nestingFrom .outside 0 s.toList

variable {p : Place} {n k : Nat} {c : Char} {s cs ds rest : List Char} {v : Value}

@[simp] theorem nestingFrom_nil : nestingFrom p n [] = n := by
  cases p <;> rfl

theorem nestingFrom_outside_cons : nestingFrom .outside n (c :: cs) =
    if c = '"' then nestingFrom .quoted n cs
    else if c = '[' ∨ c = '{' then nestingFrom .outside (n + 1) cs
    else if c = ']' ∨ c = '}' then max n (nestingFrom .outside (n - 1) cs)
    else nestingFrom .outside n cs :=
  rfl

@[simp] theorem nestingFrom_quoted_cons : nestingFrom .quoted n (c :: cs) =
    if c = '"' then nestingFrom .outside n cs
    else if c = '\\' then nestingFrom .escaped n cs
    else nestingFrom .quoted n cs :=
  rfl

@[simp] theorem nestingFrom_escaped_cons :
    nestingFrom .escaped n (c :: cs) = nestingFrom .quoted n cs :=
  rfl

theorem le_nestingFrom : n ≤ nestingFrom p n cs := by
  induction cs generalizing p n
  case nil          => simp
  case cons c cs hi =>
    have hs : n ≤ nestingFrom .outside (n + 1) cs := Nat.le_trans (Nat.le_succ n) hi
    cases p
    case outside =>
      rw [nestingFrom_outside_cons]
      repeat' split
      all_goals first | exact hi | exact hs | exact Nat.le_max_left ..
    case quoted  =>
      rw [nestingFrom_quoted_cons]
      repeat' split
      all_goals exact hi
    case escaped => exact hi

-- What has no brackets adds nothing to those that are open already.
theorem nestingFrom_le_iff : nestingFrom p n cs ≤ k ↔ n ≤ k ∧ nestingFrom p n cs ≤ k :=
  ⟨fun h => ⟨Nat.le_trans le_nestingFrom h, h⟩, And.right⟩

section Scalars

-- A character that no string and no bracket starts or ends with.
theorem nestingFrom_other (h : c ∉ ['"', '[', ']', '{', '}']) :
    nestingFrom .outside n (c :: cs) = nestingFrom .outside n cs := by
  simp at h
  simp [nestingFrom_outside_cons, h]

theorem nestingFrom_others (h : ∀ c ∈ cs, c ∉ ['"', '[', ']', '{', '}']) :
    nestingFrom .outside n (cs ++ rest) = nestingFrom .outside n rest := by
  induction cs
  case nil          => rfl
  case cons c cs hi =>
    rw [List.cons_append, nestingFrom_other (h c (by simp)), hi fun d hd => h d (by simp [hd])]

theorem nestingFrom_blanks (h : Blanks cs rest) :
    nestingFrom .outside n cs = nestingFrom .outside n rest := by
  induction h
  case nil         => rfl
  case cons h _ hi =>
    rw [← hi]
    refine nestingFrom_other ?_
    simp only [List.mem_cons, List.not_mem_nil, or_false]
    rintro (rfl | rfl | rfl | rfl | rfl) <;> contradiction

theorem not_bracket_of_isDigit (h : c.isDigit) : c ∉ ['"', '[', ']', '{', '}'] := by
  simp only [List.mem_cons, List.not_mem_nil, or_false]
  rintro (rfl | rfl | rfl | rfl | rfl) <;> contradiction

theorem nestingFrom_number {m : Numeral} (h : m.Valid) :
    nestingFrom .outside n (m.toList ++ rest) = nestingFrom .outside n rest := by
  have hm : ∀ c ∈ m.mark, c ∉ ['"', '[', ']', '{', '}'] := by
    obtain ⟨hm, _⟩ | ⟨hm, _⟩ := h.exponent
    case inl => simp [hm]
    case inr =>
      obtain ⟨_, _, he, rfl | rfl, rfl | rfl | rfl⟩ := Numeral.mem_marks_iff.mp hm <;> simp [he]
  have he : ∀ c ∈ m.exponent, c.isDigit := by
    obtain ⟨_, he⟩ | ⟨_, _, he⟩ := h.exponent
    case inl => simp [he]
    case inr => exact he
  refine nestingFrom_others fun c hc => ?_
  simp only [Numeral.toList, List.mem_append] at hc
  obtain (((hc | hc) | hc) | hc) | hc := hc
  · split at hc <;> simp_all
  · exact not_bracket_of_isDigit (h.integer.right c hc)
  · split at hc
    · simp at hc
    · obtain rfl | hc := List.mem_cons.mp hc
      · decide
      · exact not_bracket_of_isDigit (h.fraction c hc)
  · exact hm c hc
  · exact not_bracket_of_isDigit (he c hc)

theorem nestingFrom_hex {m : Nat} (h : Quoted.Hex m cs rest) :
    nestingFrom .quoted n cs = nestingFrom .quoted n rest := by
  have hd {c : Char} {d : Nat} (h : Quoted.hexValue? c = some d) : c ≠ '"' ∧ c ≠ '\\' := by
    constructor <;> (rintro rfl; contradiction)
  obtain ⟨ha, hb, hc, hd'⟩ := h
  simp [hd ha, hd hb, hd hc, hd hd']

theorem nestingFrom_escape (h : Quoted.Escape c cs rest) :
    nestingFrom .escaped n cs = nestingFrom .quoted n rest := by
  cases h
  case letter         => rfl
  case unit hn        => simp [nestingFrom_hex hn]
  case pair hm _ _ hn => simp [nestingFrom_hex hm, nestingFrom_hex hn]

theorem nestingFrom_string (h : Quoted.Written s cs rest) :
    nestingFrom .quoted n cs = nestingFrom .outside n rest := by
  induction h
  case close              => simp
  case plain hq hb _ _ hi => simp [hq, hb, hi]
  case escape he _ hi     => simp [nestingFrom_escape he, hi]

end Scalars

section Groups

variable {α : Type} {close : Char} {depth : α → Nat} {a : α} {as : List α}

-- Whether a text that is taken is nested as deep as what it is taken for.
def Nested (depth : α → Nat) (a : α) (cs rest : List Char) : Prop :=
  ∀ n k, nestingFrom .outside n cs ≤ k ↔ n + depth a ≤ k ∧ nestingFrom .outside n rest ≤ k

theorem nestingFrom_open (h : c = '[' ∨ c = '{') :
    nestingFrom .outside n (c :: rest) = nestingFrom .outside (n + 1) rest := by
  cases h <;> subst c <;> rfl

theorem nestingFrom_close_le_iff (h : Closes c) :
    nestingFrom .outside (n + 1) (c :: rest) ≤ k
      ↔ n + 1 ≤ k ∧ nestingFrom .outside n rest ≤ k := by
  have he : nestingFrom .outside (n + 1) (c :: rest)
      = max (n + 1) (nestingFrom .outside n rest) := by
    cases h <;> subst c <;> rfl
  rw [he]
  exact Nat.max_le

theorem nestingFrom_further_le_iff (hc : Closes close)
    (h : Further close (Nested depth) as cs rest) :
    nestingFrom .outside (n + 1) cs ≤ k
      ↔ n + 1 ≤ k ∧ (∀ a ∈ as, n + 1 + depth a ≤ k) ∧ nestingFrom .outside n rest ≤ k := by
  induction h
  case close hb           => simp [nestingFrom_blanks hb, nestingFrom_close_le_iff hc]
  case item hb he hw _ hi =>
    rw [nestingFrom_blanks hb, nestingFrom_other (by decide), nestingFrom_blanks he, hw, hi,
      List.forall_mem_cons]
    tauto

theorem nestingFrom_group_le_iff (hc : Closes close) (h : Group close (Nested depth) as cs rest) :
    nestingFrom .outside (n + 1) cs ≤ k
      ↔ n + 1 ≤ k ∧ (∀ a ∈ as, n + 1 + depth a ≤ k) ∧ nestingFrom .outside n rest ≤ k := by
  cases h
  case empty hb       => simp [nestingFrom_blanks hb, nestingFrom_close_le_iff hc]
  case items hw hb hf =>
    rw [nestingFrom_blanks hb, hw, nestingFrom_further_le_iff hc hf, List.forall_mem_cons]
    tauto

-- A group is nested once more than the deepest of its items.
theorem nested_le_iff {deepest : Nat} (h : ∀ d, deepest ≤ d ↔ ∀ a ∈ as, depth a ≤ d) :
    n + (deepest + 1) ≤ k ↔ n + 1 ≤ k ∧ ∀ a ∈ as, n + 1 + depth a ≤ k := by
  specialize h (k - (n + 1))
  constructor
  case mp =>
    intro hk
    refine ⟨by omega, fun a ha => ?_⟩
    have := h.mp (by omega) a ha
    omega
  case mpr =>
    intro ⟨hn, hk⟩
    have := h.mpr fun a ha => by have := hk a ha; omega
    omega

theorem nested_member {written : Value → List Char → List Char → Prop} {m : String × Value}
    (h : Member written m cs rest)
    (hi : ∀ {v cs rest}, written v cs rest → Nested Value.depth v cs rest) :
    Nested (Value.depth ·.2) m cs rest := by
  obtain ⟨hk, hb, hc, hv⟩ := h
  intro n k
  rw [nestingFrom_outside_cons, if_pos rfl, nestingFrom_string hk, nestingFrom_blanks hb,
    nestingFrom_other (by decide), nestingFrom_blanks hc, hi hv]

end Groups

theorem nested_of_written (h : v.Written cs rest) : Nested Value.depth v cs rest := by
  induction h using Value.Written.induction <;> intro n k
  case null | true | false =>
    simpa [Value.depth, nestingFrom_outside_cons] using nestingFrom_le_iff
  case number m rest hm =>
    simpa [nestingFrom_number hm, Value.depth] using nestingFrom_le_iff
  case string s cs rest hs =>
    simpa [nestingFrom_outside_cons, nestingFrom_string hs, Value.depth] using nestingFrom_le_iff
  case array vs cs rest _ hg =>
    have hg := hg.imp fun hv => hv.elim fun _ h => h
    rw [nestingFrom_open (.inl rfl), nestingFrom_group_le_iff (.inl rfl) hg, Value.depth,
      nested_le_iff fun _ => Value.depthItems_le_iff, and_assoc]
  case object ms cs rest _ hg =>
    have hg := hg.imp fun hm => nested_member hm fun hv => hv.elim fun _ h => h
    rw [nestingFrom_open (.inr rfl), nestingFrom_group_le_iff (.inr rfl) hg, Value.depth,
      nested_le_iff fun _ => Value.depthMembers_le_iff, and_assoc]

theorem nesting_of_isText {s : String} (h : v.IsText s) : nesting s = v.depth := by
  obtain ⟨cs, rest, hb, hv, he⟩ := h
  have hn (k : Nat) : nesting s ≤ k ↔ v.depth ≤ k := by
    rw [nesting, nestingFrom_blanks hb, nested_of_written hv, nestingFrom_blanks he]
    simp
  exact Nat.le_antisymm ((hn _).mpr (Nat.le_refl _)) ((hn _).mp (Nat.le_refl _))

theorem nesting_text (h : v.Plain) : nesting v.text = v.depth :=
  nesting_of_isText h.isText

end ApiSurface.Json
