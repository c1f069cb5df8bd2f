import ApiSurface.Json.Text
import Mathlib.Logic.Basic

namespace ApiSurface.Json

namespace Quoted

-- Four hexadecimal digits and the number they stand for. This relation and all that follow are
-- between a text and what is left of it behind the thing in question.
inductive Hex : Nat → List Char → List Char → Prop
  | mk {a b c d w x y z rest} : hexValue? a = some w → hexValue? b = some x →
    hexValue? c = some y → hexValue? d = some z →
    Hex (((w * 16 + x) * 16 + y) * 16 + z) (a :: b :: c :: d :: rest) rest

-- What stands behind a backslash for a character: a letter, a unit, or a pair of surrogates.
inductive Escape : Char → List Char → List Char → Prop
  | letter {c letter rest} : unescape? letter = some c → Escape c (letter :: rest) rest
  | unit {n cs rest}       : Hex n cs rest → isLeading n = false → isTrailing n = false →
    Escape (Char.ofNat n) ('u' :: cs) rest
  | pair {m n cs ds rest}  : Hex m cs ('\\' :: 'u' :: ds) → Hex n ds rest → isLeading m →
    isTrailing n →
    Escape (Char.ofNat (0x10000 + (m - 0xd800) * 0x400 + (n - 0xdc00))) ('u' :: cs) rest

-- The characters of a string behind its opening quote, up to and with the closing one.
inductive Written : List Char → List Char → List Char → Prop
  | close {rest}            : Written [] ('"' :: rest) rest
  | plain {c s cs rest}     : c ≠ '"' → c ≠ '\\' → ¬c.toNat < 0x20 → Written s cs rest →
    Written (c :: s) (c :: cs) rest
  | escape {c s cs ds rest} : Escape c cs ds → Written s ds rest →
    Written (c :: s) ('\\' :: cs) rest

end Quoted

namespace Numeral

def Digits (ds : List Char) : Prop :=
  ds ≠ [] ∧ ∀ d ∈ ds, d.isDigit

-- The letters that start an exponent, with and without a sign.
def marks : List (List Char) :=
  [['e'], ['e', '+'], ['e', '-'], ['E'], ['E', '+'], ['E', '-']]

-- The letter of an exponent, with its sign, and the digits; nothing if there is no exponent.
def IsExponent (mark digits : List Char) : Prop :=
  mark = [] ∧ digits = [] ∨ mark ∈ marks ∧ Digits digits

-- The numbers of the format. A zero stands in front of other digits only behind the point.
structure Valid (n : Numeral) : Prop where
  integer  : Digits n.integer
  zero     : n.integer.head? = some '0' → n.integer = ['0']
  fraction : ∀ d ∈ n.fraction, d.isDigit
  exponent : IsExponent n.mark n.exponent

end Numeral

-- Nothing but blanks.
inductive Blanks : List Char → List Char → Prop
  | nil {cs}         : Blanks cs cs
  | cons {c cs rest} : isBlank c → Blanks cs rest → Blanks (c :: cs) rest

-- Further items, each behind a comma, and the closing bracket.
inductive Further {α : Type} (close : Char) (item : α → List Char → List Char → Prop) :
    List α → List Char → List Char → Prop
  | close {cs rest}               : Blanks cs (close :: rest) → Further close item [] cs rest
  | item {a as cs ds es fs rest}  : Blanks cs (',' :: ds) → Blanks ds es → item a es fs →
    Further close item as fs rest → Further close item (a :: as) cs rest

-- The items behind an opening bracket, up to and with the closing one.
inductive Group {α : Type} (close : Char) (item : α → List Char → List Char → Prop) :
    List α → List Char → List Char → Prop
  | empty {cs rest}            : Blanks cs (close :: rest) → Group close item [] cs rest
  | items {a as cs ds es rest} : Blanks cs ds → item a ds es → Further close item as es rest →
    Group close item (a :: as) cs rest

-- A member of an object.
inductive Member (value : Value → List Char → List Char → Prop) :
    String × Value → List Char → List Char → Prop
  | mk {k v cs ds es fs rest} : Quoted.Written k.toList cs ds → Blanks ds (':' :: es) →
    Blanks es fs → value v fs rest → Member value (k, v) ('"' :: cs) rest

namespace Value

inductive Written : Value → List Char → List Char → Prop
  | null {rest}          : Written null ('n' :: 'u' :: 'l' :: 'l' :: rest) rest
  | true {rest}          : Written (bool .true) ('t' :: 'r' :: 'u' :: 'e' :: rest) rest
  | false {rest}         : Written (bool .false) ('f' :: 'a' :: 'l' :: 's' :: 'e' :: rest) rest
  | number {n rest}      : n.Valid → Written (number n) (n.toList ++ rest) rest
  | string {s cs rest}   : Quoted.Written s.toList cs rest → Written (string s) ('"' :: cs) rest
  | array {vs cs rest}   : Group ']' Written vs cs rest → Written (array vs) ('[' :: cs) rest
  | object {ms cs rest}  : Group '}' (Member Written) ms cs rest →
    Written (object ms) ('{' :: cs) rest

-- A text of a value, with blanks around it.
def IsText (v : Value) (s : String) : Prop :=
  ∃ cs rest, Blanks s.toList cs ∧ Written v cs rest ∧ Blanks rest []

mutual

-- Whether no number in a value is too large.
def finite : Value → Bool
  | number n       => !n.tooLarge
  | array items    => finiteItems items
  | object members => finiteMembers members
  | _              => .true
termination_by structural v => v

def finiteItems : List Value → Bool
  | []      => .true
  | v :: vs => finite v && finiteItems vs
termination_by structural vs => vs

def finiteMembers : List (String × Value) → Bool
  | []           => .true
  | (_, v) :: ms => finite v && finiteMembers ms
termination_by structural ms => ms

end

theorem finiteItems_iff {vs : List Value} : finiteItems vs ↔ ∀ v ∈ vs, v.finite := by
  induction vs
  case nil          => simp [finiteItems]
  case cons v vs hi => rw [finiteItems, Bool.and_eq_true, hi, List.forall_mem_cons]

theorem finiteMembers_iff {ms : List (String × Value)} :
    finiteMembers ms ↔ ∀ m ∈ ms, m.2.finite := by
  induction ms
  case nil          => simp [finiteMembers]
  case cons m ms hi => rw [finiteMembers, Bool.and_eq_true, hi, List.forall_mem_cons]

theorem depthItems_le_iff {d : Nat} {vs : List Value} :
    depthItems vs ≤ d ↔ ∀ v ∈ vs, v.depth ≤ d := by
  induction vs
  case nil          => simp [depthItems]
  case cons v vs hi => rw [depthItems, Nat.max_le, hi, List.forall_mem_cons]

theorem depthMembers_le_iff {d : Nat} {ms : List (String × Value)} :
    depthMembers ms ≤ d ↔ ∀ m ∈ ms, m.2.depth ≤ d := by
  induction ms
  case nil          => simp [depthMembers]
  case cons m ms hi => rw [depthMembers, Nat.max_le, hi, List.forall_mem_cons]

theorem depth_array_le_iff {d : Nat} {vs : List Value} :
    (array vs).depth ≤ d ↔ 0 < d ∧ ∀ v ∈ vs, v.depth < d := by
  cases d
  case zero   => simp [depth]
  case succ d =>
    simp only [depth, Nat.add_le_add_iff_right, depthItems_le_iff, Nat.lt_succ_iff,
      Nat.zero_le, true_and]

theorem depth_object_le_iff {d : Nat} {ms : List (String × Value)} :
    (object ms).depth ≤ d ↔ 0 < d ∧ ∀ m ∈ ms, m.2.depth < d := by
  cases d
  case zero   => simp [depth]
  case succ d =>
    simp only [depth, Nat.add_le_add_iff_right, depthMembers_le_iff, Nat.lt_succ_iff,
      Nat.zero_le, true_and]

-- Whether a value is taken by a reader that goes to the given depth.
def Fits (depth : Nat) (v : Value) : Prop :=
  v.depth ≤ depth ∧ v.finite

instance (depth : Nat) : DecidablePred (Fits depth) :=
  fun _ => inferInstanceAs (Decidable (_ ∧ _))

theorem fits_array_iff {d : Nat} {vs : List Value} :
    Fits (d + 1) (array vs) ↔ ∀ v ∈ vs, Fits d v := by
  simp only [Fits, depth, finite, Nat.add_le_add_iff_right, depthItems_le_iff, finiteItems_iff,
    ← forall₂_and]

theorem fits_object_iff {d : Nat} {ms : List (String × Value)} :
    Fits (d + 1) (object ms) ↔ ∀ m ∈ ms, Fits d m.2 := by
  simp only [Fits, depth, finite, Nat.add_le_add_iff_right, depthMembers_le_iff,
    finiteMembers_iff, ← forall₂_and]

-- What is shown of arrays and objects may be known of what stands in them.
@[elab_as_elim]
theorem Written.induction
    {motive : (v : Value) → (cs rest : List Char) → Written v cs rest → Prop}
    (null   : ∀ rest, motive .null _ rest .null)
    (true   : ∀ rest, motive (.bool .true) _ rest .true)
    (false  : ∀ rest, motive (.bool .false) _ rest .false)
    (number : ∀ n rest hn, motive (.number n) _ rest (.number hn))
    (string : ∀ s cs rest hs, motive (.string s) ('"' :: cs) rest (.string hs))
    (array  : ∀ vs cs rest hg, Group ']' (fun v cs rest => ∃ h, motive v cs rest h) vs cs rest →
      motive (.array vs) ('[' :: cs) rest (.array hg))
    (object : ∀ ms cs rest hg,
      Group '}' (Member fun v cs rest => ∃ h, motive v cs rest h) ms cs rest →
      motive (.object ms) ('{' :: cs) rest (.object hg))
    {v : Value} {cs rest : List Char} (h : Written v cs rest) : motive v cs rest h := by
  let known (v : Value) (cs rest : List Char) : Prop := ∃ h, motive v cs rest h
  refine @Written.rec motive
    (fun vs cs rest _ => Group ']' known vs cs rest)
    (fun ms cs rest _ => Group '}' (Member known) ms cs rest)
    (fun vs cs rest _ => Further ']' known vs cs rest)
    (fun m cs rest _ => Member known m cs rest)
    (fun ms cs rest _ => Further '}' (Member known) ms cs rest)
    (null _) (true _) (false _) (number _ _) (string _ _ _) (array _ _ _) (object _ _ _)
    .empty (fun hb hv _ hm hf => .items hb ⟨hv, hm⟩ hf) .empty
    (fun hb _ _ hm hf => .items hb hm hf) .close
    (fun hb hc hv _ hm hf => .item hb hc ⟨hv, hm⟩ hf)
    (fun hk hb hc hv hm => .mk hk hb hc ⟨hv, hm⟩) .close
    (fun hb hc _ _ hm hf => .item hb hc hm hf) v cs rest h

end Value

end ApiSurface.Json
