import ApiSurface.Proofs.Json.Grammar
import ApiSurface.Proofs.Outcome
import Mathlib.Data.List.TakeWhile

namespace ApiSurface.Json

namespace Binary64

theorem nearest_le (n : Nat) : nearest n ≤ 2 * n := by
  by_cases hn : n = 0
  case pos => subst hn; decide
  case neg =>
    simp only [nearest, Nat.shiftLeft_eq, Nat.one_mul]
    have hu : 2 ^ (n.log2 - 52) ≤ n :=
      Nat.le_trans (Nat.pow_le_pow_right (by decide) (Nat.sub_le ..)) (Nat.log2_self_le hn)
    have hb := Nat.div_mul_le_self n (2 ^ (n.log2 - 52))
    split
    case isTrue  => rw [Nat.add_mul]; omega
    case isFalse => omega

end Binary64

namespace Numeral

-- What stands behind a number and does not go on with it.
def Ends (rest : List Char) : Prop :=
  ∀ c ∈ rest.head?, ¬c.isDigit ∧ c ≠ '.' ∧ c ≠ 'e' ∧ c ≠ 'E'

section Texts

variable {n : Numeral} {ds mark cs rest : List Char}

theorem readDigits_append (hd : Digits ds) (hr : ∀ c ∈ rest.head?, ¬c.isDigit) :
    readDigits (ds ++ rest) = .ok (ds, rest) := by
  obtain ⟨hn, hd⟩ := hd
  cases ds
  case nil => contradiction
  case cons d ds =>
    simp only [List.mem_cons, forall_eq_or_imp] at hd
    have ht : rest.takeWhile Char.isDigit = [] ∧ rest.dropWhile Char.isDigit = rest := by
      cases rest
      case nil       => simp
      case cons c cs => simp [hr c rfl]
    simp [readDigits, hd.left, List.takeWhile_append_of_pos hd.right,
      List.dropWhile_append_of_pos hd.right, ht]

theorem digits_of_readDigits (h : readDigits cs = .ok (ds, rest)) :
    Digits ds ∧ cs = ds ++ rest := by
  cases cs
  case nil       => cases h
  case cons c cs =>
    rw [readDigits] at h
    split at h
    case isFalse   => cases h
    case isTrue hc =>
      cases h
      refine ⟨⟨nofun, ?_⟩, by simp⟩
      simpa [hc] using fun d hd => List.mem_takeWhile_imp hd

theorem readInteger_append (hd : Digits ds) (h₀ : ds.head? = some '0' → ds = ['0'])
    (hr : ∀ c ∈ rest.head?, ¬c.isDigit) : readInteger (ds ++ rest) = .ok (ds, rest) := by
  by_cases hz : ds.head? = some '0'
  case pos =>
    obtain rfl := h₀ hz
    cases rest
    case nil       => simp [readInteger]
    case cons c cs => simp [readInteger, hr c rfl]
  case neg =>
    rw [← readDigits_append hd hr]
    cases ds
    case nil       => exact absurd rfl hd.left
    case cons d ds => simp_all [readInteger]

theorem integer_of_readInteger (h : readInteger cs = .ok (ds, rest)) :
    Digits ds ∧ (ds.head? = some '0' → ds = ['0']) ∧ cs = ds ++ rest := by
  cases cs
  case nil       => cases h
  case cons c cs =>
    rw [readInteger] at h
    split at h
    case isTrue hc  =>
      split at h
      case isTrue  => cases h
      case isFalse =>
        cases h
        exact ⟨⟨nofun, by simp [hc]⟩, by simp, rfl⟩
    case isFalse hc =>
      obtain ⟨hd, he⟩ := digits_of_readDigits h
      refine ⟨hd, fun hz => ?_, he⟩
      cases ds <;> simp_all

theorem readFraction_append (hd : ∀ d ∈ ds, d.isDigit)
    (hr : ∀ c ∈ rest.head?, ¬c.isDigit ∧ c ≠ '.') :
    readFraction ((if ds.isEmpty then [] else '.' :: ds) ++ rest) = .ok (ds, rest) := by
  cases ds
  case nil =>
    cases rest
    case nil       => rfl
    case cons c cs => simp [readFraction, (hr c rfl).right]
  case cons d ds =>
    have hd : Digits (d :: ds) := ⟨nofun, hd⟩
    simpa [readFraction] using readDigits_append hd fun c hc => (hr c hc).left

theorem fraction_of_readFraction (h : readFraction cs = .ok (ds, rest)) :
    (∀ d ∈ ds, d.isDigit) ∧ cs = (if ds.isEmpty then [] else '.' :: ds) ++ rest := by
  cases cs
  case nil       => cases h; simp
  case cons c cs =>
    rw [readFraction] at h
    split at h
    case isTrue hc  =>
      obtain ⟨⟨hn, hd⟩, he⟩ := digits_of_readDigits h
      exact ⟨hd, by simp [hc, he, hn]⟩
    case isFalse hc => cases h; simp

theorem mem_marks_iff :
    mark ∈ marks ↔ ∃ c sign, mark = c :: sign ∧ (c = 'e' ∨ c = 'E')
      ∧ (sign = [] ∨ sign = ['+'] ∨ sign = ['-']) := by
  constructor
  case mp  => simp [marks]; rintro (rfl | rfl | rfl | rfl | rfl | rfl) <;> simp
  case mpr => rintro ⟨_, _, rfl, rfl | rfl, rfl | rfl | rfl⟩ <;> simp [marks]

theorem readExponent_append (h : IsExponent mark ds) (hr : Ends rest) :
    readExponent (mark ++ ds ++ rest) = .ok ((mark, ds), rest) := by
  obtain ⟨rfl, rfl⟩ | ⟨hm, hd⟩ := h
  case inl =>
    cases rest
    case nil       => rfl
    case cons c cs => simp [readExponent, (hr c rfl).right.right]
  case inr =>
    have hs := readDigits_append hd fun c hc => (hr c hc).left
    obtain ⟨c, sign, rfl, hc, hm⟩ := mem_marks_iff.mp hm
    have hl : ((sign ++ ds ++ rest).take 1).filter (fun s => s = '+' || s = '-') = sign := by
      obtain rfl | rfl | rfl := hm
      case inl =>
        obtain ⟨hn, hd⟩ := hd
        cases ds
        case nil       => contradiction
        case cons d ds =>
          have hd := hd d (List.mem_cons_self ..)
          have hp : d ≠ '+' ∧ d ≠ '-' := by constructor <;> (rintro rfl; contradiction)
          simp [hp]
      all_goals simp
    have hc : (c = 'e' || c = 'E') = true := by simpa using hc
    rw [List.cons_append, List.cons_append, readExponent, if_pos hc, hl]
    simp [hs]

theorem exponent_of_readExponent (h : readExponent cs = .ok ((mark, ds), rest)) :
    IsExponent mark ds ∧ cs = mark ++ ds ++ rest := by
  cases cs
  case nil       => cases h; simp [IsExponent]
  case cons c cs =>
    rw [readExponent] at h
    split at h
    case isFalse   => cases h; simp [IsExponent]
    case isTrue hc =>
      obtain ⟨⟨es, _⟩, hd, h⟩ := Except.bind_eq_ok.mp h
      cases h
      obtain ⟨hd, he⟩ := digits_of_readDigits hd
      have hm : c = 'e' ∨ c = 'E' := by simpa using hc
      have hs : ∃ sign, (cs.take 1).filter (fun s => s = '+' || s = '-') = sign
          ∧ (sign = [] ∨ sign = ['+'] ∨ sign = ['-']) ∧ cs = sign ++ cs.drop sign.length := by
        cases cs
        case nil => simp
        case cons c cs =>
          by_cases hp : c = '+' <;> by_cases hm : c = '-' <;> simp [hp, hm]
      obtain ⟨sign, hs, hm', hc'⟩ := hs
      rw [hs] at he ⊢
      rw [he] at hc'
      exact ⟨.inr ⟨mem_marks_iff.mpr ⟨c, sign, rfl, hm, hm'⟩, hd⟩, by simp [hc']⟩

-- Neither a fraction nor an exponent goes on with the digits in front of it.
theorem exponent_ends (h : IsExponent mark ds) (hr : Ends rest) :
    ∀ c ∈ (mark ++ ds ++ rest).head?, ¬c.isDigit ∧ c ≠ '.' := by
  obtain ⟨rfl, rfl⟩ | ⟨hm, _⟩ := h
  case inl => exact fun c hc => ⟨(hr c hc).left, (hr c hc).right.left⟩
  case inr =>
    obtain ⟨c, sign, rfl, hc, _⟩ := mem_marks_iff.mp hm
    obtain rfl | rfl := hc <;> simp

theorem fraction_ends (hr : ∀ c ∈ rest.head?, ¬c.isDigit ∧ c ≠ '.') :
    ∀ c ∈ ((if ds.isEmpty then [] else '.' :: ds) ++ rest).head?, ¬c.isDigit := by
  cases ds
  case nil  => exact fun c hc => (hr c hc).left
  case cons => simp

-- A number is read from its text, unless it is too large.
theorem read_of_valid (h : n.Valid) (hr : Ends rest) :
    read (n.toList ++ rest) = if n.tooLarge then .error .malformed else .ok (n, rest) := by
  have hx := exponent_ends h.exponent hr
  have hi := readInteger_append h.integer h.zero (@fraction_ends n.fraction _ hx)
  have hf := readFraction_append h.fraction hx
  have he := readExponent_append h.exponent hr
  obtain ⟨c, cs, hc, hm⟩ : ∃ c cs, n.integer = c :: cs ∧ c ≠ '-' := by
    obtain ⟨hn, hd⟩ := h.integer
    cases hi : n.integer
    case nil       => contradiction
    case cons c cs =>
      have hd := hd c (by simp [hi])
      exact ⟨c, cs, rfl, by rintro rfl; contradiction⟩
  simp only [List.append_assoc] at hi hf he
  have hl : (if n.negative then (n.toList ++ rest).drop 1 else n.toList ++ rest)
      = n.integer ++ ((if n.fraction.isEmpty then [] else '.' :: n.fraction)
          ++ (n.mark ++ (n.exponent ++ rest))) := by
    cases hs : n.negative <;> simp [toList, hs]
  rw [← hl] at hi
  have hb : ((n.toList ++ rest).head? == some '-') = n.negative := by
    cases hs : n.negative <;> simp [toList, hs, hc, hm]
  simp only [read, hb, hi, hf, he, Except.ok_bind]

theorem sign_append (cs : List Char) :
    (if cs.head? == some '-' then ['-'] else [])
      ++ (if cs.head? == some '-' then cs.drop 1 else cs) = cs := by
  cases cs
  case nil       => rfl
  case cons c cs => by_cases hc : c = '-' <;> simp [hc]

theorem valid_of_read (h : read cs = .ok (n, rest)) :
    n.Valid ∧ n.tooLarge = false ∧ cs = n.toList ++ rest := by
  obtain ⟨⟨integer, r₁⟩, hri, h⟩ := Except.bind_eq_ok.mp h
  obtain ⟨⟨fraction, r₂⟩, hrf, h⟩ := Except.bind_eq_ok.mp h
  obtain ⟨⟨⟨mark, exponent⟩, r₃⟩, hre, h⟩ := Except.bind_eq_ok.mp h
  obtain ⟨hi, h₀, h₁⟩ := integer_of_readInteger hri
  obtain ⟨hf, h₂⟩ := fraction_of_readFraction hrf
  obtain ⟨he, h₃⟩ := exponent_of_readExponent hre
  simp only at h
  split at h
  case isTrue     => cases h
  case isFalse hn =>
    rw [Except.ok.injEq, Prod.mk.injEq] at h
    obtain ⟨rfl, rfl⟩ := h
    refine ⟨⟨hi, h₀, hf, he⟩, by simpa using hn, ?_⟩
    rw [h₂, h₃] at h₁
    simp only [toList, List.append_assoc] at h₁ ⊢
    rw [← h₁, sign_append]

end Texts

section Naturals

variable {n : Nat} {ds : List Char}

theorem isDigit_of_mem_toDigits {c : Char} (h : c ∈ Nat.toDigits 10 n) : c.isDigit :=
  Nat.isDigit_of_mem_toDigits (by decide) (by decide) h

theorem exists_toDigits_eq_cons (n : Nat) :
    ∃ d ds, Nat.toDigits 10 n = d :: ds ∧ (0 < n → d ≠ '0') := by
  induction n using Nat.strongRecOn
  case ind n hi =>
    by_cases hn : n < 10
    case pos =>
      have hd : ∀ m < 10, 0 < m → Nat.digitChar m ≠ '0' := by decide
      exact ⟨_, _, Nat.toDigits_of_lt_base hn, hd n hn⟩
    case neg =>
      have ⟨d, ds, he, h₀⟩ := hi (n / 10) (by omega)
      refine ⟨d, ds ++ [Nat.digitChar (n % 10)], ?_, fun _ => h₀ (by omega)⟩
      rw [Nat.toDigits_of_base_le (by decide) (by omega), he, List.cons_append]

theorem le_ofDigitChars : n ≤ Nat.ofDigitChars 10 ds n := by
  induction ds generalizing n
  case nil          => simp
  case cons d ds hi =>
    rw [Nat.ofDigitChars_cons]
    exact Nat.le_trans (by omega) hi

-- Digits that fit 64 bits are all gathered.
theorem gather_eq (h : Nat.ofDigitChars 10 ds n < wordLimit) :
    gather n ds = (Nat.ofDigitChars 10 ds n, 0) := by
  induction ds generalizing n
  case nil          => simp [gather]
  case cons d ds hi =>
    rw [Nat.ofDigitChars_cons] at h ⊢
    rw [gather, if_pos (Nat.lt_of_le_of_lt le_ofDigitChars h), hi h]

theorem scaled_ofNat (h : n < wordLimit) : (ofNat n).scaled = (n, 0) := by
  have hg : gather 0 (Nat.toDigits 10 n) = (n, 0) := by
    rw [gather_eq (by rwa [Nat.ofDigitChars_ten_toDigits]), Nat.ofDigitChars_ten_toDigits]
  simp [scaled, ofNat, hg, gather]

theorem tooLarge_ofNat (h : n < wordLimit) : (ofNat n).tooLarge = false := by
  have h₁ := Binary64.nearest_le n
  have h₂ := Binary64.nearest_le (Binary64.nearest n)
  have hw : 4 * wordLimit ≤ 1 <<< 1024 := by decide
  have hu : Binary64.nearest 1 = 1 := by decide
  have ho : Binary64.overflows (Binary64.nearest n) = false := by
    simp only [Binary64.overflows, decide_eq_false_iff_not]
    omega
  simp [tooLarge, scaled_ofNat h, hu, ho]

theorem natural?_ofNat (h : n < wordLimit) : (ofNat n).natural? = some n := by
  simp [natural?, ofNat, Nat.ofDigitChars_ten_toDigits, h]

theorem valid_ofNat (n : Nat) : (ofNat n).Valid where
  integer  := ⟨Nat.toDigits_ne_nil, fun _ => isDigit_of_mem_toDigits⟩
  zero     := by
    obtain ⟨d, ds, he, h₀⟩ := exists_toDigits_eq_cons n
    intro h
    obtain rfl : n = 0 := Nat.eq_zero_of_not_pos fun hn => h₀ hn (by simpa [ofNat, he] using h)
    rfl
  fraction := nofun
  exponent := .inl ⟨rfl, rfl⟩

end Naturals

end Numeral

end ApiSurface.Json
