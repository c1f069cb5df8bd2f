import ApiSurface.Proofs.Json.Grammar
import ApiSurface.Proofs.Outcome

namespace ApiSurface.Json.Quoted

variable {c letter : Char} {n : Nat} {cs ds rest s : List Char}

-- Four hexadecimal digits are a number, and the rest starts behind them.
theorem readHex_of_hex (h : Hex n cs rest) : readHex cs = .ok n ∧ cs.drop 4 = rest := by
  obtain ⟨ha, hb, hc, hd⟩ := h
  rename_i a b c d _ _ _ _
  have hl : 4 ≤ a.utf8Size + (b.utf8Size + (c.utf8Size + d.utf8Size)) := by
    have := a.utf8Size_pos
    have := b.utf8Size_pos
    have := c.utf8Size_pos
    have := d.utf8Size_pos
    omega
  simp [readHex, hl, ha, hb, hc, hd]

theorem hex_of_readHex (h : readHex cs = .ok n) : Hex n cs (cs.drop 4) := by
  rw [readHex] at h
  split at h
  case isTrue  => cases h
  case isFalse =>
    split at h
    case h_2            => cases h
    case h_1 w x y z hm =>
      cases h
      match cs with
      | [] | [_] | [_, _] | [_, _, _] => simp [Option.bind_eq_some_iff] at hm
      | a :: b :: c :: d :: rest      =>
        obtain ⟨ha, hb, hc, hd⟩ : hexValue? a = some w ∧ hexValue? b = some x
            ∧ hexValue? c = some y ∧ hexValue? d = some z := by
          simpa [Option.bind_eq_some_iff] using hm
        exact .mk ha hb hc hd

theorem readTrailing_eq_ok_iff :
    readTrailing cs = .ok n ↔ ∃ ds, cs = '\\' :: 'u' :: ds ∧ readHex ds = .ok n ∧ isTrailing n := by
  have hw (es : List Char) : readWord ['\\', 'u'] cs = .ok es ↔ cs = '\\' :: 'u' :: es := by
    rcases cs with _ | ⟨c, _ | ⟨d, cs⟩⟩
    case nil       => simp [readWord]
    case cons.nil  => by_cases hc : c = '\\' <;> simp [readWord, hc]
    case cons.cons =>
      by_cases hc : c = '\\' <;> by_cases hd : d = 'u' <;> simp [readWord, hc, hd]
  simp only [readTrailing, Except.bind_eq_ok, hw]
  constructor
  case mp =>
    rintro ⟨ds, hcs, m, hr, h⟩
    split at h
    case isFalse   => cases h
    case isTrue ht => cases h; exact ⟨ds, hcs, hr, ht⟩
  case mpr =>
    rintro ⟨ds, hcs, hr, ht⟩
    exact ⟨ds, hcs, n, hr, by simp [ht]⟩

-- The second half of a pair takes the six characters behind the digits of the first one.
theorem drop_pair (h : cs.drop 4 = '\\' :: 'u' :: ds) : cs.drop 10 = ds.drop 4 :=
  calc cs.drop 10 = (cs.drop 4).drop 6 := by rw [List.drop_drop]
    _             = ds.drop 4          := by rw [h]; rfl

-- With an escape comes the number of characters that it takes.
theorem readEscape_of_escape (h : Escape c cs rest) :
    ∃ n, readEscape cs = .ok (c, n) ∧ cs.drop n = rest := by
  have hu : unescape? 'u' = none := by decide
  cases h
  case letter l hl => exact ⟨1, by simp [readEscape, hl], rfl⟩
  case unit n cs hl ht hn =>
    obtain ⟨hr, rfl⟩ := readHex_of_hex hn
    exact ⟨5, by simp [readEscape, hu, hr, hl, ht], rfl⟩
  case pair m n cs ds hm hl ht hn =>
    have hl' : isTrailing m = false := by
      simp only [isLeading, isTrailing, Bool.and_eq_true, decide_eq_true_eq, Bool.and_eq_false_iff,
        decide_eq_false_iff_not] at hl ⊢
      omega
    obtain ⟨hrm, hd⟩ := readHex_of_hex hm
    obtain ⟨hrn, rfl⟩ := readHex_of_hex hn
    have ht := readTrailing_eq_ok_iff.mpr ⟨ds, hd, hrn, ht⟩
    exact ⟨11, by simp [readEscape, hu, hrm, hl, hl', ht], drop_pair hd⟩

theorem escape_of_readEscape (h : readEscape cs = .ok (c, n)) : Escape c cs (cs.drop n) := by
  cases cs
  case nil          => cases h
  case cons l cs =>
    rw [readEscape] at h
    split at h
    case h_1 d hl => cases h; exact .letter hl
    case h_2 hl   =>
      split at h
      case isFalse   => cases h
      case isTrue hu =>
        subst hu
        obtain ⟨m, hm, h⟩ := Except.bind_eq_ok.mp h
        split at h
        case isTrue     => cases h
        case isFalse ht =>
          split at h
          case isFalse hl =>
            cases h
            exact .unit (hex_of_readHex hm) (by simpa using hl) (by simpa using ht)
          case isTrue hl  =>
            obtain ⟨n, hn, h⟩ := Except.bind_eq_ok.mp h
            obtain ⟨ds, hd, hr, hn⟩ := readTrailing_eq_ok_iff.mp hn
            have hm := hex_of_readHex hm
            rw [hd] at hm
            have hr := hex_of_readHex hr
            rw [Except.ok.injEq, Prod.mk.injEq] at h
            obtain ⟨rfl, rfl⟩ := h
            rw [List.drop_succ_cons, drop_pair hd]
            exact .pair hm hr hl hn

theorem Hex.length_lt (h : Hex n cs rest) : rest.length < cs.length := by
  cases h
  simp
  omega

theorem Escape.length_lt (h : Escape c cs rest) : rest.length < cs.length := by
  cases h
  case letter  => simp
  case unit hn => have := hn.length_lt; simp; omega
  case pair hm he _ hn =>
    have hm := hm.length_lt
    have hn := hn.length_lt
    simp only [List.length_cons] at hm ⊢
    omega

theorem Written.length_lt (h : Written s cs rest) : rest.length < cs.length := by
  induction h
  case close          => simp
  case plain hi       => simp; omega
  case escape he _ hi => have := he.length_lt; simp; omega

-- Characters that have been read already are passed over.
theorem readRest_drop : readRest n cs = readRest 0 (cs.drop n) := by
  induction cs generalizing n
  case nil          => cases n <;> rfl
  case cons c cs hi =>
    cases n
    case zero   => rfl
    case succ n => exact hi

theorem readRest_of_written (h : Written s cs rest) : readRest 0 cs = .ok (s, rest) := by
  induction h
  case close               => simp [readRest]
  case plain hq hb hc _ hi => simp [readRest, hq, hb, hc, hi]
  case escape he _ hi      =>
    obtain ⟨n, hn, rfl⟩ := readEscape_of_escape he
    have hb : '\\' ≠ '"' := by decide
    simp [readRest, hn, readRest_drop (n := n), hi]

theorem written_of_readRest (h : readRest n cs = .ok (s, rest)) : Written s (cs.drop n) rest := by
  induction cs generalizing n s
  case nil => cases n <;> cases h
  case cons c cs hi =>
    cases n
    case succ n => exact hi h
    case zero =>
      rw [readRest] at h
      split at h
      case isTrue hq  => cases h; exact hq ▸ .close
      case isFalse hq =>
        split at h
        case isTrue hb  =>
          obtain ⟨⟨d, n⟩, he, h⟩ := Except.bind_eq_ok.mp h
          obtain ⟨⟨ds, _⟩, hr, h⟩ := Except.bind_eq_ok.mp h
          cases h
          exact hb ▸ .escape (escape_of_readEscape he) (hi hr)
        case isFalse hb =>
          split at h
          case isTrue     => cases h
          case isFalse hc =>
            obtain ⟨⟨ds, _⟩, hr, h⟩ := Except.bind_eq_ok.mp h
            cases h
            exact .plain hq hb hc (hi hr)

theorem read_eq_ok_iff {s : String} : read cs = .ok (s, rest) ↔ Written s.toList cs rest := by
  rw [read, Except.bind_eq_ok]
  constructor
  case mp =>
    rintro ⟨⟨ds, _⟩, hr, h⟩
    cases h
    simpa using written_of_readRest hr
  case mpr =>
    intro h
    exact ⟨_, readRest_of_written h, by simp⟩

theorem unescape?_of_lookup (h : shortEscapes.lookup c = some letter) :
    unescape? letter = some c := by
  have hm : ∀ p ∈ shortEscapes, unescape? p.2 = some p.1 := by decide
  have ⟨_, _, he, _⟩ := List.lookup_eq_some_iff.mp h
  exact hm (c, letter) (he ▸ List.mem_append_right _ (List.mem_cons_self ..))

-- Of the four digits that writing uses, the upper two are always zero.
theorem hex_control (h : n < 0x20) :
    Hex n ('0' :: '0' :: Nat.digitChar (n / 16) :: Nat.digitChar (n % 16) :: rest) rest := by
  have hv : ∀ m < 16, hexValue? (Nat.digitChar m) = some m := by decide
  have hn : ((0 * 16 + 0) * 16 + n / 16) * 16 + n % 16 = n := by omega
  have hx : Hex (((0 * 16 + 0) * 16 + n / 16) * 16 + n % 16) _ rest :=
    .mk (hv 0 (by omega)) (hv 0 (by omega)) (hv (n / 16) (by omega)) (hv (n % 16) (by omega))
  rwa [hn] at hx

-- A character is written as it is or as an escape.
theorem escape_cases (c : Char) :
    escape c = [c] ∧ c ≠ '"' ∧ c ≠ '\\' ∧ ¬c.toNat < 0x20
    ∨ ∃ ds, escape c = '\\' :: ds ∧ ∀ rest, Escape c (ds ++ rest) rest := by
  rw [escape]
  split
  case h_1 letter hl => exact .inr ⟨_, rfl, fun _ => .letter (unescape?_of_lookup hl)⟩
  case h_2 hl =>
    split
    case isTrue hc =>
      have hu : isLeading c.toNat = false := by simp [isLeading]; omega
      have ht : isTrailing c.toNat = false := by simp [isTrailing]; omega
      refine .inr ⟨_, rfl, fun rest => ?_⟩
      have he : Escape (Char.ofNat c.toNat) _ rest := .unit (hex_control hc) hu ht
      rwa [Char.ofNat_toNat] at he
    case isFalse hc =>
      have hq : c ≠ '"' := by rintro rfl; simp [shortEscapes] at hl
      have hb : c ≠ '\\' := by rintro rfl; simp [shortEscapes] at hl
      exact .inl ⟨rfl, hq, hb, hc⟩

theorem written_escape (h : Written s cs rest) : Written (c :: s) (escape c ++ cs) rest := by
  obtain ⟨he, hq, hb, hc⟩ | ⟨ds, he, hd⟩ := escape_cases c
  case inl => exact he ▸ .plain hq hb hc h
  case inr => exact he ▸ .escape (hd cs) h

theorem written_escapes (s : List Char) : Written s (s.flatMap escape ++ '"' :: rest) rest := by
  induction s
  case nil         => exact .close
  case cons c s hi => simpa using written_escape hi

end ApiSurface.Json.Quoted
