import ApiSurface.Proofs.Json.Rendered
import Mathlib.Data.List.Infix

namespace ApiSurface.Json

variable {α β : Type} {c : Char} {p q cs ds rest : List Char}

-- What is cut off a text either leaves the first part as it is or takes a part of it.
theorem prefix_append_iff :
    p <+: cs ++ ds ↔ (∃ q, p = cs ++ q ∧ q <+: ds) ∨ p <+: cs ∧ p ≠ cs := by
  constructor
  case mp =>
    intro h
    by_cases hc : cs <+: p
    case pos =>
      obtain ⟨q, rfl⟩ := hc
      exact .inl ⟨q, rfl, (List.prefix_append_right_inj cs).mp h⟩
    case neg =>
      have hp := (List.prefix_or_prefix_of_prefix h (List.prefix_append cs ds)).resolve_right hc
      exact .inr ⟨hp, fun he => hc (he ▸ List.prefix_refl cs)⟩
  case mpr =>
    rintro (⟨q, rfl, h⟩ | ⟨h, _⟩)
    · exact (List.prefix_append_right_inj cs).mpr h
    · exact h.trans (List.prefix_append cs ds)

-- The text ends before what is read does, or with it.
def RunsOut (x : Except Fault (α × List Char)) : Prop :=
  x = .error .truncated ∨ ∃ a, x = .ok (a, [])

theorem RunsOut.map {x : Except Fault (α × List Char)} {f : α × List Char → β × List Char}
    (h : RunsOut x) (hf : ∀ a, (f (a, [])).2 = []) : RunsOut (x.map f) := by
  obtain rfl | ⟨a, rfl⟩ := h
  case inl => exact .inl rfl
  case inr => exact .inr ⟨(f (a, [])).1, congrArg Except.ok (Prod.ext rfl (hf a))⟩

theorem readWord_cut {w : List Char} (h : p <+: w) (hn : p ≠ w) :
    readWord w p = .error .truncated := by
  induction w generalizing p
  case nil         => exact absurd (List.prefix_nil.mp h) hn
  case cons c w hi =>
    cases p
    case nil       => rfl
    case cons d p  =>
      obtain ⟨rfl, hp⟩ := List.cons_prefix_cons.mp h
      rw [readWord, if_pos rfl, hi hp fun he => hn (he ▸ rfl)]

section Strings

namespace Quoted

theorem readRest_escape :
    readRest 0 (escape c ++ cs) = (readRest 0 cs).map fun (s, rest) => (c :: s, rest) := by
  obtain ⟨he, hq, hb, hc⟩ | ⟨ds, he, hd⟩ := escape_cases c
  case inl =>
    simp only [he, List.singleton_append, readRest, hq, hb, hc, if_false]
    rfl
  case inr =>
    obtain ⟨n, hn, hr⟩ := readEscape_of_escape (hd cs)
    have hb : '\\' ≠ '"' := by decide
    have hr : readRest n (ds ++ cs) = readRest 0 cs := by rw [readRest_drop, hr]
    simp only [he, List.cons_append, readRest, hb, if_false, if_true, hn, Except.ok_bind, hr]
    rfl

-- Only characters of one byte are escaped.
theorem escape_of_le (h : 0x80 ≤ c.toNat) : escape c = [c] := by
  have hs : ∀ e ∈ shortEscapes, e.1.toNat < 0x80 := by decide
  have hl : shortEscapes.lookup c = none := by
    apply List.lookup_eq_none_iff.mpr
    intro e he
    have hn : c ≠ e.1 := by
      rintro rfl
      exact absurd (hs e he) (by omega)
    simpa using hn
  have hc : ¬c.toNat < 0x20 := by omega
  rw [escape, hl]
  exact if_neg hc

theorem readRest_cut_escape (h : p <+: escape c) (hn : p ≠ escape c) :
    readRest 0 p = .error .truncated := by
  by_cases hc : c.toNat < 0x80
  case pos =>
    have hs : ∀ n < 0x80, ∀ q ∈ (escape (Char.ofNat n)).inits,
        q ≠ escape (Char.ofNat n) → readRest 0 q = .error .truncated := by
      decide +kernel
    rw [← Char.ofNat_toNat c] at h hn
    exact hs c.toNat hc p ((List.mem_inits ..).mpr h) hn
  case neg =>
    rw [escape_of_le (by omega)] at h hn
    obtain rfl := List.prefix_nil.mp <| (@List.prefix_concat_iff _ p [] c).mp h |>.resolve_left hn
    rfl

-- A string without its closing quote, wherever it is cut.
theorem readRest_cut {s : List Char} (h : p <+: s.flatMap escape) :
    readRest 0 p = .error .truncated := by
  induction s generalizing p
  case nil         => rw [List.prefix_nil.mp h]; rfl
  case cons c s hi =>
    obtain ⟨q, rfl, hq⟩ | ⟨hp, hn⟩ := prefix_append_iff.mp (List.flatMap_cons ▸ h)
    case inl => rw [readRest_escape, hi hq]; rfl
    case inr => exact readRest_cut_escape hp hn

theorem read_cut {s : String} (h : '"' :: p <+: quote s) (hn : '"' :: p ≠ quote s) :
    read p = .error .truncated := by
  have hp := (List.cons_prefix_cons.mp h).right
  have hp := (List.prefix_concat_iff.mp hp).resolve_left fun he => hn (he ▸ rfl)
  rw [read, readRest_cut hp]
  rfl

end Quoted

end Strings

section Groups

variable {close : Char} {item : List α → Reader α} {text : α → List Char} {a : α}
  {as before : List α} {limit : Nat}

-- A text that no blank stands before, and that does not close a group.
def Starts (cs : List Char) : Prop :=
  ∃ c ds, cs = c :: ds ∧ isBlank c = false ∧ ¬Closes c

theorem Starts.skipBlanks (h : Starts cs) (hp : p <+: cs ++ ds) : skipBlanks p = p := by
  obtain ⟨c, cs, rfl, hb, _⟩ := h
  cases p
  case nil      => rfl
  case cons d p => rw [(List.cons_prefix_cons.mp hp).left, skipBlanks_cons hb]

-- Behind those before it, each item runs out of text where its own text is cut, and is read where a
-- comma follows.
inductive Cuts (item : List α → Reader α) (text : α → List Char) : List α → List α → Prop
  | nil {bs}       : Cuts item text bs []
  | cons {bs b cs} : Starts (text b) → (∀ p, p <+: text b → RunsOut (item bs p)) →
    (∀ rest, item bs (text b ++ ',' :: rest) = .ok (b, ',' :: rest)) →
    Cuts item text (b :: bs) cs → Cuts item text bs (b :: cs)

theorem cuts_of_forall (hs : ∀ a ∈ as, Starts (text a))
    (hr : ∀ a ∈ as, ∀ between p, p <+: text a → RunsOut (item (between ++ before) p))
    (ht : ∀ a ∈ as, ∀ between rest,
      item (between ++ before) (text a ++ ',' :: rest) = .ok (a, ',' :: rest)) :
    Cuts item text before as := by
  induction as generalizing before
  case nil          => exact .nil
  case cons a as hi =>
    rw [List.forall_mem_cons] at hs hr ht
    refine .cons hs.left (hr.left []) (ht.left []) (hi hs.right ?_ ?_)
    · intro b hb between p
      simpa using hr.right b hb (between ++ [a]) p
    · intro b hb between rest
      simpa using ht.right b hb (between ++ [a]) rest

theorem readItems_of_runsOut (h : RunsOut (item before p)) :
    readItems close item limit before p = .error .truncated := by
  cases limit
  case zero => rfl
  case succ =>
    obtain h | ⟨a, h⟩ := h <;> rw [readItems, h] <;> rfl

theorem readItems_cut (hc : Closes close) (h : Cuts item text before (a :: as))
    (hp : p <+: text a ++ as.flatMap fun b => ',' :: text b) :
    readItems close item limit before p = .error .truncated := by
  induction as generalizing a before p limit <;> obtain _ | ⟨hs, hr, ht, h⟩ := h
  case nil => exact readItems_of_runsOut (hr p (by simpa using hp))
  case cons b bs hi =>
    obtain ⟨q, rfl, hq⟩ | ⟨hp, _⟩ := prefix_append_iff.mp hp
    case inr => exact readItems_of_runsOut (hr p hp)
    case inl =>
      cases q
      case nil      => exact readItems_of_runsOut (hr _ (by simp))
      case cons d q =>
        obtain ⟨rfl, ho⟩ := List.cons_prefix_cons.mp (List.flatMap_cons ▸ hq)
        cases limit
        case zero => rfl
        case succ =>
          have hs : skipBlanks q = q := by
            obtain _ | ⟨hs, _⟩ := h
            exact hs.skipBlanks ho
          rw [readItems_comma hc (ht q) .nil, hs]
          exact hi h ho

-- Items with commas between them.
def separated (text : α → List Char) : List α → List Char
  | []      => []
  | a :: as => text a ++ as.flatMap fun b => ',' :: text b

theorem readGroup_cut (hc : Closes close) (h : Cuts item text [] as)
    (hp : p <+: separated text as) : readGroup close item p = .error .truncated := by
  obtain _ | ⟨hs, hr, ht, h⟩ := h
  case nil           => rw [List.prefix_nil.mp hp]; rfl
  case cons b as =>
    rw [readGroup, hs.skipBlanks hp]
    obtain ⟨c, cs, he, _, hn⟩ := id hs
    cases p
    case nil      => rfl
    case cons d p =>
      have hd : d ≠ close := by
        rintro rfl
        rw [separated, he] at hp
        exact hn ((List.cons_prefix_cons.mp hp).left ▸ hc)
      simp only [hd, if_false]
      exact readItems_cut hc (.cons hs hr ht h) hp

-- What is cut off between brackets starts with the first one and lacks the last one.
theorem eq_of_cut_brackets {b : Char} (h : c :: p <+: b :: (cs ++ [close]))
    (hn : c :: p ≠ b :: (cs ++ [close])) : c = b ∧ p <+: cs := by
  have ⟨hb, hp⟩ := List.cons_prefix_cons.mp h
  exact ⟨hb, (List.prefix_concat_iff.mp hp).resolve_left fun he => hn (hb ▸ he ▸ rfl)⟩

end Groups

section Values

variable {k : String} {v : Value} {d n : Nat}

theorem readValue_nil : readValue d [] = .error .truncated := by
  cases d <;> rfl

-- The digits of a number in front of a cut are those of a smaller one.
theorem prefix_toDigits (h : p <+: Nat.toDigits 10 n) :
    p = [] ∨ ∃ m ≤ n, p = Nat.toDigits 10 m := by
  induction n using Nat.strongRecOn
  case ind n hi =>
    by_cases hn : n < 10
    case pos =>
      rw [Nat.toDigits_of_lt_base hn] at h
      obtain rfl | h := (@List.prefix_concat_iff _ p [] (Nat.digitChar n)).mp h
      case inl => exact .inr ⟨n, Nat.le_refl n, (Nat.toDigits_of_lt_base hn).symm⟩
      case inr => exact .inl (List.prefix_nil.mp h)
    case neg =>
      have he := Nat.toDigits_of_base_le (by decide) (Nat.le_of_not_lt hn)
      rw [he] at h
      obtain rfl | h := List.prefix_concat_iff.mp h
      case inl => exact .inr ⟨n, Nat.le_refl n, he.symm⟩
      case inr =>
        obtain hp | ⟨m, hm, hp⟩ := hi (n / 10) (by omega) h
        case inl => exact .inl hp
        case inr => exact .inr ⟨m, by omega, hp⟩

theorem readKey_quote (k : String) (cs : List Char) :
    readKey (Quoted.quote k ++ cs) = .ok (k, cs) := by
  have ⟨ds, he, hw⟩ := Quoted.written_quote k cs
  rw [he, readKey, if_pos rfl, Quoted.read_eq_ok_iff.mpr hw]

theorem readKey_cut (h : p <+: Quoted.quote k) (hn : p ≠ Quoted.quote k) :
    readKey p = .error .truncated := by
  cases p
  case nil      => rfl
  case cons c p =>
    obtain rfl := (List.cons_prefix_cons.mp h).left
    rw [readKey, if_pos rfl, Quoted.read_cut h hn]

namespace Value

theorem Plain.starts (h : v.Plain) : Starts v.render := by
  have ⟨c, cs, he, hc⟩ := (h.written []).starts
  exact ⟨c, cs, List.append_nil v.render ▸ he, hc⟩

theorem Plain.readValue_append (h : v.Plain) (hd : v.depth ≤ d) (rest : List Char)
    (hr : Numeral.Ends rest) : readValue d (v.render ++ rest) = .ok (v, rest) := by
  rw [readValue_of_written (h.written rest) hr, if_pos ⟨hd, h.finite⟩]

-- The text of a member.
def memberText (m : String × Value) : List Char :=
  Quoted.quote m.1 ++ ':' :: m.2.render

theorem renderItems_eq_flatMap (vs : List Value) :
    renderItems vs = vs.flatMap fun v => ',' :: v.render := by
  induction vs
  case nil          => rfl
  case cons v vs hi => rw [renderItems, hi, List.flatMap_cons, List.cons_append]

theorem renderMembers_eq_flatMap (ms : List (String × Value)) :
    renderMembers ms = ms.flatMap fun m => ',' :: memberText m := by
  induction ms
  case nil          => rfl
  case cons m ms hi =>
    simp only [renderMembers, hi, List.flatMap_cons, List.cons_append, memberText,
      List.append_assoc]

theorem render_natural (n : Nat) : (natural n).render = Nat.toDigits 10 n := by
  simp [natural, render, Numeral.toList, Numeral.ofNat]

theorem render_array (vs : List Value) :
    (array vs).render = '[' :: (separated render vs ++ [']']) := by
  cases vs
  case nil       => rfl
  case cons v vs => rw [render, renderItems_eq_flatMap, separated, List.append_assoc]

theorem render_object (ms : List (String × Value)) :
    (object ms).render = '{' :: (separated memberText ms ++ ['}']) := by
  cases ms
  case nil       => rfl
  case cons m ms =>
    simp only [render, renderMembers_eq_flatMap, separated, memberText, List.append_assoc,
      List.cons_append]

theorem starts_memberText (m : String × Value) : Starts (memberText m) :=
  ⟨'"', _, rfl, rfl, by simp [Closes]⟩

end Value

open Value (memberText)

-- A member runs out of text in its key, behind it or where its value does.
theorem readMember_cut {m : String × Value} {f : String → Except Fault (Reader Value)}
    {r : Reader Value} (hf : f m.1 = .ok r) (hs : Starts m.2.render)
    (hr : ∀ q, q <+: m.2.render → RunsOut (r q)) (hp : p <+: memberText m) :
    RunsOut (readMember f p) := by
  obtain ⟨q, rfl, hq⟩ | ⟨hp, hn⟩ := prefix_append_iff.mp hp
  case inr => exact .inl (by rw [readMember, readKey_cut hp hn]; rfl)
  case inl =>
    cases q
    case nil =>
      have hc : readColon [] = .error .truncated := rfl
      exact .inl (by rw [readMember, readKey_quote]; simp only [Except.ok_bind, hf, hc]; rfl)
    case cons c q =>
      obtain ⟨rfl, hv⟩ := List.cons_prefix_cons.mp hq
      have hb : isBlank ':' = false := by decide
      have hq : skipBlanks q = q := hs.skipBlanks (hv.trans (List.prefix_append _ []))
      have hc : readColon (':' :: q) = .ok q := by
        simp [readColon, skipBlanks_cons hb, readWord, hq]
      have he : readMember f (Quoted.quote m.1 ++ ':' :: q)
          = (r q).map fun read => ((m.1, read.1), read.2) := by
        simp only [readMember, readKey_quote, Except.ok_bind, hf, hc]
        rfl
      rw [he]
      exact (hr q hv).map fun _ => rfl

theorem readMember_append {m : String × Value} {f : String → Except Fault (Reader Value)}
    {r : Reader Value} (hf : f m.1 = .ok r) (hv : m.2.Plain)
    (hr : r (m.2.render ++ rest) = .ok (m.2, rest)) :
    readMember f (memberText m ++ rest) = .ok (m, rest) := by
  have ⟨c, cs, he, hb, _⟩ := hv.starts
  have hn : isBlank ':' = false := by decide
  have hc : readColon (':' :: (m.2.render ++ rest)) = .ok (m.2.render ++ rest) := by
    simp [readColon, skipBlanks_cons hn, readWord, he, skipBlanks_cons hb]
  simp only [memberText, List.append_assoc, List.cons_append, readMember, readKey_quote,
    Except.ok_bind, hf, hc, hr]

theorem ends_comma : Numeral.Ends (',' :: rest) := by
  simp [Numeral.Ends]

theorem readWord_cut_value {w : List Char} (v : Value) (h : p <+: w) (hn : p ≠ w) :
    (readWord w p >>= fun rest => .ok (v, rest)) = .error .truncated := by
  rw [readWord_cut h hn]
  rfl

theorem cuts_items {vs : List Value} (hp : ∀ v ∈ vs, v.Plain) (hd : ∀ v ∈ vs, v.depth ≤ d)
    (hr : ∀ v ∈ vs, ∀ p, p <+: v.render → RunsOut (readValue d p)) :
    Cuts (fun _ => readValue d) Value.render [] vs :=
  cuts_of_forall (fun v hv => (hp v hv).starts) (fun v hv _ => hr v hv)
    (fun v hv _ _ => (hp v hv).readValue_append (hd v hv) _ ends_comma)

theorem cuts_members {ms : List (String × Value)} (hp : ∀ m ∈ ms, m.2.Plain)
    (hd : ∀ m ∈ ms, m.2.depth ≤ d)
    (hr : ∀ m ∈ ms, ∀ p, p <+: m.2.render → RunsOut (readValue d p)) :
    Cuts (fun _ => readMember fun _ => .ok (readValue d)) memberText [] ms :=
  cuts_of_forall (fun m _ => Value.starts_memberText m)
    (fun m hm _ _ => readMember_cut rfl (hp m hm).starts (hr m hm))
    (fun m hm _ _ => readMember_append rfl (hp m hm)
      ((hp m hm).readValue_append (hd m hm) _ ends_comma))

-- Nothing at all and the whole text are no concern of what a value starts with.
theorem Value.Plain.runsOut_of_cons (h : v.Plain) (hd : v.depth ≤ d) (hp : p <+: v.render)
    (hc : ∀ c p, c :: p <+: v.render → c :: p ≠ v.render → RunsOut (readValue d (c :: p))) :
    RunsOut (readValue d p) := by
  by_cases hn : p = v.render
  case pos =>
    have hr := h.readValue_append hd [] (by simp [Numeral.Ends])
    rw [List.append_nil] at hr
    exact .inr ⟨v, hn ▸ hr⟩
  case neg =>
    cases p
    case nil  => exact .inl readValue_nil
    case cons => exact hc _ _ hp hn

theorem runsOut_array {vs : List Value} (hp : ∀ v ∈ vs, v.Plain) (hd : (Value.array vs).depth ≤ d)
    (hr : ∀ v ∈ vs, ∀ {p : List Char} {d : Nat}, v.depth ≤ d → p <+: v.render →
      RunsOut (readValue d p))
    (ht : p <+: separated Value.render vs) : RunsOut (readValue d ('[' :: p)) := by
  obtain _ | d := d
  case zero => simp [Value.depth] at hd
  have hd : ∀ v ∈ vs, v.depth ≤ d := fun v hv =>
    Nat.le_of_lt_succ ((Value.depth_array_le_iff.mp hd).right v hv)
  have hc := cuts_items hp hd fun v hv _ => hr v hv (hd v hv)
  rw [readValue_array, readGroup_cut (.inl rfl) hc ht]
  exact .inl rfl

theorem runsOut_object {ms : List (String × Value)} (hp : ∀ m ∈ ms, m.2.Plain)
    (hd : (Value.object ms).depth ≤ d)
    (hr : ∀ m ∈ ms, ∀ {p : List Char} {d : Nat}, m.2.depth ≤ d → p <+: m.2.render →
      RunsOut (readValue d p))
    (ht : p <+: separated memberText ms) : RunsOut (readValue d ('{' :: p)) := by
  obtain _ | d := d
  case zero => simp [Value.depth] at hd
  have hd : ∀ m ∈ ms, m.2.depth ≤ d := fun m hm =>
    Nat.le_of_lt_succ ((Value.depth_object_le_iff.mp hd).right m hm)
  have hc := cuts_members hp hd fun m hm _ => hr m hm (hd m hm)
  rw [readValue_object, readGroup_cut (.inr rfl) hc ht]
  exact .inl rfl

-- Wherever a value is cut, the reader has nothing to object.
theorem Value.Plain.runsOut (h : v.Plain) (hd : v.depth ≤ d) (hp : p <+: v.render) :
    RunsOut (readValue d p) := by
  induction h generalizing d p
  case natural n hn =>
    rw [render_natural] at hp
    obtain rfl | ⟨m, hm, rfl⟩ := prefix_toDigits hp
    case inl => exact .inl readValue_nil
    case inr =>
      have hm : (Value.natural m).Plain := .natural (Nat.lt_of_le_of_lt hm hn)
      have hr := hm.readValue_append (Nat.zero_le d) [] (by simp [Numeral.Ends])
      rw [List.append_nil, render_natural] at hr
      exact .inr ⟨_, hr⟩
  case null =>
    refine Plain.null.runsOut_of_cons hd hp fun c p hp hn => ?_
    obtain ⟨rfl, ht⟩ := List.cons_prefix_cons.mp hp
    rw [readValue_of_scalar (by decide) (by decide)]
    exact .inl (readWord_cut_value .null ht fun he => hn (he ▸ rfl))
  case bool b =>
    refine Plain.bool.runsOut_of_cons hd hp fun c p hp hn => ?_
    obtain _ | _ := b
    all_goals
      obtain ⟨rfl, ht⟩ := List.cons_prefix_cons.mp hp
      rw [readValue_of_scalar (by decide) (by decide)]
      exact .inl (readWord_cut_value _ ht fun he => hn (he ▸ rfl))
  case string s =>
    refine Plain.string.runsOut_of_cons hd hp fun c p hp hn => ?_
    obtain rfl := (List.cons_prefix_cons.mp hp).left
    rw [readValue_of_scalar (by decide) (by decide), readScalar, if_pos rfl,
      Quoted.read_cut hp hn]
    exact .inl rfl
  case array vs hv hi =>
    refine (Plain.array hv).runsOut_of_cons hd hp fun c p hp hn => ?_
    rw [render_array] at hp hn
    obtain ⟨rfl, ht⟩ := eq_of_cut_brackets hp hn
    exact runsOut_array hv hd hi ht
  case object ms hv hi =>
    refine (Plain.object hv).runsOut_of_cons hd hp fun c p hp hn => ?_
    rw [render_object] at hp hn
    obtain ⟨rfl, ht⟩ := eq_of_cut_brackets hp hn
    exact runsOut_object hv hd hi ht

end Values

end ApiSurface.Json
