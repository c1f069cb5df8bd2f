import ApiSurface.Json.Text
import ApiSurface.Proofs.Json.Numeral
import ApiSurface.Proofs.Json.Quoted

namespace ApiSurface.Json

variable {c : Char} {cs ds rest : List Char}

section Blanks

theorem skipBlanks_cons (h : isBlank c = false) (cs : List Char) :
    skipBlanks (c :: cs) = c :: cs := by
  simp [skipBlanks, h]

theorem skipBlanks_of_blanks (h : Blanks cs ds) : skipBlanks cs = skipBlanks ds := by
  induction h
  case nil        => rfl
  case cons h _ hi => rw [← hi, skipBlanks, List.dropWhile_cons, if_pos h, skipBlanks]

theorem blanks_skipBlanks (cs : List Char) : Blanks cs (skipBlanks cs) := by
  induction cs
  case nil          => exact .nil
  case cons c cs hi =>
    rw [skipBlanks, List.dropWhile_cons]
    split
    case isTrue h => exact .cons h hi
    case isFalse  => exact .nil

theorem Blanks.length_le (h : Blanks cs ds) : ds.length ≤ cs.length := by
  induction h
  case nil         => exact Nat.le_refl _
  case cons _ _ hi => exact Nat.le_succ_of_le hi

-- Blanks do not go on with a number.
theorem Blanks.ends (h : Blanks cs ds) (hd : Numeral.Ends ds) : Numeral.Ends cs := by
  cases h
  case nil       => exact hd
  case cons hc _ =>
    intro c h
    cases h
    simp only [isBlank, Bool.or_eq_true, decide_eq_true_eq] at hc
    obtain ((rfl | rfl) | rfl) | rfl := hc <;> decide

theorem expectEnd_eq_ok_iff {u : Unit} : expectEnd cs = .ok u ↔ Blanks cs [] := by
  constructor
  case mp =>
    intro h
    have hb := blanks_skipBlanks cs
    rw [expectEnd] at h
    split at h
    case isTrue he => rwa [List.isEmpty_iff.mp he] at hb
    case isFalse   => cases h
  case mpr =>
    intro h
    rw [expectEnd, skipBlanks_of_blanks h]
    rfl

end Blanks

theorem eq_append_of_readWord {w : List Char} (h : readWord w cs = .ok rest) : cs = w ++ rest := by
  induction w generalizing cs
  case nil         => cases h; rfl
  case cons c w hi =>
    cases cs
    case nil       => cases h
    case cons d cs =>
      rw [readWord] at h
      split at h
      case isTrue hd => rw [hd, hi h, List.cons_append]
      case isFalse   => cases h

theorem eq_of_readWord {w : List Char} {u v : Value}
    (h : (readWord w cs >>= fun rest => .ok (v, rest)) = .ok (u, rest)) :
    u = v ∧ cs = w ++ rest := by
  obtain ⟨_, hw, h⟩ := Except.bind_eq_ok.mp h
  cases h
  exact ⟨rfl, eq_append_of_readWord hw⟩

section Groups

variable {α : Type} {close : Char} {written written' : α → List Char → List Char → Prop}
  {item : List α → Reader α} {fits : α → Prop} [DecidablePred fits] {a : α} {as before : List α}
  {limit : Nat}

-- What groups are closed by.
def Closes (close : Char) : Prop :=
  close = ']' ∨ close = '}'

theorem Closes.not_blank (h : Closes close) : isBlank close = false := by
  obtain rfl | rfl := h <;> decide

theorem Closes.ne_comma (h : Closes close) : ',' ≠ close := by
  obtain rfl | rfl := h <;> decide

theorem Closes.ends (h : Closes close) : Numeral.Ends (close :: rest) := by
  obtain rfl | rfl := h <;> simp [Numeral.Ends]

-- An item takes a part of the text, which starts neither with a blank nor with what closes groups.
structure IsItem (written : α → List Char → List Char → Prop) : Prop where
  starts : ∀ {a cs rest}, written a cs rest → ∃ c ds, cs = c :: ds ∧ isBlank c = false ∧ ¬Closes c
  takes  : ∀ {a cs rest}, written a cs rest → rest.length < cs.length

theorem IsItem.skipBlanks (h : IsItem written) (ha : written a cs rest) : skipBlanks cs = cs := by
  obtain ⟨c, ds, rfl, hb, _⟩ := h.starts ha
  exact skipBlanks_cons hb ds

theorem Further.imp (h : Further close written as cs rest)
    (hi : ∀ {a cs rest}, written a cs rest → written' a cs rest) :
    Further close written' as cs rest := by
  induction h
  case close hb           => exact .close hb
  case item hb hc ha _ hf => exact .item hb hc (hi ha) hf

theorem Group.imp (h : Group close written as cs rest)
    (hi : ∀ {a cs rest}, written a cs rest → written' a cs rest) :
    Group close written' as cs rest := by
  cases h
  case empty hb       => exact .empty hb
  case items ha hb hf => exact .items hb (hi ha) (hf.imp hi)

theorem further_map_iff {β : Type} {f : β → α} {bs : List β} :
    Further close written (bs.map f) cs rest
      ↔ Further close (fun b => written (f b)) bs cs rest := by
  constructor
  case mp =>
    intro h
    induction bs generalizing cs
    case nil          => obtain ⟨hb⟩ := h; exact .close hb
    case cons b bs hi => obtain _ | ⟨hb, hc, hw, hf⟩ := h; exact .item hb hc hw (hi hf)
  case mpr =>
    intro h
    induction h
    case close hb           => exact .close hb
    case item hb hc hw _ hf => exact .item hb hc hw hf

theorem group_map_iff {β : Type} {f : β → α} {bs : List β} :
    Group close written (bs.map f) cs rest ↔ Group close (fun b => written (f b)) bs cs rest := by
  constructor
  case mp =>
    intro h
    cases bs
    case nil       => obtain ⟨hb⟩ := h; exact .empty hb
    case cons b bs => obtain _ | ⟨hb, hw, hf⟩ := h; exact .items hb hw (further_map_iff.mp hf)
  case mpr =>
    intro h
    cases h
    case empty hb       => exact .empty hb
    case items hw hb hf => exact .items hb hw (further_map_iff.mpr hf)

theorem Further.forall_mem {P : α → Prop} (h : Further close written as cs rest)
    (hp : ∀ {a cs rest}, written a cs rest → P a) : ∀ a ∈ as, P a := by
  induction h
  case close              => simp
  case item hb hc ha _ hf => simpa using ⟨hp ha, hf⟩

theorem Group.forall_mem {P : α → Prop} (h : Group close written as cs rest)
    (hp : ∀ {a cs rest}, written a cs rest → P a) : ∀ a ∈ as, P a := by
  cases h
  case empty          => simp
  case items ha hb hf => simpa using ⟨hp ha, hf.forall_mem hp⟩

theorem Further.length_lt (h : Further close written as cs rest) (hi : IsItem written) :
    as.length + rest.length < cs.length := by
  induction h
  case close hb           => simpa [Nat.succ_le_iff] using hb.length_le
  case item hb hc ha _ hf =>
    have hb := hb.length_le
    have hc := hc.length_le
    have ha := hi.takes ha
    simp only [List.length_cons] at hb ⊢
    omega

theorem Group.length_lt (h : Group close written as cs rest) (hi : IsItem written) :
    rest.length < cs.length := by
  cases h
  case empty hb       => simpa [Nat.succ_le_iff] using hb.length_le
  case items ha hb hf =>
    have hb := hb.length_le
    have ha := hi.takes ha
    have hf := hf.length_lt hi
    omega

-- Behind those before it, each item is read from its texts if it fits, and is malformed otherwise.
inductive ReadsItems (item : List α → Reader α) (written : α → List Char → List Char → Prop)
    (fits : α → Prop) [DecidablePred fits] : List α → List α → Prop
  | nil {bs}       : ReadsItems item written fits bs []
  | cons {bs b cs} :
    (∀ ds rest, written b ds rest → Numeral.Ends rest →
      item bs ds = if fits b then .ok (b, rest) else .error .malformed) →
    ReadsItems item written fits (b :: bs) cs → ReadsItems item written fits bs (b :: cs)

theorem readsItems_of_forall
    (h : ∀ a ∈ as, ∀ between cs rest, written a cs rest → Numeral.Ends rest →
      item (between ++ before) cs = if fits a then .ok (a, rest) else .error .malformed) :
    ReadsItems item written fits before as := by
  induction as generalizing before
  case nil          => exact .nil
  case cons a as ih =>
    refine .cons (h a (by simp) []) (ih fun b hb between => ?_)
    simpa using h b (by simp [hb]) (between ++ [a])

theorem ReadsItems.append {bs : List α} (ha : ReadsItems item written fits before as)
    (hb : ReadsItems item written fits (as.reverse ++ before) bs) :
    ReadsItems item written fits before (as ++ bs) := by
  induction ha
  case nil           => exact hb
  case cons h _ ih   => exact .cons h (ih (by simpa using hb))

-- Behind an item and a comma, reading goes on with the next item.
theorem readItems_comma (hc : Closes close) (ha : item before cs = .ok (a, ds))
    (hb : Blanks ds (',' :: rest)) :
    readItems close item (limit + 1) before cs
      = readItems close item limit (a :: before) (skipBlanks rest) := by
  have hk : isBlank ',' = false := by decide
  have hs : skipBlanks ds = ',' :: rest := by rw [skipBlanks_of_blanks hb, skipBlanks_cons hk]
  simp only [readItems, ha, Except.ok_bind, hs, hc.ne_comma, if_false, if_true]

theorem readItems_of_further (hc : Closes close) (hi : IsItem written) (ha : written a cs ds)
    (hf : Further close written as ds rest) (hl : as.length < limit)
    (hr : ReadsItems item written fits before (a :: as)) :
    readItems close item limit before cs
      = if ∀ b ∈ a :: as, fits b then .ok (before.reverse ++ a :: as, rest)
        else .error .malformed := by
  induction hf generalizing a before limit cs <;> obtain _ | limit := limit
  case close.zero | item.zero => contradiction
  case close.succ ds rest hb =>
    obtain _ | ⟨hr, _⟩ := hr
    have ha := hr cs ds ha (hb.ends hc.ends)
    have hs : skipBlanks ds = close :: rest := by
      rw [skipBlanks_of_blanks hb, skipBlanks_cons hc.not_blank]
    by_cases hf : fits a <;> simp [readItems, ha, hf, hs]
  case item.succ b bs ds es fs gs rest hb he hw _ ih =>
    obtain _ | ⟨hr, hrs⟩ := hr
    have hends : Numeral.Ends (',' :: es) := by simp [Numeral.Ends]
    have ha := hr cs ds ha (hb.ends hends)
    have hs : skipBlanks es = fs := by rw [skipBlanks_of_blanks he, hi.skipBlanks hw]
    have ih := ih hw (Nat.lt_of_succ_lt_succ hl) hrs
    by_cases hf : fits a
    case neg => simp [readItems, ha, hf]
    case pos =>
      rw [if_pos hf] at ha
      rw [readItems_comma hc ha hb, hs, ih]
      simp only [List.reverse_cons, List.append_assoc, List.forall_mem_cons, hf, true_and]
      rfl

-- Behind items that are read, an item that is refused is the end.
theorem readItems_of_fault {b x : α} {bs xs : List α} {e : Fault} (hc : Closes close)
    (hi : IsItem written) (hx : written x cs ds) (hf : Further close written xs ds rest)
    (he : x :: xs = as ++ b :: bs) (hl : as.length < limit)
    (hr : ReadsItems item written fits before as) (hfit : ∀ a ∈ as, fits a)
    (hb : ∀ cs rest, written b cs rest → item (as.reverse ++ before) cs = .error e) :
    readItems close item limit before cs = .error e := by
  induction as generalizing x xs before limit cs ds <;> obtain _ | limit := limit
  case nil.zero | cons.zero => contradiction
  case nil.succ =>
    obtain ⟨rfl, rfl⟩ := List.cons.inj he
    have hx : item before cs = .error e := hb cs ds hx
    rw [readItems, hx]
    rfl
  case cons.succ a as ih =>
    obtain rfl := (List.cons.inj he).left
    obtain _ | ⟨hr, hrs⟩ := hr
    rw [List.forall_mem_cons] at hfit
    obtain hs | ⟨hs, hd, hy, hf⟩ := hf
    case close => simp at he
    case item  =>
      have ha := hr cs ds hx (hs.ends (by simp [Numeral.Ends]))
      rw [if_pos hfit.left] at ha
      rw [readItems_comma hc ha hs, skipBlanks_of_blanks hd, hi.skipBlanks hy]
      refine ih hy hf (List.cons.inj he).right (Nat.lt_of_succ_lt_succ hl) hrs hfit.right
        fun cs rest hw => ?_
      rw [← hb cs rest hw, List.reverse_cons, List.append_assoc]
      rfl

theorem readGroup_of_group (hc : Closes close) (hi : IsItem written)
    (h : Group close written as cs rest) (hr : ReadsItems item written fits [] as) :
    readGroup close item cs
      = if ∀ a ∈ as, fits a then .ok (as, rest) else .error .malformed := by
  cases h
  case empty hb =>
    simp [readGroup, skipBlanks_of_blanks hb, skipBlanks_cons hc.not_blank]
  case items a as ds es ha hb hf =>
    obtain ⟨c, cs', rfl, hnb, hnc⟩ := hi.starts ha
    have hl : as.length < cs'.length + 1 := by
      have ha := hi.takes ha
      have hf := hf.length_lt hi
      simp only [List.length_cons] at ha
      omega
    have hne : c ≠ close := fun h => hnc (h ▸ hc)
    have hg := readItems_of_further hc hi ha hf hl hr
    simpa [readGroup, skipBlanks_of_blanks hb, skipBlanks_cons hnb, hne] using hg

theorem readGroup_of_fault {b : α} {bs : List α} {e : Fault} (hc : Closes close)
    (hi : IsItem written) (h : Group close written (as ++ b :: bs) cs rest)
    (hr : ReadsItems item written fits [] as) (hfit : ∀ a ∈ as, fits a)
    (hb : ∀ cs rest, written b cs rest → item as.reverse cs = .error e) :
    readGroup close item cs = .error e := by
  generalize hx : as ++ b :: bs = xs at h
  obtain hs | ⟨hs, hw, hf⟩ := h
  case empty => simp at hx
  case items a xs ds es =>
    obtain ⟨c, cs', rfl, hnb, hnc⟩ := hi.starts hw
    have hl : as.length < cs'.length + 1 := by
      have hw := hi.takes hw
      have hf := hf.length_lt hi
      have hx := congrArg List.length hx
      simp only [List.length_append, List.length_cons] at hw hx
      omega
    have hne : c ≠ close := fun h => hnc (h ▸ hc)
    rw [readGroup, skipBlanks_of_blanks hs, skipBlanks_cons hnb]
    simp only [hne, if_false]
    refine readItems_of_fault hc hi hw hf hx.symm hl hr hfit fun cs rest hw => ?_
    rw [List.append_nil, hb cs rest hw]

-- Where reading goes on with the items of a group, the texts of the items are taken.
theorem further_of_readItems (h : readItems close item limit before cs = .ok (as, rest))
    (hi : ∀ before cs a rest, item before cs = .ok (a, rest) → written a cs rest) :
    ∃ a bs ds, as = before.reverse ++ a :: bs ∧ written a cs ds
      ∧ Further close written bs ds rest := by
  induction limit generalizing before cs
  case zero           => cases h
  case succ limit ih =>
    obtain ⟨⟨a, ds⟩, ha, h⟩ := Except.bind_eq_ok.mp h
    have hb := blanks_skipBlanks ds
    simp only at h
    split at h
    case h_1           => cases h
    case h_2 c es he =>
      rw [he] at hb
      split at h
      case isTrue hc  =>
        cases h
        exact ⟨a, [], ds, by simp, hi _ _ _ _ ha, .close (hc ▸ hb)⟩
      case isFalse hc =>
        split at h
        case isFalse    => cases h
        case isTrue hc =>
          obtain ⟨b, bs, fs, rfl, hw, hf⟩ := ih h
          exact ⟨a, b :: bs, ds, by simp, hi _ _ _ _ ha,
            .item (hc ▸ hb) (blanks_skipBlanks es) hw hf⟩

theorem group_of_readGroup (h : readGroup close item cs = .ok (as, rest))
    (hi : ∀ before cs a rest, item before cs = .ok (a, rest) → written a cs rest) :
    Group close written as cs rest := by
  have hb := blanks_skipBlanks cs
  rw [readGroup] at h
  split at h
  case h_1         => cases h
  case h_2 c ds he =>
    rw [he] at hb
    split at h
    case isTrue hc => cases h; exact .empty (hc ▸ hb)
    case isFalse   =>
      obtain ⟨a, bs, es, rfl, ha, hf⟩ := further_of_readItems h hi
      exact .items hb ha hf

-- What an item keeps of those before it holds of all of them at the end.
theorem invariant_of_readItems {P : List α → Prop}
    (h : readItems close item limit before cs = .ok (as, rest)) (hp : P before)
    (hi : ∀ before cs a rest, P before → item before cs = .ok (a, rest) → P (a :: before)) :
    P as.reverse := by
  induction limit generalizing before cs
  case zero          => cases h
  case succ limit ih =>
    obtain ⟨⟨a, ds⟩, ha, h⟩ := Except.bind_eq_ok.mp h
    have hp := hi before cs a ds hp ha
    simp only at h
    split at h
    case h_1 => cases h
    case h_2 =>
      split at h
      case isTrue  => cases h; rwa [List.reverse_reverse]
      case isFalse =>
        split at h
        case isTrue  => exact ih h hp
        case isFalse => cases h

theorem invariant_of_readGroup {P : List α → Prop} (h : readGroup close item cs = .ok (as, rest))
    (hp : P [])
    (hi : ∀ before cs a rest, P before → item before cs = .ok (a, rest) → P (a :: before)) :
    P as.reverse := by
  rw [readGroup] at h
  split at h
  case h_1 => cases h
  case h_2 =>
    split at h
    case isTrue  => cases h; exact hp
    case isFalse => exact invariant_of_readItems h hp hi

end Groups

section Items

variable {α : Type} {close : Char} {written written' : Value → List Char → List Char → Prop}
  {k : String} {v : Value}

theorem IsItem.imp (h : IsItem written)
    (hi : ∀ {v cs rest}, written' v cs rest → written v cs rest) : IsItem written' where
  starts hv := h.starts (hi hv)
  takes hv  := h.takes (hi hv)

theorem Member.imp {m : String × Value} (h : Member written m cs rest)
    (hi : ∀ {v cs rest}, written v cs rest → written' v cs rest) : Member written' m cs rest := by
  obtain ⟨hk, hb, hc, hv⟩ := h
  exact .mk hk hb hc (hi hv)

theorem Member.exists_written {m : String × Value} (h : Member written m cs rest) :
    ∃ ds, written m.2 ds rest := by
  obtain ⟨_, _, _, hv⟩ := h
  exact ⟨_, hv⟩

theorem IsItem.member (h : IsItem written) : IsItem (Member written) where
  starts hm := by
    cases hm
    exact ⟨_, _, rfl, rfl, by simp [Closes]⟩
  takes hm  := by
    obtain ⟨hk, hb, hc, hv⟩ := hm
    have hk := hk.length_lt
    have hb := hb.length_le
    have hc := hc.length_le
    have hv := h.takes hv
    simp only [List.length_cons] at hb ⊢
    omega

-- A number starts with a digit or with its sign.
theorem Numeral.Valid.starts {n : Numeral} (h : n.Valid) :
    ∃ c cs, n.toList = c :: cs ∧ (c = '-' ∨ c.isDigit) := by
  obtain ⟨hn, hd⟩ := h.integer
  cases hi : n.integer
  case nil       => contradiction
  case cons d ds =>
    cases hs : n.negative
    case true  => exact ⟨'-', _, by simp [toList, hs]; rfl, .inl rfl⟩
    case false => exact ⟨d, _, by simp [toList, hs, hi]; rfl, .inr (hd d (by simp [hi]))⟩

theorem Value.Written.starts (h : v.Written cs rest) :
    ∃ c ds, cs = c :: ds ∧ isBlank c = .false ∧ ¬Closes c := by
  cases h
  case number n hn =>
    obtain ⟨c, cs, he, hc⟩ := hn.starts
    refine ⟨c, cs ++ _, by rw [he, List.cons_append], ?_, ?_⟩
    · simp only [isBlank, Bool.or_eq_false_iff, decide_eq_false_iff_not]
      refine ⟨⟨⟨?_, ?_⟩, ?_⟩, ?_⟩ <;> (rintro rfl; obtain hc | hc := hc <;> contradiction)
    · rintro (rfl | rfl) <;> obtain hc | hc := hc <;> contradiction
  all_goals exact ⟨_, _, rfl, rfl, by simp [Closes]⟩

theorem Value.Written.length_lt (h : v.Written cs rest) : rest.length < cs.length := by
  have hi : IsItem fun v cs rest => ∃ _ : Value.Written v cs rest, rest.length < cs.length :=
    ⟨fun ⟨h, _⟩ => h.starts, fun ⟨_, hl⟩ => hl⟩
  induction h using Value.Written.induction
  case null | true | false     => simp; omega
  case number n rest hn        =>
    obtain ⟨c, cs, he, _⟩ := hn.starts
    rw [he, List.cons_append, List.length_cons, List.length_append]
    omega
  case string s cs rest hs     => simpa using Nat.lt_succ_of_lt hs.length_lt
  case array vs cs rest _ hg   => exact Nat.lt_succ_of_lt (hg.length_lt hi)
  case object ms cs rest _ hg  => exact Nat.lt_succ_of_lt (hg.length_lt hi.member)

theorem Value.Written.isItem : IsItem Value.Written :=
  ⟨starts, length_lt⟩

theorem Value.Written.isItem_known
    {motive : (v : Value) → (cs rest : List Char) → v.Written cs rest → Prop} :
    IsItem fun v cs rest => ∃ h, motive v cs rest h :=
  isItem.imp fun ⟨h, _⟩ => h

-- A member is read by the reader that is chosen for its key.
theorem readMember_of_member (h : Member written (k, v) cs rest) (hi : IsItem written) :
    ∃ ds, written v ds rest ∧ ∀ {α : Type} (f : String → Except Fault (Reader α)) (r : Reader α),
      f k = .ok r → readMember f cs = (r ds).map fun (a, rest) => ((k, a), rest) := by
  obtain ⟨hk, hb, hc, hv⟩ := h
  rename_i ds es fs
  have hn : isBlank ':' = false := by decide
  have hc : readColon ds = .ok fs := by
    simp [readColon, skipBlanks_of_blanks hb, skipBlanks_cons hn, readWord,
      skipBlanks_of_blanks hc, hi.skipBlanks hv]
  refine ⟨_, hv, fun f r hf => ?_⟩
  simp only [readMember, readKey, if_true, Quoted.read_eq_ok_iff.mpr hk, hf, hc, Except.ok_bind]
  rfl

-- The value of a member that has been read is up to the reader that was chosen for its key.
theorem member_of_readMember {f : String → Except Fault (Reader α)} {a : α}
    (h : readMember f cs = .ok ((k, a), rest)) :
    ∃ r ds, f k = .ok r ∧ r ds = .ok (a, rest)
      ∧ ∀ {written : Value → List Char → List Char → Prop} {v : Value}, written v ds rest →
        Member written (k, v) cs rest := by
  obtain ⟨⟨k, ds⟩, hk, h⟩ := Except.bind_eq_ok.mp h
  obtain ⟨r, hr, h⟩ := Except.bind_eq_ok.mp h
  obtain ⟨es, hc, h⟩ := Except.bind_eq_ok.mp h
  obtain ⟨⟨a, gs⟩, ha, h⟩ := Except.bind_eq_ok.mp h
  cases h
  obtain ⟨fs, hw, hc⟩ := Except.bind_eq_ok.mp hc
  cases hc
  have hb := blanks_skipBlanks ds
  rw [eq_append_of_readWord hw] at hb
  cases cs
  case nil       => cases hk
  case cons c cs =>
    rw [readKey] at hk
    split at hk
    case isFalse   => cases hk
    case isTrue hc =>
      have hk := Quoted.read_eq_ok_iff.mp hk
      exact ⟨r, _, hr, ha, fun hv => hc ▸ .mk hk hb (blanks_skipBlanks fs) hv⟩

end Items

section Values

variable {v : Value} {d : Nat}

theorem Value.isText_iff {s : String} :
    v.IsText s ↔ ∃ rest, v.Written (skipBlanks s.toList) rest ∧ Blanks rest [] := by
  constructor
  case mp =>
    rintro ⟨cs, rest, hb, hw, he⟩
    refine ⟨rest, ?_, he⟩
    rwa [skipBlanks_of_blanks hb, Written.isItem.skipBlanks hw]
  case mpr => exact fun ⟨rest, hw, he⟩ => ⟨_, rest, blanks_skipBlanks _, hw, he⟩

theorem readValue_of_scalar {cs : List Char} (hb : c ≠ '[') (hc : c ≠ '{') :
    readValue d (c :: cs) = readScalar (c :: cs) := by
  cases d <;> simp [readValue, hb, hc]

theorem readValue_bracket_zero {cs : List Char} (h : c = '[' ∨ c = '{') :
    readValue 0 (c :: cs) = .error .malformed := by
  obtain rfl | rfl := h <;> simp [readValue, readScalar]

theorem readValue_array (cs : List Char) :
    readValue (d + 1) ('[' :: cs)
      = (readGroup ']' (fun _ => readValue d) cs).map fun (vs, rest) => (.array vs, rest) := by
  simp only [readValue, if_true]
  rfl

theorem readValue_object (cs : List Char) :
    readValue (d + 1) ('{' :: cs)
      = (readGroup '}' (fun _ => readMember fun _ => .ok (readValue d)) cs).map
          fun (ms, rest) => (.object ms, rest) := by
  have hb : '{' ≠ '[' := by decide
  simp only [readValue, hb, if_true, if_false]
  rfl

theorem readScalar_number {n : Numeral} (h : n.Valid) (hr : Numeral.Ends rest) :
    readScalar (n.toList ++ rest)
      = if n.tooLarge then .error .malformed else .ok (.number n, rest) := by
  obtain ⟨c, cs, he, hc⟩ := h.starts
  have hq : c ≠ '"' := by rintro rfl; obtain hc | hc := hc <;> contradiction
  have hn := Numeral.read_of_valid h hr
  rw [he, List.cons_append] at hn ⊢
  by_cases hl : n.tooLarge <;> simp [readScalar, hq, hc, hn, hl]

theorem readValue_number {n : Numeral} (h : n.Valid) (hr : Numeral.Ends rest) :
    readValue d (n.toList ++ rest)
      = if n.tooLarge then .error .malformed else .ok (.number n, rest) := by
  rw [← readScalar_number h hr]
  obtain ⟨c, cs, he, hc⟩ := h.starts
  rw [he, List.cons_append]
  apply readValue_of_scalar <;> rintro rfl <;> obtain hc | hc := hc <;> contradiction

theorem readValue_of_written (h : v.Written cs rest) (hr : Numeral.Ends rest) :
    readValue d cs = if v.Fits d then .ok (v, rest) else .error .malformed := by
  induction h using Value.Written.induction generalizing d
  case null | true | false =>
    simp [readValue_of_scalar, readScalar, readWord, Value.Fits, Value.depth, Value.finite]
  case number n rest hn =>
    rw [readValue_number hn hr]
    by_cases hl : n.tooLarge <;> simp [Value.Fits, Value.depth, Value.finite, hl]
  case string s cs rest hs =>
    rw [readValue_of_scalar (by decide) (by decide)]
    simp [readScalar, Quoted.read_eq_ok_iff.mpr hs, Value.Fits, Value.depth, Value.finite]
  case array vs cs rest _ hg =>
    cases d
    case zero   => simp [readValue_bracket_zero, Value.Fits, Value.depth]
    case succ d =>
      have hg : readGroup ']' (fun _ => readValue d) cs
          = if ∀ v ∈ vs, v.Fits d then .ok (vs, rest) else .error .malformed :=
        readGroup_of_group (.inl rfl) Value.Written.isItem_known hg <|
          readsItems_of_forall fun _ _ _ _ _ hv => hv.elim fun _ h => h
      simp only [readValue_array, hg, Value.fits_array_iff]
      split <;> rfl
  case object ms cs rest _ hg =>
    cases d
    case zero   => simp [readValue_bracket_zero, Value.Fits, Value.depth]
    case succ d =>
      have hg : readGroup '}' (fun _ => readMember fun _ => .ok (readValue d)) cs
          = if ∀ m ∈ ms, m.2.Fits d then .ok (ms, rest) else .error .malformed := by
        refine readGroup_of_group (.inr rfl) Value.Written.isItem_known.member hg <|
          readsItems_of_forall ?_
        intro m _ _ cs rest hm hr
        obtain ⟨ds, ⟨_, h⟩, he⟩ := readMember_of_member hm Value.Written.isItem_known
        rw [he _ _ rfl, h hr]
        split <;> rfl
      simp only [readValue_object, hg, Value.fits_object_iff]
      split <;> rfl

theorem written_array {vs : List Value}
    (h : Group ']' (fun v cs rest => v.Written cs rest ∧ v.depth ≤ d) vs cs rest) :
    (Value.array vs).Written ('[' :: cs) rest ∧ (Value.array vs).depth ≤ d + 1 := by
  refine ⟨.array (h.imp And.left), ?_⟩
  rw [Value.depth, Nat.add_le_add_iff_right, Value.depthItems_le_iff]
  exact h.forall_mem And.right

theorem written_object {ms : List (String × Value)}
    (h : Group '}' (Member fun v cs rest => v.Written cs rest ∧ v.depth ≤ d) ms cs rest) :
    (Value.object ms).Written ('{' :: cs) rest ∧ (Value.object ms).depth ≤ d + 1 := by
  refine ⟨.object (h.imp (·.imp And.left)), ?_⟩
  rw [Value.depth, Nat.add_le_add_iff_right, Value.depthMembers_le_iff]
  exact h.forall_mem fun hm => hm.exists_written.elim fun _ hv => hv.right

theorem written_of_readScalar (h : readScalar cs = .ok (v, rest)) :
    v.Written cs rest ∧ v.depth = 0 := by
  cases cs
  case nil => cases h
  case cons c cs =>
    rw [readScalar] at h
    split at h
    case isTrue hc =>
      obtain ⟨⟨s, _⟩, hs, h⟩ := Except.bind_eq_ok.mp h
      cases h
      exact ⟨hc ▸ .string (Quoted.read_eq_ok_iff.mp hs), rfl⟩
    case isFalse =>
    split at h
    case isTrue =>
      obtain ⟨⟨n, _⟩, hn, h⟩ := Except.bind_eq_ok.mp h
      cases h
      obtain ⟨hn, _, he⟩ := Numeral.valid_of_read hn
      exact ⟨he ▸ .number hn, rfl⟩
    case isFalse =>
    split at h
    case isTrue hc =>
      obtain ⟨rfl, rfl⟩ := eq_of_readWord h
      exact ⟨hc ▸ .null, rfl⟩
    case isFalse =>
    split at h
    case isTrue hc =>
      obtain ⟨rfl, rfl⟩ := eq_of_readWord h
      exact ⟨hc ▸ .true, rfl⟩
    case isFalse =>
    split at h
    case isTrue hc =>
      obtain ⟨rfl, rfl⟩ := eq_of_readWord h
      exact ⟨hc ▸ .false, rfl⟩
    case isFalse => cases h

theorem written_of_readValue (h : readValue d cs = .ok (v, rest)) :
    v.Written cs rest ∧ v.depth ≤ d := by
  induction d generalizing v cs rest
  case zero =>
    obtain ⟨hw, hd⟩ := written_of_readScalar h
    exact ⟨hw, Nat.le_of_eq hd⟩
  case succ d ih =>
    cases cs
    case nil => cases h
    case cons c cs =>
      by_cases hb : c = '['
      case pos =>
        subst hb
        rw [readValue_array] at h
        obtain ⟨⟨vs, _⟩, hg, h⟩ := Except.map_eq_ok.mp h
        cases h
        exact written_array (group_of_readGroup hg fun _ _ _ _ h => ih h)
      case neg =>
      by_cases hc : c = '{'
      case pos =>
        subst hc
        rw [readValue_object] at h
        obtain ⟨⟨ms, _⟩, hg, h⟩ := Except.map_eq_ok.mp h
        cases h
        refine written_object (group_of_readGroup hg fun _ _ _ _ h => ?_)
        obtain ⟨_, _, hr, hv, hm⟩ := member_of_readMember h
        cases hr
        exact hm (ih hv)
      case neg =>
        rw [readValue_of_scalar hb hc] at h
        obtain ⟨hw, hd⟩ := written_of_readScalar h
        exact ⟨hw, hd ▸ Nat.zero_le _⟩

end Values

end ApiSurface.Json
