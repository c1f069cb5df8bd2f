import ApiSurface.Json.Fields
import ApiSurface.Proofs.Json.Grammar
import ApiSurface.Proofs.Outcome

namespace ApiSurface.Json

namespace Fields

variable {α β : Type} {f : Fields α} {g : Fields β} {ms ns : List (String × Value)}
  {vs ws : List Value}

theorem putAll_append (d : f.Draft) :
    f.putAll d (ms ++ ns) = (f.putAll d ms >>= fun d => f.putAll d ns) := by
  induction ms generalizing d
  case nil          => simp [putAll]
  case cons m ms hi =>
    rw [List.cons_append, putAll, putAll]
    cases f.put d m.1 m.2
    case error => rfl
    case ok d  => simp [hi]

-- Members whose keys belong to the first fields leave the others as they are, and conversely.
theorem putAll_both_first {d : f.Draft} {e : g.Draft} (h : ∀ m ∈ ms, m.1 ∈ f.keys) :
    (f.both g).putAll (d, e) ms = (f.putAll d ms).map (·, e) := by
  induction ms generalizing d
  case nil          => simp [putAll]
  case cons m ms hi =>
    rw [putAll, putAll, put, if_pos (h m (by simp))]
    cases f.put d m.1 m.2
    case error => rfl
    case ok d  => simpa using hi fun m hm => h m (by simp [hm])

theorem putAll_both_second {d : f.Draft} {e : g.Draft} (h : ∀ m ∈ ms, m.1 ∉ f.keys) :
    (f.both g).putAll (d, e) ms = (g.putAll e ms).map (d, ·) := by
  induction ms generalizing e
  case nil          => simp [putAll]
  case cons m ms hi =>
    rw [putAll, putAll, put, if_neg (h m (by simp))]
    cases g.put e m.1 m.2
    case error => rfl
    case ok e  => simpa using hi fun m hm => h m (by simp [hm])

-- Members with other keys are passed over.
theorem put_of_not_mem {k : String} {v : Value} (d : f.Draft) (h : k ∉ f.keys) :
    f.put d k v = .ok d := by
  induction f
  case one key read absent =>
    rw [keys, List.mem_singleton] at h
    simp only [put, h, if_false]
  case both f g _ hg =>
    rw [keys, List.mem_append, not_or] at h
    rw [put, if_neg h.left, hg d.2 h.right]
    rfl

theorem putAll_filter (d : f.Draft) (ms : List (String × Value)) :
    f.putAll d ms = f.putAll d (ms.filter (·.1 ∈ f.keys)) := by
  induction ms generalizing d
  case nil          => rfl
  case cons m ms hi =>
    by_cases hk : m.1 ∈ f.keys
    case pos =>
      rw [List.filter_cons_of_pos (by simpa using hk), putAll, putAll]
      simp only [hi]
    case neg =>
      rw [List.filter_cons_of_neg (by simpa using hk), putAll, put_of_not_mem d hk, ← hi]
      rfl

-- Fields that share no keys are read from an object independently.
theorem putAll_both {d d' : f.Draft} {e e' : g.Draft} (hk : ∀ k ∈ f.keys, k ∉ g.keys)
    (hf : f.putAll d ms = .ok d') (hg : g.putAll e ms = .ok e') :
    (f.both g).putAll (d, e) ms = .ok (d', e') := by
  induction ms generalizing d e
  case nil          => cases hf; cases hg; rfl
  case cons m ms hi =>
    obtain ⟨d'', hd, hf⟩ := Except.bind_eq_ok.mp hf
    obtain ⟨e'', he, hg⟩ := Except.bind_eq_ok.mp hg
    have hp : (f.both g).put (d, e) m.1 m.2 = .ok (d'', e'') := by
      by_cases hm : m.1 ∈ f.keys
      case pos =>
        cases (put_of_not_mem e (hk m.1 hm)).symm.trans he
        rw [put, if_pos hm, hd]
        rfl
      case neg =>
        cases (put_of_not_mem d hm).symm.trans hd
        rw [put, if_neg hm, he]
        rfl
    rw [putAll, hp]
    exact hi hf hg

-- Reading the members of an object in order, and reading the start of an array.
theorem putAll_zip (hn : f.keys.Nodup) (hl : vs.length = f.keys.length) (ws : List Value) :
    match f.putAll f.blank (f.keys.zip vs) with
    | .ok d    => ∃ a, f.finish d = .ok a ∧ f.take (vs ++ ws) = .ok (a, ws)
    | .error e => f.take (vs ++ ws) = .error e := by
  induction f generalizing vs ws
  case one key read absent =>
    match vs, hl with
    | [v], _ =>
      cases hr : read v
      case error => simp [putAll, put, blank, keys, take, hr]
      case ok a  => simp [putAll, put, blank, keys, take, finish, hr]
  case both f g hf hg =>
    have ⟨hnf, hng, hd⟩ := List.nodup_append.mp hn
    obtain ⟨vs₁, vs₂, rfl, hl₁, hl₂⟩ : ∃ vs₁ vs₂, vs = vs₁ ++ vs₂
        ∧ vs₁.length = f.keys.length ∧ vs₂.length = g.keys.length := by
      rw [keys, List.length_append] at hl
      exact ⟨_, _, (List.take_append_drop f.keys.length vs).symm, by simp; omega, by simp; omega⟩
    specialize hf hnf hl₁ (vs₂ ++ ws)
    specialize hg hng hl₂ ws
    have hkf : ∀ m ∈ f.keys.zip vs₁, m.1 ∈ f.keys := fun m hm => (List.of_mem_zip hm).left
    have hkg : ∀ m ∈ g.keys.zip vs₂, m.1 ∉ f.keys := fun m hm h =>
      hd _ h _ (List.of_mem_zip hm).left rfl
    rw [keys, List.zip_append hl₁.symm, blank, putAll_append, putAll_both_first hkf,
      List.append_assoc]
    cases hp : f.putAll f.blank (f.keys.zip vs₁) <;> simp only [hp] at hf
    case error => simp [take, hf]
    case ok d  =>
      have ⟨a, ha, hta⟩ := hf
      simp only [Except.ok_map, Except.ok_bind, putAll_both_second hkg]
      cases hq : g.putAll g.blank (g.keys.zip vs₂) <;> simp only [hq] at hg
      case error => simp [take, hta, hg]
      case ok e  =>
        have ⟨b, hb, htb⟩ := hg
        simp [take, finish, ha, hta, hb, htb]

theorem take_both : (f.both g).take vs
    = (f.take vs >>= fun (a, vs) => g.take vs >>= fun (b, vs) => .ok ((a, b), vs)) :=
  rfl

theorem take_required {key : String} {read : Value → Except Fault α} {v : Value} :
    (required key read).take (v :: vs) = (read v).map (·, vs) :=
  rfl

-- What may be left out is written as null if it is.
theorem take_optional_mapM {key : String} {read : Value → Except Fault α} {write : β → Value}
    {o : Option β} (hn : ∀ b, write b ≠ .null) :
    (optional key read).take ((o.map write).getD .null :: vs)
      = (o.mapM fun b => read (write b)).map (·, vs) := by
  cases o
  case none   => rfl
  case some b =>
    have := hn b
    simp [optional, take]
    rfl

theorem take_optional {key : String} {read : Value → Except Fault α} {write : α → Value}
    {o : Option α} (hr : ∀ a ∈ o, read (write a) = .ok a) (hn : ∀ a, write a ≠ .null) :
    (optional key read).take ((o.map write).getD .null :: vs) = .ok (o, vs) := by
  rw [take_optional_mapM hn]
  cases o
  case none   => rfl
  case some a => simp [hr a rfl]

theorem read_object (hn : f.keys.Nodup) (hk : ms.map (·.1) = f.keys) :
    f.read (.object ms) = f.read (.array (ms.map (·.2))) := by
  have hz : f.keys.zip (ms.map (·.2)) = ms := by
    simpa [← hk] using List.zip_unzip ms
  have hl : (ms.map (·.2)).length = f.keys.length := by simp [← hk]
  have hp := putAll_zip hn hl []
  rw [hz, List.append_nil] at hp
  rw [read, read]
  cases hq : f.putAll f.blank ms <;> simp only [hq] at hp
  case error => simp [hp]
  case ok d  =>
    have ⟨a, ha, ht⟩ := hp
    simp [ha, ht]

variable {P : Value → Prop}

-- Where each member comes from, in whatever way the members are listed.
def Given (P : Value → Prop) : {α : Type} → Fields α → α → Prop
  | _, one _ read absent, a => absent = some a ∨ ∃ v, P v ∧ read v = .ok a
  | _, both f g,          a => f.Given P a.1 ∧ g.Given P a.2

-- Where the members that have been read so far come from.
def Drafted (P : Value → Prop) : {α : Type} → (f : Fields α) → f.Draft → Prop
  | α, one _ read _, got => ∀ a, (got : Option α) = some a → ∃ v, P v ∧ read v = .ok a
  | _, both f g,     d   => f.Drafted P d.1 ∧ g.Drafted P d.2

theorem drafted_blank (f : Fields α) : f.Drafted P f.blank := by
  induction f
  case one            => exact nofun
  case both f g hf hg => exact ⟨hf, hg⟩

theorem drafted_put {d d' : f.Draft} {k : String} {v : Value} (hd : f.Drafted P d) (hv : P v)
    (h : f.put d k v = .ok d') : f.Drafted P d' := by
  induction f
  case one key read absent =>
    simp only [put] at h
    split at h
    case isTrue =>
      cases d
      case some => cases h
      case none =>
        have ⟨a, ha, he⟩ := Except.map_eq_ok.mp h
        intro b hb
        cases he.trans hb
        exact ⟨v, hv, ha⟩
    case isFalse => cases h; exact hd
  case both f g hf hg =>
    rw [put] at h
    split at h
    case isTrue =>
      have ⟨e, he, hp⟩ := Except.map_eq_ok.mp h
      exact hp ▸ ⟨hf hd.left he, hd.right⟩
    case isFalse =>
      have ⟨e, he, hp⟩ := Except.map_eq_ok.mp h
      exact hp ▸ ⟨hd.left, hg hd.right he⟩

theorem drafted_putAll {d d' : f.Draft} (hd : f.Drafted P d) (hp : ∀ m ∈ ms, P m.2)
    (h : f.putAll d ms = .ok d') : f.Drafted P d' := by
  induction ms generalizing d
  case nil          => cases h; exact hd
  case cons m ms hi =>
    have ⟨e, he, h⟩ := Except.bind_eq_ok.mp h
    exact hi (drafted_put hd (hp m (by simp)) he) (fun n hn => hp n (by simp [hn])) h

theorem given_of_finish {d : f.Draft} {a : α} (hd : f.Drafted P d) (h : f.finish d = .ok a) :
    f.Given P a := by
  induction f
  case one key read absent =>
    cases d
    case none   => cases absent <;> cases h; exact .inl rfl
    case some b => cases h; exact .inr (hd _ rfl)
  case both f g hf hg =>
    have ⟨a, ha, h⟩ := Except.bind_eq_ok.mp h
    have ⟨b, hb, h⟩ := Except.bind_eq_ok.mp h
    cases h
    exact ⟨hf hd.left ha, hg hd.right hb⟩

theorem given_of_take {a : α} (hp : ∀ v ∈ vs, P v) (h : f.take vs = .ok (a, ws)) :
    f.Given P a ∧ ∀ v ∈ ws, P v := by
  induction f generalizing vs ws
  case one key read absent =>
    cases vs
    case nil       => cases h
    case cons v vs =>
      have ⟨b, hb, he⟩ := Except.map_eq_ok.mp h
      cases he
      rw [List.forall_mem_cons] at hp
      exact ⟨.inr ⟨v, hp.left, hb⟩, hp.right⟩
  case both f g hf hg =>
    have ⟨⟨a, us⟩, ha, h⟩ := Except.bind_eq_ok.mp h
    have ⟨⟨b, us⟩, hb, h⟩ := Except.bind_eq_ok.mp h
    cases h
    have ⟨ha, hp⟩ := hf hp ha
    have ⟨hb, hp⟩ := hg hp hb
    exact ⟨⟨ha, hb⟩, hp⟩

-- The members are nested less deep than what they are read from.
theorem given_of_read {v : Value} {a : α} (h : f.read v = .ok a) :
    f.Given (·.depth < v.depth) a := by
  cases v
  case object ms =>
    have ⟨d, hd, h⟩ := Except.bind_eq_ok.mp h
    have hp : ∀ m ∈ ms, m.2.depth < (Value.object ms).depth := fun m hm =>
      Nat.lt_succ_of_le (Value.depthMembers_le_iff.mp (Nat.le_refl _) m hm)
    exact given_of_finish (drafted_putAll f.drafted_blank hp hd) h
  case array vs =>
    have ⟨⟨b, us⟩, ha, h⟩ := Except.bind_eq_ok.mp h
    have hp : ∀ v ∈ vs, v.depth < (Value.array vs).depth := fun v hv =>
      Nat.lt_succ_of_le (Value.depthItems_le_iff.mp (Nat.le_refl _) v hv)
    cases us <;> cases h
    exact (given_of_take hp ha).left
  all_goals cases h

theorem depth_pos_of_read {v : Value} {a : α} (h : f.read v = .ok a) : 0 < v.depth := by
  cases v
  case array | object => simp [Value.depth]
  all_goals cases h

theorem given_required {key : String} {read : Value → Except Fault α} {a : α}
    (h : (required key read).Given P a) : ∃ v, P v ∧ read v = .ok a :=
  h.resolve_left nofun

theorem given_optional {key : String} {read : Value → Except Fault α} {o : Option α} {a : α}
    (h : (optional key read).Given P o) (ho : o = some a) : ∃ v, P v ∧ read v = .ok a := by
  subst ho
  obtain h | ⟨v, hv, h⟩ := h
  case inl => cases h
  case inr =>
    refine ⟨v, hv, ?_⟩
    cases v
    case null => cases h
    all_goals
      have ⟨b, hb, he⟩ := Except.map_eq_ok.mp h
      cases he
      exact hb

end Fields

namespace Value

variable {α : Type} {key : String} {v content : Value} {ms : List (String × Value)} {as : List α}

-- A key that no other member has.
theorem filter_key_cons (hk : key ∉ ms.map (·.1)) :
    ((key, v) :: ms).filter (·.1 = key) = [(key, v)]
    ∧ ((key, v) :: ms).filter (·.1 ≠ key) = ms := by
  have hne : ∀ m ∈ ms, m.1 ≠ key := fun m hm he => hk (he ▸ List.mem_map_of_mem hm)
  exact ⟨by simpa using fun a b h => hne (a, b) h, by simpa using fun a b h => hne (a, b) h⟩

theorem untag_object {read : Value → Option α} {tag : α} (ht : read v = some tag)
    (hm : key ∉ ms.map (·.1)) :
    (object ((key, v) :: ms)).untag key read = .ok (tag, object ms) := by
  obtain ⟨hf, hr⟩ := @filter_key_cons key v ms hm
  rw [untag, hf]
  simp only [ht, hr]

theorem asList_map {read : Value → Except Fault α} {write : α → Value}
    (h : ∀ a ∈ as, read (write a) = .ok a) : asList read (array (as.map write)) = .ok as := by
  rw [asList]
  induction as
  case nil          => rfl
  case cons a as hi => simp [List.mapM_cons, h a (by simp), hi fun b hb => h b (by simp [hb])]

-- Each item of a list was read from some value that is nested less deep.
theorem exists_of_asList {read : Value → Except Fault α} (h : v.asList read = .ok as) :
    ∀ a ∈ as, ∃ w, w.depth < v.depth ∧ read w = .ok a := by
  cases v
  case array vs =>
    exact Except.forall_mem_of_mapM h fun w hw a ha =>
      ⟨w, Nat.lt_succ_of_le (depthItems_le_iff.mp (Nat.le_refl _) w hw), ha⟩
  all_goals cases h

-- What has a tag is an object or an array, and so is what is left of it.
theorem depth_of_untag {key : String} {read : Value → Option α} {tag : α}
    (h : v.untag key read = .ok (tag, content)) :
    0 < content.depth ∧ content.depth ≤ v.depth := by
  cases v
  case object ms =>
    simp only [untag] at h
    split at h
    case h_2 => cases h
    case h_1 =>
      split at h <;> cases h
      refine ⟨Nat.succ_pos _, depth_object_le_iff.mpr ⟨Nat.succ_pos _, fun m hm => ?_⟩⟩
      exact (depth_object_le_iff.mp (Nat.le_refl _)).right m (List.mem_of_mem_filter hm)
  case array vs =>
    cases vs
    case nil       => cases h
    case cons w vs =>
      simp only [untag] at h
      split at h <;> cases h
      refine ⟨Nat.succ_pos _, depth_array_le_iff.mpr ⟨Nat.succ_pos _, fun u hu => ?_⟩⟩
      exact (depth_array_le_iff.mp (Nat.le_refl _)).right u (List.mem_cons_of_mem w hu)
  all_goals cases h

theorem lt_wordLimit_of_asNatural {n : Nat} (h : v.asNatural = .ok n) : n < Numeral.wordLimit := by
  cases v
  case number k =>
    simp only [asNatural] at h
    split at h
    case h_2    => cases h
    case h_1 hn =>
      cases h
      simp only [Numeral.natural?] at hn
      split at hn <;> simp_all
  all_goals cases h

-- What is written for the items of a list is nested no deeper than the list they were read from, if
-- that is so for each of them.
theorem depth_le_of_asList {read : Value → Except Fault α} {write : α → Value} {as : List α}
    (h : v.asList read = .ok as)
    (hw : ∀ w a, w.depth < v.depth → read w = .ok a → (write a).depth ≤ w.depth) :
    (array (as.map write)).depth ≤ v.depth := by
  rw [depth_array_le_iff]
  constructor
  case left =>
    cases v
    case array => simp [depth]
    all_goals cases h
  case right =>
    intro u hu
    obtain ⟨a, ha, rfl⟩ := List.mem_map.mp hu
    obtain ⟨w, hd, hr⟩ := exists_of_asList h a ha
    exact Nat.lt_of_le_of_lt (hw w a hd hr) hd

end Value

end ApiSurface.Json
