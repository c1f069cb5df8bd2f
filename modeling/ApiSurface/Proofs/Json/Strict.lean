import ApiSurface.Proofs.Json.Fields
import ApiSurface.Proofs.Json.Rendered
import Mathlib.Data.List.Nodup

namespace ApiSurface.Json

namespace Value

-- One object in the value, at any depth, lacks a member that may not be left out, or lists one of
-- its members twice.
inductive Damaged (spare : List String) : Value → Value → Prop
  | lacking {before after k v} : k ∉ spare →
    Damaged spare (object (before ++ (k, v) :: after)) (object (before ++ after))
  | repeating {before after m} : m ∈ before ++ after →
    Damaged spare (object (before ++ after)) (object (before ++ m :: after))
  | member {before after k v w} : Damaged spare v w →
    Damaged spare (object (before ++ (k, v) :: after)) (object (before ++ (k, w) :: after))
  | item {before after v w} : Damaged spare v w →
    Damaged spare (array (before ++ v :: after)) (array (before ++ w :: after))

variable {spare : List String} {v w t : Value} {ms ns before after : List (String × Value)}
  {key : String}

theorem Damaged.depth_pos (h : v.Damaged spare w) : 0 < v.depth ∧ 0 < w.depth := by
  cases h <;> simp [depth]

theorem Damaged.depth_le {d : Nat} (h : v.Damaged spare w) (hd : v.depth ≤ d) :
    w.depth ≤ d := by
  induction h generalizing d <;> obtain _ | d := d
  case lacking.zero | repeating.zero | member.zero | item.zero => simp [depth] at hd
  all_goals
    simp only [depth, Nat.add_le_add_iff_right, depthMembers_le_iff, depthItems_le_iff,
      List.forall_mem_append, List.forall_mem_cons] at hd ⊢
  case lacking.succ                        => exact ⟨hd.left, hd.right.right⟩
  case repeating.succ before after m hm    =>
    exact ⟨hd.left, List.forall_mem_append.mpr hd m hm, hd.right⟩
  case member.succ hi | item.succ hi       => exact ⟨hd.left, hi hd.right.left, hd.right.right⟩

theorem Damaged.plain (h : v.Damaged spare w) (hv : v.Plain) : w.Plain := by
  induction h
  all_goals
    simp only [plain_object_iff, plain_array_iff, List.forall_mem_append, List.forall_mem_cons]
      at hv ⊢
  case lacking                           => exact ⟨hv.left, hv.right.right⟩
  case repeating before after m hm       =>
    exact ⟨hv.left, List.forall_mem_append.mpr hv m hm, hv.right⟩
  case member hi | item hi               => exact ⟨hv.left, hi hv.right.left, hv.right.right⟩

-- What an object turns into. One of its members is at fault, and none is new.
theorem Damaged.members (hn : (ms.map (·.1)).Nodup) (h : (object ms).Damaged spare w) :
    ∃ ns, w = object ns
      ∧ (∀ n ∈ ns, ∃ v, (n.1, v) ∈ ms ∧ (n.2 = v ∨ v.Damaged spare n.2))
      ∧ ∃ m ∈ ms, (m.1 ∉ spare ∧ ns.filter (·.1 = m.1) = [])
        ∨ 1 < (ns.filter (·.1 = m.1)).length
        ∨ ∃ w, (m.1, w) ∈ ns ∧ m.2.Damaged spare w := by
  generalize hv : object ms = v at h
  cases h <;> cases hv
  case lacking before after k v hk =>
    refine ⟨_, rfl, fun n hm => ⟨n.2, ?_, .inl rfl⟩, (k, v), by simp, .inl ⟨hk, ?_⟩⟩
    · simp only [List.mem_append, List.mem_cons] at hm ⊢
      exact hm.imp_right .inr
    · rw [List.map_append, List.map_cons, List.nodup_middle, List.nodup_cons, ← List.map_append]
        at hn
      exact List.filter_eq_nil_iff.mpr fun n hm he =>
        hn.left (of_decide_eq_true he ▸ List.mem_map_of_mem hm)
  case repeating before after m hm =>
    refine ⟨_, rfl, fun n hn => ⟨n.2, ?_, .inl rfl⟩, m, hm, .inr (.inl ?_)⟩
    · rw [List.mem_append, List.mem_cons] at hn
      obtain hn | rfl | hn := hn
      · exact List.mem_append_left _ hn
      · exact hm
      · exact List.mem_append_right _ hn
    · have hf : m ∈ (before ++ after).filter (·.1 = m.1) := by simpa using hm
      have hl := List.length_pos_of_mem hf
      rw [List.filter_append, List.length_append] at hl
      rw [List.filter_append, List.filter_cons_of_pos (by simp), List.length_append,
        List.length_cons]
      omega
  case member before after k v w h =>
    refine ⟨_, rfl, fun n hn => ?_, (k, v), by simp, .inr (.inr ⟨w, by simp, h⟩)⟩
    simp only [List.mem_append, List.mem_cons] at hn
    obtain hn | rfl | hn := hn
    · exact ⟨n.2, by simp [hn], .inl rfl⟩
    · exact ⟨v, by simp, .inr h⟩
    · exact ⟨n.2, by simp [hn], .inl rfl⟩

end Value

-- The reader takes the value, and nothing that the value turns into when it is damaged, where these
-- are nested less deep than `d`.
structure StrictOn {α : Type} (spare : List String) (d : Nat) (read : Value → Except Fault α)
    (v : Value) : Prop where
  takes   : v.depth < d → (read v).isOk
  refuses : ∀ w, w.depth < d → v.Damaged spare w → read w = .error .mismatched

namespace Fields

variable {α β : Type} {spare : List String} {d : Nat} {f : Fields α} {g : Fields β}
  {ms ns : List (String × Value)} {k : String} {v w : Value} {e : Fault}

-- Fields that share no keys have been read from an object independently.
theorem putAll_both_inv {p : f.Draft} {q : g.Draft} {r : (f.both g).Draft}
    (hk : ∀ k ∈ f.keys, k ∉ g.keys) (h : (f.both g).putAll (p, q) ms = .ok r) :
    f.putAll p ms = .ok r.1 ∧ g.putAll q ms = .ok r.2 := by
  induction ms generalizing p q
  case nil          => cases h; exact ⟨rfl, rfl⟩
  case cons m ms hi =>
    obtain ⟨s, hs, h⟩ := Except.bind_eq_ok.mp h
    obtain ⟨hf, hg⟩ := hi h
    rw [put] at hs
    by_cases hm : m.1 ∈ f.keys
    case pos =>
      rw [if_pos hm] at hs
      obtain ⟨p', hp, rfl⟩ := Except.map_eq_ok.mp hs
      exact ⟨by rw [putAll, hp]; exact hf, by rw [putAll, put_of_not_mem q (hk _ hm)]; exact hg⟩
    case neg =>
      rw [if_neg hm] at hs
      obtain ⟨q', hq, rfl⟩ := Except.map_eq_ok.mp hs
      exact ⟨by rw [putAll, put_of_not_mem p hm]; exact hf, by rw [putAll, hq]; exact hg⟩

-- Whatever is wrong with a member that is not there yet is wrong with what it holds.
theorem put_eq_error {p : f.Draft} (h : f.put p k v = .error e) :
    e = .mismatched ∨ f.put f.blank k v = .error e := by
  induction f
  case one key read absent =>
    simp only [put] at h ⊢
    split at h
    case isFalse  => cases h
    case isTrue hk =>
      cases p
      case some => cases h; exact .inl rfl
      case none => rw [if_pos hk]; exact .inr h
  case both f g hf hg =>
    rw [put] at h ⊢
    by_cases hk : k ∈ f.keys
    case pos =>
      rw [if_pos hk, Except.map_eq_error] at h ⊢
      exact hf h
    case neg =>
      rw [if_neg hk, Except.map_eq_error] at h ⊢
      exact hg h

theorem putAll_eq_error {p : f.Draft} (h : f.putAll p ms = .error e) :
    e = .mismatched ∨ ∃ m ∈ ms, f.put f.blank m.1 m.2 = .error e := by
  induction ms generalizing p
  case nil          => cases h
  case cons m ms hi =>
    obtain hm | ⟨_, _, hms⟩ := Except.bind_eq_error.mp h
    case inl => exact (put_eq_error hm).imp_right fun h => ⟨m, by simp, h⟩
    case inr =>
      obtain he | ⟨n, hn, he⟩ := hi hms
      · exact .inl he
      · exact .inr ⟨n, List.mem_cons_of_mem m hn, he⟩

theorem finish_eq_error {p : f.Draft} (h : f.finish p = .error e) : e = .mismatched := by
  induction f
  case one key read absent =>
    cases p
    case some => cases h
    case none => cases absent <;> cases h; rfl
  case both f g hf hg =>
    obtain h | ⟨_, _, h⟩ := Except.bind_eq_error.mp h
    case inl => exact hf h
    case inr =>
      obtain hq | ⟨_, _, hok⟩ := Except.bind_eq_error.mp h
      · exact hg hq
      · cases hok

-- All members are read strictly, and those that are not spare have to be there.
inductive Strict (spare : List String) (d : Nat) :
    {β : Type} → Fields β → List (String × Value) → Prop
  | one {β : Type} {key : String} {read : Value → Except Fault β} {absent : Option β} {v : Value} :
    StrictOn spare d read v → (key ∉ spare → absent = none) →
    Strict spare d (.one key read absent) [(key, v)]
  | both {β γ : Type} {f : Fields β} {g : Fields γ} {ms ns : List (String × Value)} :
    Strict spare d f ms → Strict spare d g ns → Strict spare d (f.both g) (ms ++ ns)

theorem Strict.keys_eq (h : f.Strict spare d ms) : f.keys = ms.map (·.1) := by
  induction h
  case one        => rfl
  case both hf hg => rw [keys, hf, hg, List.map_append]

-- Nothing but the form of a member is ever wrong.
theorem Strict.put_eq_error (h : f.Strict spare d ms) (hn : (ms.map (·.1)).Nodup)
    (hm : (k, v) ∈ ms) (hd : w.depth < d) (hw : w = v ∨ v.Damaged spare w)
    (he : f.put f.blank k w = .error e) : e = .mismatched := by
  induction h
  case one key read absent u hs _ =>
    cases List.mem_singleton.mp hm
    simp only [put, if_true, blank] at he
    obtain rfl | hw := hw
    case inl =>
      obtain ⟨a, ha⟩ := Except.isOk_iff.mp (hs.takes hd)
      rw [ha] at he
      cases he
    case inr =>
      rw [hs.refuses w hd hw] at he
      cases he
      rfl
  case both f g ms ns hf hg ihf ihg =>
    rw [List.map_append, List.nodup_append] at hn
    obtain ⟨hnf, hng, hne⟩ := hn
    rw [put] at he
    obtain hm | hm := List.mem_append.mp hm
    case inl =>
      have hk : k ∈ f.keys := hf.keys_eq ▸ List.mem_map_of_mem hm
      rw [if_pos hk, Except.map_eq_error] at he
      exact ihf hnf hm he
    case inr =>
      have hk : k ∉ f.keys := fun hk =>
        hne k (hf.keys_eq ▸ hk) k (List.mem_map_of_mem hm) rfl
      rw [if_neg hk, Except.map_eq_error] at he
      exact ihg hng hm he

-- What has been read from an object shows that no member was at fault.
theorem Strict.of_read {p : f.Draft} {a : α} (h : f.Strict spare d ms)
    (hn : (ms.map (·.1)).Nodup) (hd : ∀ n ∈ ns, n.2.depth < d)
    (hp : f.putAll f.blank ns = .ok p) (ha : f.finish p = .ok a) :
    ∀ m ∈ ms, (ns.filter (·.1 = m.1) = [] → m.1 ∈ spare)
      ∧ (ns.filter (·.1 = m.1)).length ≤ 1
      ∧ ∀ w, (m.1, w) ∈ ns → ¬m.2.Damaged spare w := by
  induction h
  case one key read absent v hs ho =>
    rw [List.forall_mem_singleton]
    have hf : ns.filter (·.1 ∈ (Fields.one key read absent).keys) = ns.filter (·.1 = key) := by
      simp [keys]
    have hm : ∀ w, (key, w) ∈ ns → (key, w) ∈ ns.filter (·.1 = key) := by simp
    have hq : ∀ n ∈ ns.filter (·.1 = key), n.1 = key ∧ n.2.depth < d := by
      intro n hn
      rw [List.mem_filter] at hn
      exact ⟨of_decide_eq_true hn.right, hd n hn.left⟩
    rw [putAll_filter, hf] at hp
    generalize ns.filter (·.1 = key) = ks at hp hm hq
    obtain _ | ⟨n, ks⟩ := ks
    case nil =>
      cases hp
      refine ⟨fun _ => ?_, Nat.zero_le 1, fun w hw => absurd (hm w hw) List.not_mem_nil⟩
      by_contra hk
      rw [ho hk] at ha
      cases ha
    case cons =>
      obtain ⟨⟨hk, hw⟩, hq⟩ := List.forall_mem_cons.mp hq
      simp only [putAll, put, blank, hk, if_true] at hp
      obtain ⟨got, hr, hp⟩ := Except.bind_eq_ok.mp hp
      obtain ⟨b, hr, rfl⟩ := Except.map_eq_ok.mp hr
      obtain _ | ⟨n', ks⟩ := ks
      case nil =>
        refine ⟨fun h => absurd h (List.cons_ne_nil _ _), Nat.le_refl 1, fun w hm' hv => ?_⟩
        obtain rfl := List.mem_singleton.mp (hm w hm')
        rw [hs.refuses w hw hv] at hr
        cases hr
      case cons =>
        simp only [putAll, put, (hq n' (List.mem_cons_self ..)).left, if_true] at hp
        cases hp
  case both f g ms ns' hf hg ihf ihg =>
    rw [List.map_append, List.nodup_append] at hn
    obtain ⟨hnf, hng, hne⟩ := hn
    have hk : ∀ k ∈ f.keys, k ∉ g.keys := by
      rw [hf.keys_eq, hg.keys_eq]
      exact fun k hk hk' => hne k hk k hk' rfl
    obtain ⟨hpf, hpg⟩ := putAll_both_inv hk hp
    obtain ⟨a, hfa, ha⟩ := Except.bind_eq_ok.mp ha
    obtain ⟨b, hgb, _⟩ := Except.bind_eq_ok.mp ha
    exact List.forall_mem_append.mpr ⟨ihf hnf hpf hfa, ihg hng hpg hgb⟩

theorem read_of_damaged (h : f.Strict spare d ms) (hn : (ms.map (·.1)).Nodup)
    (hv : (Value.object ms).Damaged spare v) (hd : v.depth ≤ d) :
    f.read v = .error .mismatched := by
  obtain ⟨ns, rfl, hs, m, hm, hf⟩ := hv.members hn
  have hd := (Value.depth_object_le_iff.mp hd).right
  rw [read]
  cases hp : f.putAll f.blank ns
  case error e =>
    have he : e = .mismatched := by
      obtain he | ⟨n, hm, he⟩ := putAll_eq_error hp
      · exact he
      · obtain ⟨v, hv, hw⟩ := hs n hm
        exact h.put_eq_error hn hv (hd n hm) hw he
    rw [he]
    rfl
  case ok p =>
    rw [Except.ok_bind]
    cases ha : f.finish p
    case error => rw [finish_eq_error ha]
    case ok a  =>
      obtain ⟨hmissing, htwice, hdamaged⟩ := h.of_read hn hd hp ha m hm
      obtain ⟨hk, hf⟩ | hf | ⟨w, hw, hv⟩ := hf
      · exact absurd (hmissing hf) hk
      · exact absurd hf (Nat.not_lt_of_le htwice)
      · exact absurd hv (hdamaged w hw)

theorem Strict.required {read : Value → Except Fault α} (h : StrictOn spare d read v) :
    (required k read).Strict spare d [(k, v)] :=
  .one h fun _ => rfl

theorem Strict.optional {read : Value → Except Fault α} (hk : k ∈ spare)
    (h : v = .null ∨ StrictOn spare d read v) :
    (Fields.optional k read).Strict spare d [(k, v)] := by
  refine .one ⟨fun hd => ?takes, fun w hd hw => ?refuses⟩ fun hn => absurd hk hn
  case takes =>
    split
    case h_1   => rfl
    case h_2 hn => exact Except.isOk_map.mpr ((h.resolve_left hn).takes hd)
  case refuses =>
    obtain rfl | h := h
    case inl => cases hw
    case inr =>
      split
      case h_1 => cases hw
      case h_2 => rw [h.refuses w hd hw]; rfl

end Fields

section Readers

variable {α : Type} {spare : List String} {d : Nat} {read : Value → Except Fault α}
  {v w : Value} {vs : List Value} {ms : List (String × Value)} {key : String}

-- Only arrays and objects can be damaged.
theorem StrictOn.of_scalar (h : (read v).isOk) (hv : v.depth = 0) : StrictOn spare d read v where
  takes _         := h
  refuses _ _ hw := absurd hv (Nat.ne_of_gt hw.depth_pos.left)

theorem StrictOn.list (h : ∀ v ∈ vs, StrictOn spare d read v) :
    StrictOn spare d (Value.asList read) (.array vs) where
  takes hd        := by
    have hd := (Value.depth_array_le_iff.mp (Nat.le_of_lt hd)).right
    exact Except.isOk_mapM.mpr fun v hv => (h v hv).takes (hd v hv)
  refuses w hd hw := by
    generalize hv : Value.array vs = v at hw
    cases hw <;> cases hv
    case item before after v w hw =>
      have hd := (Value.depth_array_le_iff.mp (Nat.le_of_lt hd)).right
      rw [List.forall_mem_append, List.forall_mem_cons] at h hd
      have hb : (before.mapM read).isOk :=
        Except.isOk_mapM.mpr fun v hv => (h.left v hv).takes (hd.left v hv)
      obtain ⟨as, ha⟩ := Except.isOk_iff.mp hb
      rw [Value.asList, List.mapM_append, ha, List.mapM_cons,
        h.right.left.refuses w hd.right.left hw]
      rfl

-- A tag is lost, or there twice, or all else is damaged.
theorem Value.Damaged.tag {t : Value} (ht : t.depth = 0)
    (hf : ms.filter (·.1 = key) = [(key, t)]) (h : (object ms).Damaged spare w) :
    ∃ ns, w = object ns ∧ (ns.filter (·.1 = key) = []
      ∨ ns.filter (·.1 = key) = [(key, t), (key, t)]
      ∨ ns.filter (·.1 = key) = [(key, t)]
        ∧ (object (ms.filter (·.1 ≠ key))).Damaged spare (object (ns.filter (·.1 ≠ key)))) := by
  generalize hv : object ms = v at h
  cases h <;> cases hv
  case lacking before after k v hk =>
    refine ⟨_, rfl, ?_⟩
    by_cases he : k = key
    case pos =>
      rw [List.filter_append, List.filter_cons_of_pos (by simpa),
        List.append_eq_singleton_iff] at hf
      obtain ⟨hb, ha⟩ | ⟨_, ha⟩ := hf
      case inl => exact .inl (by rw [List.filter_append, hb, (List.cons.inj ha).right]; rfl)
      case inr => cases ha
    case neg =>
      have hl := @Damaged.lacking spare (before.filter (·.1 ≠ key)) (after.filter (·.1 ≠ key)) k v
        hk
      exact .inr (.inr ⟨by simpa [he] using hf, by simpa [he] using hl⟩)
  case repeating before after m hm =>
    refine ⟨_, rfl, ?_⟩
    by_cases he : m.1 = key
    case pos =>
      have hm : m ∈ (before ++ after).filter (·.1 = key) := by simpa [he] using hm
      rw [hf, List.mem_singleton] at hm
      rw [List.filter_append, List.append_eq_singleton_iff] at hf
      obtain ⟨hb, ha⟩ | ⟨hb, ha⟩ := hf <;> exact .inr (.inl (by simp [hb, ha, hm]))
    case neg =>
      have hm : m ∈ (before ++ after).filter (·.1 ≠ key) := by simpa [he] using hm
      rw [List.filter_append] at hm
      exact .inr (.inr ⟨by simpa [he] using hf, by simpa [he] using Damaged.repeating hm⟩)
  case member before after k v w h =>
    refine ⟨_, rfl, ?_⟩
    by_cases he : k = key
    case pos =>
      have hm : (k, v) ∈ (before ++ (k, v) :: after).filter (·.1 = key) := by simp [he]
      rw [hf, List.mem_singleton] at hm
      obtain rfl := (Prod.mk.inj hm).right
      exact absurd ht (Nat.ne_of_gt h.depth_pos.left)
    case neg =>
      have hl := @Damaged.member spare (before.filter (·.1 ≠ key)) (after.filter (·.1 ≠ key)) k v w
        h
      exact .inr (.inr ⟨by simpa [he] using hf, by simpa [he] using hl⟩)

-- What is done with a tag and the rest meets the rest damaged, if it comes to that.
theorem Value.untag_of_damaged {β : Type} {read : Value → Option α} {tag : α} {s : String}
    {next : α × Value → Except Fault β} (ht : read (.string s) = some tag)
    (hk : key ∉ ms.map (·.1)) (h : (object ((key, .string s) :: ms)).Damaged spare w)
    (hn : ∀ content, (object ms).Damaged spare content → content.depth ≤ w.depth →
      next (tag, content) = .error .mismatched) :
    (w.untag key read >>= next) = .error .mismatched := by
  obtain ⟨hf, hr⟩ := @filter_key_cons key (string s) ms hk
  obtain ⟨ns, rfl, hs⟩ := h.tag rfl hf
  obtain hs | hs | ⟨hs, hd⟩ := hs
  case inl     => rw [untag, hs]; rfl
  case inr.inl => rw [untag, hs]; rfl
  case inr.inr =>
    have hu : (object ns).untag key read = .ok (tag, object (ns.filter (·.1 ≠ key))) := by
      rw [untag, hs]
      simp only [ht]
    rw [hr] at hd
    rw [hu]
    exact hn _ hd (depth_of_untag hu).right

end Readers

end ApiSurface.Json
