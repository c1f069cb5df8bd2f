import ApiSurface.Proofs.Json.Fields
import Mathlib.Data.List.Nodup

namespace ApiSurface.Json

-- A member of an object of a fixed form.
structure Entry where
  key      : String
  -- The values that may stand there.
  written  : Value → Prop
  -- Whether a null stands there that may be left out.
  optional : Prop := False

namespace Entry

def string (key s : String) : Entry where
  key       := key
  written v := v = .string s

-- A member that is null if there is nothing to it.
def option {α : Type} (key : String) (written : α → Value → Prop) (o : Option α) : Entry where
  key       := key
  written v := o.elim (v = .null) (written · v)
  optional  := o = none

@[simp] theorem key_string {key s : String} : (string key s).key = key :=
  rfl

@[simp] theorem key_option {α : Type} {key : String} {written : α → Value → Prop} {o : Option α} :
    (option key written o).key = key :=
  rfl

end Entry

-- An array of one item each.
def Items {α : Type} (written : α → Value → Prop) (as : List α) (v : Value) : Prop :=
  ∃ vs, v = .array vs ∧ List.Forall₂ written as vs

theorem written_option {α : Type} {key : String} {written : α → Value → Prop} {write : α → Value}
    {o : Option α} (h : ∀ a ∈ o, written a (write a)) :
    (Entry.option key written o).written ((o.map write).getD .null) := by
  cases o
  case none   => exact rfl
  case some a => exact h a rfl

theorem items_map {α : Type} {written : α → Value → Prop} {write : α → Value} {as : List α}
    (h : ∀ a ∈ as, written a (write a)) : Items written as (.array (as.map write)) :=
  ⟨_, rfl, List.forall₂_map_right_iff.mpr (List.forall₂_same.mpr h)⟩

-- All values that the object with the given members, in their order, turns into.
inductive Listing (es : List Entry) : Value → Prop
  | object {ms} : List.Forall₂ (fun e m => m.1 = e.key ∧ e.written m.2) es ms →
    Listing es (.object ms)
  | permute {ms ns} : Listing es (.object ms) → ms.Perm ns → Listing es (.object ns)
  | insert {ms ns k v} : Listing es (.object (ms ++ ns)) → k ∉ es.map (·.key) →
    Listing es (.object (ms ++ (k, v) :: ns))
  | drop {ms ns e v} : Listing es (.object (ms ++ (e.key, v) :: ns)) → e ∈ es → e.optional →
    Listing es (.object (ms ++ ns))
  | array {vs} : List.Forall₂ Entry.written es vs → Listing es (.array vs)

-- Each member is there once, unless it may be left out and is.
inductive Holds (es : List Entry) : Value → Prop
  | object {ms} :
    (∀ e ∈ es, (∃ v, e.written v ∧ ms.filter (·.1 = e.key) = [(e.key, v)])
      ∨ e.optional ∧ ms.filter (·.1 = e.key) = []) →
    Holds es (.object ms)
  | array {vs} : List.Forall₂ Entry.written es vs → Holds es (.array vs)

variable {α : Type} {d : Nat} {es : List Entry} {v : Value} {ms : List (String × Value)}

theorem keys_of_forall₂
    (h : List.Forall₂ (fun e m => m.1 = e.key ∧ e.written m.2) es ms) :
    ms.map (·.1) = es.map (·.key) := by
  induction h
  case nil          => rfl
  case cons he _ hi => rw [List.map_cons, List.map_cons, he.left, hi]

theorem filter_of_forall₂ (hn : (es.map (·.key)).Nodup)
    (h : List.Forall₂ (fun e m => m.1 = e.key ∧ e.written m.2) es ms) :
    ∀ e ∈ es, ∃ v, e.written v ∧ ms.filter (·.1 = e.key) = [(e.key, v)] := by
  induction h
  case nil => simp
  case cons e m es ms he h hi =>
    obtain ⟨hk, hw⟩ := he
    rw [List.map_cons, List.nodup_cons] at hn
    rw [List.forall_mem_cons]
    constructor
    case left =>
      have hms : ∀ n ∈ ms, n.1 ≠ e.key := fun n hm he =>
        hn.left (keys_of_forall₂ h ▸ he ▸ List.mem_map_of_mem hm)
      have hf : ms.filter (·.1 = e.key) = [] := by
        simpa using fun k v hm => hms (k, v) hm
      refine ⟨m.2, hw, ?_⟩
      rw [List.filter_cons, hf, hk, if_pos (by simp), ← hk]
    case right =>
      intro f hf
      have hne : e.key ≠ f.key := fun he => hn.left (he ▸ List.mem_map_of_mem hf)
      obtain ⟨v, hv, hi⟩ := hi hn.right f hf
      exact ⟨v, hv, by simp [hk, hne, hi]⟩

theorem holds_of_listing (hn : (es.map (·.key)).Nodup) (h : Listing es v) : Holds es v := by
  induction h
  case object ms h => exact .object fun e he => .inl (filter_of_forall₂ hn h e he)
  case permute ms ns _ hp hi =>
    obtain ⟨hi⟩ | _ := hi
    refine .object fun e he => ?_
    have hp := hp.filter (·.1 = e.key)
    obtain ⟨v, hw, hf⟩ | ⟨ho, hf⟩ := hi e he <;> rw [hf] at hp
    case inl => exact .inl ⟨v, hw, List.perm_singleton.mp hp.symm⟩
    case inr => exact .inr ⟨ho, List.perm_nil.mp hp.symm⟩
  case insert ms ns k v _ hk hi =>
    obtain ⟨hi⟩ | _ := hi
    refine .object fun e he => ?_
    have hne : k ≠ e.key := fun h => hk (h ▸ List.mem_map_of_mem he)
    have hf : (ms ++ (k, v) :: ns).filter (·.1 = e.key) = (ms ++ ns).filter (·.1 = e.key) := by
      simp [hne]
    rw [hf]
    exact hi e he
  case drop ms ns e v _ he ho hi =>
    obtain ⟨hi⟩ | _ := hi
    refine .object fun e' he' => ?_
    by_cases hk : e.key = e'.key
    case pos =>
      obtain rfl := List.inj_on_of_nodup_map hn he he' hk
      obtain ⟨_, _, hf⟩ | ⟨_, hf⟩ := hi e he
      case inl =>
        rw [List.filter_append, List.filter_cons_of_pos (by simp),
          List.append_eq_singleton_iff] at hf
        obtain ⟨hms, hns⟩ | ⟨_, hns⟩ := hf
        case inl => exact .inr ⟨ho, by rw [List.filter_append, hms, (List.cons.inj hns).right]; rfl⟩
        case inr => cases hns
      case inr => simp at hf
    case neg =>
      have hf : (ms ++ ns).filter (·.1 = e'.key)
          = (ms ++ (e.key, v) :: ns).filter (·.1 = e'.key) := by
        simp [hk]
      rw [hf]
      exact hi e' he'
  case array vs h => exact .array h

namespace Fields

-- What is read of the members of an object, where they are nested less deep than `d`.
inductive Reads (d : Nat) : {β : Type} → Fields β → List Entry → β → Prop
  | one {β : Type} {key : String} {read : Value → Except Fault β} {absent : Option β} {e : Entry}
    {b : β} : e.key = key → (∀ v, v.depth < d → e.written v → read v = .ok b) →
    (e.optional → absent = some b) → Reads d (.one key read absent) [e] b
  | both {β γ : Type} {f : Fields β} {g : Fields γ} {es fs : List Entry} {b : β} {c : γ} :
    Reads d f es b → Reads d g fs c → Reads d (f.both g) (es ++ fs) (b, c)

variable {f : Fields α} {a : α} {vs : List Value}

theorem Reads.keys_eq (h : f.Reads d es a) : f.keys = es.map (·.key) := by
  induction h
  case one hk _ _ => simp [keys, hk]
  case both hf hg => simp [keys, hf, hg]

theorem Reads.required {key : String} {read : Value → Except Fault α} {written : Value → Prop}
    (h : ∀ v, v.depth < d → written v → read v = .ok a) :
    (Fields.required key read).Reads d [⟨key, written, False⟩] a :=
  .one rfl h False.elim

theorem Reads.string {key s : String} :
    (Fields.required key Value.asString).Reads d [.string key s] s :=
  .required fun _ _ hv => hv ▸ rfl

theorem Reads.option {key : String} {read : Value → Except Fault α} {written : α → Value → Prop}
    {o : Option α}
    (h : ∀ a ∈ o, ∀ v, v.depth < d → written a v → v ≠ .null ∧ read v = .ok a) :
    (optional key read).Reads d [.option key written o] o := by
  refine .one rfl (fun v hd hv => ?_) fun h => congrArg some h.symm
  cases o
  case none   => cases hv; rfl
  case some a =>
    obtain ⟨hn, hr⟩ := h a rfl v hd hv
    simp [hr]

theorem finish_of_reads (hr : f.Reads d es a) (hn : (es.map (·.key)).Nodup)
    (hd : ∀ m ∈ ms, m.2.depth < d)
    (hv : ∀ e ∈ es, (∃ v, e.written v ∧ ms.filter (·.1 = e.key) = [(e.key, v)])
      ∨ e.optional ∧ ms.filter (·.1 = e.key) = []) :
    ∃ p, f.putAll f.blank ms = .ok p ∧ f.finish p = .ok a := by
  induction hr
  case one key read absent e a hk hw ho =>
    rw [List.forall_mem_singleton] at hv
    subst hk
    have hf : ms.filter (·.1 ∈ (Fields.one e.key read absent).keys) = ms.filter (·.1 = e.key) := by
      simp [keys]
    rw [putAll_filter, hf]
    obtain ⟨v, hv, hf⟩ | ⟨hv, hf⟩ := hv
    case inl =>
      have hm : (e.key, v) ∈ ms := List.mem_of_mem_filter (hf ▸ List.mem_singleton_self _)
      have hr := hw v (hd _ hm) hv
      simp [hf, putAll, put, blank, finish, hr]
    case inr => simp [hf, putAll, blank, finish, ho hv]
  case both f g es fs a b hf hg ihf ihg =>
    rw [List.map_append, List.nodup_append] at hn
    obtain ⟨hnf, hng, hne⟩ := hn
    rw [List.forall_mem_append] at hv
    obtain ⟨p, hp, ha⟩ := ihf hnf hv.left
    obtain ⟨q, hq, hb⟩ := ihg hng hv.right
    have hk : ∀ k ∈ f.keys, k ∉ g.keys := by
      rw [hf.keys_eq, hg.keys_eq]
      exact fun k hk hk' => hne k hk k hk' rfl
    refine ⟨(p, q), putAll_both hk hp hq, ?_⟩
    simp [finish, ha, hb]

theorem take_of_reads (hr : f.Reads d es a) (hd : ∀ v ∈ vs, v.depth < d)
    (hv : List.Forall₂ Entry.written es vs) (ws : List Value) :
    f.take (vs ++ ws) = .ok (a, ws) := by
  induction hr generalizing vs ws
  case one key read absent e a hk hw ho =>
    obtain ⟨v, _, hwv, hn, rfl⟩ := List.forall₂_cons_left_iff.mp hv
    obtain rfl := List.forall₂_nil_left_iff.mp hn
    simp [take, hw v (hd v (by simp)) hwv]
  case both f g es fs a b hf hg ihf ihg =>
    have hfirst := List.forall₂_take es.length hv
    have hsecond := List.forall₂_drop es.length hv
    rw [List.take_left] at hfirst
    rw [List.drop_left] at hsecond
    have ha := ihf (fun v hv => hd v (List.mem_of_mem_take hv)) hfirst (vs.drop es.length ++ ws)
    have hb := ihg (fun v hv => hd v (List.mem_of_mem_drop hv)) hsecond ws
    rw [← List.append_assoc, List.take_append_drop] at ha
    simp [take, ha, hb]

theorem read_of_holds (hr : f.Reads d es a) (hn : (es.map (·.key)).Nodup)
    (hv : Holds es v) (hd : v.depth ≤ d) : f.read v = .ok a := by
  cases hv
  case object ms hv =>
    have hd := (Value.depth_object_le_iff.mp hd).right
    obtain ⟨p, hp, ha⟩ := finish_of_reads hr hn hd hv
    simp [read, hp, ha]
  case array vs hv =>
    have hd := (Value.depth_array_le_iff.mp hd).right
    have ht := take_of_reads hr hd hv []
    rw [List.append_nil] at ht
    simp [read, ht]

end Fields

theorem asList_of_items {written : α → Value → Prop} {read : Value → Except Fault α} {as : List α}
    (hv : Items written as v)
    (hr : ∀ a ∈ as, ∀ w, w.depth < v.depth → written a w → read w = .ok a) :
    v.asList read = .ok as := by
  obtain ⟨vs, rfl, hv⟩ := hv
  have hd := (Value.depth_array_le_iff.mp (Nat.le_refl (Value.array vs).depth)).right
  generalize (Value.array vs).depth = d at hd hr
  rw [Value.asList]
  induction hv
  case nil => rfl
  case cons a v as vs ha _ hi =>
    rw [List.forall_mem_cons] at hd hr
    rw [List.mapM_cons, hr.left v hd.left ha, hi hd.right hr.right]
    rfl

-- Behind its tag, a value with a tag lists the members that are left.
theorem untag_of_holds {key s : String} {read : Value → Option α} {tag : α}
    (hr : read (.string s) = some tag) (hk : key ∉ es.map (·.key))
    (hv : Holds (.string key s :: es) v) :
    ∃ content, v.untag key read = .ok (tag, content) ∧ Holds es content := by
  cases hv
  case object ms hv =>
    rw [List.forall_mem_cons] at hv
    obtain ⟨⟨v, rfl, hf⟩ | ⟨⟨⟩, _⟩, hv⟩ := hv
    refine ⟨.object (ms.filter (·.1 ≠ key)), ?_, .object fun e he => ?_⟩
    · have hf : ms.filter (·.1 = key) = [(key, .string s)] := hf
      simp [Value.untag, hf, hr]
    · have hne : e.key ≠ key := fun h => hk (h ▸ List.mem_map_of_mem he)
      have hf : (ms.filter (·.1 ≠ key)).filter (·.1 = e.key) = ms.filter (·.1 = e.key) := by
        rw [List.filter_filter]
        exact List.filter_congr fun m _ => by by_cases hm : m.1 = e.key <;> simp [hm, hne]
      rw [hf]
      exact hv e he
  case array vs hv =>
    obtain ⟨_, vs, rfl, hvs, rfl⟩ := List.forall₂_cons_left_iff.mp hv
    exact ⟨.array vs, by simp [Value.untag, hr], .array hvs⟩

end ApiSurface.Json
