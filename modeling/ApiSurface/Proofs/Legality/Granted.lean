import ApiSurface.Legality.Permissions
import ApiSurface.Proofs.Json.Reading
import Mathlib.Data.List.Nodup

namespace ApiSurface.Permissions

open Json (Group IsItem Member ReadsItems Value)

variable {p : Permissions} {flags before : List (String × Bool)} {key : String} {b : Bool}
  {cs rest : List Char} {s : String}

def asMember (flag : String × Bool) : String × Value :=
  (flag.1, .bool flag.2)

-- The object whose members are truth values.
def flagged (flags : List (String × Bool)) : Value :=
  .object (flags.map asMember)

-- Only what can be permitted is a key, and no key is there twice.
structure Granted (flags : List (String × Bool)) : Prop where
  known : ∀ flag ∈ flags, flag.1 = paramsKey ∨ flag.1 = returnsKey
  once  : (flags.map (·.1)).Nodup

-- What members say of a key: the value that they give it, and no if they do not have it.
inductive Says (flags : List (String × Bool)) (key : String) : Bool → Prop
  | given (b : Bool) : (key, b) ∈ flags → Says flags key b
  | absent           : key ∉ flags.map (·.1) → Says flags key false

theorem granted_nil : Granted [] where
  known := List.forall_mem_nil _
  once  := List.nodup_nil

theorem granted_cons_iff : Granted ((key, b) :: flags)
    ↔ (key = paramsKey ∨ key = returnsKey) ∧ key ∉ flags.map (·.1) ∧ Granted flags := by
  constructor
  case mp =>
    rintro ⟨hk, hn⟩
    rw [List.forall_mem_cons] at hk
    rw [List.map_cons, List.nodup_cons] at hn
    exact ⟨hk.left, hn.left, hk.right, hn.right⟩
  case mpr =>
    rintro ⟨hk, hn, hf⟩
    exact ⟨List.forall_mem_cons.mpr ⟨hk, hf.known⟩, List.nodup_cons.mpr ⟨hn, hf.once⟩⟩

theorem granted_reverse_iff : Granted flags.reverse ↔ Granted flags := by
  constructor <;> rintro ⟨hk, hn⟩ <;> exact ⟨by simpa using hk, by simpa using hn⟩

theorem Granted.sublist {others : List (String × Bool)} (h : Granted flags)
    (hs : others.Sublist flags) : Granted others where
  known flag hf := h.known flag (hs.subset hf)
  once          := h.once.sublist (hs.map _)

-- What is found for a key is what members say of it, since they have it once.
theorem says_iff_lookup (h : (flags.map (·.1)).Nodup) :
    Says flags key b ↔ (flags.lookup key).getD false = b := by
  cases hl : flags.lookup key
  case none   =>
    have hn : key ∉ flags.map (·.1) := by
      rw [List.lookup_eq_none_iff] at hl
      intro hn
      obtain ⟨flag, hf, rfl⟩ := List.mem_map.mp hn
      simpa using hl flag hf
    constructor
    case mp =>
      rintro (⟨_, hm⟩ | _)
      · exact absurd (List.mem_map_of_mem hm) hn
      · rfl
    case mpr =>
      rintro rfl
      exact .absent hn
  case some c =>
    have hm : (key, c) ∈ flags := by
      have ⟨_, _, he, _⟩ := List.lookup_eq_some_iff.mp hl
      exact he ▸ List.mem_append_right _ (List.mem_cons_self ..)
    constructor
    case mp =>
      rintro (⟨_, hb⟩ | hn)
      · exact congrArg Prod.snd (List.inj_on_of_nodup_map h hm hb rfl)
      · exact absurd (List.mem_map_of_mem hm) hn
    case mpr =>
      rintro rfl
      exact .given c hm

theorem Granted.says (h : Granted flags) (key : String) :
    Says flags key ((flags.lookup key).getD false) :=
  (says_iff_lookup h.once).mpr rfl

theorem readWanted_asBool_iff :
    Json.readWanted Value.asBool cs = .ok (b, rest) ↔ Value.Written (.bool b) cs rest := by
  constructor
  case mp =>
    intro h
    rw [Json.readWanted] at h
    split at h
    case isTrue  => cases h
    case isFalse =>
      obtain ⟨⟨v, _⟩, hv, h⟩ := Except.bind_eq_ok.mp h
      obtain ⟨b, hb, h⟩ := Except.bind_eq_ok.mp h
      cases h
      obtain rfl : v = .bool b := by cases v <;> cases hb; rfl
      exact (Json.written_of_readScalar hv).left
  case mpr =>
    intro h
    cases h <;> simp [Json.readWanted, Json.readScalar, Json.readWord, Value.asBool]

-- A member is read if its key is known and not there yet.
theorem readMember_eq_ok_iff : readMember before cs = .ok ((key, b), rest)
    ↔ Member Value.Written (key, .bool b) cs rest
      ∧ (key = paramsKey ∨ key = returnsKey) ∧ key ∉ before.map (·.1) := by
  constructor
  case mp =>
    intro h
    obtain ⟨r, ds, hr, hb, hm⟩ := Json.member_of_readMember h
    split at hr
    case isTrue     => cases hr
    case isFalse hk =>
      split at hr
      case isTrue     => cases hr
      case isFalse hn =>
        cases hr
        refine ⟨hm (readWanted_asBool_iff.mp hb), ?_, by simpa using hn⟩
        simpa [Decidable.or_iff_not_imp_left] using hk
  case mpr =>
    rintro ⟨hm, hk, hn⟩
    obtain ⟨ds, hb, he⟩ := Json.readMember_of_member hm Value.Written.isItem
    have hk : ¬(key ≠ paramsKey && key ≠ returnsKey) := by
      simpa [Decidable.or_iff_not_imp_left] using hk
    have hn : ¬before.any (·.1 = key) := by simpa using hn
    rw [readMember, he _ (Json.readWanted Value.asBool) (by rw [if_neg hk, if_neg hn]),
      readWanted_asBool_iff.mpr hb]
    rfl

-- The texts of a member with a truth value.
def Flag (flag : String × Bool) : List Char → List Char → Prop :=
  Member Value.Written (asMember flag)

theorem isItem_flag : IsItem Flag where
  starts := Value.Written.isItem.member.starts
  takes  := Value.Written.isItem.member.takes

theorem readsItems_of_granted (h : Granted (flags.reverse ++ before)) :
    ReadsItems readMember Flag (fun _ => True) before flags := by
  induction flags generalizing before
  case nil                => exact .nil
  case cons flag flags hi =>
    rw [List.reverse_cons, List.append_assoc, List.singleton_append] at h
    have ⟨hk, hn, _⟩ := granted_cons_iff.mp (h.sublist (List.sublist_append_right ..))
    refine .cons (fun cs rest hm _ => ?_) (hi h)
    rw [if_pos trivial]
    exact readMember_eq_ok_iff.mpr ⟨hm, hk, hn⟩

theorem readGroup_eq_ok_iff : Json.readGroup '}' readMember cs = .ok (flags, rest)
    ↔ (flagged flags).Written ('{' :: cs) rest ∧ Granted flags := by
  constructor
  case mp =>
    intro h
    have hw : Group '}' Flag flags cs rest :=
      Json.group_of_readGroup h fun _ _ _ _ hm => (readMember_eq_ok_iff.mp hm).left
    have hg : Granted flags.reverse :=
      Json.invariant_of_readGroup h granted_nil fun _ _ _ _ hg hm =>
        granted_cons_iff.mpr ⟨(readMember_eq_ok_iff.mp hm).right.left,
          (readMember_eq_ok_iff.mp hm).right.right, hg⟩
    exact ⟨.object (Json.group_map_iff.mpr hw), granted_reverse_iff.mp hg⟩
  case mpr =>
    rintro ⟨hw, hg⟩
    rw [flagged] at hw
    obtain _ | _ | _ | _ | _ | _ | hw := hw
    have hw : Group '}' Flag flags cs rest := (Json.group_map_iff (f := asMember)).mp hw
    have hr : ReadsItems readMember Flag (fun _ => True) [] flags :=
      readsItems_of_granted (by rwa [List.append_nil, granted_reverse_iff])
    simpa using Json.readGroup_of_group (.inr rfl) isItem_flag hw hr

theorem readValue_eq_ok_iff : readValue ('{' :: cs) = .ok (p, rest)
    ↔ ∃ flags, (flagged flags).Written ('{' :: cs) rest ∧ Granted flags
      ∧ Says flags paramsKey p.anyInParams ∧ Says flags returnsKey p.anyInReturns := by
  have hb : '{' ≠ '[' := by decide
  simp only [readValue, hb, if_false, if_true, Except.bind_eq_ok]
  constructor
  case mp =>
    rintro ⟨⟨flags, _⟩, hr, h⟩
    cases h
    have ⟨hw, hg⟩ := readGroup_eq_ok_iff.mp hr
    exact ⟨flags, hw, hg, hg.says paramsKey, hg.says returnsKey⟩
  case mpr =>
    rintro ⟨flags, hw, hg, hp, hr⟩
    rw [says_iff_lookup hg.once] at hp hr
    exact ⟨(flags, rest), readGroup_eq_ok_iff.mpr ⟨hw, hg⟩, by rw [hp, hr]⟩

theorem read_eq_ok_iff (h : Json.Blanks s.toList ('{' :: cs)) : read s = .ok p
    ↔ ∃ flags, (flagged flags).IsText s ∧ Granted flags
      ∧ Says flags paramsKey p.anyInParams ∧ Says flags returnsKey p.anyInReturns := by
  have hs : Json.skipBlanks s.toList = '{' :: cs := by
    rw [Json.skipBlanks_of_blanks h, Json.skipBlanks_cons (by decide)]
  simp only [Value.isText_iff, hs, read, Except.bind_eq_ok, Json.expectEnd_eq_ok_iff]
  constructor
  case mp =>
    rintro ⟨⟨q, rest⟩, hr, _, he, h⟩
    cases h
    have ⟨flags, hw, hf⟩ := readValue_eq_ok_iff.mp hr
    exact ⟨flags, ⟨rest, hw, he⟩, hf⟩
  case mpr =>
    rintro ⟨flags, ⟨rest, hw, he⟩, hf⟩
    exact ⟨(p, rest), readValue_eq_ok_iff.mpr ⟨flags, hw, hf⟩, (), he, rfl⟩

-- Permissions are read from a text that starts with a brace just if it is a text of an object whose
-- members are granted, and they are what these members say. No other such text is read.
theorem read_granted (h : Json.Blanks s.toList ('{' :: cs)) :
    (∀ p, read s = .ok p ↔ ∃ flags, (flagged flags).IsText s ∧ Granted flags
      ∧ Says flags paramsKey p.anyInParams ∧ Says flags returnsKey p.anyInReturns)
    ∧ ((∃ e, read s = .error e) ↔ ∀ flags, (flagged flags).IsText s → ¬Granted flags) := by
  refine ⟨fun p => read_eq_ok_iff h, ?mp, ?mpr⟩
  case mp =>
    rintro ⟨e, he⟩ flags hs hg
    have hr : read s = .ok ⟨(flags.lookup paramsKey).getD false,
        (flags.lookup returnsKey).getD false⟩ :=
      (read_eq_ok_iff h).mpr ⟨flags, hs, hg, hg.says paramsKey, hg.says returnsKey⟩
    cases he.symm.trans hr
  case mpr =>
    intro hn
    cases hr : read s
    case error e => exact ⟨e, rfl⟩
    case ok p    =>
      have ⟨flags, hs, hg, _⟩ := (read_eq_ok_iff h).mp hr
      exact absurd hg (hn flags hs)

-- Two members with blanks around them and an escaped letter, and a member that is there twice.
theorem read_granted_escaped :
    let s := "\t" ++ r#"{ "permitAnyInReturns" : true ,"# ++ "\r\n"
      ++ r#""permit\u0041nyInParams":false }"# ++ "\n"
    let t := r#"{"permitAnyInParams":true,"permitAnyInParams":true}"#
    (∃ cs, Json.Blanks s.toList ('{' :: cs)) ∧ read s = .ok ⟨false, true⟩
    ∧ (∃ flags, (flagged flags).IsText s ∧ Granted flags
      ∧ Says flags paramsKey false ∧ Says flags returnsKey true)
    ∧ (∃ cs, Json.Blanks t.toList ('{' :: cs)) ∧ read t = .error .mismatched
    ∧ ∀ flags, (flagged flags).IsText t → ¬Granted flags := by
  intro s t
  have hb {u : String} {cs : List Char} (h : Json.skipBlanks u.toList = cs) :
      Json.Blanks u.toList cs := h ▸ Json.blanks_skipBlanks u.toList
  have hs : Json.Blanks s.toList ('{' :: (Json.skipBlanks s.toList).tail) :=
    hb (by decide +kernel)
  have hr : read s = .ok ⟨false, true⟩ := by decide +kernel
  have ht : Json.Blanks t.toList ('{' :: (Json.skipBlanks t.toList).tail) :=
    hb (by decide +kernel)
  have he : read t = .error .mismatched := by decide +kernel
  exact ⟨⟨_, hs⟩, hr, ((read_granted hs).left _).mp hr, ⟨_, ht⟩, he,
    (read_granted ht).right.mp ⟨_, he⟩⟩

end ApiSurface.Permissions
