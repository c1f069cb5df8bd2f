import ApiSurface.Proofs.Json.Cut
import ApiSurface.Proofs.Model.RoundTrip

namespace ApiSurface.Model

open Json (Cuts RunsOut Value)
open Json.Value (memberText)

variable {m : Model} {shape : Shape} {before ms : List (String × Value)} {p rest : List Char}

-- The tag is judged when it is complete, and is right then.
theorem readWanted_cut (h : p <+: (Value.string shape.label).render) :
    RunsOut (Json.readWanted wantTag p) := by
  by_cases hn : p = (Value.string shape.label).render
  case pos =>
    have hw := Value.Plain.string (s := shape.label) |>.written []
    rw [List.append_nil, ← hn] at hw
    exact .inr ⟨_, readWanted_label hw⟩
  case neg =>
    cases p
    case nil      => exact .inl rfl
    case cons c p =>
      obtain rfl := (List.cons_prefix_cons.mp h).left
      have hs : Json.readScalar ('"' :: p) = .error .truncated := by
        rw [Json.readScalar, if_pos rfl, Json.Quoted.read_cut h hn]
        rfl
      exact .inl (by rw [Json.readWanted, hs]; rfl)

theorem cuts_outerMembers (hk : "shape" ∉ ms.map (·.1)) (hp : ∀ m ∈ ms, m.2.Plain)
    (hd : ∀ m ∈ ms, m.2.depth ≤ Json.maxDepth - 1) :
    Cuts readOuterMember memberText [] (("shape", .string shape.label) :: ms) := by
  have hl : (Value.string shape.label).Plain := .string
  refine .cons (Value.starts_memberText _) (fun p => ?cut) (fun rest => ?tag) ?members
  case cut     =>
    exact Json.readMember_cut (r := Json.readWanted wantTag) rfl hl.starts fun _ => readWanted_cut
  case tag     =>
    exact Json.readMember_append (r := Json.readWanted wantTag) rfl hl
      (readWanted_label (hl.written _))
  case members =>
    have hn {m : String × Value} (hm : m ∈ ms) : m.1 ≠ "shape" := fun he =>
      hk (he ▸ List.mem_map_of_mem hm)
    refine Json.cuts_of_forall (fun m _ => Value.starts_memberText m)
      (fun m hm _ p => Json.readMember_cut (if_pos (hn hm)) (hp m hm).starts fun _ =>
        (hp m hm).runsOut (hd m hm))
      (fun m hm _ rest => Json.readMember_append (if_pos (hn hm)) (hp m hm)
        ((hp m hm).readValue_append (hd m hm) _ Json.ends_comma))

theorem readOuter_cut (hi : m.IndicesFit) (hd : m.toValue.depth ≤ Json.maxDepth)
    (hp : p <+: m.toValue.render) (hn : p ≠ m.toValue.render) :
    readOuter p = .error .truncated := by
  have ⟨shape, ms, he, hk⟩ := m.exists_tagged
  have hv := toValue_plain hi
  rw [he, tagged] at hd hv
  rw [he, tagged, Value.render_object] at hp hn
  have hv := List.forall_mem_cons.mp (Value.plain_object_iff.mp hv)
  have hd := List.forall_mem_cons.mp (Value.depth_object_le_iff.mp hd).right
  have hc : Cuts readOuterMember memberText [] (("shape", .string shape.label) :: ms) :=
    cuts_outerMembers hk hv.right fun m hm => Nat.le_of_lt_succ (hd.right m hm)
  cases p
  case nil      => rfl
  case cons c p =>
    obtain ⟨rfl, ht⟩ := Json.eq_of_cut_brackets hp hn
    have hb : '{' ≠ '[' := by decide
    simp only [readOuter, hb, if_false, if_true, Json.readGroup_cut (.inr rfl) hc ht]
    rfl

theorem readOuter_append (hi : m.IndicesFit) (hd : m.toValue.depth ≤ Json.maxDepth)
    (rest : List Char) : readOuter (m.toValue.render ++ rest) = .ok (m.toValue, rest) := by
  have ⟨shape, ht⟩ := m.exists_tagged_toValue
  have hv := toValue_plain hi
  rw [readOuter_of_written ht (hv.written rest), if_pos ⟨hd, hv.finite⟩]

theorem expectEnd_eq (cs : List Char) :
    Json.expectEnd cs = if cs.all Json.isBlank then .ok () else .error .malformed := by
  have he : (Json.skipBlanks cs).isEmpty = cs.all Json.isBlank := by
    induction cs
    case nil          => rfl
    case cons c cs hi =>
      rw [Json.skipBlanks, List.dropWhile_cons, List.all_cons]
      cases Json.isBlank c
      case true  => exact hi
      case false => rfl
  rw [Json.expectEnd, he]

-- A text that ends too early is truncated, wherever that is. Behind the text of a model only blanks
-- may stand.
theorem read_delimited (m : Model) (hc : m.Everywhere Applies) (hi : m.IndicesFit)
    (hn : Json.nesting m.write ≤ 127) :
    (∀ s : String, s.toList <+: m.write.toList → s ≠ m.write → read s = .error .truncated)
    ∧ ∀ s : String, read (m.write ++ s)
        = if s.toList.all Json.isBlank then .ok m else .error .malformed := by
  have hs := (toValue_plain hi).starts
  have hd : m.toValue.depth ≤ Json.maxDepth := by
    rwa [write, Json.nesting_text (toValue_plain hi)] at hn
  have hw : m.write.toList = m.toValue.render := String.toList_ofList
  constructor
  case left =>
    intro s hp hne
    rw [hw] at hp
    have hne : s.toList ≠ m.toValue.render := fun he =>
      hne (String.toList_injective (he.trans hw.symm))
    rw [read, hs.skipBlanks (hp.trans (List.prefix_append _ [])), readOuter_cut hi hd hp hne]
    rfl
  case right =>
    intro s
    have hb : Json.skipBlanks (m.write ++ s).toList = m.toValue.render ++ s.toList := by
      rw [String.toList_append, hw]
      exact hs.skipBlanks (List.prefix_refl _)
    have hv : ofValue m.toValue = .ok m := ofValueWithin_toValue hc hi (Nat.le_refl _)
    rw [read, hb, readOuter_append hi hd]
    simp only [Except.ok_bind, hv, expectEnd_eq]
    split <;> rfl

-- The text of a variable that is cut off in an escape, or that stands before other characters.
theorem read_delimited_var :
    let m := typeVar ⟨.method "a" "\x01", 10, "E"⟩
    let s := r#"{"shape":"typeVariable","param":{"owner":{"kind":"method","#
      ++ r#""class":"a","method":"\u00"#
    m.Everywhere Applies ∧ m.IndicesFit ∧ Json.nesting m.write ≤ 127
    ∧ read s = .error .truncated ∧ read (m.write ++ "\r\n") = .ok m
    ∧ read (m.write ++ " ,") = .error .malformed := by
  intro m s
  have hc : m.Everywhere Applies := .of_leaf trivial trivial
  have hf : 10 < Json.Numeral.wordLimit := by decide
  have hi : m.IndicesFit := .of_leaf (List.forall_mem_singleton.mpr hf) trivial
  have hn : Json.nesting m.write ≤ 127 := by
    rw [write, Json.nesting_text (toValue_plain hi)]
    decide
  have hw : m.write.toList = m.toValue.render := String.toList_ofList
  have hs : s.toList <+: m.write.toList ∧ s.toList ≠ m.write.toList := by
    rw [hw, String.toList_append]
    iterate 2 rw [String.toList_ofList]
    decide +kernel
  obtain ⟨hcut, hmore⟩ := read_delimited m hc hi hn
  exact ⟨hc, hi, hn, hcut s hs.left fun he => hs.right (congrArg String.toList he),
    hmore "\r\n", hmore " ,"⟩

end ApiSurface.Model
