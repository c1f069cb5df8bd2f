import ApiSurface.Model.Decoding
import ApiSurface.Proofs.Json.Reading

namespace ApiSurface.Model

open Json (Value Member IsItem ReadsItems)

variable {shape : Shape} {v : Value} {ms before : List (String × Value)} {cs rest : List Char}

-- Values with a single tag that is the label of a shape.
inductive Tagged (shape : Shape) : Value → Prop
  | object {ms : List (String × Value)} :
    ms.filter (·.1 = "shape") = [("shape", .string shape.label)] → Tagged shape (.object ms)
  | array {vs : List Value} : Tagged shape (.array (.string shape.label :: vs))

theorem readWanted_label (h : Value.Written (.string shape.label) cs rest) :
    Json.readWanted wantTag cs = .ok (.string shape.label, rest) := by
  cases h
  case string cs hs =>
    simp [Json.readWanted, Json.readScalar, Json.Quoted.read_eq_ok_iff.mpr hs, wantTag]

theorem readOuterMember_tag (hb : ∀ m ∈ before, m.1 ≠ "shape")
    (h : Member Value.Written ("shape", .string shape.label) cs rest) :
    readOuterMember before cs = .ok (("shape", .string shape.label), rest) := by
  obtain ⟨ds, hv, he⟩ := Json.readMember_of_member h Value.Written.isItem
  have hk : before.any (·.1 = "shape") = false := by simpa using fun k w h => hb (k, w) h
  rw [readOuterMember, he _ (Json.readWanted wantTag) (by simp [hk]), readWanted_label hv]
  rfl

theorem readOuterMember_other {m : String × Value} (hk : m.1 ≠ "shape")
    (h : Member Value.Written m cs rest) (hr : Json.Numeral.Ends rest) :
    readOuterMember before cs
      = if m.2.Fits (Json.maxDepth - 1) then .ok (m, rest) else .error .malformed := by
  obtain ⟨ds, hv, he⟩ := Json.readMember_of_member h Value.Written.isItem
  rw [readOuterMember, he _ (Json.readValue (Json.maxDepth - 1)) (by simp [hk]),
    Json.readValue_of_written hv hr]
  split <;> rfl

theorem readsItems_outerMembers
    (h : ms.filter (·.1 = "shape") = [("shape", .string shape.label)]) :
    ReadsItems readOuterMember (Member Value.Written)
      (·.2.Fits (Json.maxDepth - 1)) [] ms := by
  obtain ⟨before, after, rfl, hb, _, ha⟩ := List.filter_eq_cons_iff.mp h
  have hb : ∀ m ∈ before, m.1 ≠ "shape" := by simpa using hb
  have ha : ∀ m ∈ after, m.1 ≠ "shape" := by simpa using ha
  have hl : (Value.string shape.label).Fits (Json.maxDepth - 1) := ⟨Nat.zero_le _, rfl⟩
  refine .append (Json.readsItems_of_forall fun m hm _ _ _ => readOuterMember_other (hb m hm)) <|
    .cons (fun cs rest ht _ => ?tag) <|
    Json.readsItems_of_forall fun m hm _ _ _ => readOuterMember_other (ha m hm)
  case tag => rw [readOuterMember_tag (by simpa using hb) ht, if_pos hl]

theorem readsItems_outerItems {vs : List Value} :
    ReadsItems readOuterItem Value.Written (Value.Fits (Json.maxDepth - 1)) []
      (.string shape.label :: vs) := by
  have hl : (Value.string shape.label).Fits (Json.maxDepth - 1) := ⟨Nat.zero_le _, rfl⟩
  refine .cons (fun cs rest ht _ => ?tag) <|
    Json.readsItems_of_forall fun v _ between cs rest hv hr => ?item
  case tag  => rw [readOuterItem, List.isEmpty_nil, if_pos rfl, readWanted_label ht, if_pos hl]
  case item =>
    have hb : (between ++ [Value.string shape.label]).isEmpty = false := by simp
    rw [readOuterItem, hb]
    exact Json.readValue_of_written hv hr

theorem readOuter_object (hr : ReadsItems readOuterMember (Member Value.Written)
    (·.2.Fits (Json.maxDepth - 1)) [] ms) (h : (Value.object ms).Written cs rest) :
    readOuter cs
      = if (Value.object ms).Fits Json.maxDepth then .ok (.object ms, rest)
        else .error .malformed := by
  obtain _ | _ | _ | _ | _ | _ | hg := h
  have hg := Json.readGroup_of_group (.inr rfl) Value.Written.isItem.member hg hr
  have hb : '{' ≠ '[' := by decide
  have hd : (Value.object ms).Fits Json.maxDepth ↔ ∀ m ∈ ms, m.2.Fits (Json.maxDepth - 1) :=
    Value.fits_object_iff
  simp only [readOuter, hb, if_false, if_true, hg, hd]
  split <;> rfl

theorem readOuter_of_written (ht : Tagged shape v) (h : v.Written cs rest) :
    readOuter cs = if v.Fits Json.maxDepth then .ok (v, rest) else .error .malformed := by
  cases ht
  case object ms hm => exact readOuter_object (readsItems_outerMembers hm) h
  case array vs     =>
    cases h
    case array hg =>
      have hg := Json.readGroup_of_group (.inl rfl) Value.Written.isItem hg readsItems_outerItems
      have hd : (Value.array (.string shape.label :: vs)).Fits Json.maxDepth
          ↔ ∀ v ∈ Value.string shape.label :: vs, v.Fits (Json.maxDepth - 1) :=
        Value.fits_array_iff
      simp only [readOuter, if_true, hg, hd]
      split <;> rfl

-- An object without a tag is read; that there is none is not seen before its end.
theorem readOuter_untagged (ht : ms.filter (·.1 = "shape") = [])
    (h : (Value.object ms).Written cs rest) :
    readOuter cs
      = if (Value.object ms).Fits Json.maxDepth then .ok (.object ms, rest)
        else .error .malformed := by
  have hm : ∀ m ∈ ms, m.1 ≠ "shape" := by simpa using ht
  exact readOuter_object
    (Json.readsItems_of_forall fun m h _ _ _ => readOuterMember_other (hm m h)) h

-- A second tag is refused at its key.
theorem readOuterMember_again (hb : before.any (·.1 = "shape"))
    (h : Member Value.Written ("shape", v) cs rest) :
    readOuterMember before cs = .error .mismatched := by
  obtain ⟨hk, _, _, _⟩ := h
  have hn : ¬"shape" ≠ "shape" := fun h => h rfl
  simp only [readOuterMember, Json.readMember, Json.readKey, if_true,
    Json.Quoted.read_eq_ok_iff.mpr hk, Except.ok_bind, hn, if_false, hb]
  rfl

theorem readOuter_twice
    (ht : ms.filter (·.1 = "shape")
      = [("shape", .string shape.label), ("shape", .string shape.label)])
    (hf : (Value.object ms).Fits Json.maxDepth) (h : (Value.object ms).Written cs rest) :
    readOuter cs = .error .mismatched := by
  obtain ⟨before, others, rfl, hb, _, ht⟩ := List.filter_eq_cons_iff.mp ht
  obtain ⟨between, after, rfl, hbt, _, _⟩ := List.filter_eq_cons_iff.mp ht
  let tag : String × Value := ("shape", .string shape.label)
  have hs : before ++ tag :: (between ++ tag :: after)
      = (before ++ tag :: between) ++ tag :: after := by simp
  have hfilter : (before ++ tag :: between).filter (·.1 = "shape") = [tag] := by
    have hb := List.filter_eq_nil_iff.mpr hb
    have hbt := List.filter_eq_nil_iff.mpr hbt
    rw [List.filter_append, List.filter_cons_of_pos (by rfl), hb, hbt]
    rfl
  rw [hs] at h hf
  have hf := (List.forall_mem_append.mp (Value.fits_object_iff.mp hf)).left
  obtain _ | _ | _ | _ | _ | _ | hg := h
  have hg := Json.readGroup_of_fault (.inr rfl) Value.Written.isItem.member hg
    (readsItems_outerMembers hfilter) hf fun cs rest hw =>
      readOuterMember_again (by simp [tag]) hw
  have hb : '{' ≠ '[' := by decide
  simp only [readOuter, hb, if_false, if_true, hg]
  rfl

theorem written_of_readWanted (h : Json.readWanted wantTag cs = .ok (v, rest)) :
    v.Written cs rest ∧ v.depth = 0 := by
  rw [Json.readWanted] at h
  split at h
  case isTrue  => cases h
  case isFalse =>
    obtain ⟨⟨w, _⟩, hw, h⟩ := Except.bind_eq_ok.mp h
    obtain ⟨u, hu, h⟩ := Except.bind_eq_ok.mp h
    cases h
    have he : v = w := by
      cases w <;> simp only [wantTag] at hu
      case string s =>
        split at hu <;> cases hu
        rfl
      all_goals cases hu
    exact he ▸ Json.written_of_readScalar hw

theorem written_of_readOuter (h : readOuter cs = .ok (v, rest)) :
    v.Written cs rest ∧ v.depth ≤ Json.maxDepth := by
  have hw (v cs rest) (h : Json.readWanted wantTag cs = .ok (v, rest)) :
      v.Written cs rest ∧ v.depth ≤ Json.maxDepth - 1 :=
    have ⟨hw, hd⟩ := written_of_readWanted h
    ⟨hw, hd ▸ Nat.zero_le _⟩
  cases cs
  case nil       => cases h
  case cons c cs =>
    rw [readOuter] at h
    split at h
    case isTrue hc =>
      obtain ⟨⟨vs, _⟩, hg, h⟩ := Except.bind_eq_ok.mp h
      cases h
      refine hc ▸ Json.written_array (Json.group_of_readGroup hg fun before cs v rest h => ?_)
      rw [readOuterItem] at h
      split at h
      case isTrue  => exact hw v cs rest h
      case isFalse => exact Json.written_of_readValue h
    case isFalse =>
    split at h
    case isTrue hc =>
      obtain ⟨⟨ms, _⟩, hg, h⟩ := Except.bind_eq_ok.mp h
      cases h
      refine hc ▸ Json.written_object (Json.group_of_readGroup hg fun before cs m rest h => ?_)
      obtain ⟨r, ds, hr, hv, hm⟩ := Json.member_of_readMember h
      apply hm
      split at hr
      case isTrue  => cases hr; exact Json.written_of_readValue hv
      case isFalse =>
        split at hr <;> cases hr
        exact hw m.2 ds rest hv
    case isFalse =>
      obtain ⟨hw, hd⟩ := Json.written_of_readScalar h
      exact ⟨hw, hd ▸ Nat.zero_le _⟩

end ApiSurface.Model
