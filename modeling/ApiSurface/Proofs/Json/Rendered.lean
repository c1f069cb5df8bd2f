import ApiSurface.Proofs.Json.Reading

namespace ApiSurface.Json

theorem Quoted.written_quote (s : String) (rest : List Char) :
    ∃ cs, quote s ++ rest = '"' :: cs ∧ Written s.toList cs rest :=
  ⟨_, by simp [quote], written_escapes s.toList⟩

namespace Value

-- The values that models are written as: their numbers are natural and fit 64 bits.
inductive Plain : Value → Prop
  | null : Plain null
  | bool {b} : Plain (bool b)
  | natural {n} : n < Numeral.wordLimit → Plain (natural n)
  | string {s} : Plain (string s)
  | array {vs} : (∀ v ∈ vs, Plain v) → Plain (array vs)
  | object {ms} : (∀ m ∈ ms, Plain m.2) → Plain (object ms)

attribute [simp] Plain.null Plain.bool Plain.string

variable {v : Value} {vs : List Value} {k : String} {ms : List (String × Value)}
  {cs rest : List Char}

@[simp] theorem plain_array_iff : (array vs).Plain ↔ ∀ v ∈ vs, v.Plain :=
  ⟨fun h => by cases h; assumption, .array⟩

@[simp] theorem plain_object_iff : (object ms).Plain ↔ ∀ m ∈ ms, m.2.Plain :=
  ⟨fun h => by cases h; assumption, .object⟩

theorem further_renderItems (h : ∀ v ∈ vs, ∀ rest, Written v (v.render ++ rest) rest)
    (rest : List Char) : Further ']' Written vs (renderItems vs ++ ']' :: rest) rest := by
  induction vs
  case nil          => exact .close .nil
  case cons v vs hi =>
    rw [renderItems, List.cons_append, List.append_assoc]
    exact .item .nil .nil (h v (by simp) _) (hi fun w hw => h w (by simp [hw]))

theorem member_render (h : Written v cs rest) :
    Member Written (k, v) (Quoted.quote k ++ ':' :: cs) rest := by
  obtain ⟨ds, he, hk⟩ := Quoted.written_quote k (':' :: cs)
  rw [he]
  exact .mk hk .nil .nil h

theorem further_renderMembers (h : ∀ m ∈ ms, ∀ rest, Written m.2 (m.2.render ++ rest) rest)
    (rest : List Char) :
    Further '}' (Member Written) ms (renderMembers ms ++ '}' :: rest) rest := by
  induction ms
  case nil          => exact .close .nil
  case cons m ms hi =>
    rw [renderMembers, List.cons_append, List.append_assoc, List.cons_append, List.append_assoc]
    exact .item .nil .nil (member_render (h m (by simp) _)) (hi fun n hn => h n (by simp [hn]))

theorem Plain.written (h : v.Plain) (rest : List Char) : Written v (v.render ++ rest) rest := by
  induction h generalizing rest
  case null           => exact .null
  case bool b         =>
    cases b
    case true  => exact .true
    case false => exact .false
  case natural n _    => exact .number (Numeral.valid_ofNat n)
  case string s       =>
    obtain ⟨cs, he, hs⟩ := Quoted.written_quote s rest
    rw [render, he]
    exact .string hs
  case array vs _ hi  =>
    obtain _ | ⟨v, vs⟩ := vs
    case nil  => exact .array (.empty .nil)
    case cons =>
      have hf := further_renderItems (fun w hw => hi w (List.mem_cons_of_mem v hw)) rest
      simpa [render] using .array (.items .nil (hi v (by simp) _) hf)
  case object ms _ hi =>
    obtain _ | ⟨m, ms⟩ := ms
    case nil  => exact .object (.empty .nil)
    case cons =>
      have hf := further_renderMembers (fun n hn => hi n (List.mem_cons_of_mem m hn)) rest
      simpa [render] using .object (.items .nil (member_render (hi m (by simp) _)) hf)

theorem Plain.finite (h : v.Plain) : v.finite := by
  induction h
  case null | bool | string => rfl
  case natural n h          => simp [Value.natural, Value.finite, Numeral.tooLarge_ofNat h]
  case array vs _ hi        => rwa [Value.finite, finiteItems_iff]
  case object ms _ hi       => rwa [Value.finite, finiteMembers_iff]

theorem Plain.isText (h : v.Plain) : v.IsText v.text :=
  ⟨v.render ++ [], [], by rw [text, String.toList_ofList, List.append_nil]; exact .nil,
    h.written [], .nil⟩

theorem Plain.skipBlanks_text (h : v.Plain) : skipBlanks v.text.toList = v.render := by
  have hw := h.written []
  rw [List.append_nil] at hw
  rw [text, String.toList_ofList, Written.isItem.skipBlanks hw]

end Value

end ApiSurface.Json
