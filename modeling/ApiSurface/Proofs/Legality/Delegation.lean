import ApiSurface.Proofs.Legality.Table

namespace ApiSurface.Rule

-- What a rule answers in that remembers things from one question to the next.
abbrev Remembering (σ : Type) :=
  ExceptT Inconsistency (StateM σ)

-- The two rules that a container asks.
inductive Role where
  | argument
  | valueObject
deriving DecidableEq

structure Question where
  role   : Role
  method : Method
  type   : Model
  any    : Bool

variable {σ : Type}

-- The answer that is given, and what is remembered then.
def answer (x : Remembering σ Bool) (s : σ) : Except Inconsistency Bool × σ :=
  x.run.run s

-- The rule, with a note of each question that it is asked.
def noting (role : Role) (rule : Rule (Remembering σ)) : Rule (Remembering (σ × List Question)) :=
  fun method type any => ExceptT.mk fun (s, notes) =>
    let (x, s') := answer (rule method type any) s
    (x, s', notes ++ [⟨role, method, type, any⟩])

-- `Consults A V method type any s x questions s'` means that the answer about `type` is `x` after
-- `questions`, with the rules `A` and `V` remembering `s` before and `s'` after them.
inductive Consults (A V : Rule (Remembering σ)) (method : Method) (type : Model) (any : Bool)
    (s : σ) : Except Inconsistency Bool → List Question → σ → Prop
  | plain : ¬type.kind.isContainer → Consults A V method type any s (.ok false) [] s
  | notApplied : type.kind.isContainer → type.form ≠ .applied →
      Consults A V method type any s (.error (.notApplied type)) [] s
  | missingKeyOrValue : type.kind = .map → type.form = .applied → type.args.length < 2 →
      Consults A V method type any s (.error (.missingKeyOrValue type)) [] s
  | missingElement : type.kind = .list ∨ type.kind = .set → type.form = .applied → type.args = [] →
      Consults A V method type any s (.error (.missingElement type)) [] s
  | otherKey {key value rest} : type.kind = .map → type.args = key :: value :: rest →
      key.kind ≠ .string → Consults A V method type any s (.ok false) [] s
  | value {key value rest x s'} : type.kind = .map → type.args = key :: value :: rest →
      key.kind = .string → answer (A method value any) s = (x, s') →
      Consults A V method type any s x [⟨.argument, method, value, any⟩] s'
  | argumentFails {element rest e s'} : type.kind = .list ∨ type.kind = .set →
      type.args = element :: rest → answer (A method element any) s = (.error e, s') →
      Consults A V method type any s (.error e) [⟨.argument, method, element, any⟩] s'
  | argumentAccepts {element rest s'} : type.kind = .list ∨ type.kind = .set →
      type.args = element :: rest → answer (A method element any) s = (.ok true, s') →
      Consults A V method type any s (.ok true) [⟨.argument, method, element, any⟩] s'
  | valueObjectFails {element rest e s₁ s'} : type.kind = .list ∨ type.kind = .set →
      type.args = element :: rest → answer (A method element any) s = (.ok false, s₁) →
      answer (V method element false) s₁ = (.error e, s') →
      Consults A V method type any s (.error e)
        [⟨.argument, method, element, any⟩, ⟨.valueObject, method, element, false⟩] s'
  | valueObjectAnswers {element rest b s₁ s'} : type.kind = .list ∨ type.kind = .set →
      type.args = element :: rest → answer (A method element any) s = (.ok false, s₁) →
      answer (V method element false) s₁ = (.ok b, s') →
      Consults A V method type any s (.ok (b || element.kind = .enumeration))
        [⟨.argument, method, element, any⟩, ⟨.valueObject, method, element, false⟩] s'

section Container

variable {m : Type → Type} [Monad m] [MonadExceptOf Inconsistency m] {A V : Rule m}
  {method : Method} {type key value element : Model} {rest : List Model} {any : Bool} {k : Kind}

theorem ne_map_of_listOrSet (h : k = .list ∨ k = .set) : k ≠ .map := by
  rintro rfl
  simp at h

theorem container_of_not_isContainer (h : ¬type.kind.isContainer) :
    container A V method type any = pure false := by
  simp [container, h]

theorem container_of_notApplied (hc : type.kind.isContainer) (hf : type.form ≠ .applied) :
    container A V method type any = throw (.notApplied type) := by
  cases type
  case applied => exact absurd rfl hf
  all_goals simp [container, hc]

theorem container_of_missingKeyOrValue (hk : type.kind = .map) (hf : type.form = .applied)
    (hl : type.args.length < 2) :
    container A V method type any = throw (.missingKeyOrValue type) := by
  have hc : Kind.map.isContainer := rfl
  cases type
  case applied raw args =>
    match args with
    | [] | [_]    => simp [container, hk, hc]
    | _ :: _ :: _ => exact absurd hl (Nat.not_lt.mpr (Nat.le_add_left 2 _))
  all_goals contradiction

theorem container_of_missingElement (hk : type.kind = .list ∨ type.kind = .set)
    (hf : type.form = .applied) (ha : type.args = []) :
    container A V method type any = throw (.missingElement type) := by
  have hc : type.kind.isContainer := isContainer_iff.mpr (hk.imp_right .inl)
  have hm : type.kind ≠ .map := ne_map_of_listOrSet hk
  cases type
  case applied raw args =>
    obtain rfl : args = [] := ha
    simp [container, hm, hc]
  all_goals contradiction

theorem container_of_key (hk : type.kind = .map) (ha : type.args = key :: value :: rest) :
    container A V method type any
      = if key.kind = .string then A method value any else pure false := by
  have hc : Kind.map.isContainer := rfl
  cases type
  case applied raw args =>
    obtain rfl : args = key :: value :: rest := ha
    simp [container, hk, hc]
  all_goals contradiction

theorem container_of_element (hk : type.kind = .list ∨ type.kind = .set)
    (ha : type.args = element :: rest) :
    container A V method type any
      = (A method element any <||> V method element false
          <||> pure (element.kind = .enumeration)) := by
  have hc : type.kind.isContainer := isContainer_iff.mpr (hk.imp_right .inl)
  have hm : type.kind ≠ .map := ne_map_of_listOrSet hk
  cases type
  case applied raw args =>
    obtain rfl : args = element :: rest := ha
    simp [container, hm, hc]
  all_goals contradiction

end Container

section Answer

variable {x y : Remembering σ Bool} {f : Bool → Remembering σ Bool} {b : Bool} {e : Inconsistency}
  {s s' : σ}

@[simp] theorem answer_pure : answer (pure b) s = (.ok b, s) :=
  rfl

@[simp] theorem answer_throw : answer (throw e) s = (.error e, s) :=
  rfl

theorem answer_bind_of_ok (h : answer x s = (.ok b, s')) :
    answer (x >>= f) s = answer (f b) s' := by
  simp only [answer, ExceptT.run_bind, StateT.run_bind] at h ⊢
  rw [h]
  rfl

theorem answer_bind_of_error (h : answer x s = (.error e, s')) :
    answer (x >>= f) s = (.error e, s') := by
  simp only [answer, ExceptT.run_bind, StateT.run_bind] at h ⊢
  rw [h]
  rfl

-- The second rule is not asked if the first one accepts or fails.
theorem answer_orElse_of_true (h : answer x s = (.ok true, s')) :
    answer (x <||> y) s = (.ok true, s') :=
  answer_bind_of_ok h

theorem answer_orElse_of_error (h : answer x s = (.error e, s')) :
    answer (x <||> y) s = (.error e, s') :=
  answer_bind_of_error h

theorem answer_orElse_of_false (h : answer x s = (.ok false, s')) :
    answer (x <||> y) s = answer y s' :=
  answer_bind_of_ok h

theorem answer_orElse_pure (h : answer x s = (.ok b, s')) (b' : Bool) :
    answer (x <||> pure b') s = (.ok (b || b'), s') := by
  cases b
  case false => exact answer_orElse_of_false h
  case true  => exact answer_orElse_of_true h

end Answer

-- `Follows note role rule rule'` means that `rule'` answers what `rule` does, and that it remembers
-- what `rule` does together with the questions.
structure Follows {τ : Type} (note : σ → List Question → τ) (role : Role)
    (rule : Rule (Remembering σ)) (rule' : Rule (Remembering τ)) : Prop where
  answer_eq : ∀ {method type any s x s'} (notes : List Question),
    answer (rule method type any) s = (x, s') →
    answer (rule' method type any) (note s notes)
      = (x, note s' (notes ++ [⟨role, method, type, any⟩]))

theorem follows_self {role : Role} {rule : Rule (Remembering σ)} :
    Follows (fun s _ => s) role rule rule :=
  ⟨fun _ h => h⟩

theorem follows_noting {role : Role} {rule : Rule (Remembering σ)} :
    Follows Prod.mk role rule (noting role rule) := by
  constructor
  intro method type any s x s' notes h
  have hn : answer (noting role rule method type any) (s, notes)
      = ((answer (rule method type any) s).1, (answer (rule method type any) s).2,
          notes ++ [⟨role, method, type, any⟩]) :=
    rfl
  rw [hn, h]

variable {τ : Type} {A V : Rule (Remembering σ)} {A' V' : Rule (Remembering τ)} {method : Method}
  {type inner : Model} {any : Bool} {s s' : σ} {x : Except Inconsistency Bool}
  {questions : List Question} {note : σ → List Question → τ}

namespace Consults

-- Every row is what the container rule does, whether or not its questions are noted.
theorem answer_container (h : Consults A V method type any s x questions s')
    (hA : Follows note .argument A A') (hV : Follows note .valueObject V V') :
    answer (container A' V' method type any) (note s []) = (x, note s' questions) := by
  cases h
  case plain hc                   => rw [container_of_not_isContainer hc, answer_pure]
  case notApplied hc hf           => rw [container_of_notApplied hc hf, answer_throw]
  case missingKeyOrValue hk hf hl => rw [container_of_missingKeyOrValue hk hf hl, answer_throw]
  case missingElement hk hf ha    => rw [container_of_missingElement hk hf ha, answer_throw]
  case otherKey hk ha hs          => rw [container_of_key hk ha, if_neg hs, answer_pure]
  case value hk ha hs h           =>
    rw [container_of_key hk ha, if_pos hs]
    exact hA.answer_eq [] h
  case argumentFails hk ha h      =>
    rw [container_of_element hk ha]
    exact answer_orElse_of_error (hA.answer_eq [] h)
  case argumentAccepts hk ha h    =>
    rw [container_of_element hk ha]
    exact answer_orElse_of_true (hA.answer_eq [] h)
  case valueObjectFails hk ha h h' =>
    rw [container_of_element hk ha, answer_orElse_of_false (hA.answer_eq [] h)]
    exact answer_orElse_of_error (hV.answer_eq _ h')
  case valueObjectAnswers hk ha h h' =>
    rw [container_of_element hk ha, answer_orElse_of_false (hA.answer_eq [] h)]
    exact answer_orElse_pure (hV.answer_eq _ h') _

-- All questions are about what the container holds.
theorem holds (h : Consults A V method type any s x questions s') :
    ∀ q ∈ questions, q.method = method ∧ Holds type q.type := by
  cases h
  case value hk ha _ _              => simp [Holds.value hk (by rw [ha]; rfl)]
  case argumentFails hk ha _        => simp [Holds.element hk (by rw [ha]; rfl)]
  case argumentAccepts hk ha _      => simp [Holds.element hk (by rw [ha]; rfl)]
  case valueObjectFails hk ha _ _   => simp [Holds.element hk (by rw [ha]; rfl)]
  case valueObjectAnswers hk ha _ _ => simp [Holds.element hk (by rw [ha]; rfl)]
  all_goals exact List.forall_mem_nil _

end Consults

theorem exists_consults_map (A V : Rule (Remembering σ)) (method : Method) (any : Bool) (s : σ)
    (hk : type.kind = .map) (hf : type.form = .applied) :
    ∃ x questions s', Consults A V method type any s x questions s' := by
  match ha : type.args with
  | []                => exact ⟨_, _, _, .missingKeyOrValue hk hf (by simp [ha])⟩
  | [_]               => exact ⟨_, _, _, .missingKeyOrValue hk hf (by simp [ha])⟩
  | key :: value :: _ =>
    by_cases hs : key.kind = .string
    case pos => exact ⟨_, _, _, .value hk ha hs rfl⟩
    case neg => exact ⟨_, _, _, .otherKey hk ha hs⟩

theorem exists_consults_listOrSet (A V : Rule (Remembering σ)) (method : Method) (any : Bool)
    (s : σ) (hk : type.kind = .list ∨ type.kind = .set) (hf : type.form = .applied) :
    ∃ x questions s', Consults A V method type any s x questions s' := by
  match ha : type.args with
  | []           => exact ⟨_, _, _, .missingElement hk hf ha⟩
  | element :: _ =>
    match hx : answer (A method element any) s with
    | (.error _, _)   => exact ⟨_, _, _, .argumentFails hk ha hx⟩
    | (.ok true, _)   => exact ⟨_, _, _, .argumentAccepts hk ha hx⟩
    | (.ok false, s₁) =>
      match hy : answer (V method element false) s₁ with
      | (.error _, _) => exact ⟨_, _, _, .valueObjectFails hk ha hx hy⟩
      | (.ok _, _)    => exact ⟨_, _, _, .valueObjectAnswers hk ha hx hy⟩

-- There is a row for every type.
theorem exists_consults (A V : Rule (Remembering σ)) (method : Method) (type : Model) (any : Bool)
    (s : σ) : ∃ x questions s', Consults A V method type any s x questions s' := by
  by_cases hc : type.kind.isContainer
  case neg => exact ⟨_, _, _, .plain hc⟩
  case pos =>
    by_cases hf : type.form = .applied
    case neg => exact ⟨_, _, _, .notApplied hc hf⟩
    case pos =>
      by_cases hk : type.kind = .map
      case pos => exact exists_consults_map A V method any s hk hf
      case neg =>
        have hl := (isContainer_iff.mp hc).imp_right fun h => h.resolve_right hk
        exact exists_consults_listOrSet A V method any s hl hf

theorem answer_noted_iff :
    answer (container (noting .argument A) (noting .valueObject V) method type any) (s, [])
        = (x, s', questions)
      ↔ Consults A V method type any s x questions s' := by
  constructor
  case mp  =>
    intro h
    obtain ⟨_, _, _, hc⟩ := exists_consults A V method type any s
    cases (hc.answer_container follows_noting follows_noting).symm.trans h
    exact hc
  case mpr => exact fun hc => hc.answer_container follows_noting follows_noting

theorem ne_of_holds (h : Holds type inner) : inner ≠ type := by
  have hm : inner ∈ type.args := by
    cases h
    case element h => exact List.mem_of_getElem? h
    case value h   => exact List.mem_of_getElem? h
  cases type
  case applied raw args =>
    rintro rfl
    have hs : sizeOf (Model.applied raw args) < sizeOf args := List.sizeOf_lt_of_mem hm
    rw [Model.applied.sizeOf_spec] at hs
    omega
  all_goals cases hm

theorem exists_args_of_element (h : type.args[0]? = some inner) :
    ∃ rest, type.args = inner :: rest := by
  rw [← List.head?_eq_some_iff, List.head?_eq_getElem?, h]

theorem exists_args_of_value (h : type.args[1]? = some inner) :
    ∃ key rest, type.args = key :: inner :: rest := by
  match ha : type.args with
  | []                => simp [ha] at h
  | [_]               => simp [ha] at h
  | key :: value :: _ =>
    obtain rfl : value = inner := by simpa [ha] using h
    exact ⟨key, _, rfl⟩

-- `Declines rule` means that the rule finds all containers illegal.
def Declines (rule : Rule (Remembering σ)) : Prop :=
  ∀ method type any s, type.kind.isContainer →
    ∃ s', answer (rule method type any) s = (.ok false, s')

-- A map with a container for key is illegal whatever the rules answer.
theorem declines_key {key value : Model} {rest : List Model} (hk : type.kind = .map)
    (ha : type.args = key :: value :: rest) (hc : key.kind.isContainer) :
    ∃ s', answer (container A V method type any) s = (.ok false, s') := by
  have hs : key.kind ≠ .string := fun hs => by rw [hs] at hc; contradiction
  rw [container_of_key hk ha, if_neg hs]
  exact ⟨s, answer_pure⟩

theorem declines_held (hA : Declines A) (hV : Declines V) (h : Holds type inner)
    (hc : inner.kind.isContainer) :
    ∃ s', answer (container A V method type any) s = (.ok false, s') := by
  obtain ⟨s₁, hx⟩ := hA method inner any s hc
  cases h
  case element hk ha =>
    obtain ⟨rest, ha⟩ := exists_args_of_element ha
    obtain ⟨s₂, hy⟩ := hV method inner false s₁ hc
    have he : inner.kind ≠ .enumeration := fun he => by rw [he] at hc; contradiction
    rw [container_of_element hk ha, answer_orElse_of_false hx, answer_orElse_pure hy]
    exact ⟨s₂, by simp [he]⟩
  case value hk ha =>
    obtain ⟨key, rest, ha⟩ := exists_args_of_value ha
    rw [container_of_key hk ha]
    by_cases hs : key.kind = .string
    case pos => rw [if_pos hs]; exact ⟨s₁, hx⟩
    case neg => rw [if_neg hs]; exact ⟨s, answer_pure⟩

-- The container rule asks what the table says, in this order, and answers by it. All of its
-- questions are about an element or the value of a map, never about the type itself. So a container
-- in a container is illegal if the two rules find containers illegal.
theorem container_consults (A V : Rule (Remembering σ)) (method : Method) (type : Model)
    (any : Bool) (s : σ) :
    (∀ x questions s',
      answer (container (noting .argument A) (noting .valueObject V) method type any) (s, [])
          = (x, s', questions)
        ↔ Consults A V method type any s x questions s')
    ∧ (∀ x questions s', Consults A V method type any s x questions s' →
        answer (container A V method type any) s = (x, s')
        ∧ ∀ q ∈ questions, q.method = method ∧ Holds type q.type ∧ q.type ≠ type)
    ∧ (Declines A → Declines V → ∀ inner, Holds type inner → inner.kind.isContainer →
        ∃ s', answer (container A V method type any) s = (.ok false, s'))
    ∧ ∀ key value rest, type.kind = .map → type.args = key :: value :: rest →
        key.kind.isContainer →
          ∃ s', answer (container A V method type any) s = (.ok false, s') := by
  refine ⟨fun x questions s' => answer_noted_iff, fun x questions s' h => ?_,
    fun hA hV inner => declines_held hA hV, fun key value rest => declines_key⟩
  refine ⟨h.answer_container follows_self follows_self, fun q hq => ?_⟩
  obtain ⟨hm, hh⟩ := h.holds q hq
  exact ⟨hm, hh, ne_of_holds hh⟩

-- A list of lists, and a map with a list for key. Both rules are the same one here, which counts
-- its questions and accepts all but containers.
theorem container_consults_nested :
    let list := Model.cls ⟨.list, WellKnown.list, none, [⟨.cls WellKnown.list, 0, "E"⟩]⟩
    let map := Model.cls ⟨.map, WellKnown.map, none,
      [⟨.cls WellKnown.map, 0, "K"⟩, ⟨.cls WellKnown.map, 1, "V"⟩]⟩
    let inner := Model.applied list [.void]
    let type := Model.applied list [inner]
    let type' := Model.applied map [inner, .void]
    let method : Method := { owner := "com.acme.api.Widget", name := "send" }
    let counting : Rule (Remembering Nat) := fun _ type _ => do
      modify (· + 1)
      return !type.kind.isContainer
    let questions : List Question :=
      [⟨.argument, method, inner, true⟩, ⟨.valueObject, method, inner, false⟩]
    Declines counting ∧ Holds type inner ∧ inner.kind.isContainer
    ∧ Consults counting counting method type true 0 (.ok false) questions 2
    ∧ answer (container counting counting method type true) 0 = (.ok false, 2)
    ∧ (∃ s', answer (container counting counting method type true) 0 = (.ok false, s'))
    ∧ ∃ s', answer (container counting counting method type' true) 0 = (.ok false, s') := by
  intro list map inner type type' method counting questions
  have hd : Declines counting := by
    intro method type any s hc
    have ha : answer (counting method type any) s = (.ok !type.kind.isContainer, s + 1) := rfl
    exact ⟨s + 1, by rw [ha, hc]; rfl⟩
  have hh : Holds type inner := .element (.inl rfl) rfl
  obtain ⟨hq, hc, hl, _⟩ := container_consults counting counting method type true 0
  obtain ⟨_, _, _, hk⟩ := container_consults counting counting method type' true 0
  have hr : Consults counting counting method type true 0 (.ok false) questions 2 :=
    (hq _ _ _).mp rfl
  exact ⟨hd, hh, rfl, hr, (hc _ _ _ hr).left, hl hd hd inner hh rfl, hk _ _ _ rfl rfl rfl⟩

end ApiSurface.Rule
