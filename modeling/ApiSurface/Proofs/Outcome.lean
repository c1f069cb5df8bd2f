import Mathlib.Data.List.Forall2

namespace ApiSurface

namespace Option

variable {α β γ : Type} {r : α → β → Prop} {r' : α → γ → Prop} {f : β → γ} {a : Option α}
  {b : Option β}

theorem exists_left_of_rel {y : β} (h : Option.Rel r a b) (hb : b = some y) :
    ∃ x, a = some x ∧ r x y := by
  cases h <;> simp_all

end Option

namespace Except

variable {ε α β : Type} {a : α} {b : β} {e : ε} {x : Except ε α} {f : α → β} {g : α → Except ε β}
  {as : List α} {bs : List β}

@[simp] theorem pure_eq_ok : (pure a : Except ε α) = .ok a :=
  rfl

@[simp] theorem throw_eq_error : (throw e : Except ε α) = .error e :=
  rfl

@[simp] theorem ok_bind : (Except.ok a >>= g) = g a :=
  rfl

@[simp] theorem error_bind : (Except.error e >>= g) = .error e :=
  rfl

@[simp] theorem ok_map : (Except.ok a : Except ε α).map f = .ok (f a) :=
  rfl

@[simp] theorem error_map : (Except.error e : Except ε α).map f = .error e :=
  rfl

@[simp] theorem isOk_ok : (Except.ok a : Except ε α).isOk :=
  rfl

@[simp] theorem isOk_error : (Except.error e : Except ε α).isOk = false :=
  rfl

@[simp] theorem ok_orElse {b : Bool} {y : Except ε Bool} :
    (Except.ok b <||> y) = if b then .ok true else y := by
  cases b <;> rfl

theorem bind_eq_ok : (x >>= g) = .ok b ↔ ∃ a, x = .ok a ∧ g a = .ok b := by
  cases x <;> simp

theorem map_bind {γ : Type} {h : β → Except ε γ} : (x.map f >>= h) = (x >>= fun a => h (f a)) := by
  cases x <;> rfl

theorem bind_map {γ : Type} {h : β → γ} : (x >>= g).map h = (x >>= fun a => (g a).map h) := by
  cases x <;> rfl

theorem map_eq_ok : x.map f = .ok b ↔ ∃ a, x = .ok a ∧ f a = b := by
  cases x <;> simp

theorem bind_eq_error : (x >>= g) = .error e ↔ x = .error e ∨ ∃ a, x = .ok a ∧ g a = .error e := by
  cases x <;> simp

theorem map_eq_error : x.map f = .error e ↔ x = .error e := by
  cases x <;> simp

theorem mapError_eq_ok {ε' : Type} {f : ε → ε'} : x.mapError f = .ok a ↔ x = .ok a := by
  cases x <;> simp [Except.mapError]

theorem isOk_iff : x.isOk ↔ ∃ a, x = .ok a := by
  cases x <;> simp

theorem isOk_bind : (x >>= g).isOk ↔ ∃ a, x = .ok a ∧ (g a).isOk := by
  cases x <;> simp

theorem isOk_map : (x.map f).isOk ↔ x.isOk := by
  cases x <;> simp

theorem mapM_eq_ok_iff : as.mapM g = .ok bs ↔ List.Forall₂ (fun a b => g a = .ok b) as bs := by
  induction as generalizing bs
  case nil          => cases bs <;> simp
  case cons a as hi =>
    simp only [List.mapM_cons, bind_eq_ok, hi]
    cases bs <;> simp

theorem isOk_mapM : (as.mapM g).isOk ↔ ∀ a ∈ as, (g a).isOk := by
  induction as
  case nil          => simp
  case cons a as hi =>
    rw [List.mapM_cons, List.forall_mem_cons, ← hi]
    cases g a <;> cases as.mapM g <;> simp

-- The first error ends it.
theorem mapM_cases (g : α → Except ε β) (as : List α) :
    (∃ bs : List β, as.map g = bs.map .ok ∧ as.mapM g = .ok bs)
    ∨ ∃ (bs : List β) (e : ε) (rest : List (Except ε β)),
      as.map g = bs.map .ok ++ .error e :: rest ∧ as.mapM g = .error e := by
  induction as
  case nil          => exact .inl ⟨[], rfl, rfl⟩
  case cons a as hi =>
    rw [List.map_cons, List.mapM_cons]
    cases g a
    case error e => exact .inr ⟨[], e, as.map g, rfl, rfl⟩
    case ok b    =>
      obtain ⟨bs, hm, he⟩ | ⟨bs, e, rest, hm, he⟩ := hi <;> rw [hm, he]
      case inl => exact .inl ⟨b :: bs, rfl, rfl⟩
      case inr => exact .inr ⟨b :: bs, e, rest, rfl, rfl⟩

theorem mapM_congr {g' : α → Except ε β} (h : ∀ a ∈ as, g a = g' a) : as.mapM g = as.mapM g' := by
  induction as
  case nil          => rfl
  case cons a as hi =>
    rw [List.forall_mem_cons] at h
    rw [List.mapM_cons, List.mapM_cons, h.left, hi h.right]

theorem map_mapM {γ : Type} (f : β → γ) (as : List α) :
    (as.mapM g).map (List.map f) = as.mapM fun a => (g a).map f := by
  induction as
  case nil          => rfl
  case cons a as hi =>
    simp only [List.mapM_cons, ← hi]
    cases g a <;> cases as.mapM g <;> rfl

theorem mem_iff_of_mapM (h : as.mapM g = .ok bs) : b ∈ bs ↔ ∃ a ∈ as, g a = .ok b := by
  rw [mapM_eq_ok_iff] at h
  induction h
  case nil         => simp
  case cons h _ hi => simp [h, hi, eq_comm]

theorem forall_mem_of_mapM {P : β → Prop} (h : as.mapM g = .ok bs)
    (hp : ∀ a ∈ as, ∀ b, g a = .ok b → P b) : ∀ b ∈ bs, P b := by
  intro b hb
  have ⟨a, ha, hg⟩ := (mem_iff_of_mapM h).mp hb
  exact hp a ha b hg

-- The value, if there is nothing wrong with it.
def unlessError (e? : Option ε) (a : α) : Except ε α :=
  e?.elim (.ok a) .error

@[simp] theorem unlessError_none : (unlessError none a : Except ε α) = .ok a :=
  rfl

@[simp] theorem unlessError_some : unlessError (some e) a = .error e :=
  rfl

theorem unlessError_map {e? : Option ε} : (unlessError e? a).map f = unlessError e? (f a) := by
  cases e? <;> rfl

theorem unlessError_mapError {ε' : Type} {e? : Option ε} {f : ε → ε'} :
    (unlessError e? a).mapError f = unlessError (e?.map f) a := by
  cases e? <;> rfl

theorem unlessError_bind_ok {e? : Option ε} :
    (unlessError e? a >>= fun a => .ok (f a)) = unlessError e? (f a) := by
  cases e? <;> rfl

-- What is wrong with a value comes before what is wrong with that which is made of it.
theorem unlessError_bind {e? : Option ε} {e?' : α → Option ε} :
    (unlessError e? a >>= fun a => unlessError (e?' a) (f a))
      = unlessError (e?.or (e?' a)) (f a) := by
  cases e? <;> rfl

theorem mapM_unlessError (e? : α → Option ε) (f : α → β) (as : List α) :
    as.mapM (fun a => unlessError (e? a) (f a)) = unlessError (as.findSome? e?) (as.map f) := by
  induction as
  case nil          => rfl
  case cons a as hi =>
    rw [List.mapM_cons, hi, List.findSome?_cons]
    cases e? a <;> cases as.findSome? e? <;> rfl

end Except

end ApiSurface
