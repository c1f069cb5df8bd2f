import ApiSurface.Proofs.TypeRef.Variables
import ApiSurface.Registry.Search
import Mathlib.Data.List.Shortlex

namespace ApiSurface

-- A path is the list of the positions that it takes among the declared supertypes. Of two paths the
-- shorter one comes first, or else the one that takes an earlier supertype where they part.
def Before (p q : List Nat) : Prop :=
  p.length < q.length ∨ p.length = q.length ∧ p < q

namespace Before

variable {p q r s : List Nat}

theorem iff_shortlex : Before p q ↔ List.Shortlex (· < ·) p q :=
  List.shortlex_def.symm

theorem wf : WellFounded Before := by
  have he : Before = List.Shortlex (· < ·) := funext₂ fun _ _ => propext iff_shortlex
  exact he ▸ List.Shortlex.wf Nat.lt_wfRel.wf

theorem irrefl : ¬Before p p := by
  simp [Before]

theorem trans : Before p q → Before q r → Before p r
  | .inl h₁, .inl h₂ => .inl (by omega)
  | .inl h₁, .inr h₂ => .inl (by omega)
  | .inr h₁, .inl h₂ => .inl (by omega)
  | .inr h₁, .inr h₂ => .inr ⟨h₁.left.trans h₂.left, List.lt_trans h₁.right h₂.right⟩

theorem total (p q : List Nat) : p = q ∨ Before p q ∨ Before q p := by
  by_cases hl : p.length = q.length
  case pos =>
    cases lt_trichotomy p q
    case inl h => exact .inr <| .inl <| .inr ⟨hl, h⟩
    case inr h =>
      cases h
      case inl h => exact .inl h
      case inr h => exact .inr <| .inr <| .inr ⟨hl.symm, h⟩
  case neg =>
    cases Nat.lt_or_gt_of_ne hl
    case inl h => exact .inr <| .inl <| .inl h
    case inr h => exact .inr <| .inr <| .inl h

theorem append (h : Before p q) (hl : r.length ≤ s.length) : Before (p ++ r) (q ++ s) := by
  cases h
  case inl h => exact .inl (by simp; omega)
  case inr h =>
    by_cases he : r.length = s.length
    case neg => exact .inl (by simp; omega)
    case pos =>
      refine .inr ⟨by simp; omega, ?_⟩
      have ⟨hl, hlt⟩ := h
      clear h
      induction hlt
      case nil       => simp at hl
      case cons h hi => exact .cons <| hi (Nat.succ.inj hl)
      case rel h     => exact .rel h

theorem of_isPrefix (h : p <+: q) : p = q ∨ Before p q := by
  have ⟨s, he⟩ := h
  cases s
  case nil      => exact .inl <| (List.append_nil p).symm.trans he
  case cons i s => exact .inr <| .inl <| he ▸ by simp

end Before

namespace Registry

-- The arguments that a reference gives. A raw one gives the variables of its class.
def arguments (R : Registry) : TypeRef → List TypeRef
  | .applied _ args => args
  | .named name     => ((R.declaration? name).map fun d => d.params.map (.classVar name)).getD []
  | _               => []

-- A supertype of the declaration that a reference leads to, as seen from the reference.
inductive Supertype (R : Registry) (t : TypeRef) (i : Nat) : TypeRef → Prop
  | intro {name : String} {d : Declaration} {s : TypeRef} {f : VarOwner → String → TypeRef} :
      t.declaration? = some name → R.declaration? name = some d → d.supertypes[i]? = some s →
      (∀ owner x, TypeRef.Stands name d.params (R.arguments t) owner x (f owner x)) →
      Supertype R t i (s.replace f)

-- The reference that a path leads to, as seen from where it starts.
inductive Along (R : Registry) : TypeRef → List Nat → TypeRef → Prop
  | nil {t : TypeRef} : Along R t [] t
  | cons {t s r : TypeRef} {i : Nat} {p : List Nat} : R.Supertype t i s → Along R s p r →
      Along R t (i :: p) r

-- The declaration that a path leads to. Every declaration before it has to be registered.
def ancestor? (R : Registry) (name : String) : List Nat → Option String
  | []     => some name
  | i :: p => do
    let d ← R.declaration? name
    let s ← d.supertypes[i]?
    let next ← s.declaration?
    R.ancestor? next p

def Leads (R : Registry) (t : TypeRef) (p : List Nat) (name : String) : Prop :=
  ∃ start, t.declaration? = some start ∧ R.ancestor? start p = some name

-- The first of the paths that lead from a reference to a declaration.
structure First (R : Registry) (t : TypeRef) (name : String) (p : List Nat) : Prop where
  leads : R.Leads t p name
  least : ∀ q, R.Leads t q name → p = q ∨ Before p q

-- Every declared supertype is a class, with or without arguments.
def Grounded (R : Registry) : Prop :=
  ∀ d ∈ R.declarations.entries, ∀ s ∈ d.supertypes, s.declaration?.isSome

variable {R : Registry} {t r r' : TypeRef} {name last : String} {p q s : List Nat} {i : Nat}

theorem ancestor?_append :
    R.ancestor? name (p ++ q) = (R.ancestor? name p).bind fun last => R.ancestor? last q := by
  induction p generalizing name
  case nil         => rfl
  case cons i p hi => simp [ancestor?, hi, Option.bind_assoc]

-- The variables are replaced as a search substitutes them.
theorem supertype_iff : R.Supertype t i r ↔ ∃ name, t.declaration? = some name ∧
    ∃ d, R.declaration? name = some d ∧ ∃ s, d.supertypes[i]? = some s
      ∧ s.substitute name (TypeRef.bind d.params (R.arguments t)) = r := by
  constructor
  case mp =>
    rintro ⟨ht, hd, hs, hf⟩
    refine ⟨_, ht, _, hd, _, hs, ?_⟩
    rw [TypeRef.substitute_eq_replace]
    exact TypeRef.replace_congr fun owner x _ => TypeRef.stands_iff.mp (hf owner x)
  case mpr =>
    rintro ⟨name, ht, d, hd, s, hs, rfl⟩
    rw [TypeRef.substitute_eq_replace]
    exact .intro ht hd hs fun _ _ => TypeRef.stands_iff.mpr rfl

theorem Supertype.unique (h : R.Supertype t i r) (h' : R.Supertype t i r') : r = r' := by
  have ⟨name, ht, d, hd, s, hs, he⟩ := supertype_iff.mp h
  have ⟨name', ht', d', hd', s', hs', he'⟩ := supertype_iff.mp h'
  cases ht.symm.trans ht'
  cases hd.symm.trans hd'
  cases hs.symm.trans hs'
  exact he.symm.trans he'

theorem Along.unique (h : R.Along t p r) (h' : R.Along t p r') : r = r' := by
  induction h
  case nil         => cases h'; rfl
  case cons hs _ hi =>
    cases h'
    case cons hs' h' => exact hi (hs.unique hs' ▸ h')

theorem Along.concat (h : R.Along t p r) (hs : R.Supertype r i r') : R.Along t (p ++ [i]) r' := by
  induction h
  case nil          => exact .cons hs .nil
  case cons hs' _ hi => exact .cons hs' (hi hs)

theorem ancestor?_cons_eq_some_iff :
    R.ancestor? name (i :: p) = some last ↔ ∃ d, R.declaration? name = some d ∧
      ∃ s, d.supertypes[i]? = some s ∧ ∃ next, s.declaration? = some next
        ∧ R.ancestor? next p = some last := by
  simp [ancestor?, Option.bind_eq_some_iff]

-- Where a path leads depends on the declarations only.

theorem exists_along_of_leads (h : R.Leads t p name) :
    ∃ r, R.Along t p r ∧ r.declaration? = some name := by
  obtain ⟨start, ht, h⟩ := h
  induction p generalizing t start
  case nil         => exact ⟨t, .nil, ht.trans h⟩
  case cons i p hi =>
    have ⟨d, hd, s, hs, next, hn, h⟩ := ancestor?_cons_eq_some_iff.mp h
    have hs := supertype_iff.mpr ⟨start, ht, d, hd, s, hs, rfl⟩
    have hn : (s.substitute start (TypeRef.bind d.params (R.arguments t))).declaration?
        = some next := TypeRef.declaration?_substitute hn
    have ⟨r, ha, hr⟩ := hi next hn h
    exact ⟨r, .cons hs ha, hr⟩

theorem leads_of_along (hR : R.Grounded) (h : R.Along t p r) (hr : r.declaration? = some name) :
    R.Leads t p name := by
  induction h
  case nil          => exact ⟨name, hr, rfl⟩
  case cons hs _ hi =>
    have ⟨start, ht, d, hd, u, hu, he⟩ := supertype_iff.mp hs
    have ⟨next, hn⟩ := Option.isSome_iff_exists.mp <|
      hR d (Catalog.mem_of_find? hd) u (List.mem_of_getElem? hu)
    have ⟨start', hs', h'⟩ := hi hr
    cases (he ▸ TypeRef.declaration?_substitute hn).symm.trans hs'
    exact ⟨start, ht, ancestor?_cons_eq_some_iff.mpr ⟨d, hd, u, hu, next, hn, h'⟩⟩

theorem Along.declaration? (h : R.Along t p r) (hl : R.Leads t p name) :
    r.declaration? = some name := by
  have ⟨r', h', hr⟩ := exists_along_of_leads hl
  exact h.unique h' ▸ hr

namespace Leads

-- A path leads on from wherever one leads to its start.
theorem append_iff : R.Leads t (p ++ q) last
    ↔ ∃ name, R.Leads t p name ∧ R.ancestor? name q = some last := by
  simp only [Leads, ancestor?_append, Option.bind_eq_some_iff]
  constructor
  case mp  => exact fun ⟨start, ht, name, hp, hq⟩ => ⟨name, ⟨start, ht, hp⟩, hq⟩
  case mpr => exact fun ⟨name, ⟨start, ht, hp⟩, hq⟩ => ⟨start, ht, name, hp, hq⟩

theorem unique (h : R.Leads t p name) (h' : R.Leads t p last) : name = last := by
  have ⟨start, ht, h⟩ := h
  have ⟨start', ht', h'⟩ := h'
  cases ht.symm.trans ht'
  exact Option.some.inj <| h.symm.trans h'

end Leads

namespace First

theorem exists_of_leads (h : R.Leads t p name) : ∃ q, R.First t name q := by
  have ⟨q, hq, hm⟩ := Before.wf.has_min { q | R.Leads t q name } ⟨p, h⟩
  refine ⟨q, hq, fun s hs => ?_⟩
  cases Before.total q s
  case inl h => exact .inl h
  case inr h => exact .inr <| h.resolve_right <| hm s hs

theorem not_before (h : R.First t name p) (hq : R.Leads t q name) : ¬Before q p := by
  intro hb
  cases h.least q hq
  case inl he => exact Before.irrefl (he ▸ hb)
  case inr hp => exact Before.irrefl (hp.trans hb)

theorem unique (h : R.First t name p) (h' : R.First t name q) : p = q := by
  cases h.least q h'.leads
  case inl he => exact he
  case inr hb => exact absurd hb <| h'.not_before h.leads

-- Up to any declaration on it, a first path is the first one there.
theorem of_append (h : R.First t last (p ++ q)) (hp : R.Leads t p name) : R.First t name p where
  leads := hp
  least := by
    intro s hs
    have ⟨name', hp', hq⟩ := Leads.append_iff.mp h.leads
    cases hp.unique hp'
    have hsq : R.Leads t (s ++ q) last := Leads.append_iff.mpr ⟨name, hs, hq⟩
    cases Before.total p s
    case inl he => exact .inl he
    case inr ho =>
      cases ho
      case inl hb => exact .inr hb
      case inr hb => exact absurd (hb.append (Nat.le_refl _)) (h.not_before hsq)

end First

end Registry

end ApiSurface
