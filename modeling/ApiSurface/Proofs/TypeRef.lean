import ApiSurface.TypeRef

namespace ApiSurface.TypeRef

-- The arguments that stand in a reference.
def args : TypeRef → List TypeRef
  | applied _ args => args
  | _              => []

@[elab_as_elim, induction_eliminator]
theorem induction {motive : TypeRef → Prop}
    (void      : motive void)
    (primitive : ∀ name, motive (primitive name))
    (named     : ∀ name, motive (named name))
    (applied   : ∀ name args, (∀ t ∈ args, motive t) → motive (applied name args))
    (typeVar   : ∀ owner name, motive (typeVar owner name))
    (wildcard  : ∀ upper lower, (∀ t ∈ upper, motive t) → (∀ t ∈ lower, motive t) →
      motive (wildcard upper lower))
    (array     : ∀ component, motive component → motive (array component))
    (t : TypeRef) : motive t := by
  refine @TypeRef.rec motive (fun ts => ∀ t ∈ ts, motive t) (fun b => ∀ t ∈ b, motive t) void
    primitive named applied typeVar wildcard array ?nil ?cons ?none ?some t
  case nil  => simp
  case cons => simp_all
  case none => simp
  case some => simp_all

end ApiSurface.TypeRef
