import ApiSurface.Proofs.TypeRef
import ApiSurface.TypeRef.Substitution
import Mathlib.Data.List.Basic

namespace ApiSurface.TypeRef

mutual

-- The type variables that stand in a reference, each as often as it does.
def mentions : TypeRef → List (VarOwner × String)
  | typeVar owner name   => [(owner, name)]
  | applied _ args       => mentionsList args
  | wildcard upper lower => mentionsBound upper ++ mentionsBound lower
  | array component      => mentions component
  | _                    => []
termination_by structural t => t

def mentionsBound : Option TypeRef → List (VarOwner × String)
  | none       => []
  | some bound => mentions bound
termination_by structural b => b

def mentionsList : List TypeRef → List (VarOwner × String)
  | []      => []
  | t :: ts => mentions t ++ mentionsList ts
termination_by structural ts => ts

end

mutual

-- Puts `f owner x` in the place of each variable `x` of each `owner`.
def replace (f : VarOwner → String → TypeRef) : TypeRef → TypeRef
  | typeVar owner name   => f owner name
  | applied name args    => applied name (replaceList f args)
  | wildcard upper lower => wildcard (replaceBound f upper) (replaceBound f lower)
  | array component      => array (replace f component)
  | t                    => t
termination_by structural t => t

def replaceBound (f : VarOwner → String → TypeRef) : Option TypeRef → Option TypeRef
  | none       => none
  | some bound => some (replace f bound)
termination_by structural b => b

def replaceList (f : VarOwner → String → TypeRef) : List TypeRef → List TypeRef
  | []      => []
  | t :: ts => replace f t :: replaceList f ts
termination_by structural ts => ts

end

variable {f g : VarOwner → String → TypeRef} {cls name x : String}
  {binding : String → Option TypeRef} {args : List TypeRef} {upper lower : Option TypeRef}
  {t : TypeRef} {params : List String}

theorem mentionsList_eq_flatMap (ts : List TypeRef) :
    mentionsList ts = ts.flatMap mentions := by
  induction ts
  case nil          => rfl
  case cons t ts hi => rw [mentionsList, hi, List.flatMap_cons]

theorem mentionsBound_eq_flatMap (b : Option TypeRef) :
    mentionsBound b = b.toList.flatMap mentions := by
  cases b <;> simp [mentionsBound]

theorem replaceBound_eq_map (b : Option TypeRef) : replaceBound f b = b.map (replace f) := by
  cases b <;> rfl

theorem replaceList_eq_map (ts : List TypeRef) : replaceList f ts = ts.map (replace f) := by
  induction ts
  case nil          => rfl
  case cons t ts hi => rw [replaceList, hi, List.map_cons]

theorem replace_applied : (applied name args).replace f = applied name (args.map (replace f)) := by
  rw [replace, replaceList_eq_map]

theorem replace_wildcard : (wildcard upper lower).replace f
    = wildcard (upper.map (replace f)) (lower.map (replace f)) := by
  rw [replace, replaceBound_eq_map, replaceBound_eq_map]

theorem declaration?_replace (h : t.declaration? = some name) :
    (t.replace f).declaration? = some name := by
  cases t
  case named   => exact h
  case applied => exact h
  all_goals cases h

-- The variables in what is put in the place of variables.
theorem mentions_replace :
    (t.replace f).mentions = t.mentions.flatMap fun v => (f v.1 v.2).mentions := by
  induction t
  case applied name args hi =>
    rw [replace_applied, mentions, mentions, mentionsList_eq_flatMap, mentionsList_eq_flatMap,
      List.flatMap_map, List.flatMap_assoc]
    exact List.flatMap_congr hi
  case typeVar owner name => simp [replace, mentions]
  case wildcard upper lower hu hl =>
    simp only [replace_wildcard, mentions, mentionsBound_eq_flatMap, List.flatMap_append]
    cases upper <;> cases lower <;> simp_all
  case array component hi => exact hi
  all_goals rfl

-- What is put in the place of a variable that does not occur is of no importance.
theorem replace_congr (h : ∀ owner x, (owner, x) ∈ t.mentions → f owner x = g owner x) :
    t.replace f = t.replace g := by
  induction t
  case applied name args hi =>
    rw [replace_applied, replace_applied]
    refine congrArg _ <| List.map_congr_left fun t ht => hi t ht fun owner x hx => h owner x ?_
    rw [mentions, mentionsList_eq_flatMap]
    exact List.mem_flatMap.mpr ⟨t, ht, hx⟩
  case typeVar owner name => exact h owner name (by simp [mentions])
  case wildcard upper lower hu hl =>
    rw [mentions, mentionsBound_eq_flatMap, mentionsBound_eq_flatMap] at h
    rw [replace_wildcard, replace_wildcard]
    congr 1
    · exact Option.map_congr fun t ht => hu t ht fun owner x hx => h owner x (by simp_all)
    · exact Option.map_congr fun t ht => hl t ht fun owner x hx => h owner x (by simp_all)
  case array component hi => exact congrArg array (hi h)
  all_goals rfl

theorem replace_replace :
    (t.replace f).replace g = t.replace fun owner x => (f owner x).replace g := by
  induction t
  case applied name args hi =>
    simp only [replace_applied, List.map_map]
    exact congrArg _ <| List.map_congr_left hi
  case wildcard upper lower hu hl =>
    simp only [replace_wildcard, Option.map_map]
    congr 1
    · exact Option.map_congr hu
    · exact Option.map_congr hl
  case array component hi => exact congrArg array hi
  all_goals rfl

-- Variables that stand for themselves leave a reference as it is.
theorem replace_typeVar : t.replace typeVar = t := by
  induction t
  case applied name args hi =>
    rw [replace_applied]
    exact congrArg _ <| (List.map_congr_left hi).trans (List.map_id args)
  case wildcard upper lower hu hl =>
    rw [replace_wildcard]
    cases upper <;> cases lower <;> simp_all
  case array component hi => exact congrArg array hi
  all_goals rfl

-- The replacement that substituting the variables of a class comes to.
def assignment (cls : String) (binding : String → Option TypeRef) (owner : VarOwner) (x : String) :
    TypeRef :=
  if owner = .cls cls then (binding x).getD (typeVar owner x) else typeVar owner x

theorem substitute_eq_replace : t.substitute cls binding = t.replace (assignment cls binding) := by
  induction t
  case applied name args hi =>
    rw [replace_applied, substitute, substituteList_eq_map]
    exact congrArg _ <| List.map_congr_left hi
  case typeVar owner name =>
    cases owner <;> simp [substitute, replace, assignment, classVar]
  case wildcard upper lower hu hl =>
    rw [replace_wildcard, substitute, substituteBound_eq_map, substituteBound_eq_map]
    congr 1
    · exact Option.map_congr hu
    · exact Option.map_congr hl
  case array component hi => exact congrArg array hi
  all_goals rfl

theorem declaration?_substitute (h : t.declaration? = some name) :
    (t.substitute cls binding).declaration? = some name :=
  substitute_eq_replace ▸ declaration?_replace h

theorem bind_cons_cons {param : String} {arg : TypeRef} :
    TypeRef.bind (param :: params) (arg :: args) name
      = (TypeRef.bind params args name).or (if name = param then some arg else none) := by
  simp only [TypeRef.bind, List.zip_cons_cons, List.reverse_cons, List.lookup_append]
  by_cases he : name = param <;> simp [he, List.lookup_cons, beq_false_of_ne]

theorem bind_eq_none_iff : TypeRef.bind params args name = none
    ↔ ∀ i : Nat, params[i]? = some name → args[i]? = none := by
  induction params generalizing args <;> cases args
  case nil.nil   => simp [TypeRef.bind]
  case nil.cons  => simp [TypeRef.bind]
  case cons.nil  => simp [TypeRef.bind]
  case cons.cons param params hi arg args =>
    rw [bind_cons_cons, Option.or_eq_none_iff, hi]
    apply Iff.trans and_comm
    refine Iff.trans ?_ Nat.and_forall_add_one
    simp [eq_comm]

theorem forall_gt_iff {P : Nat → Prop} {i : Nat} : (∀ j > i, P j) ↔ ∀ j ≥ i, P (j + 1) := by
  constructor
  case mp  => exact fun h j hj => h (j + 1) (Nat.lt_succ_of_le hj)
  case mpr =>
    intro h j hj
    cases j
    case zero   => exact absurd hj (Nat.not_lt_zero i)
    case succ j => exact h j (Nat.le_of_lt_succ hj)

-- A parameter takes the last of the arguments in its places.
theorem bind_eq_some_iff : TypeRef.bind params args name = some t
    ↔ ∃ i : Nat, params[i]? = some name ∧ args[i]? = some t
      ∧ ∀ j > i, params[j]? = some name → args[j]? = none := by
  induction params generalizing args <;> cases args
  case nil.nil   => simp [TypeRef.bind]
  case nil.cons  => simp [TypeRef.bind]
  case cons.nil  => simp [TypeRef.bind]
  case cons.cons param params hi arg args =>
    rw [bind_cons_cons, Option.or_eq_some_iff, hi, bind_eq_none_iff]
    apply Iff.trans or_comm
    refine Iff.trans (or_congr ?_ ?_) Nat.or_exists_add_one
    case refine_1 =>
      simp only [forall_gt_iff]
      simp [and_comm, and_assoc, eq_comm]
    case refine_2 =>
      refine exists_congr fun i => and_congr_right fun _ => and_congr_right fun _ => ?_
      exact (forall_gt_iff (P := fun j => (param :: params)[j]? = _ → (arg :: args)[j]? = _)).symm

-- What stands in the place of a variable where a class is given arguments. The parameters of the
-- class are paired with the arguments in order, and one that is declared twice takes the last of
-- its arguments. Parameters without an argument and all other variables stand for themselves.
inductive Stands (cls : String) (params : List String) (args : List TypeRef) :
    VarOwner → String → TypeRef → Prop
  | arg {i : Nat} {x : String} {t : TypeRef} : params[i]? = some x → args[i]? = some t →
      (∀ j > i, params[j]? = some x → args[j]? = none) → Stands cls params args (.cls cls) x t
  | bare {x : String} : (∀ i : Nat, params[i]? = some x → args[i]? = none) →
      Stands cls params args (.cls cls) x (classVar cls x)
  | other {owner : VarOwner} {x : String} : owner ≠ .cls cls →
      Stands cls params args owner x (typeVar owner x)

theorem stands_iff {owner : VarOwner} : Stands cls params args owner x t
    ↔ assignment cls (TypeRef.bind params args) owner x = t := by
  constructor
  case mp =>
    rintro (⟨hx, ha, hl⟩ | hn | ho)
    case arg   => simp [assignment, bind_eq_some_iff.mpr ⟨_, hx, ha, hl⟩]
    case bare  => simp [assignment, bind_eq_none_iff.mpr hn, classVar]
    case other => exact if_neg ho
  case mpr =>
    rintro rfl
    rw [assignment]
    split
    case isFalse ho => exact .other ho
    case isTrue ho  =>
      cases ho
      cases hb : TypeRef.bind params args x
      case none   => exact .bare (bind_eq_none_iff.mp hb)
      case some t =>
        have ⟨i, hx, ha, hl⟩ := bind_eq_some_iff.mp hb
        exact .arg hx ha hl

end ApiSurface.TypeRef
