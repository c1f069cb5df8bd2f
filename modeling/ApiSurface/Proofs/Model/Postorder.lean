import ApiSurface.Fault
import ApiSurface.Proofs.Model.Nodes
import ApiSurface.Proofs.Outcome

namespace ApiSurface.Model

mutual

-- The nodes of a model in the order in which they are complete: each of them stands behind all nodes
-- in it.
def postorder : Model → List Model
  | applied raw args => postorder raw ++ (postorderList args ++ [applied raw args])
  | api info slots   => postorderSlots slots ++ [api info slots]
  | m                => [m]
termination_by structural m => m

def postorderSlots : Slots Model → List Model
  | ⟨readStream, writeStream, handler, iterable, iterator, functionIn, functionOut⟩ =>
    postorderSlot readStream ++ (postorderSlot writeStream ++ (postorderSlot handler
      ++ (postorderSlot iterable ++ (postorderSlot iterator ++ (postorderSlot functionIn
      ++ postorderSlot functionOut)))))
termination_by structural s => s

def postorderSlot : Option Model → List Model
  | none   => []
  | some m => postorder m
termination_by structural s => s

def postorderList : List Model → List Model
  | []      => []
  | m :: ms => postorder m ++ postorderList ms
termination_by structural ms => ms

end

variable {m n raw : Model} {args : List Model} {info : ClassInfo} {slots : Slots Model}

theorem postorderList_eq_flatMap (ms : List Model) : postorderList ms = ms.flatMap postorder := by
  induction ms
  case nil          => rfl
  case cons m ms hi => rw [postorderList, hi, List.flatMap_cons]

theorem postorderSlot_eq_flatMap (s : Option Model) :
    postorderSlot s = s.toList.flatMap postorder := by
  cases s <;> simp [postorderSlot]

theorem postorderSlots_eq_flatMap :
    postorderSlots slots
      = Slot.all.flatMap fun slot => (slots.get slot).toList.flatMap postorder := by
  obtain ⟨_, _, _, _, _, _, _⟩ := slots
  simp [postorderSlots, postorderSlot_eq_flatMap, Slot.all, Slots.get]

-- All nodes are in the order.
theorem mem_postorder : n ∈ m.postorder ↔ Node n m := by
  induction m
  case applied raw args hr ha =>
    have ha : n ∈ args.flatMap postorder ↔ ∃ a ∈ args, Node n a := by
      rw [List.mem_flatMap]
      exact exists_congr fun a => and_congr_right (ha a)
    rw [postorder, postorderList_eq_flatMap, node_applied_iff, List.mem_append, List.mem_append,
      List.mem_singleton, hr, ha, ← or_assoc, or_comm]
  case api info slots hs =>
    have hs : n ∈ postorderSlots slots ↔ ∃ slot m, slots.get slot = some m ∧ Node n m := by
      simp only [postorderSlots_eq_flatMap, List.mem_flatMap, Option.mem_toList]
      exact ⟨fun ⟨slot, _, m, h, hn⟩ => ⟨slot, m, h, (hs slot m h).mp hn⟩,
        fun ⟨slot, m, h, hn⟩ => ⟨slot, slot.mem_all, m, h, (hs slot m h).mpr hn⟩⟩
    rw [postorder, node_api_iff, List.mem_append, List.mem_singleton, hs, or_comm]
  all_goals
    rw [node_leaf_iff (by exact trivial)]
    exact List.mem_singleton

-- A node that has type arguments has at least one, and as many as its class declares.
def Saturated : Model → Prop
  | applied raw args => ∃ info, raw.info? = some info
    ∧ 0 < args.length ∧ args.length = info.params.length
  | _                => True

-- What is wrong with the type arguments of a node.
def violation? : Model → Option ModelError
  | applied raw args =>
    match raw.info? with
    | none      => some (.notAClass raw.display)
    | some info =>
      if 0 < args.length ∧ args.length = info.params.length then none
      else some (.arityMismatch info.name info.params.length args.length)
  | _                => none

-- The first thing that is wrong with a model.
def firstViolation? (m : Model) : Option ModelError :=
  m.postorder.findSome? violation?

theorem violation?_eq_none_iff : m.violation? = none ↔ m.Saturated := by
  cases m
  case applied raw args =>
    simp only [violation?, Saturated]
    cases raw.info? <;> simp
  all_goals simp [violation?, Saturated]

theorem saturated_of_applies (h : m.Applies) : m.Saturated := by
  cases m
  case applied raw args =>
    have ⟨_, info, hi, hn, hl⟩ := applyTo?_eq_ok_iff.mp h
    exact ⟨info, hi, List.length_pos_iff.mpr hn, hl⟩
  all_goals trivial

-- Nothing is wrong with a model if nothing is wrong with any of its nodes.
theorem firstViolation?_eq_none_iff : m.firstViolation? = none ↔ m.Everywhere Saturated := by
  simp only [firstViolation?, List.findSome?_eq_none_iff, mem_postorder, violation?_eq_none_iff,
    Everywhere]

theorem applyTo?_eq_unlessError :
    raw.applyTo? args = Except.unlessError (violation? (applied raw args)) (applied raw args) := by
  simp only [applyTo?, violation?]
  cases raw.info?
  case none      => rfl
  case some info =>
    by_cases hn : args = []
    case pos => simp [hn]
    case neg =>
      have hp := List.length_pos_iff.mpr hn
      by_cases hl : args.length = info.params.length
      case pos => simp [hn, hl, hl ▸ hp]
      case neg => simp [hn, hl]

theorem findSome?_flatMap {α β γ : Type} {f : α → List β} {g : β → Option γ} (as : List α) :
    (as.flatMap f).findSome? g = as.findSome? fun a => (f a).findSome? g := by
  induction as
  case nil          => rfl
  case cons a as hi =>
    rw [List.flatMap_cons, List.findSome?_append, hi, List.findSome?_cons]
    cases (f a).findSome? g <;> rfl

theorem firstViolation?_leaf (h : m.IsLeaf) : m.firstViolation? = none := by
  cases m
  case api | applied => exact h.elim
  all_goals rfl

theorem firstViolation?_applied :
    (applied raw args).firstViolation? = raw.firstViolation?.or
      ((args.findSome? firstViolation?).or (violation? (applied raw args))) := by
  rw [firstViolation?, postorder, postorderList_eq_flatMap, List.findSome?_append,
    List.findSome?_append, findSome?_flatMap, List.findSome?_singleton]
  rfl

theorem firstViolation?_api :
    (api info slots).firstViolation?
      = Slot.all.findSome? fun slot => (slots.get slot).bind firstViolation? := by
  rw [firstViolation?, postorder, postorderSlots_eq_flatMap, List.findSome?_append,
    findSome?_flatMap, List.findSome?_singleton,
    violation?_eq_none_iff.mpr (by exact trivial), Option.or_none]
  congr 1
  funext slot
  cases slots.get slot
  case none   => rfl
  case some m => simp [firstViolation?]

-- A model, unless something is wrong with it.
def verdict (m : Model) : Except Fault Model :=
  Except.unlessError (m.firstViolation?.map .inconsistent) m

-- A verdict is found as the model is put together: first on the parts, in their order, and then on
-- the whole.

theorem verdict_leaf (h : m.IsLeaf) : m.verdict = .ok m := by
  rw [verdict, firstViolation?_leaf h]
  rfl

theorem verdict_applied :
    (applied raw args).verdict = (do
      let raw ← raw.verdict
      let args ← args.mapM verdict
      (raw.applyTo? args).mapError .inconsistent) := by
  have ha : args.mapM verdict
      = Except.unlessError (args.findSome? fun a => a.firstViolation?.map .inconsistent) args := by
    have h := Except.mapM_unlessError (fun a => a.firstViolation?.map Fault.inconsistent) id args
    rwa [List.map_id] at h
  simp only [ha, applyTo?_eq_unlessError, Except.unlessError_mapError]
  simp only [verdict, Except.unlessError_bind, firstViolation?_applied, Option.map_or,
    List.map_findSome?]
  rfl

theorem fill_unlessError {α ε : Type} {e? : Slot → Option ε} (slots : Slots α) :
    (Slots.fill fun slot => Except.unlessError (e? slot) (slots.get slot))
      = Except.unlessError (Slot.all.findSome? e?) slots := by
  have hor (a : Slot) (as : List Slot) :
      (a :: as).findSome? e? = (e? a).or (as.findSome? e?) := by
    rw [List.findSome?_cons]
    cases e? a <;> rfl
  simp only [Slots.fill, Slot.all, hor, List.findSome?_nil, Except.pure_eq_ok,
    Except.unlessError_bind_ok, Except.unlessError_bind, Option.or_none]
  rfl

theorem verdict_api :
    (api info slots).verdict
      = (Slots.fill fun slot => (slots.get slot).mapM verdict).map (api info) := by
  have hs (s : Option Model) :
      s.mapM verdict = Except.unlessError ((s.bind firstViolation?).map .inconsistent) s := by
    cases s
    case none   => rfl
    case some m => exact Except.unlessError_map
  simp only [hs]
  rw [fill_unlessError, Except.unlessError_map, verdict, firstViolation?_api, List.map_findSome?]
  rfl

theorem verdict_eq_ok_iff : m.verdict = .ok n ↔ m = n ∧ m.Everywhere Saturated := by
  rw [verdict, ← firstViolation?_eq_none_iff]
  cases m.firstViolation? <;> simp

theorem verdict_of_applies (h : m.Everywhere Applies) : m.verdict = .ok m :=
  verdict_eq_ok_iff.mpr ⟨rfl, fun n hn => saturated_of_applies (h n hn)⟩

end ApiSurface.Model
