import ApiSurface.Proofs.Model.Nodes
import ApiSurface.Proofs.Outcome

namespace ApiSurface

def ClassInfo.eraseHome (i : ClassInfo) : ClassInfo :=
  { i with home := none }

namespace Model

variable {m raw : Model} {args : List Model}

mutual

-- Leaves out the module of every class in a model.
def eraseHomes : Model → Model
  | cls info                    => cls info.eraseHome
  | api info slots              => api info.eraseHome (eraseHomesSlots slots)
  | valueObject info isAbstract => valueObject info.eraseHome isAbstract
  | enumeration info constants  => enumeration info.eraseHome constants
  | applied raw args            => applied (eraseHomes raw) (eraseHomesList args)
  | m                           => m
termination_by structural m => m

def eraseHomesSlots : Slots Model → Slots Model
  | ⟨readStream, writeStream, handler, iterable, iterator, functionIn, functionOut⟩ =>
    ⟨eraseHomesSlot readStream, eraseHomesSlot writeStream, eraseHomesSlot handler,
     eraseHomesSlot iterable, eraseHomesSlot iterator, eraseHomesSlot functionIn,
     eraseHomesSlot functionOut⟩
termination_by structural s => s

def eraseHomesSlot : Option Model → Option Model
  | none   => none
  | some m => some (eraseHomes m)
termination_by structural s => s

def eraseHomesList : List Model → List Model
  | []      => []
  | m :: ms => eraseHomes m :: eraseHomesList ms
termination_by structural ms => ms

end

theorem eraseHomesSlot_eq_map (s : Option Model) : eraseHomesSlot s = s.map eraseHomes := by
  cases s <;> rfl

theorem eraseHomesSlots_eq_map (s : Slots Model) : eraseHomesSlots s = s.map eraseHomes := by
  obtain ⟨_, _, _, _, _, _, _⟩ := s
  apply Slots.ext_get
  intro slot
  cases slot <;> exact eraseHomesSlot_eq_map _

theorem eraseHomesList_eq_map (ms : List Model) : eraseHomesList ms = ms.map eraseHomes := by
  induction ms
  case nil          => rfl
  case cons m ms hi => exact congrArg (m.eraseHomes :: ·) hi

theorem eraseHomes_applied :
    (applied raw args).eraseHomes = applied raw.eraseHomes (args.map eraseHomes) := by
  rw [eraseHomes, eraseHomesList_eq_map]

theorem eraseHomes_api {info : ClassInfo} {slots : Slots Model} :
    (api info slots).eraseHomes = api info.eraseHome (slots.map eraseHomes) := by
  rw [eraseHomes, eraseHomesSlots_eq_map]

@[simp] theorem info?_eraseHomes : m.eraseHomes.info? = m.info?.map ClassInfo.eraseHome := by
  induction m
  case applied raw args hr _ => exact hr
  all_goals rfl

@[simp] theorem kind_eraseHomes : m.eraseHomes.kind = m.kind := by
  induction m
  case applied raw args hr _ => exact hr
  all_goals rfl

@[simp] theorem isApplied_eraseHomes : m.eraseHomes.isApplied = m.isApplied := by
  cases m <;> rfl

@[simp] theorem args_eraseHomes : m.eraseHomes.args = m.args.map eraseHomes := by
  cases m
  case applied raw args => exact eraseHomesList_eq_map args
  all_goals rfl

@[simp] theorem display_eraseHomes : m.eraseHomes.display = m.display := by
  induction m
  case applied raw args hr ha =>
    have ha : args.map (fun a => a.eraseHomes.display) = args.map display := List.map_congr_left ha
    simp only [eraseHomes_applied, display, displayList_eq_map, hr, List.map_map]
    rw [← ha]
    rfl
  all_goals rfl

-- Type arguments are taken in the same way, and refused for the same reason.
theorem applyTo?_eraseHomes :
    raw.eraseHomes.applyTo? (args.map eraseHomes) = (raw.applyTo? args).map eraseHomes := by
  simp only [applyTo?, info?_eraseHomes, display_eraseHomes]
  cases raw.info?
  case none      => rfl
  case some info =>
    simp only [Option.map_some, List.isEmpty_map, List.length_map, ClassInfo.eraseHome]
    split
    case isTrue  => rfl
    case isFalse => rw [Except.ok_map, eraseHomes_applied]

end Model

end ApiSurface
