import ApiSurface.Proofs.Build.Opening
import Mathlib.Data.List.Perm.Subperm
import Mathlib.Logic.Relation

namespace ApiSurface

-- What is left to do in a call: to call for the model of a reference and go on with the answer, to
-- look at the open interfaces, to open one, to close the last one, or nothing.
inductive Script (α : Type) where
  | done (answer : Except ModelError α)
  | call (t : TypeRef) (resume : Except ModelError Model → Script α)
  | look (resume : List String → Script α)
  | push (name : String) (rest : Script α)
  | pop (rest : Script α)

namespace Script

variable {α β : Type}

-- Goes on with the answer, whether or not it is an error.
def andThen (f : Except ModelError α → Script β) : Script α → Script β
  | done answer   => f answer
  | call t resume => call t fun answer => (resume answer).andThen f
  | look resume   => look fun opened => (resume opened).andThen f
  | push name s   => push name (s.andThen f)
  | pop s         => pop (s.andThen f)

-- Goes on with a value, an error is passed on.
def onOk (f : α → Script β) : Except ModelError α → Script β
  | .ok a    => f a
  | .error e => done (.error e)

instance : Monad Script where
  pure a   := done (.ok a)
  bind s f := s.andThen (onOk f)

def ask (t : TypeRef) : Script Model :=
  call t done

def askAll : List TypeRef → Script (List Model)
  | []      => return []
  | t :: ts => do
    let m ← ask t
    let ms ← askAll ts
    return m :: ms

end Script

namespace Registry

instance (d : Declaration) : Decidable d.IsApi :=
  inferInstanceAs (Decidable (_ = _))

-- Models the types of the slots of an interface one after the other.
def slotsScript (R : Registry) (name : String) : Script (Slots Model) :=
  Slots.fill fun slot =>
    match R.slotType? name slot with
    | none   => return none
    | some t => do
      let m ← Script.ask t
      return some m

-- An interface is open while its slots are modelled, and is closed again before an error in them is
-- passed on.
def namedScript (R : Registry) (name : String) : Script Model :=
  match R.declaration? name with
  | none   => .done (.error (.unknownDeclaration name))
  | some d =>
    if d.IsApi then
      .look fun opened =>
        if name ∈ opened then .done (.ok (.api (R.classInfo d) .empty))
        else .push name <| (R.slotsScript name).andThen fun slots =>
          .pop <| .done (slots.map (.api (R.classInfo d)))
    else .done (.ok (R.plainModel d))

def script (R : Registry) : TypeRef → Script Model
  | .void                 => .done (.ok .void)
  | .primitive name       =>
    match WellKnown.boxOf? name with
    | none       => .done (.error (.unknownPrimitive name))
    | some boxed => .done (.ok (.primitive name boxed))
  | .named name           => R.namedScript name
  | .applied name args    => do
    let ms ← Script.askAll args
    let raw ← R.namedScript name
    .done (raw.applyTo? ms)
  | .typeVar owner name   => .done (R.buildVariable owner name)
  | .wildcard upper lower => .done (.error (.unsupportedShape (.wildcard upper lower)))
  | .array component      => .done (.error (.unsupportedShape (.array component)))

end Registry

-- A call for the model of a reference, with the interfaces that are open as it is made.
structure Call where
  type   : TypeRef
  opened : List String

-- The machine on its way. The calls that wait come with what they do next, the innermost first.
structure Building where
  opened  : List String
  call    : Call
  script  : Script Model
  waiting : List (Call × (Except ModelError Model → Script Model))

-- The calls that are not answered yet, the innermost first.
def Building.stack (b : Building) : List Call :=
  b.call :: b.waiting.map (·.1)

inductive Building.Progress where
  | building (b : Building)
  | finished (answer : Except ModelError Model) (opened : List String)

namespace Registry

def enter (R : Registry) (call : Call)
    (waiting : List (Call × (Except ModelError Model → Script Model))) : Building where
  opened  := call.opened
  call    := call
  script  := R.script call.type
  waiting := waiting

def buildStep (R : Registry) (b : Building) : Building.Progress :=
  match b.script with
  | .call t resume  => .building (R.enter ⟨t, b.opened⟩ ((b.call, resume) :: b.waiting))
  | .look resume    => .building { b with script := resume b.opened }
  | .push name rest => .building { b with opened := name :: b.opened, script := rest }
  | .pop rest       => .building { b with opened := b.opened.tail, script := rest }
  | .done answer    =>
    match b.waiting with
    | []                        => .finished answer b.opened
    | (call, resume) :: waiting => .building ⟨b.opened, call, resume answer, waiting⟩

def Next (R : Registry) (b b' : Building) : Prop :=
  R.buildStep b = .building b'

def Reaches (R : Registry) : Building → Building → Prop :=
  Relation.ReflTransGen R.Next

-- `Opens c name` means that a call opens an interface: it is for that interface, with or without
-- arguments, which is registered and not open yet.
structure Opens (R : Registry) (c : Call) (name : String) : Prop where
  declaration? : c.type.declaration? = some name
  isApi        : ∃ d, R.declaration? name = some d ∧ d.IsApi
  not_mem      : name ∉ c.opened

-- `Calls c k` means that one call makes another: for an argument of its type with the same
-- interfaces open, or for the type of a slot with one more interface open.
inductive Calls (R : Registry) (c : Call) : Call → Prop
  | arg {name args t} : c.type = .applied name args → t ∈ args → Calls R c ⟨t, c.opened⟩
  | slot {name t} (slot : Slot) : R.Opens c name → R.slotType? name slot = some t →
      Calls R c ⟨t, name :: c.opened⟩

-- `Computes R c last answer opened s` means that a script in the call `c` comes to the answer, and
-- leaves the interfaces `last` open, when it starts with `opened`.
inductive Computes (R : Registry) (c : Call) (last : List String) {α : Type}
    (answer : Except ModelError α) : List String → Script α → Prop
  | done : Computes R c last answer last (.done answer)
  | call {opened t resume} : R.Calls c ⟨t, opened⟩ →
      Computes R c last answer opened (resume (R.buildIn opened t)) →
      Computes R c last answer opened (.call t resume)
  | look {opened resume} : Computes R c last answer opened (resume opened) →
      Computes R c last answer opened (.look resume)
  | push {name s} : R.Opens c name → Computes R c last answer (name :: c.opened) s →
      Computes R c last answer c.opened (.push name s)
  | pop {opened name s} : Computes R c last answer opened s →
      Computes R c last answer (name :: opened) (.pop s)

variable {R : Registry} {c k root : Call} {opened last mid : List String} {name : String}
  {t : TypeRef} {d : Declaration} {b b' : Building}
  {waiting : List (Call × (Except ModelError Model → Script Model))}

namespace Computes

variable {α β : Type} {s : Script α} {f : Except ModelError α → Script β} {g : α → Script β}
  {h : α → Except ModelError β} {x : Except ModelError α} {y : Except ModelError β}

theorem andThen (hs : R.Computes c mid x opened s) (hf : R.Computes c last y mid (f x)) :
    R.Computes c last y opened (s.andThen f) := by
  induction hs
  case done            => exact hf
  case call hc _ hi    => exact .call hc hi
  case look _ hi       => exact .look hi
  case push ho _ hi    => exact .push ho hi
  case pop _ hi        => exact .pop hi

theorem bind (hs : R.Computes c last x opened s)
    (hg : ∀ a, R.Computes c last (h a) last (g a)) :
    R.Computes c last (x >>= h) opened (s >>= g) := by
  apply hs.andThen
  cases x
  case ok a    => exact hg a
  case error e => exact .done

theorem ask (hc : R.Calls c ⟨t, opened⟩) :
    R.Computes c opened (R.buildIn opened t) opened (.ask t) :=
  .call hc .done

theorem askAll {ts : List TypeRef} (hc : ∀ t ∈ ts, R.Calls c ⟨t, opened⟩) :
    R.Computes c opened (ts.mapM (R.buildIn opened)) opened (.askAll ts) := by
  induction ts
  case nil          => exact .done
  case cons t ts hi =>
    rw [List.forall_mem_cons] at hc
    rw [List.mapM_cons]
    exact (ask hc.left).bind fun _ => (hi hc.right).bind fun _ => .done

theorem fill {content : Slot → Script (Option Model)}
    {answers : Slot → Except ModelError (Option Model)}
    (hs : ∀ slot, R.Computes c opened (answers slot) opened (content slot)) :
    R.Computes c opened (Slots.fill answers) opened (Slots.fill content) :=
  (hs .readStream).bind fun _ => (hs .writeStream).bind fun _ => (hs .handler).bind fun _ =>
    (hs .iterable).bind fun _ => (hs .iterator).bind fun _ => (hs .functionIn).bind fun _ =>
      (hs .functionOut).bind fun _ => .done

end Computes

theorem computes_slots (ho : R.Opens c d.name) :
    R.Computes c (d.name :: c.opened) (R.slotsInside R.buildIn c.opened d) (d.name :: c.opened)
      (R.slotsScript d.name) := by
  rw [slotsInside, if_neg ho.not_mem]
  apply Computes.fill
  intro slot
  cases ht : R.slotType? d.name slot
  case none   => exact .done
  case some t =>
    have hb (x : Except ModelError Model) : x.map some = x >>= fun m => .ok (some m) := by
      cases x <;> rfl
    simp only [hb]
    exact (Computes.ask (.slot slot ho ht)).bind fun _ => .done

theorem computes_named (hn : c.type.declaration? = some name) :
    R.Computes c c.opened (R.buildIn c.opened (.named name)) c.opened (R.namedScript name) := by
  rw [namedScript]
  cases hd : R.declaration? name
  case none   =>
    rw [buildIn_named_unknown hd]
    exact .done
  case some d =>
    obtain rfl : d.name = name := name_of_declaration? hd
    by_cases hk : d.IsApi
    case neg =>
      rw [buildIn_named_plain hd hk]
      simp only [if_neg hk]
      exact .done
    case pos =>
      rw [buildIn_named_api hd hk]
      simp only [if_pos hk]
      apply Computes.look
      by_cases ho : d.name ∈ c.opened
      case pos =>
        rw [if_pos ho, slotsInside_of_mem ho]
        exact .done
      case neg =>
        have ho : R.Opens c d.name := ⟨hn, ⟨d, hd, hk⟩, ho⟩
        rw [if_neg ho.not_mem]
        exact .push ho <| (computes_slots ho).andThen (.pop .done)

-- What a call does comes to the model of its type, and it leaves the open interfaces as they were.
theorem computes_script (R : Registry) (c : Call) :
    R.Computes c c.opened (R.buildIn c.opened c.type) c.opened (R.script c.type) := by
  obtain ⟨t, opened⟩ := c
  cases t
  case void =>
    rw [buildIn_void]
    exact .done
  case primitive name =>
    rw [buildIn_primitive]
    cases hb : WellKnown.boxOf? name <;> simp only [script, hb] <;> exact .done
  case named name => exact computes_named rfl
  case applied name args =>
    rw [buildIn_applied]
    exact (Computes.askAll fun _ ht => .arg rfl ht).bind fun _ =>
      (computes_named rfl).bind fun _ => .done
  case typeVar owner name =>
    rw [buildIn_typeVar]
    exact .done
  case wildcard upper lower =>
    rw [buildIn_wildcard]
    exact .done
  case array component =>
    rw [buildIn_array]
    exact .done

-- The calls that wait. Each goes on to its own model with the answer to the call before it.
inductive Waits (R : Registry) (root : Call) :
    Call → List (Call × (Except ModelError Model → Script Model)) → Prop
  | nil : Waits R root root []
  | cons {k c resume waiting} : R.Calls c k →
      R.Computes c c.opened (R.buildIn c.opened c.type) k.opened
        (resume (R.buildIn k.opened k.type)) →
      Waits R root c waiting → Waits R root k ((c, resume) :: waiting)

-- The call under way will leave the list as it found it, and so will those that wait for it.
structure OnCourse (R : Registry) (root : Call) (b : Building) : Prop where
  script  : R.Computes b.call b.call.opened (R.buildIn b.call.opened b.call.type) b.opened b.script
  waiting : R.Waits root b.call b.waiting

-- `Shifts R c opened opened'` means that a step of the call `c` makes `opened'` of the open
-- interfaces.
inductive Shifts (R : Registry) (c : Call) : List String → List String → Prop
  | kept {opened : List String} : Shifts R c opened opened
  | opens {name : String} : R.Opens c name → Shifts R c c.opened (name :: c.opened)
  | closes {name : String} {opened : List String} : Shifts R c (name :: opened) opened

theorem onCourse_enter (R : Registry) (root : Call) : R.OnCourse root (R.enter root []) where
  script  := computes_script R root
  waiting := .nil

theorem onCourse_of_next (h : R.OnCourse root b) (hn : R.Next b b') :
    R.OnCourse root b' ∧ R.Shifts b.call b.opened b'.opened := by
  obtain ⟨opened, call, script, waiting⟩ := b
  obtain ⟨hs, hw⟩ := h
  simp only at hs hw
  cases hs
  case done          =>
    cases hw
    case nil           => cases hn
    case cons hw hc hr => cases hn; exact ⟨⟨hr, hw⟩, .kept⟩
  case call hc hr    => cases hn; exact ⟨⟨computes_script R _, .cons hc hr hw⟩, .kept⟩
  case look hr       => cases hn; exact ⟨⟨hr, hw⟩, .kept⟩
  case push ho hr    => cases hn; exact ⟨⟨hr, hw⟩, .opens ho⟩
  case pop hr        => cases hn; exact ⟨⟨hr, hw⟩, .closes⟩

theorem onCourse_of_reaches (hr : R.Reaches b b') (h : R.OnCourse root b) : R.OnCourse root b' := by
  induction hr
  case refl         => exact h
  case tail _ hn hi => exact (onCourse_of_next hi hn).left

-- The open interfaces are different API interfaces that are registered.
structure Orderly (R : Registry) (root : Call) (b : Building) : Prop extends R.OnCourse root b where
  distinct : b.opened.Nodup
  isApi    : ∀ name ∈ b.opened, ∃ d, R.declaration? name = some d ∧ d.IsApi

theorem orderly_enter (R : Registry) (t : TypeRef) : R.Orderly ⟨t, []⟩ (R.enter ⟨t, []⟩ []) where
  toOnCourse := onCourse_enter R _
  distinct   := List.nodup_nil
  isApi      := List.forall_mem_nil _

theorem orderly_of_next (h : R.Orderly root b) (hn : R.Next b b') : R.Orderly root b' := by
  obtain ⟨hc, hs⟩ := onCourse_of_next h.toOnCourse hn
  obtain ⟨_, hd, ha⟩ := h
  suffices ho : b'.opened.Nodup ∧ ∀ name ∈ b'.opened, ∃ d, R.declaration? name = some d ∧ d.IsApi
    from ⟨hc, ho.left, ho.right⟩
  generalize b.opened = opened at hs hd ha
  generalize b'.opened = opened' at hs
  cases hs
  case kept     => exact ⟨hd, ha⟩
  case opens ho =>
    exact ⟨List.nodup_cons.mpr ⟨ho.not_mem, hd⟩, List.forall_mem_cons.mpr ⟨ho.isApi, ha⟩⟩
  case closes   => exact ⟨hd.of_cons, (List.forall_mem_cons.mp ha).right⟩

theorem orderly_of_reaches (hr : R.Reaches b b') (h : R.Orderly root b) : R.Orderly root b' := by
  induction hr
  case refl         => exact h
  case tail _ hn hi => exact orderly_of_next hi hn

-- From a call to the calls it makes, there are fewer declarations left to open, or the type gets
-- smaller.
theorem wf_calls (R : Registry) : WellFounded fun k c => R.Calls c k := by
  refine Subrelation.wf ?_ <|
    InvImage.wf (fun c : Call => (R.unopened c.opened, sizeOf c.type))
      (Prod.lex Nat.lt_wfRel Nat.lt_wfRel).wf
  intro k c hc
  cases hc
  case arg t hc ht =>
    have hs : sizeOf t < sizeOf c.type := by
      have := List.sizeOf_lt_of_mem ht
      rw [hc, TypeRef.applied.sizeOf_spec]
      omega
    exact .right _ hs
  case slot ho _ =>
    obtain ⟨d, hd, _⟩ := ho.isApi
    exact .left _ _ (unopened_cons_lt hd ho.not_mem)

theorem reaches_of_computes {s : Script Model} {answer : Except ModelError Model}
    (hi : ∀ k, R.Calls c k → ∀ waiting, R.Reaches (R.enter k waiting)
      ⟨k.opened, k, .done (R.buildIn k.opened k.type), waiting⟩)
    (h : R.Computes c last answer opened s) :
    R.Reaches ⟨opened, c, s, waiting⟩ ⟨last, c, .done answer, waiting⟩ := by
  induction h
  case done            => exact .refl
  case call hc _ hr    => exact .head rfl ((hi _ hc _).trans (.head rfl hr))
  case look _ hr       => exact .head rfl hr
  case push _ _ hr     => exact .head rfl hr
  case pop _ hr        => exact .head rfl hr

theorem reaches_done (R : Registry) (c : Call)
    (waiting : List (Call × (Except ModelError Model → Script Model))) :
    R.Reaches (R.enter c waiting)
      ⟨c.opened, c, .done (R.buildIn c.opened c.type), waiting⟩ := by
  induction c using R.wf_calls.induction generalizing waiting
  case h c hi => exact reaches_of_computes hi (computes_script R c)

-- The names of the API interfaces that are registered.
def apis (R : Registry) : List String :=
  (R.declarations.entries.filter (·.IsApi)).map (·.name)

theorem length_opened_le (h : R.Orderly root b) : b.opened.length ≤ R.apis.length := by
  apply (h.distinct.subperm ?_).length_le
  intro name hn
  obtain ⟨d, hd, hk⟩ := h.isApi name hn
  have hm : d ∈ R.declarations.entries.filter (·.IsApi) :=
    List.mem_filter.mpr ⟨Catalog.mem_of_find? hd, decide_eq_true hk⟩
  exact List.mem_map.mpr ⟨d, hm, name_of_declaration? hd⟩

theorem isChain_of_waits (h : R.Waits root c waiting) :
    (c :: waiting.map (·.1)).IsChain fun k c => R.Calls c k := by
  induction h
  case nil            => exact .singleton _
  case cons hc _ _ hi => exact .cons_cons hc hi

theorem getLast?_of_waits (h : R.Waits root c waiting) :
    (c :: waiting.map (·.1)).getLast? = some root := by
  induction h
  case nil           => rfl
  case cons _ _ _ hi => exact List.getLast?_cons_cons.trans hi

-- Every reference is modelled to an end, whatever the registry. All along the interfaces that are
-- open are different, registered API interfaces, so no more are open than there are; and from the
-- reference itself on, each call on the stack makes the next one, for an argument of its type or for
-- a slot of the interface that it opens.
theorem build_ends (R : Registry) (t : TypeRef) :
    (∃ b, R.Reaches (R.enter ⟨t, []⟩ []) b ∧ R.buildStep b = .finished (R.build t) [])
    ∧ ∀ b, R.Reaches (R.enter ⟨t, []⟩ []) b →
        b.opened.Nodup ∧ (∀ name ∈ b.opened, ∃ d, R.declaration? name = some d ∧ d.IsApi)
        ∧ b.opened.length ≤ R.apis.length
        ∧ (b.stack.IsChain fun k c => R.Calls c k) ∧ b.stack.getLast? = some ⟨t, []⟩ := by
  constructor
  case left =>
    refine ⟨_, reaches_done R ⟨t, []⟩ [], ?_⟩
    rw [build_eq_buildIn]
    rfl
  case right =>
    intro b hb
    have h := orderly_of_reaches hb (orderly_enter R t)
    exact ⟨h.distinct, h.isApi, length_opened_le h, isChain_of_waits h.waiting,
      getLast?_of_waits h.waiting⟩

end Registry

end ApiSurface
