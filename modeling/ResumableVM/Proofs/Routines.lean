import ResumableVM.Proofs.CompiledCode
import ResumableVM.Routine.Library

/-! # Routines: what the routines of a library can do

A lawful routine is never broken: it starts with any arguments, it goes on from everything that it
has saved, and it makes no closures. Of the standard routines only `pause` and `unpack` save
anything (`Routine.Saves`), and all of them are lawful (`lawful_standard`). Only `pause` suspends
(`pausesOnlyAt_standard`). -/

namespace ResumableVM

/-- All that a reply saves to go on from is of a kind. -/
def Reply.SavesOnly (kind : Nat → Locals → Prop) : Reply → Prop
  | .asks _ phase locals | .suspends _ phase locals => kind phase locals
  | .answers _ | .fails _ => True

namespace Routine

/-- A routine that goes on from everything of a kind, and saves nothing else. -/
structure Lawful (kind : Nat → Locals → Prop) (r : Routine) : Prop where
  invoke : ∀ st args, ∃ st' reply, r.invoke st args = .ok (st', reply) ∧
    st'.closures = st.closures ∧ reply.SavesOnly kind
  resume : ∀ st received phase locals, kind phase locals →
    ∃ st' reply, r.resume st received phase locals = .ok (st', reply) ∧
      st'.closures = st.closures ∧ reply.SavesOnly kind

variable {kind : Nat → Locals → Prop}

/-- No effect that comes of a plan makes closures. -/
def MakesNoClosures (plan : Store → List Value → Except Error Effect) : Prop :=
  ∀ st args effect, plan st args = .ok effect →
    ∀ before, (effect before).1.closures = before.closures

/-- A native routine saves nothing. -/
theorem lawful_native {name : String} {plan : Store → List Value → Except Error Effect}
    (hplan : MakesNoClosures plan)
    (hkind : ∀ phase locals, ¬ kind phase locals) : (native name plan).Lawful kind where
  invoke st args := by
    cases h : plan st args with
    | ok effect =>
      exact ⟨(effect st).1, .answers (effect st).2, by simp only [native, h],
        hplan st args effect h st, trivial⟩
    | error e => exact ⟨st, .fails e, by simp only [native, h], rfl, trivial⟩
  resume st received phase locals h := absurd h (hkind phase locals)

/-- What `pause` saves: its arguments. -/
def PauseSaves (phase : Nat) (locals : Locals) : Prop :=
  phase = 0 ∧ ∃ args, locals = .values args

/-- What `unpack` saves: where it is, while it waits for the length or for an element. -/
def UnpackSaves (phase : Nat) (locals : Locals) : Prop :=
  (phase = 1 ∨ phase = 3) ∧ ∃ u, locals = .unpacking u

theorem lawful_pause : pause.Lawful PauseSaves where
  invoke st args := ⟨st, _, rfl, rfl, rfl, args, rfl⟩
  resume st received phase locals := by
    rintro ⟨rfl, args, rfl⟩
    exact ⟨st, _, rfl, rfl, trivial⟩

namespace Unpack

theorem savesOnly_begin (st : Store) (u : Unpacking) : (begin st u).SavesOnly UnpackSaves := by
  simp only [begin]
  split
  · trivial
  · split
    · trivial
    · split
      · trivial
      · exact ⟨Or.inr rfl, _, rfl⟩

theorem savesOnly_takeLength (st : Store) (received : List Value) (u : Unpacking) :
    (takeLength st received u).SavesOnly UnpackSaves := by
  unfold takeLength
  split
  · exact savesOnly_begin st _
  · trivial

theorem savesOnly_takeElement (received : List Value) (u : Unpacking) :
    (takeElement received u).SavesOnly UnpackSaves := by
  simp only [takeElement]
  split
  · exact ⟨Or.inr rfl, _, rfl⟩
  · trivial

theorem savesOnly_start {st : Store} {args : List Value} {reply : Reply}
    (h : start st args = .ok reply) : reply.SavesOnly UnpackSaves := by
  simp only [start, bind, Except.bind] at h
  split at h
  · cases h
  · next first hfirst =>
    split at h
    · split at h
      · cases h
      · cases h; exact savesOnly_begin st _
    · split at h
      · cases h; exact savesOnly_begin st _
      · cases h; exact ⟨Or.inl rfl, _, rfl⟩

end Unpack

theorem lawful_unpack : unpack.Lawful UnpackSaves where
  invoke st args := by
    unfold unpack
    cases h : Unpack.start st args with
    | ok reply => exact ⟨st, reply, by simp only [h], rfl, Unpack.savesOnly_start h⟩
    | error e => exact ⟨st, .fails e, by simp only [h], rfl, trivial⟩
  resume st received phase locals := by
    rintro ⟨rfl | rfl, u, rfl⟩
    · exact ⟨st, _, rfl, rfl, Unpack.savesOnly_takeLength st received u⟩
    · exact ⟨st, _, rfl, rfl, Unpack.savesOnly_takeElement received u⟩

/-- What a standard routine saves. -/
def Saves (r : Routine) (phase : Nat) (locals : Locals) : Prop :=
  (r = pause ∧ PauseSaves phase locals) ∨ (r = unpack ∧ UnpackSaves phase locals)

/-- A native routine that is neither `pause` nor `unpack` is lawful. -/
theorem lawful_saves_native {name : String} {plan : Store → List Value → Except Error Effect}
    (hp : name ≠ "pause") (hu : name ≠ "unpack") (hplan : MakesNoClosures plan) :
    (native name plan).Lawful (native name plan).Saves := by
  refine lawful_native hplan fun phase locals => ?_
  rintro (⟨h, -⟩ | ⟨h, -⟩)
  · exact hp (congrArg Routine.name h)
  · exact hu (congrArg Routine.name h)

theorem pause_ne_unpack : pause ≠ unpack := fun h => by
  have := congrArg Routine.name h
  revert this; decide

theorem lawful_saves_pause : pause.Lawful pause.Saves := by
  have h : pause.Saves = PauseSaves := by
    funext phase locals
    simp [Saves, pause_ne_unpack]
  exact h ▸ lawful_pause

theorem lawful_saves_unpack : unpack.Lawful unpack.Saves := by
  have h : unpack.Saves = UnpackSaves := by
    funext phase locals
    simp [Saves, pause_ne_unpack.symm]
  exact h ▸ lawful_unpack

theorem routines_standard : Library.standard.routines = #[select, type, rawlen, rawget, rawequal,
    setmetatable, getmetatable, pack, unpack, pause] := rfl

/-- A standard routine is `pause`, or `unpack`, or a native one of another name. -/
theorem cases_standard {id : RoutineId} {r : Routine} (h : Library.standard.find? id = some r) :
    r = pause ∨ r = unpack ∨ ∃ name plan, r = native name plan ∧ name ≠ "pause" ∧
      name ≠ "unpack" ∧ MakesNoClosures plan := by
  have hmem : r ∈ [select, type, rawlen, rawget, rawequal, setmetatable, getmetatable, pack, unpack,
      pause] := by
    rw [Library.find?, routines_standard] at h
    have := Array.mem_of_getElem? h
    simpa using this
  simp only [List.mem_cons, List.not_mem_nil, or_false] at hmem
  rcases hmem with rfl | rfl | rfl | rfl | rfl | rfl | rfl | rfl | rfl | rfl
  case inr.inr.inr.inr.inr.inr.inr.inr.inl => exact Or.inr (Or.inl rfl)
  case inr.inr.inr.inr.inr.inr.inr.inr.inr => exact Or.inl rfl
  all_goals
    refine Or.inr (Or.inr ⟨_, _, rfl, by decide, by decide, fun st args effect h before => ?_⟩)
    simp only [bind, Except.bind] at h
    repeat' split at h
    all_goals first | (cases h; rfl) | cases h

/-- **Every standard routine is lawful.** -/
theorem lawful_standard {id : RoutineId} {r : Routine} (h : Library.standard.find? id = some r) :
    r.Lawful r.Saves := by
  obtain rfl | rfl | ⟨name, plan, rfl, hp, hu, hplan⟩ := cases_standard h
  · exact lawful_saves_pause
  · exact lawful_saves_unpack
  · exact lawful_saves_native hp hu hplan

/-! ### Suspending -/

end Routine

/-- Nothing is handed to the host. -/
def Reply.IsPrompt : Reply → Prop
  | .suspends _ _ _ => False
  | .answers _ | .asks _ _ _ | .fails _ => True

/-- What comes of a routine's code is no suspension, and a compiled store. -/
def PromptlyFrom (st : Store) (x : Except Defect (Store × Reply)) : Prop :=
  ∀ st' reply, x = .ok (st', reply) → reply.IsPrompt ∧ (st.Compiled → st'.Compiled)

/-- A routine that never suspends, and makes closures of compiled code only. -/
structure Routine.Prompt (r : Routine) : Prop where
  invoke : ∀ st args, PromptlyFrom st (r.invoke st args)
  resume : ∀ st received phase locals, PromptlyFrom st (r.resume st received phase locals)

/-- `pause` has this number, and no other routine suspends. -/
structure Library.PausesOnlyAt (l : Library) (id : RoutineId) : Prop where
  pause : l.find? id = some .pause
  others : ∀ {own r}, own ≠ id → l.find? own = some r → r.Prompt

namespace Routine

theorem prompt_native {name : String} {plan : Store → List Value → Except Error Effect}
    (hplan : MakesNoClosures plan) : (native name plan).Prompt where
  invoke st args st' reply h := by
    simp only [native] at h
    split at h
    · next effect heffect =>
      cases h
      exact ⟨trivial, fun hst => hst.of_eq (hplan st args effect heffect st)⟩
    · cases h; exact ⟨trivial, fun hst => hst⟩
  resume st received phase locals st' reply h := by cases h

namespace Unpack

theorem isPrompt_begin (st : Store) (u : Unpacking) : (begin st u).IsPrompt := by
  unfold begin
  dsimp only
  repeat' split
  all_goals trivial

theorem isPrompt_goOn {st : Store} {received : List Value} {phase : Nat} {u : Unpacking}
    {reply : Reply} (h : goOn st received phase u = .ok reply) : reply.IsPrompt := by
  unfold goOn at h
  split at h <;> cases h
  · trivial
  · unfold takeLength
    split
    · exact isPrompt_begin st _
    · trivial
  · exact isPrompt_begin st u
  · unfold takeElement
    dsimp only
    split <;> trivial

theorem isPrompt_start {st : Store} {args : List Value} {reply : Reply}
    (h : start st args = .ok reply) : reply.IsPrompt := by
  obtain ⟨first, -, h⟩ := bind_eq_ok_iff.mp h
  split at h
  · obtain ⟨last, -, h⟩ := bind_eq_ok_iff.mp h
    cases h
    exact isPrompt_begin st _
  · split at h <;> cases h
    · exact isPrompt_begin st _
    · trivial

end Unpack

theorem prompt_unpack : unpack.Prompt where
  invoke st args st' reply h := by
    simp only [unpack] at h
    split at h <;> cases h
    · next hstart => exact ⟨Unpack.isPrompt_start hstart, fun hst => hst⟩
    · exact ⟨trivial, fun hst => hst⟩
  resume st received phase locals st' reply h := by
    simp only [unpack] at h
    split at h
    · obtain ⟨reply', hgo, h⟩ := map_eq_ok_iff.mp h
      cases h
      exact ⟨Unpack.isPrompt_goOn hgo, fun hst => hst⟩
    · cases h

/-- **Only `pause` suspends** among the standard routines. -/
theorem pausesOnlyAt_standard : Library.standard.PausesOnlyAt ⟨9⟩ where
  pause := rfl
  others {own r} hne hfind := by
    obtain rfl | rfl | ⟨name, plan, rfl, -, -, hplan⟩ := cases_standard hfind
    · refine absurd ?_ hne
      rw [Library.find?, routines_standard] at hfind
      have hlt : own.index < 10 := (Array.getElem?_eq_some_iff.mp hfind).1
      have hlast : ∀ i < 10, (#[select, type, rawlen, rawget, rawequal, setmetatable, getmetatable,
          pack, unpack, pause][i]?).map name = some "pause" → i = 9 := by decide
      exact congrArg RoutineId.mk (hlast own.index hlt (congrArg (Option.map name) hfind))
    · exact prompt_unpack
    · exact prompt_native hplan

end Routine

end ResumableVM
