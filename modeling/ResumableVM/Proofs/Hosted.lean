import ResumableVM.Proofs.Independence

/-! # Hosted: operations together with the host that resumes them

An operation may be suspended any number of times on its way. What comes of it then depends on the
host: on what it resumes with, and on what it does to the objects meanwhile. `Pause` is one
suspension as the host sees it, and `Machine.Ends` says how an operation ends that is suspended and
resumed by these pauses. `Step.Ends` says the same step by step, with the requests that the
outermost task makes on the way (`Machine.ends_iff`). What a machine has counted and its high-water
mark do not matter for that (`Step.Ends.of_like`). -/

namespace ResumableVM

/-- A suspension as the host sees it. -/
structure Pause where
  /-- The values that it is handed. -/
  shown : List Value
  /-- The objects as it finds them. -/
  found : Store
  /-- The values that it resumes with. -/
  given : List Value
  /-- The objects as it leaves them. -/
  left : Store

/-- How an operation ends. -/
inductive Ending where
  | returns (st : Store) (values : List Value)
  | fails (st : Store) (e : Error)
  | breaks (d : Defect)

namespace Ending

/-- What comes of an ending when something goes on with the values that are returned. -/
inductive Then (goesOn : Store → List Value → List Request → List Pause → Ending → Prop) :
    Ending → List Request → List Pause → Ending → Prop
  | returns {st : Store} {vs : List Value} {log : List Request} {ps : List Pause} {e : Ending}
      (h : goesOn st vs log ps e) : Then goesOn (.returns st vs) log ps e
  | fails {st : Store} {err : Error} : Then goesOn (.fails st err) [] [] (.fails st err)
  | breaks {d : Defect} : Then goesOn (.breaks d) [] [] (.breaks d)

end Ending

/-- How an operation ends, if it is not suspended. -/
def Outcome.ending? : Outcome → Option Ending
  | settled m => some (.returns m.store m.channel.values)
  | failed m e => some (.fails m.store e)
  | suspended _ _ => none
  | broken d => some (.breaks d)

/-- The request that the outermost task makes. -/
def Run.asks? (r : Run) : Control → Option Request
  | .request q => if r.height = 1 then some q else none
  | _ => none

/-- How a host call ends, by these pauses: the host may change the objects before it resumes, and
make other calls. -/
inductive Answer.Ends : Answer → List Pause → Ending → Prop
  | done {m : Machine} {vs : List Value} : Ends (.done m vs) [] (.returns m.store vs)
  | failed {m : Machine} {e : Error} : Ends (.failed m e) [] (.fails m.store e)
  | broken {d : Defect} : Ends (.broken d) [] (.breaks d)
  | suspended {m m' : Machine} {s : Signal} {p : Pause} {ps : List Pause} {e : Ending} {a : Answer}
      {fuel : Nat} (hshown : p.shown = s.values) (hfound : p.found = m.store)
      (hleft : m'.Akin .same { m with store := p.left })
      (hresume : m'.resume fuel s p.given = some a) (h : Ends a ps e) :
      Ends (.suspended m s) (p :: ps) e

/-- **How an operation ends** on an empty stack, by these pauses. -/
def Machine.Ends (m : Machine) (c : Control) (ps : List Pause) (e : Ending) : Prop :=
  ∃ fuel a, (m.perform fuel true c).map Outcome.answer = some a ∧ a.Ends ps e

/-- **How an operation goes on and ends**, by these pauses, and which requests its outermost task
makes until then. -/
inductive Step.Ends : Step → List Request → List Pause → Ending → Prop
  | next {r : Run} {c : Control} {log : List Request} {ps : List Pause} {e : Ending}
      (h : Ends (r.step c) log ps e) : Ends (.next r c) ((r.asks? c).toList ++ log) ps e
  | ends {o : Outcome} {e : Ending} (h : o.ending? = some e) : Ends (.done o) [] [] e
  | resumed {m m' : Machine} {s : Signal} {p : Pause} {log : List Request} {ps : List Pause}
      {e : Ending} (hshown : p.shown = s.values) (hfound : p.found = m.store)
      (hleft : m'.Akin .same { m with store := p.left }) (hroom : m'.hasRoom s = true)
      (h : Ends (.next (m'.resumed s p.given) .settled) log ps e) :
      Ends (.done (.suspended m s)) log (p :: ps) e
  /-- The stack does not fit back. -/
  | refused {m m' : Machine} {s : Signal} {p : Pause} (hshown : p.shown = s.values)
      (hfound : p.found = m.store) (hleft : m'.Akin .same { m with store := p.left })
      (hroom : m'.hasRoom s = false) :
      Ends (.done (.suspended m s)) [] [p]
        (.fails p.left (.stackOverflow m'.limits.maxCallDepth))

/-! ### What the machine remembers does not matter -/

theorem Likeness.eq_of_control {c c' : Control} (h : c.Like same c') : c = c' := by
  cases h with
  | request hq => rw [eq_of_request hq]
  | invoke hv hvs => cases hv; rw [eq_of_values hvs]
  | advance => rfl
  | settled => rfl

theorem Machine.Akin.trans {m m' m'' : Machine} (h : m.Akin .same m') (h' : m'.Akin .same m'') :
    m.Akin .same m'' :=
  ⟨h.limits.trans h'.limits, h.library.trans h'.library, h.globals.trans h'.globals,
    h.depth.trans h'.depth, Eq.trans h.store h'.store⟩

theorem Machine.Akin.symm {m m' : Machine} (h : m.Akin .same m') : m'.Akin .same m :=
  ⟨h.limits.symm, h.library.symm, h.globals.symm, h.depth.symm, Eq.symm h.store⟩

theorem Run.asks?_eq {r r' : Run} (h : r.Like .same r') (c : Control) : r.asks? c = r'.asks? c := by
  unfold asks?
  rw [h.height]

theorem Outcome.ending?_eq {o o' : Outcome} (h : o.Like .same o') : o.ending? = o'.ending? := by
  cases h with
  | @settled m m' hm =>
    have hstore : m.store = m'.store := hm.store
    rw [ending?, ending?, hstore, Likeness.eq_of_values hm.channel.values]
  | @failed m m' hm e =>
    have hstore : m.store = m'.store := hm.store
    rw [ending?, ending?, hstore]
  | suspended hm hs => rfl
  | broken d => rfl

/-- **Alike steps end alike**, with the same requests. -/
theorem Step.Ends.of_like {s : Step} {log : List Request} {ps : List Pause} {e : Ending}
    (h : s.Ends log ps e) : ∀ {s' : Step}, s.Like .same s' → s'.Ends log ps e := by
  induction h with
  | @next r c log ps e h ih =>
    intro s' hs
    cases hs with
    | @next _ r' _ c' hr hc =>
      obtain rfl := Likeness.eq_of_control hc
      rw [Run.asks?_eq hr]
      exact .next (ih (Run.like_step hr (Likeness.same_lawful _ _) hc))
  | ends h =>
    intro s' hs
    cases hs with
    | done ho => exact .ends (Outcome.ending?_eq ho ▸ h)
  | resumed hshown hfound hleft hroom h ih =>
    intro s' hs
    cases hs with
    | done ho =>
      cases ho with
      | suspended hm hsignal =>
        obtain rfl := Likeness.eq_of_signal hsignal
        exact .resumed hshown (hfound.trans hm.store) (hleft.trans { hm with store := rfl }) hroom h
  | refused hshown hfound hleft hroom =>
    intro s' hs
    cases hs with
    | done ho =>
      cases ho with
      | suspended hm hsignal =>
        obtain rfl := Likeness.eq_of_signal hsignal
        exact .refused hshown (hfound.trans hm.store) (hleft.trans { hm with store := rfl }) hroom

/-! ### Host calls -/

/-- Steps until the operation is over, or a number of them. -/
def Step.onward (fuel : Nat) : Step → Option Outcome
  | .next r c => r.run fuel c
  | .done o => some o

theorem Step.onward_next (r : Run) (c : Control) (fuel : Nat) :
    (Step.next r c).onward (fuel + 1) = (r.step c).onward fuel := by
  cases hs : r.step c with
  | next r' c' => exact Run.run_next hs
  | done o => exact Run.run_done hs

theorem Step.ends_of_onward {ps : List Pause} {e : Ending} {o : Outcome} {log : List Request}
    (ho : (Step.done o).Ends log ps e) :
    ∀ {fuel : Nat} {s : Step}, s.onward fuel = some o → ∃ log, s.Ends log ps e
  | _, .done _, h => by
    obtain rfl := Option.some.inj h
    exact ⟨log, ho⟩
  | fuel + 1, .next r c, h => by
    have hnext : (r.step c).onward fuel = some o := by rw [← onward_next, h]
    obtain ⟨log, hs⟩ := ends_of_onward ho hnext
    exact ⟨_, .next hs⟩

theorem Answer.Ends.steps {a : Answer} {ps : List Pause} {e : Ending} (h : a.Ends ps e) :
    ∀ {o : Outcome}, o.answer = a → ∃ log, (Step.done o).Ends log ps e := by
  induction h with
  | done | failed | broken =>
    intro o ho
    cases o <;> cases ho
    exact ⟨[], .ends rfl⟩
  | @suspended m m' s p ps e a fuel hshown hfound hleft hresume h ih =>
    intro o ho
    cases o <;> cases ho
    cases hroom : m'.hasRoom s with
    | true =>
      rw [Machine.resume_of_hasRoom hroom] at hresume
      obtain ⟨o, ho, rfl⟩ := Option.map_eq_some_iff.mp hresume
      obtain ⟨log, hdone⟩ := ih rfl
      obtain ⟨log, hs⟩ := Step.ends_of_onward (s := .next _ _) hdone ho
      exact ⟨log, .resumed hshown hfound hleft hroom hs⟩
    | false =>
      rw [Machine.resume_of_not_hasRoom hroom] at hresume
      obtain rfl := Option.some.inj hresume
      cases h
      have hstore : m'.store = p.left := hleft.store
      refine ⟨[], ?_⟩
      simp only [hstore]
      exact .refused hshown hfound hleft hroom

theorem Step.Ends.answers {s : Step} {log : List Request} {ps : List Pause} {e : Ending}
    (h : s.Ends log ps e) :
    ∃ fuel a, (s.onward fuel).map Outcome.answer = some a ∧ a.Ends ps e := by
  induction h with
  | @next r c log ps e h ih =>
    obtain ⟨fuel, a, ha, he⟩ := ih
    exact ⟨fuel + 1, a, by rw [onward_next, ha], he⟩
  | @ends o e h =>
    refine ⟨0, o.answer, rfl, ?_⟩
    cases o <;> cases h <;> constructor
  | @resumed m m' s p log ps e hshown hfound hleft hroom h ih =>
    obtain ⟨fuel, a, ha, he⟩ := ih
    have hresume : m'.resume fuel s p.given = some a := by
      rw [Machine.resume_of_hasRoom hroom]
      exact ha
    exact ⟨0, _, rfl, .suspended hshown hfound hleft hresume he⟩
  | @refused m m' s p hshown hfound hleft hroom =>
    have hstore : m'.store = p.left := hleft.store
    refine ⟨0, _, rfl, .suspended hshown hfound hleft
      (Machine.resume_of_not_hasRoom hroom 0 p.given) ?_⟩
    rw [← hstore]
    exact .failed

/-- **An operation ends for the host as its steps say.** -/
theorem Machine.ends_iff {m : Machine} {c : Control} {ps : List Pause} {e : Ending} :
    m.Ends c ps e ↔ ∃ log, (Step.next ⟨m, [], [], true⟩ c).Ends log ps e := by
  constructor
  · rintro ⟨fuel, a, ha, he⟩
    obtain ⟨o, ho, rfl⟩ := Option.map_eq_some_iff.mp ha
    obtain ⟨log, hdone⟩ := he.steps rfl
    exact Step.ends_of_onward (s := .next _ _) hdone ho
  · rintro ⟨log, h⟩
    exact h.answers

end ResumableVM
