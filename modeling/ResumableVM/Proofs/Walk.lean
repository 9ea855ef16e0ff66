import Mathlib.Tactic
import ResumableVM.Proofs.Scope

/-! # Walk: interpreting the graph of a procedure without compiling it

A `Walk` is a call of a procedure that goes through its blocks, operation by operation. All of its
registers are in cells at all times, so that a closure shares what it captures without further ado
and closing a register gives it a new cell. The walk asks for all arithmetic.

Whoever watches a call does not see how it gets on, and does not see arithmetic on two numbers, which
has the same answer everywhere. `play` is what is seen next, for walks as for activations: another
request, with the call waiting for the answer, or the end of the call. -/

namespace ResumableVM

/-! ### Registers in cells -/

/-- Registers that are all in cells. -/
structure Cells where
  ids : Array CellId

namespace Cells

/-- The value in a register's cell. -/
def value (w : Cells) (st : Store) (r : Nat) : Value :=
  match w.ids[r]? with
  | some cell => st.cell cell
  | none => .nil

/-- Another value in a register's cell. -/
def assign (w : Cells) (st : Store) (r : Nat) (v : Value) : Cells × Store :=
  match w.ids[r]? with
  | some cell => (w, st.setCell cell v)
  | none => (w, st)

/-- A register gets a new cell with the same value. -/
def close (w : Cells) (st : Store) (r : Nat) : Cells × Store :=
  match w.ids[r]? with
  | some cell =>
    let (new, st) := st.addCell (st.cell cell)
    (⟨w.ids.setIfInBounds r new⟩, st)
  | none => (w, st)

instance : RegisterFile Cells where
  value := value
  assign := assign
  share w st _ := (w, st)
  cell w r := w.ids[r]?.getD default
  close := close

/-- New cells for some values. -/
def allocate (st : Store) (vs : List Value) : Cells × Store :=
  (⟨((List.range vs.length).map fun i => ⟨st.cells.size + i⟩).toArray⟩,
    { st with cells := st.cells ++ vs.toArray })

end Cells

/-! ### Walks -/

/-- A call that goes through the graph of its procedure. -/
structure Walk where
  setting : Setting
  scope : Scope Cells
  /-- The operations of the block that are left. -/
  ops : List Op
  exit : Exit
  /-- Where the answer goes that the walk is waiting for. -/
  awaiting : Option Results

namespace Walk

/-- Control passes to a block. -/
def enter (c : Setting) (s : Scope Cells) (b : Nat) : Except Defect Walk :=
  match c.procedure.blocks[b]? with
  | some block => .ok ⟨c, s, block.ops, block.exit, none⟩
  | none => .error (.outOfBounds c.procedure.blocks.length b)

/-- The call with some arguments, on its way to the first block. -/
def start (c : Setting) (args : List Value) (st : Store) : Walk × Store :=
  let (cells, st) := Cells.allocate st (c.procedure.startValues args)
  (⟨c, ⟨cells, c.procedure.startVarargs args, []⟩, [], .jump 0, none⟩, st)

/-- **One step of the walk**: an answer is received, an operation is carried out, or the block is
left. -/
def advance (w : Walk) (st : Store) (received : List Value) :
    Except Defect (Store × Progress Walk) :=
  match w.awaiting, w.ops with
  | some results, _ =>
    let (s, st) := w.scope.receive st results received
    .ok (st, .runs { w with scope := s, awaiting := none })
  | none, op :: ops =>
    match w.setting.perform w.scope st op with
    | .goesOn s st => .ok (st, .runs { w with scope := s, ops := ops })
    | .asks q results => .ok (st, .asks { w with ops := ops, awaiting := some results } q)
    | .fails e => .ok (st, .fails e)
  | none, [] =>
    match w.exit.leave w.scope st with
    | .goesTo b => do pure (st, .runs (← enter w.setting w.scope b))
    | .returns vs => .ok (st, .returns vs)
    | .tailCalls target args => .ok (st, .tailCalls target args)

end Walk

/-! ### What others see of a call -/

/-- The answer to arithmetic on two numbers, which nobody sees. -/
def Request.known? : Request → Option (Except Error Value)
  | .arith op x y => if x.kind = .number ∧ y.kind = .number then rawArithmetic? op x y else none
  | _ => none

section Play

variable {κ : Type} {next : κ → Store → List Value → Except Defect (Store × Progress κ)}

/-- **What others see next** of a call that gets on by `next`, if it gets there in so many steps. -/
def play (next : κ → Store → List Value → Except Defect (Store × Progress κ)) :
    Nat → κ → Store → List Value → Option (Except Defect (Store × Progress κ))
  | 0, _, _, _ => none
  | fuel + 1, k, st, received =>
    match next k st received with
    | .ok (st, .runs k) => play next fuel k st received
    | .ok (st, .asks k q) =>
      match q.known? with
      | some (.ok v) => play next fuel k st [v]
      | some (.error e) => some (.ok (st, .fails e))
      | none => some (.ok (st, .asks k q))
    | out => some out

/-- This is seen next of a call. -/
def Plays (next : κ → Store → List Value → Except Defect (Store × Progress κ)) (k : κ) (st : Store)
    (received : List Value) (out : Except Defect (Store × Progress κ)) : Prop :=
  ∃ fuel, play next fuel k st received = some out

/-- The call gets from here to there in so many steps, and nothing is seen of it. -/
def Passes (next : κ → Store → List Value → Except Defect (Store × Progress κ)) (n : Nat) (k : κ)
    (st : Store) (received : List Value) (k' : κ) (st' : Store) (received' : List Value) : Prop :=
  ∀ fuel, play next (fuel + n) k st received = play next fuel k' st' received'

variable {k k' k'' : κ} {st st' st'' : Store} {received received' received'' : List Value}
  {q : Request} {m n : Nat}

theorem Passes.refl : Passes next 0 k st received k st received := fun _ => rfl

theorem Passes.trans (h : Passes next m k st received k' st' received')
    (h' : Passes next n k' st' received' k'' st'' received'') :
    Passes next (n + m) k st received k'' st'' received'' := fun fuel => by
  rw [← Nat.add_assoc, h, h']

theorem passes_runs (h : next k st received = .ok (st', .runs k')) :
    Passes next 1 k st received k' st' received := fun fuel => by
  rw [play, h]

theorem passes_known {v : Value} (h : next k st received = .ok (st', .asks k' q))
    (hq : q.known? = some (.ok v)) : Passes next 1 k st received k' st' [v] := fun fuel => by
  simp only [play, h, hq]

theorem Passes.runs (h : Passes next n k st received k' st' received')
    (hnext : next k' st' received' = .ok (st'', .runs k'')) :
    Passes next (n + 1) k st received k'' st'' received' := by
  rw [Nat.add_comm]
  exact h.trans (passes_runs hnext)

theorem Passes.known {v : Value} (h : Passes next n k st received k' st' received')
    (hnext : next k' st' received' = .ok (st'', .asks k'' q)) (hq : q.known? = some (.ok v)) :
    Passes next (n + 1) k st received k'' st'' [v] := by
  rw [Nat.add_comm]
  exact h.trans (passes_known hnext hq)

theorem play_mono {out : Except Defect (Store × Progress κ)} {fuel fuel' : Nat}
    (hle : fuel ≤ fuel') :
    ∀ {k : κ} {st : Store} {received : List Value}, play next fuel k st received = some out →
      play next fuel' k st received = some out := by
  induction fuel generalizing fuel' with
  | zero => intro k st received h; cases h
  | succ fuel ih =>
    intro k st received h
    obtain ⟨fuel', rfl⟩ : ∃ n, fuel' = n + 1 := ⟨fuel' - 1, by omega⟩
    simp only [play] at h ⊢
    split at h
    · exact ih (by omega) h
    · split at h
      · exact ih (by omega) h
      · exact h
      · exact h
    · exact h

/-- What is seen is one thing. -/
theorem Plays.eq {out out' : Except Defect (Store × Progress κ)}
    (h : Plays next k st received out) (h' : Plays next k st received out') : out = out' := by
  obtain ⟨m, hm⟩ := h
  obtain ⟨n, hn⟩ := h'
  have h := play_mono (le_max_left m n) hm
  rw [play_mono (le_max_right m n) hn] at h
  exact (Option.some.inj h).symm

theorem Plays.of_passes {out : Except Defect (Store × Progress κ)}
    (hp : Plays next k' st' received' out) (h : Passes next n k st received k' st' received') :
    Plays next k st received out := by
  obtain ⟨fuel, hfuel⟩ := hp
  exact ⟨fuel + n, (h fuel).trans hfuel⟩

/-- Who gets somewhere on the way is not there yet. -/
theorem Passes.le {out : Except Defect (Store × Progress κ)} {fuel : Nat}
    (h : Passes next n k st received k' st' received')
    (hp : play next fuel k st received = some out) :
    ∃ left, fuel = left + n ∧ play next left k' st' received' = some out := by
  by_cases hle : n ≤ fuel
  · refine ⟨fuel - n, by omega, ?_⟩
    rw [← h, Nat.sub_add_cancel hle]
    exact hp
  · have hn := play_mono (show fuel ≤ 0 + n by omega) hp
    rw [h] at hn
    cases hn

theorem plays_fails {e : Error} (h : next k st received = .ok (st', .fails e)) :
    Plays next k st received (.ok (st', .fails e)) := ⟨1, by simp only [play, h]⟩

theorem plays_refuses {e : Error} (h : next k st received = .ok (st', .asks k' q))
    (hq : q.known? = some (.error e)) : Plays next k st received (.ok (st', .fails e)) :=
  ⟨1, by simp only [play, h, hq]⟩

theorem plays_asks (h : next k st received = .ok (st', .asks k' q)) (hq : q.known? = none) :
    Plays next k st received (.ok (st', .asks k' q)) := ⟨1, by simp only [play, h, hq]⟩

theorem plays_returns {vs : List Value} (h : next k st received = .ok (st', .returns vs)) :
    Plays next k st received (.ok (st', .returns vs)) := ⟨1, by simp only [play, h]⟩

theorem plays_tailCalls {target : Value} {args : List Value}
    (h : next k st received = .ok (st', .tailCalls target args)) :
    Plays next k st received (.ok (st', .tailCalls target args)) := ⟨1, by simp only [play, h]⟩

end Play

/-! ### Two calls in step -/

section Rounds

variable {κ μ : Type} {next : κ → Store → List Value → Except Defect (Store × Progress κ)}
  {next' : μ → Store → List Value → Except Defect (Store × Progress μ)}
  {P : κ → Store → List Value → μ → Store → List Value → Prop}
  {M : Except Defect (Store × Progress κ) → Except Defect (Store × Progress μ) → Prop}

/-- Two calls get on, one step at least, to where they are related again, or matching things are seen
of them. -/
inductive Round (next : κ → Store → List Value → Except Defect (Store × Progress κ))
    (next' : μ → Store → List Value → Except Defect (Store × Progress μ))
    (P : κ → Store → List Value → μ → Store → List Value → Prop)
    (M : Except Defect (Store × Progress κ) → Except Defect (Store × Progress μ) → Prop)
    (k : κ) (st : Store) (received : List Value) (l : μ) (st' : Store) (received' : List Value) :
    Prop
  | passes {m n : Nat} {k₁ : κ} {l₁ : μ} {st₁ st₁' : Store} {received₁ received₁' : List Value}
      (here : Passes next (m + 1) k st received k₁ st₁ received₁)
      (there : Passes next' (n + 1) l st' received' l₁ st₁' received₁')
      (again : P k₁ st₁ received₁ l₁ st₁' received₁') :
      Round next next' P M k st received l st' received'
  | shows {out : Except Defect (Store × Progress κ)} {out' : Except Defect (Store × Progress μ)}
      (here : Plays next k st received out) (there : Plays next' l st' received' out')
      (matching : M out out') : Round next next' P M k st received l st' received'

theorem Round.symm {k : κ} {l : μ} {st st' : Store} {received received' : List Value}
    (h : Round next next' P M k st received l st' received') :
    Round next' next (fun l st' received' k st received => P k st received l st' received')
      (fun out' out => M out out') l st' received' k st received := by
  cases h with
  | passes here there again => exact .passes there here again
  | shows here there matching => exact .shows there here matching

/-- Calls that get to where a round begins have one before them. -/
theorem Round.after {k k₁ : κ} {l l₁ : μ} {st st' st₁ st₁' : Store}
    {received received' received₁ received₁' : List Value} {m n : Nat}
    (here : Passes next m k st received k₁ st₁ received₁)
    (there : Passes next' n l st' received' l₁ st₁' received₁')
    (h : Round next next' P M k₁ st₁ received₁ l₁ st₁' received₁') :
    Round next next' P M k st received l st' received' := by
  cases h with
  | @passes i j _ _ _ _ _ _ here' there' again =>
    refine .passes (m := i + m) (n := j + n) ?_ ?_ again
    · have := here.trans here'
      rwa [show i + 1 + m = i + m + 1 by omega] at this
    · have := there.trans there'
      rwa [show j + 1 + n = j + n + 1 by omega] at this
  | shows here' there' matching =>
    exact .shows (here'.of_passes here) (there'.of_passes there) matching

/-- **Calls that get on round after round** show matching things, if the first shows anything. -/
theorem plays_of_rounds
    (hround : ∀ k st received l st' received', P k st received l st' received' →
      Round next next' P M k st received l st' received')
    {out : Except Defect (Store × Progress κ)} {fuel : Nat} :
    ∀ {k : κ} {l : μ} {st st' : Store} {received received' : List Value},
      P k st received l st' received' → play next fuel k st received = some out →
      ∃ out', Plays next' l st' received' out' ∧ M out out' := by
  induction fuel using Nat.strong_induction_on with
  | _ fuel ih =>
    intro k l st st' received received' hP hplay
    cases hround _ _ _ _ _ _ hP with
    | passes here there again =>
      obtain ⟨left, hfuel, hleft⟩ := here.le hplay
      obtain ⟨out', hout', hM⟩ := ih left (by omega) again hleft
      exact ⟨out', hout'.of_passes there, hM⟩
    | shows here there matching =>
      cases here.eq ⟨fuel, hplay⟩
      exact ⟨_, there, matching⟩

end Rounds

end ResumableVM
