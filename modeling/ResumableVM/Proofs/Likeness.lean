import Mathlib.Tactic
import ResumableVM.Proofs.CallDepth

/-! # Likeness: runs that do the same

A `Likeness` says which stores, values, closures, frames and locals of two machines correspond. It
is lawful for a library if everything that a machine does with them, does the same to those that
correspond (`Likeness.Lawful`). Then runs that are alike take alike steps (`like_step`) and end
alike (`like_run`).

What the machines have counted does not matter, and neither does their high-water mark. A call
starts by emptying the channel and a resumption by filling it, so what was in there does not matter
either (`like_start`, `like_resume`). -/

namespace ResumableVM

/-- Two computations fail alike, or have results that correspond. -/
inductive Both {ε α β : Type} (R : α → β → Prop) : Except ε α → Except ε β → Prop
  | ok {a : α} {b : β} (h : R a b) : Both R (.ok a) (.ok b)
  | error (e : ε) : Both R (.error e) (.error e)

namespace Both

variable {ε α β γ δ : Type} {R : α → β → Prop} {S : γ → δ → Prop} {x : Except ε α} {x' : Except ε β}

theorem refl {R : α → α → Prop} (hR : ∀ a, R a a) (x : Except ε α) : Both R x x := by
  cases x with
  | ok a => exact .ok (hR a)
  | error e => exact .error e

theorem of_eq {x x' : Except ε α} (h : x = x') : Both (· = ·) x x' :=
  h ▸ refl (fun _ => rfl) x

theorem bind (h : Both R x x') {f : α → Except ε γ} {f' : β → Except ε δ}
    (hf : ∀ {a b}, R a b → Both S (f a) (f' b)) : Both S (x >>= f) (x' >>= f') := by
  cases h with
  | ok hab => exact hf hab
  | error e => exact .error e

theorem map (h : Both R x x') {f : α → γ} {f' : β → δ} (hf : ∀ {a b}, R a b → S (f a) (f' b)) :
    Both S (f <$> x) (f' <$> x') := by
  cases h with
  | ok hab => exact .ok (hf hab)
  | error e => exact .error e

theorem mapM {ι : Type} {f : ι → Except ε α} {f' : ι → Except ε β} (h : ∀ i, Both R (f i) (f' i)) :
    ∀ l : List ι, Both (List.Forall₂ R) (l.mapM f) (l.mapM f')
  | [] => .ok .nil
  | i :: l => by
    rw [List.mapM_cons, List.mapM_cons]
    exact (h i).bind fun hab => (mapM h l).bind fun hl => .ok (.cons hab hl)

end Both

/-- What corresponds in two machines. -/
structure Likeness where
  store : Store → Store → Prop
  value : Value → Value → Prop
  closure : Closure → Closure → Prop
  frame : Frame → Frame → Prop
  locals : Locals → Locals → Prop

section Like

variable (L : Likeness)

/-- Values that correspond one by one. -/
abbrev Likeness.values : List Value → List Value → Prop := List.Forall₂ L.value

structure Activation.Like (a a' : Activation) : Prop where
  closure : L.closure a.closure a'.closure
  frame : L.frame a.frame a'.frame
  pc : a.pc = a'.pc

inductive Request.Like : Request → Request → Prop
  | call {v v' : Value} {vs vs' : List Value} (hv : L.value v v') (hvs : L.values vs vs') :
      Like (.call v vs) (.call v' vs')
  | index {v v' k k' : Value} (hv : L.value v v') (hk : L.value k k') :
      Like (.index v k) (.index v' k')
  | length {v v' : Value} (hv : L.value v v') : Like (.length v) (.length v')
  | arith {op : ArithOp} {v v' w w' : Value} (hv : L.value v v') (hw : L.value w w') :
      Like (.arith op v w) (.arith op v' w')

inductive Resolution.Like : Resolution → Resolution → Prop
  | value {v v' : Value} (h : L.value v v') : Like (.value v) (.value v')
  | handler {v v' : Value} {vs vs' : List Value} (hv : L.value v v') (hvs : L.values vs vs') :
      Like (.handler v vs) (.handler v' vs')
  | error (e : Error) : Like (.error e) (.error e)

/-- The same routine, or closures that correspond. -/
inductive Function.Like (st st' : Store) : Function → Function → Prop
  | routine (id : RoutineId) : Like st st' (.routine id) (.routine id)
  | closure {id id' : ClosureId} (h : L.closure (st.closure id) (st'.closure id')) :
      Like st st' (.closure id) (.closure id')

inductive Callee.Like (st st' : Store) : Callee → Callee → Prop
  | direct {f f' : Function} (h : Function.Like L st st' f f') :
      Like st st' (.direct f) (.direct f')
  | handler {f f' : Function} (h : Function.Like L st st' f f') :
      Like st st' (.handler f) (.handler f')

inductive Progress.Like : Progress Activation → Progress Activation → Prop
  | runs {a a' : Activation} (h : a.Like L a') : Like (.runs a) (.runs a')
  | asks {a a' : Activation} {q q' : Request} (h : a.Like L a') (hq : q.Like L q') :
      Like (.asks a q) (.asks a' q')
  | returns {vs vs' : List Value} (h : L.values vs vs') : Like (.returns vs) (.returns vs')
  | tailCalls {v v' : Value} {vs vs' : List Value} (hv : L.value v v') (hvs : L.values vs vs') :
      Like (.tailCalls v vs) (.tailCalls v' vs')
  | fails (e : Error) : Like (.fails e) (.fails e)

inductive Reply.Like : Reply → Reply → Prop
  | answers {vs vs' : List Value} (h : L.values vs vs') : Like (.answers vs) (.answers vs')
  | asks {q q' : Request} {phase : Nat} {locals locals' : Locals} (hq : q.Like L q')
      (h : L.locals locals locals') : Like (.asks q phase locals) (.asks q' phase locals')
  | suspends {vs vs' : List Value} {phase : Nat} {locals locals' : Locals} (hvs : L.values vs vs')
      (h : L.locals locals locals') : Like (.suspends vs phase locals) (.suspends vs' phase locals')
  | fails (e : Error) : Like (.fails e) (.fails e)

inductive Task.Like : Task → Task → Prop
  | compiled {a a' : Activation} (h : a.Like L a') : Like (.compiled a) (.compiled a')
  | waiting {id : RoutineId} {phase : Nat} {locals locals' : Locals} (h : L.locals locals locals') :
      Like (.waiting id phase locals) (.waiting id phase locals')

inductive SavedFrame.Like : SavedFrame → SavedFrame → Prop
  | compiled {c c' : Closure} {f f' : Frame} (hc : L.closure c c') (hf : L.frame f f') :
      Like (.compiled c f) (.compiled c' f')
  | routine {id : RoutineId} {phase : Nat} {locals locals' : Locals} (h : L.locals locals locals') :
      Like (.routine id phase locals) (.routine id phase locals')

structure Signal.Like (s s' : Signal) : Prop where
  frames : List.Forall₂ (SavedFrame.Like L) s.frames s'.frames
  values : L.values s.values s'.values

structure TailCall.Like (t t' : TailCall) : Prop where
  target : L.value t.target t'.target
  args : L.values t.args t'.args

structure Channel.Like (c c' : Channel) : Prop where
  values : L.values c.values c'.values
  tailCall : Option.Rel (TailCall.Like L) c.tailCall c'.tailCall

inductive Control.Like : Control → Control → Prop
  | request {q q' : Request} (h : q.Like L q') : Like (.request q) (.request q')
  | invoke {v v' : Value} {vs vs' : List Value} (hv : L.value v v') (hvs : L.values vs vs') :
      Like (.invoke v vs) (.invoke v' vs')
  | advance : Like .advance .advance
  | settled : Like .settled .settled

/-- Two machines that correspond but for their channels: with the same limits, library and globals,
as deep in calls, and with stores that correspond. -/
structure Machine.Akin (m m' : Machine) : Prop where
  limits : m.limits = m'.limits
  library : m.library = m'.library
  globals : m.globals = m'.globals
  depth : m.depth.current = m'.depth.current
  store : L.store m.store m'.store

/-- Two machines that correspond, the results in their channels too. -/
structure Machine.Like (m m' : Machine) : Prop extends m.Akin L m' where
  channel : m.channel.Like L m'.channel

structure Run.Like (r r' : Run) : Prop where
  machine : r.machine.Like L r'.machine
  live : List.Forall₂ (Task.Like L) r.live r'.live
  pending : List.Forall₂ (SavedFrame.Like L) r.pending r'.pending
  flatten : r.flatten = r'.flatten

/-- Two calls end alike. -/
inductive Outcome.Like : Outcome → Outcome → Prop
  | settled {m m' : Machine} (h : m.Like L m') : Like (.settled m) (.settled m')
  | failed {m m' : Machine} (h : m.Like L m') (e : Error) : Like (.failed m e) (.failed m' e)
  | suspended {m m' : Machine} {s s' : Signal} (h : m.Like L m') (hs : s.Like L s') :
      Like (.suspended m s) (.suspended m' s')
  | broken (d : Defect) : Like (.broken d) (.broken d)

inductive Step.Like : Step → Step → Prop
  | next {r r' : Run} {c c' : Control} (h : r.Like L r') (hc : c.Like L c') :
      Like (.next r c) (.next r' c')
  | done {o o' : Outcome} (h : o.Like L o') : Like (.done o) (.done o')

/-- Two host calls end alike: with values, errors or signals that correspond, and with stores that
correspond. -/
inductive Answer.Like : Answer → Answer → Prop
  | done {m m' : Machine} {vs vs' : List Value} (h : m.Akin L m') (hvs : L.values vs vs') :
      Like (.done m vs) (.done m' vs')
  | failed {m m' : Machine} (h : m.Akin L m') (e : Error) : Like (.failed m e) (.failed m' e)
  | suspended {m m' : Machine} {s s' : Signal} (h : m.Akin L m') (hs : s.Like L s') :
      Like (.suspended m s) (.suspended m' s')
  | broken (d : Defect) : Like (.broken d) (.broken d)

/-- **What corresponds behaves alike**, on machines with this library and this bound on the number
of values that an index operation looks into. -/
structure Likeness.Lawful (l : Library) (limit : Nat) : Prop where
  code : ∀ {c c' : Closure}, L.closure c c' → c.code = c'.code
  point : ∀ {f f' : Frame}, L.frame f f' → f.point = f'.point
  callee : ∀ {st st' : Store} {v v' : Value}, L.store st st' → L.value v v' →
    Both (Callee.Like L st st') (st.callee v) (st'.callee v')
  resolve : ∀ {st st' : Store} {q q' : Request}, L.store st st' → q.Like L q' →
    (st.resolve limit q).Like L (st'.resolve limit q')
  start : ∀ {c c' : Closure} {vs vs' : List Value}, L.closure c c' → L.values vs vs' →
    L.frame (Frame.start c.code vs) (Frame.start c'.code vs')
  advance : ∀ {st st' : Store} {a a' : Activation} {vs vs' : List Value}, L.store st st' →
    a.Like L a' → L.values vs vs' →
    Both (fun x x' => L.store x.1 x'.1 ∧ x.2.Like L x'.2) (a.advance st vs) (a'.advance st' vs')
  invoke : ∀ {id : RoutineId} {r : Routine} {st st' : Store} {vs vs' : List Value},
    l.find? id = some r → L.store st st' → L.values vs vs' →
    Both (fun x x' => L.store x.1 x'.1 ∧ x.2.Like L x'.2) (r.invoke st vs) (r.invoke st' vs')
  resume : ∀ {id : RoutineId} {r : Routine} {st st' : Store} {vs vs' : List Value} {phase : Nat}
    {locals locals' : Locals}, l.find? id = some r → L.store st st' → L.values vs vs' →
    L.locals locals locals' →
    Both (fun x x' => L.store x.1 x'.1 ∧ x.2.Like L x'.2) (r.resume st vs phase locals)
      (r.resume st' vs' phase locals')

end Like

/-! ### The stack -/

namespace Run

variable {L : Likeness} {r r' : Run}

theorem Like.height (h : r.Like L r') : r.height = r'.height := by
  simp only [Run.height, h.live.length_eq, h.pending.length_eq]

theorem Like.isBase (h : r.Like L r') : r.isBase = r'.isBase := by
  obtain ⟨m, live, pending, flatten⟩ := r
  obtain ⟨m', live', pending', flatten'⟩ := r'
  obtain ⟨-, hlive, hpending, -⟩ := h
  cases hlive <;> cases hpending <;> rfl

/-- The machines change, the stacks do not. -/
theorem Like.withMachine (h : r.Like L r') {m m' : Machine} (hm : m.Like L m') :
    Run.Like L { r with machine := m } { r' with machine := m' } :=
  ⟨hm, h.live, h.pending, h.flatten⟩

/-- A task that corresponds comes on top of each stack. -/
theorem Like.push (h : r.Like L r') {t t' : Task} (ht : t.Like L t') :
    Run.Like L { r with live := t :: r.live } { r' with live := t' :: r'.live } :=
  ⟨h.machine, .cons ht h.live, h.pending, h.flatten⟩

theorem Like.leave (h : r.Like L r') : r.leave.Like L r'.leave :=
  h.withMachine { h.machine with depth := by simp only [CallDepth.leave, h.machine.depth] }

theorem Like.withStore (h : r.Like L r') {st st' : Store} (hst : L.store st st') :
    Run.Like L { r with machine.store := st } { r' with machine.store := st' } :=
  h.withMachine { h.machine with store := hst }

theorem Like.unwound (h : r.Like L r') : r.unwound.Like L r'.unwound :=
  { h.machine with
    depth := by
      simp only [Run.unwound, CallDepth.current_leaveMany, h.height, h.machine.depth] }

theorem like_fail (h : r.Like L r') (e : Error) : (r.fail e).Like L (r'.fail e) :=
  .done (.failed h.unwound e)

/-- Channels that hold values, and no tail call. -/
theorem like_setValues (c c' : Channel) {vs vs' : List Value} (h : L.values vs vs') :
    (c.setValues vs).Like L (c'.setValues vs') :=
  ⟨h, .none⟩

theorem like_finish (h : r.Like L r') {c c' : Channel} (hc : c.Like L c') :
    (r.finish c).Like L (r'.finish c') :=
  .next (h.withMachine
    { h.machine with
      channel := hc
      depth := by simp only [CallDepth.leave, h.machine.depth, withChannel] }) .settled

variable {l : Library} {limit : Nat}

/-- A procedure leaves a frame or none, by its code. -/
theorem like_saved (hL : L.Lawful l limit) {t t' : Task} (h : t.Like L t') :
    Option.Rel (SavedFrame.Like L) t.saved? t'.saved? := by
  cases h with
  | waiting h => exact .some (.routine h)
  | @compiled a a' h =>
    simp only [Task.saved?, hL.code h.closure]
    split
    · exact .some (.compiled h.closure h.frame)
    · exact .none

theorem like_suspend (h : r.Like L r') (hL : L.Lawful l limit) {vs vs' : List Value}
    (hvs : L.values vs vs') {own own' : SavedFrame} (hown : own.Like L own') :
    (r.suspend vs own).Like L (r'.suspend vs' own') := by
  have hsaved : ∀ {ts ts' : List Task}, List.Forall₂ (Task.Like L) ts ts' →
      List.Forall₂ (SavedFrame.Like L) (ts.filterMap Task.saved?) (ts'.filterMap Task.saved?) := by
    intro ts ts' hts
    induction hts with
    | nil => exact .nil
    | @cons t t' _ _ ht _ ih =>
      have hrel := like_saved hL ht
      simp only [List.filterMap_cons]
      generalize t.saved? = own, t'.saved? = own' at hrel
      cases hrel with
      | some hf => exact .cons hf ih
      | none => exact ih
  exact .done (.suspended h.unwound ⟨List.rel_append (.cons hown (hsaved h.live)) h.pending, hvs⟩)

/-! ### Steps -/

theorem like_reply (h : r.Like L r') (hL : L.Lawful l limit) (id : RoutineId)
    {reply reply' : Reply} (hreply : reply.Like L reply') :
    (r.reply id reply).Like L (r'.reply id reply') := by
  cases hreply with
  | answers hvs => exact like_finish h (like_setValues _ _ hvs)
  | asks hq hlocals => exact .next (h.push (.waiting hlocals)) (.request hq)
  | suspends hvs hlocals => exact like_suspend h.leave hL hvs (.routine hlocals)
  | fails e => exact like_fail h.leave e

theorem like_replied (h : r.Like L r') (hL : L.Lawful l limit) (id : RoutineId)
    {x x' : Except Defect (Store × Reply)}
    (hx : Both (fun x x' => L.store x.1 x'.1 ∧ x.2.Like L x'.2) x x') :
    (r.replied id x).Like L (r'.replied id x') := by
  cases hx with
  | ok hx => exact like_reply (h.withStore hx.1) hL id hx.2
  | error d => exact .done (.broken d)

theorem like_withRoutine (h : r.Like L r') (id : RoutineId) {use use' : Routine → Step}
    (huse : ∀ routine, r.machine.library.find? id = some routine →
      (use routine).Like L (use' routine)) :
    (r.withRoutine id use).Like L (r'.withRoutine id use') := by
  simp only [withRoutine, ← h.machine.library]
  cases hroutine : r.machine.library.find? id with
  | some routine => exact huse routine hroutine
  | none => exact like_fail h.leave _

theorem like_progress (h : r.Like L r') {p p' : Progress Activation} (hp : p.Like L p') :
    (r.progress p).Like L (r'.progress p') := by
  cases hp with
  | runs ha => exact .next (h.push (.compiled ha)) .advance
  | asks ha hq => exact .next (h.push (.compiled ha)) (.request hq)
  | returns hvs => exact like_finish h (like_setValues _ _ hvs)
  | tailCalls hv hvs => exact like_finish h ⟨.nil, .some ⟨hv, hvs⟩⟩
  | fails e => exact like_fail h.leave e

/-- Counting changes nothing that corresponds. -/
theorem like_count {m m' : Machine} (h : m.Like L m') {q q' : Request} (hq : q.Like L q') :
    (m.count q).Like L (m'.count q') ∧ (m.countHandler q).Like L (m'.countHandler q') := by
  cases hq <;> exact ⟨{ h with }, { h with }⟩

theorem like_countInvocation {m m' : Machine} (h : m.Like L m') (c c' : Callee) :
    (m.countInvocation c).Like L (m'.countInvocation c') := by
  cases c <;> cases c' <;> exact { h with }

theorem like_request (h : r.Like L r') (hL : L.Lawful l r.machine.limits.maxIndexChain)
    {q q' : Request} (hq : q.Like L q') : (r.request q).Like L (r'.request q') := by
  have hcount := (like_count h.machine hq).1
  have hresolve : (r.machine.count q).resolve q = r.machine.resolve q := by cases q <;> rfl
  have hresolve' : (r'.machine.count q').resolve q' = r'.machine.resolve q' := by
    cases q' <;> rfl
  have hres : (r.machine.resolve q).Like L (r'.machine.resolve q') := by
    have := hL.resolve h.machine.store hq
    rwa [Machine.resolve, Machine.resolve, ← h.machine.limits]
  simp only [request, hresolve, hresolve']
  generalize r.machine.resolve q = res, r'.machine.resolve q' = res' at hres ⊢
  cases hres with
  | value hv =>
    exact .next (h.withMachine { hcount with channel := ⟨.cons hv .nil, .none⟩ }) .settled
  | handler hv hvs =>
    exact .next (h.withMachine (like_count hcount hq).2) (.invoke hv hvs)
  | error e => exact like_fail (h.withMachine hcount) e

/-- A level deeper on both sides, or on neither. -/
theorem like_enter? {m m' : Machine} (h : m.Akin L m') :
    Option.Rel (fun d d' => d.current = d'.current) (m.depth.enter? m.limits.maxCallDepth)
      (m'.depth.enter? m'.limits.maxCallDepth) := by
  simp only [CallDepth.enter?, ← h.limits, ← h.depth]
  split
  · exact .some rfl
  · exact .none

theorem like_enter (h : r.Like L r') (hL : L.Lawful r.machine.library limit) {f f' : Function}
    (hf : Function.Like L r.machine.store r'.machine.store f f') {args args' : List Value}
    (hargs : L.values args args') : (r.enter f args).Like L (r'.enter f' args') := by
  have hdepth := like_enter? h.machine.toAkin
  unfold enter
  generalize r.machine.depth.enter? _ = d, r'.machine.depth.enter? _ = d' at hdepth
  cases hdepth with
  | none => rw [h.machine.limits]; exact like_fail h _
  | @some d d' hd =>
    have hrun : Run.Like L { r with machine.depth := d } { r' with machine.depth := d' } :=
      h.withMachine { h.machine with depth := hd }
    cases hf with
    | closure hc => exact .next (hrun.push (.compiled ⟨hc, hL.start hc hargs, rfl⟩)) .advance
    | routine id =>
      exact like_withRoutine hrun id fun routine hroutine =>
        like_replied hrun hL id (hL.invoke hroutine hrun.machine.store hargs)

theorem like_invoke (h : r.Like L r') (hL : L.Lawful r.machine.library limit) {v v' : Value}
    (hv : L.value v v') {args args' : List Value} (hargs : L.values args args') :
    (r.invoke v args).Like L (r'.invoke v' args') := by
  have hcallee := hL.callee h.machine.store hv
  unfold invoke
  generalize r.machine.store.callee v = x, r'.machine.store.callee v' = x' at hcallee
  cases hcallee with
  | error e => exact like_fail h e
  | @ok c c' hc =>
    have hrun := h.withMachine (like_countInvocation h.machine c c')
    cases hc with
    | direct hf => exact like_enter hrun hL hf hargs
    | handler hf => exact like_enter hrun hL hf (.cons hv hargs)

theorem like_resumeRoutine (h : r.Like L r') (hL : L.Lawful r.machine.library limit)
    (id : RoutineId) (phase : Nat) {locals locals' : Locals} (hlocals : L.locals locals locals') :
    (r.resumeRoutine id phase locals).Like L (r'.resumeRoutine id phase locals') :=
  like_withRoutine h id fun _ hroutine => like_replied h hL id
    (hL.resume hroutine h.machine.store h.machine.channel.values hlocals)

theorem like_revive (h : r.Like L r') (hL : L.Lawful r.machine.library limit) {s s' : SavedFrame}
    (hs : s.Like L s') : (r.revive s).Like L (r'.revive s') := by
  cases hs with
  | routine hlocals => exact like_resumeRoutine h hL _ _ hlocals
  | @compiled c c' f f' hc hf =>
    simp only [revive, hL.code hc, hL.point hf]
    cases resumeAddress c'.code f'.point with
    | error d => exact .done (.broken d)
    | ok pc =>
      have htask : (Task.compiled ⟨c, f, pc⟩).Like L (.compiled ⟨c', f', pc⟩) :=
        .compiled ⟨hc, hf, rfl⟩
      exact .next ⟨h.machine, .cons htask .nil, h.pending, h.flatten⟩ .advance

theorem like_proceed (h : r.Like L r') (hL : L.Lawful r.machine.library limit) :
    r.proceed.Like L r'.proceed := by
  obtain ⟨m, live, pending, flatten⟩ := r
  obtain ⟨m', live', pending', flatten'⟩ := r'
  obtain ⟨hm, hlive, hpending, hflatten⟩ := h
  dsimp only at hm hlive hpending hflatten
  cases hlive with
  | @cons _ _ rest rest' ht hrest =>
    cases ht with
    | compiled ha => exact .next ⟨hm, .cons (.compiled ha) hrest, hpending, hflatten⟩ .advance
    | waiting hlocals =>
      have hrun : Run.Like L ⟨m, rest, pending, flatten⟩ ⟨m', rest', pending', flatten'⟩ :=
        ⟨hm, hrest, hpending, hflatten⟩
      exact like_resumeRoutine hrun hL _ _ hlocals
  | nil =>
    cases hpending with
    | nil => exact .done (.settled hm)
    | @cons _ _ rest rest' hs hrest =>
      have hrun : Run.Like L ⟨m, [], rest, flatten⟩ ⟨m', [], rest', flatten'⟩ :=
        ⟨hm, .nil, hrest, hflatten⟩
      exact like_revive hrun hL hs

theorem like_settle (h : r.Like L r') (hL : L.Lawful r.machine.library limit) :
    r.settle.Like L r'.settle := by
  have hcall := h.machine.channel.tailCall
  simp only [settle, Channel.takeTailCall, ← h.isBase, ← h.flatten]
  generalize r.machine.channel.tailCall = t, r'.machine.channel.tailCall = t' at hcall
  cases hcall with
  | none => exact like_proceed h hL
  | @some t t' ht =>
    dsimp only
    split
    · exact .done (.settled h.machine)
    · refine .next ⟨{ h.machine with channel := ⟨h.machine.channel.values, .none⟩ }, h.live,
        h.pending, rfl⟩ (.invoke ht.target ht.args)

theorem like_advance (h : r.Like L r') (hL : L.Lawful r.machine.library limit) :
    r.advance.Like L r'.advance := by
  have hproceed := like_proceed h hL
  obtain ⟨m, live, pending, flatten⟩ := r
  obtain ⟨m', live', pending', flatten'⟩ := r'
  obtain ⟨hm, hlive, hpending, hflatten⟩ := h
  dsimp only at hm hlive hpending hflatten
  cases hlive with
  | nil => exact hproceed
  | @cons _ _ rest rest' ht hrest =>
    cases ht with
    | waiting hlocals => exact hproceed
    | @compiled a a' ha =>
      have hrun : Run.Like L ⟨m, rest, pending, flatten⟩ ⟨m', rest', pending', flatten'⟩ :=
        ⟨hm, hrest, hpending, hflatten⟩
      have hexec := hL.advance hm.store ha hm.channel.values
      simp only [advance]
      generalize a.advance m.store m.channel.values = x,
        a'.advance m'.store m'.channel.values = x' at hexec
      cases hexec with
      | error d => exact .done (.broken d)
      | ok hx =>
        exact like_progress (hrun.withStore hx.1) hx.2

/-- **Steps are alike.** -/
theorem like_step (h : r.Like L r')
    (hL : L.Lawful r.machine.library r.machine.limits.maxIndexChain) {c c' : Control}
    (hc : c.Like L c') : (r.step c).Like L (r'.step c') := by
  cases hc with
  | request hq => exact like_request h hL hq
  | invoke hv hvs => exact like_invoke h hL hv hvs
  | advance => exact like_advance h hL
  | settled => exact like_settle h hL

/-- **Runs end alike**, with any bound on the number of steps. -/
theorem like_run : ∀ (fuel : Nat) {r r' : Run} {c c' : Control}, r.Like L r' →
    L.Lawful r.machine.library r.machine.limits.maxIndexChain → c.Like L c' →
    Option.Rel (Outcome.Like L) (r.run fuel c) (r'.run fuel c')
  | 0, _, _, _, _, _, _, _ => .none
  | fuel + 1, r, r', c, c', h, hL, hc => by
    have hstep := like_step h hL hc
    have hkeeps : ∀ {r₁ : Run} {c₁ : Control}, r.step c = .next r₁ c₁ →
        r.machine.Keeps r₁.machine := fun hs => (keeps_next hs).1
    simp only [run]
    generalize r.step c = s, r'.step c' = s' at hstep hkeeps
    cases hstep with
    | done ho => exact .some ho
    | next hr hc =>
      -- The likeness stays lawful, as no step changes the library or the limits.
      have hkept := hkeeps rfl
      rw [← hkept.limits, ← hkept.library] at hL
      exact like_run fuel hr hL hc

end Run

/-! ### Host calls -/

variable {L : Likeness}

theorem Outcome.Like.answer {o o' : Outcome} (h : o.Like L o') : o.answer.Like L o'.answer := by
  cases h with
  | settled hm =>
    exact .done { hm.toAkin with } hm.channel.values
  | failed hm e => exact .failed hm.toAkin e
  | suspended hm hs => exact .suspended hm.toAkin hs
  | broken d => exact .broken d

/-- How many levels can be entered depends on the present depth alone. -/
theorem CallDepth.enterMany_congr (limit : Nat) : ∀ (n : Nat) {d d' : CallDepth},
    d.current = d'.current →
    (d.enterMany limit n).1.current = (d'.enterMany limit n).1.current ∧
      (d.enterMany limit n).2 = (d'.enterMany limit n).2
  | 0, _, _, h => ⟨h, rfl⟩
  | n + 1, d, d', h => by
    by_cases hlt : d.current < limit
    · have hlt' : d'.current < limit := h ▸ hlt
      simp only [enterMany, enter?, if_pos hlt, if_pos hlt']
      exact enterMany_congr limit n (congrArg (· + 1) h)
    · have hlt' : ¬ d'.current < limit := h ▸ hlt
      simp only [enterMany, enter?, if_neg hlt, if_neg hlt']
      exact ⟨h, trivial⟩

theorem Run.like_answer {r r' : Run} (h : r.Like L r')
    (hL : L.Lawful r.machine.library r.machine.limits.maxIndexChain) (fuel : Nat) {c c' : Control}
    (hc : c.Like L c') : Option.Rel (Answer.Like L) ((r.run fuel c).map Outcome.answer)
      ((r'.run fuel c').map Outcome.answer) := by
  have hrun := like_run fuel h hL hc
  generalize r.run fuel c = o, r'.run fuel c' = o' at hrun
  cases hrun with
  | none => exact .none
  | some ho => exact .some ho.answer

namespace Machine

variable {m m' : Machine}

/-- **Calls of what corresponds end alike**, whatever the channels hold. -/
theorem like_start (h : m.Akin L m') (hL : L.Lawful m.library m.limits.maxIndexChain)
    (fuel : Nat) {v v' : Value} (hv : L.value v v') {args args' : List Value}
    (hargs : L.values args args') :
    Option.Rel (Answer.Like L) (m.start fuel v args) (m'.start fuel v' args') := by
  have hrun : Run.Like L ⟨{ m with channel := m.channel.reset }, [], [], true⟩
      ⟨{ m' with channel := m'.channel.reset }, [], [], true⟩ :=
    ⟨{ h with channel := ⟨.nil, .none⟩ }, .nil, .nil, rfl⟩
  exact Run.like_answer hrun hL fuel (.invoke hv hargs)

/-- Stacks that correspond both fit or neither does: they are as high, and begin as deep. -/
theorem like_resumed (h : m.Akin L m') {s s' : Signal} (hs : s.Like L s') {vs vs' : List Value}
    (hvs : L.values vs vs') :
    m.hasRoom s = m'.hasRoom s' ∧ (m.resumed s vs).Like L (m'.resumed s' vs') := by
  have henter := CallDepth.enterMany_congr m.limits.maxCallDepth s.frames.length h.depth
  have hcurrent : (m.resumed s vs).machine.depth.current
      = (m'.resumed s' vs').machine.depth.current := by
    simpa only [resumed, ← h.limits, ← hs.frames.length_eq] using henter.1
  refine ⟨?_, { h with depth := hcurrent, channel := ⟨hvs, .none⟩ }, .nil, hs.frames, rfl⟩
  simpa only [hasRoom, ← h.limits, ← hs.frames.length_eq] using henter.2

/-- **Resumptions of signals that correspond end alike**, whatever the channels hold. -/
theorem like_resume (h : m.Akin L m') (hL : L.Lawful m.library m.limits.maxIndexChain)
    (fuel : Nat) {s s' : Signal} (hs : s.Like L s') {vs vs' : List Value}
    (hvs : L.values vs vs') :
    Option.Rel (Answer.Like L) (m.resume fuel s vs) (m'.resume fuel s' vs') := by
  obtain ⟨hroom, hrun⟩ := like_resumed h hs hvs
  cases hfits : m.hasRoom s with
  | true =>
    rw [resume_of_hasRoom hfits, resume_of_hasRoom (hroom ▸ hfits)]
    exact Run.like_answer hrun hL fuel .settled
  | false =>
    rw [resume_of_not_hasRoom hfits, resume_of_not_hasRoom (hroom ▸ hfits),
      congrArg Limits.maxCallDepth h.limits]
    apply Option.Rel.some
    apply Answer.Like.failed
    refine { h with depth := ?_ }
    simp only [CallDepth.current_leaveMany, hrun.machine.depth, h.depth]

end Machine

end ResumableVM
