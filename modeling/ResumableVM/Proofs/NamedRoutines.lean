import ResumableVM.Proofs.NamedCalls

/-! # Named routines: libraries that do not tell names apart

A routine is blind when it cannot tell stores, arguments and locals apart that differ in the names
of objects only: it reaches objects through the values that it is given. The standard routines are
blind (`Library.blind_standard`). On a machine with a library of blind routines, what corresponds
under a naming behaves alike (`Naming.lawful`). -/

namespace ResumableVM

/-- What a routine's code leads to: stores and replies that correspond. -/
abbrev Reply.Alike (ρ : Naming) : Store × Reply → Store × Reply → Prop :=
  fun x x' => x.1.Named ρ x'.1 ∧ x.2.Like ρ.likeness x'.2

/-- **A routine that does not tell names apart.** -/
structure Routine.Blind (r : Routine) : Prop where
  invoke : ∀ {ρ : Naming} {st st' : Store} {vs vs' : List Value}, st.Named ρ st' →
    ρ.Values vs vs' → Both (Reply.Alike ρ) (r.invoke st vs) (r.invoke st' vs')
  resume : ∀ {ρ : Naming} {st st' : Store} {vs vs' : List Value} (phase : Nat)
    {locals locals' : Locals}, st.Named ρ st' → ρ.Values vs vs' → locals.Named ρ locals' →
    Both (Reply.Alike ρ) (r.resume st vs phase locals) (r.resume st' vs' phase locals')

/-- Every routine of the library is blind. -/
def Library.Blind (l : Library) : Prop := ∀ r ∈ l.routines, r.Blind

theorem Naming.lawful (ρ : Naming) {l : Library} (hl : l.Blind) (limit : Nat) :
    ρ.likeness.Lawful l limit where
  code hc := hc.code
  point hf := hf.point
  callee hst hv := Store.Named.callee hst hv
  resolve hst hq := Store.Named.resolve hst limit hq
  start {c c' vs vs'} hc hvs := by
    have hcode : c.code = c'.code := hc.code
    rw [← hcode]
    exact Frame.start_named c.code hvs
  advance hst ha hvs := Activation.advance_named ha hst hvs
  invoke hr hst hvs := (hl _ (Array.mem_of_getElem? hr)).invoke hst hvs
  resume hr hst hvs hlocals := (hl _ (Array.mem_of_getElem? hr)).resume _ hst hvs hlocals

variable {ρ : Naming} {st st' : Store} {vs vs' : List Value}

/-- Effects that do the same to stores that correspond. -/
def Effect.Named (ρ : Naming) (e e' : Effect) : Prop :=
  ∀ {st st' : Store}, st.Named ρ st' → (e st).1.Named ρ (e' st').1 ∧ ρ.Values (e st).2 (e' st').2

theorem Effect.answer_named (h : ρ.Values vs vs') : Effect.Named ρ (.answer vs) (.answer vs') :=
  fun hst => ⟨hst, h⟩

namespace Routine

theorem blind_native {name : String} {plan : Store → List Value → Except Error Effect}
    (h : ∀ {ρ : Naming} {st st' : Store} {vs vs' : List Value}, st.Named ρ st' →
      ρ.Values vs vs' → Both (Effect.Named ρ) (plan st vs) (plan st' vs')) :
    (native name plan).Blind where
  invoke {ρ st st' vs vs'} hst hvs := by
    have hplan := h hst hvs
    simp only [native]
    generalize plan st vs = x, plan st' vs' = x' at hplan
    cases hplan with
    | ok he => exact .ok ⟨(he hst).1, .answers (he hst).2⟩
    | error e => exact .ok ⟨hst, .fails e⟩
  resume phase _ _ _ _ _ := .error _

/-! ### Arguments -/

theorem argument_named (h : ρ.Values vs vs') (position : Nat) :
    (argument vs position).Named ρ (argument vs' position) := valueAt_named h _

theorem typeError_named (h : ρ.Values vs vs') (position : Nat) (routine expected : String) :
    typeError vs position routine expected = typeError vs' position routine expected := by
  have hheld := forall₂_iff_getElem?.mp h (position - 1)
  unfold typeError
  generalize vs[position - 1]? = v, vs'[position - 1]? = v' at hheld
  cases hheld with
  | some hv => rw [Option.map_some, Option.map_some, hv.typeName]
  | none => rfl

theorem tableArgument_named (h : ρ.Values vs vs') (position : Nat) (routine : String) :
    Both (TableId.Named ρ) (tableArgument vs position routine)
      (tableArgument vs' position routine) := by
  have hheld := forall₂_iff_getElem?.mp h (position - 1)
  simp only [tableArgument, typeError_named h position routine]
  generalize vs[position - 1]? = v, vs'[position - 1]? = v' at hheld
  cases hheld with
  | none => exact .error _
  | some hv =>
    cases hv with
    | table hid => exact .ok hid
    | _ => exact .error _

theorem integerArgument_named (h : ρ.Values vs vs') (position : Nat) (routine : String) :
    integerArgument vs position routine = integerArgument vs' position routine := by
  simp only [integerArgument, (argument_named h position).toNumber?,
    typeError_named h position routine]

theorem optionalInteger_named (h : ρ.Values vs vs') (position : Nat) (routine : String)
    (default : Int64) : optionalInteger vs position routine default
      = optionalInteger vs' position routine default := by
  simp only [optionalInteger, (argument_named h position).isNil,
    integerArgument_named h position routine]

/-! ### Base routines -/

theorem blind_select : select.Blind := by
  refine blind_native fun {ρ st st' vs vs'} hst hvs => ?_
  have hhead : vs.head? = some (.string "#") ↔ vs'.head? = some (.string "#") := by
    cases hvs with
    | nil => rfl
    | cons hv _ =>
      simp only [List.head?_cons, Option.some.injEq]
      exact hv.eq_iff (.string "#")
  have htail := tail_named hvs
  simp only [hhead, htail.length_eq]
  split
  · exact .ok (Effect.answer_named (.cons (.integer _) .nil))
  · refine (Both.of_eq (integerArgument_named hvs 1 "select")).bind fun {n _} heq => ?_
    subst heq
    generalize (if n.toInt < 0 then (vs'.tail.length : Int) + n.toInt else n.toInt - 1) = start
    split
    · exact .error _
    · exact .ok (Effect.answer_named (List.forall₂_drop _ htail))

theorem blind_type : type.Blind := by
  refine blind_native fun hst hvs => ?_
  cases hvs with
  | nil => exact .error _
  | cons hv _ =>
    dsimp only
    rw [hv.typeName]
    exact .ok (Effect.answer_named (.cons (.string _) .nil))

theorem blind_rawlen : rawlen.Blind := by
  refine blind_native fun hst hvs => ?_
  cases hvs with
  | nil => exact .error _
  | cons hv _ =>
    cases hv with
    | table hid => exact .ok (Effect.answer_named (.cons (hst.table hid).lengthValue .nil))
    | string s => exact .ok (Effect.answer_named (.cons (.integer _) .nil))
    | _ => exact .error _

theorem blind_rawget : rawget.Blind := by
  refine blind_native fun hst hvs => ?_
  refine (tableArgument_named hvs 1 "rawget").bind fun hid => ?_
  exact .ok (Effect.answer_named (.cons ((hst.table hid).rawGet (argument_named hvs 2)) .nil))

theorem blind_rawequal : rawequal.Blind := by
  refine blind_native fun hst hvs => ?_
  cases hvs with
  | nil => exact .error _
  | cons hv hvs =>
    cases hvs with
    | nil => exact .error _
    | cons hw _ =>
      dsimp only
      rw [hv.rawEquals hw]
      exact .ok (Effect.answer_named (.cons (.boolean _) .nil))

theorem guard_named (h : st.Named ρ st') {id id' : TableId} (hid : id.Named ρ id') :
    (guard st id).Named ρ (guard st' id') := (h.table hid).getString _

theorem isProtected_named (h : st.Named ρ st') {id id' : TableId} (hid : id.Named ρ id') :
    isProtected st id = isProtected st' id' := by
  have hmeta := (h.table hid).metatable
  unfold isProtected
  generalize (st.table id).metatable = m, (st'.table id').metatable = m' at hmeta
  cases hmeta with
  | some hm => simp only [(guard_named h hm).isNil]
  | none => rfl

theorem metatableArgument_named {v v' : Value} (h : v.Named ρ v') :
    Both (Option.Rel (TableId.Named ρ)) (metatableArgument v) (metatableArgument v') := by
  cases h with
  | nil => exact .ok .none
  | table hid => exact .ok (.some hid)
  | _ => exact .error _

theorem blind_setmetatable : setmetatable.Blind := by
  refine blind_native fun hst hvs => ?_
  refine (tableArgument_named hvs 1 "setmetatable").bind fun hid => ?_
  refine (metatableArgument_named (argument_named hvs 2)).bind fun hm => ?_
  simp only [isProtected_named hst hid]
  split
  · exact .error _
  · exact .ok fun hst => ⟨hst.modifyTable hid fun ht => { ht with metatable := hm },
      .cons (.table hid) .nil⟩

theorem blind_getmetatable : getmetatable.Blind := by
  refine blind_native fun {ρ st st' vs vs'} hst hvs => ?_
  have hmeta := hst.metatableOf (argument_named hvs 1)
  generalize st.metatableOf (argument vs 1) = m, st'.metatableOf (argument vs' 1) = m' at hmeta
  cases hmeta with
  | none => exact .ok (Effect.answer_named (.cons .nil .nil))
  | some hm =>
    have hguard := guard_named hst hm
    simp only [hguard.isNil]
    split
    · exact .ok (Effect.answer_named (.cons (.table hm) .nil))
    · exact .ok (Effect.answer_named (.cons hguard .nil))

/-! ### Pausing routines -/

theorem blind_pause : pause.Blind where
  invoke hst hvs := .ok ⟨hst, .suspends hvs (.values hvs)⟩
  resume phase _ _ hst hvs hlocals := by
    simp only [pause]
    split
    · exact .error _
    · cases hlocals with
      | values hargs =>
        cases hvs with
        | nil => exact .ok ⟨hst, .answers hargs⟩
        | cons hv hvs => exact .ok ⟨hst, .answers (.cons hv hvs)⟩
      | _ => exact .error _

/-! ### Sequence routines -/

theorem blind_pack : pack.Blind := by
  refine blind_native fun hst hvs => .ok fun {st st'} hst => ?_
  obtain ⟨hid, hst⟩ := hst.addTable ((Table.ofList_named hvs).set (.string "n") (.integer _))
  rw [← hvs.length_eq]
  exact ⟨hst, .cons (.table hid) .nil⟩

namespace Unpack

theorem plainTable?_named (h : st.Named ρ st') {v v' : Value} (hv : v.Named ρ v')
    (event : Event) :
    Option.Rel (TableId.Named ρ) (plainTable? st v event) (plainTable? st' v' event) := by
  have hhandler := (h.handler hv event).isNil
  cases hv with
  | table hid =>
    simp only [plainTable?, hhandler]
    split
    · exact .some hid
    · exact .none
  | _ => exact .none

theorem elements_named {t t' : Table} (h : t.Named ρ t') (first : Int64) (count : Nat) :
    ρ.Values (elements t first count) (elements t' first count) := by
  unfold elements
  rw [Naming.Values, List.forall₂_map_left_iff, List.forall₂_map_right_iff, List.forall₂_same]
  exact fun i _ => h.getInt _

variable {u u' : Unpacking}

theorem begin_named (h : st.Named ρ st') (hu : u.Named ρ u') :
    (begin st u).Like ρ.likeness (begin st' u') := by
  obtain ⟨object, first, last, current, done⟩ := u
  obtain ⟨object', first', last', current', done'⟩ := u'
  obtain ⟨hobject, rfl, rfl, rfl, hdone⟩ := hu
  have hplain := plainTable?_named h hobject .index
  simp only [begin]
  split
  · exact .answers .nil
  · split
    · exact .fails _
    · generalize plainTable? st object .index = id, plainTable? st' object' .index = id' at hplain
      cases hplain with
      | some hid => exact .answers (elements_named (h.table hid) _ _)
      | none =>
        have hnext : Unpacking.Named ρ ⟨object, first, last, first, #[]⟩
            ⟨object', first, last, first, #[]⟩ :=
          ⟨hobject, rfl, rfl, rfl, Aligned.iff_toList.mpr .nil⟩
        exact .asks (.index hobject (.integer _)) (.unpacking hnext)

theorem takeLength_named (h : st.Named ρ st') (hvs : ρ.Values vs vs') (hu : u.Named ρ u') :
    (takeLength st vs u).Like ρ.likeness (takeLength st' vs' u') := by
  simp only [takeLength, (valueAt_named hvs 0).toInt64?]
  split
  · exact begin_named h { hu with last := rfl }
  · exact .fails _

theorem takeElement_named (hvs : ρ.Values vs vs') (hu : u.Named ρ u') :
    (takeElement vs u).Like ρ.likeness (takeElement vs' u') := by
  obtain ⟨object, first, last, current, done⟩ := u
  obtain ⟨object', first', last', current', done'⟩ := u'
  obtain ⟨hobject, rfl, rfl, rfl, hdone⟩ := hu
  have hpush := hdone.push Aligned.biUnique_eq (valueAt_named hvs 0)
  simp only [takeElement]
  split
  · have hnext : Unpacking.Named ρ ⟨object, first, last, current + 1, done.push (valueAt vs 0)⟩
        ⟨object', first, last, current + 1, done'.push (valueAt vs' 0)⟩ :=
      ⟨hobject, rfl, rfl, rfl, hpush⟩
    exact .asks (.index hobject (.integer _)) (.unpacking hnext)
  · exact .answers (Aligned.iff_toList.mp hpush)

theorem askLength_named (hu : u.Named ρ u') :
    (askLength u).Like ρ.likeness (askLength u') := .asks (.length hu.object) (.unpacking hu)

theorem goOn_named (h : st.Named ρ st') (hvs : ρ.Values vs vs') (phase : Nat)
    (hu : u.Named ρ u') :
    Both (Reply.Like ρ.likeness) (goOn st vs phase u) (goOn st' vs' phase u') := by
  unfold goOn
  split
  · exact .ok (askLength_named hu)
  · exact .ok (takeLength_named h hvs hu)
  · exact .ok (begin_named h hu)
  · exact .ok (takeElement_named hvs hu)
  · exact .error _

theorem start_named (h : st.Named ρ st') (hvs : ρ.Values vs vs') :
    Both (Reply.Like ρ.likeness) (start st vs) (start st' vs') := by
  have hobject := argument_named hvs 1
  have hplain := plainTable?_named h hobject .length
  have hunpacking (first last : Int64) : Unpacking.Named ρ ⟨argument vs 1, first, last, 0, #[]⟩
      ⟨argument vs' 1, first, last, 0, #[]⟩ :=
    ⟨hobject, rfl, rfl, rfl, Aligned.iff_toList.mpr .nil⟩
  simp only [start, (argument_named hvs 3).isNil]
  refine (Both.of_eq (optionalInteger_named hvs 2 "unpack" 1)).bind fun {first _} heq => ?_
  subst heq
  split
  · refine (Both.of_eq (integerArgument_named hvs 3 "unpack")).bind fun {last _} heq => ?_
    subst heq
    exact .ok (begin_named h (hunpacking first last))
  · generalize plainTable? st (argument vs 1) .length = id,
      plainTable? st' (argument vs' 1) .length = id' at hplain
    cases hplain with
    | none => exact .ok (askLength_named (hunpacking first 0))
    | some hid =>
      dsimp only
      rw [(h.table hid).length]
      exact .ok (begin_named h (hunpacking first _))

end Unpack

theorem blind_unpack : unpack.Blind where
  invoke {ρ st st' vs vs'} hst hvs := by
    have hstart := Unpack.start_named hst hvs
    simp only [unpack]
    generalize Unpack.start st vs = x, Unpack.start st' vs' = x' at hstart
    cases hstart with
    | ok hreply => exact .ok ⟨hst, hreply⟩
    | error e => exact .ok ⟨hst, .fails e⟩
  resume phase _ _ hst hvs hlocals := by
    cases hlocals with
    | unpacking hu =>
      exact (Unpack.goOn_named hst hvs phase hu).map fun hreply => ⟨hst, hreply⟩
    | _ => exact .error _

end Routine

/-- **The standard routines do not tell names apart.** -/
theorem Library.blind_standard : Library.standard.Blind := by
  intro r hr
  have hmem : r ∈ [Routine.select, Routine.type, Routine.rawlen, Routine.rawget, Routine.rawequal,
      Routine.setmetatable, Routine.getmetatable, Routine.pack, Routine.unpack, Routine.pause] := by
    simpa [standard, add, empty] using hr
  simp only [List.mem_cons, List.not_mem_nil, or_false] at hmem
  rcases hmem with rfl | rfl | rfl | rfl | rfl | rfl | rfl | rfl | rfl | rfl
  · exact Routine.blind_select
  · exact Routine.blind_type
  · exact Routine.blind_rawlen
  · exact Routine.blind_rawget
  · exact Routine.blind_rawequal
  · exact Routine.blind_setmetatable
  · exact Routine.blind_getmetatable
  · exact Routine.blind_pack
  · exact Routine.blind_unpack
  · exact Routine.blind_pause

end ResumableVM
