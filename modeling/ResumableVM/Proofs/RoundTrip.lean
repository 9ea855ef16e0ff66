import ResumableVM.Proofs.Decoders

/-! # RoundTrip: procedures survive being written and read again

A procedure that was read from a text is written as a text that is read as the same procedure
(`Procedure.round_trip`). The text that was read may use either notation for its records, leave out
fields that have a default, and escape its strings in any way; the text that is written has one form
only. Every type of the graph has its lemma `rereads`: what its decoder reads it reads again from
what its writer makes of it, with as many containers to open, and that document nests no deeper than
the one that was read. For procedures this is an induction on the containers left to open, two for
each procedure inside another (`Procedure.rereads`).

Reals are the one thing that is not proved to survive: the digits of a double are chosen and read
back by approximation, so `Procedure.round_trip` asks it of the doubles of the procedure. That they
are finite, and so have digits at all, is proved. -/

namespace ResumableVM

open Json Decoder

variable {depth : Nat}

/-! ## Operands -/

theorem Const.rereads : Rereads depth Const.decoder Const.toJson := by
  intro j c h
  obtain ⟨⟨name, payload⟩, hv, hcases⟩ := Option.bind_eq_some_iff.1 h
  split at hcases
  case h_1 heq =>
    cases heq
    split_ifs at hcases
    cases hcases
    obtain ⟨hname, hreplaces⟩ := rereads_name hv
    exact ⟨by simp [decoder, toJson, hname, isUnit], hreplaces⟩
  case h_2 heq =>
    cases heq
    exact rereads_payload boolean hv rereads_boolean (fun _ _ h => by simp [decoder, h])
      (fun _ => rfl) h
  case h_3 heq =>
    cases heq
    exact rereads_payload integer hv rereads_integer64 (fun _ _ h => by simp [decoder, h])
      (fun _ => rfl) h
  case h_4 heq =>
    cases heq
    exact rereads_payload float hv rereads_float (fun _ _ h => by simp [decoder, h])
      (fun _ => rfl) h
  case h_5 heq =>
    cases heq
    exact rereads_payload string hv rereads_string (fun _ _ h => by simp [decoder, h])
      (fun _ => rfl) h
  case h_6 => cases hcases

theorem Operand.rereads : Rereads depth Operand.decoder Operand.toJson := by
  intro j o h
  obtain ⟨⟨name, payload⟩, hv, hcases⟩ := Option.bind_eq_some_iff.1 h
  split at hcases
  case h_1 heq =>
    cases heq
    exact rereads_payload register hv rereads_word16 (fun _ _ h => by simp [decoder, h])
      (fun _ => rfl) h
  case h_2 heq =>
    cases heq
    exact rereads_payload const hv Const.rereads (fun _ _ h => by simp [decoder, h])
      (fun _ => rfl) h
  case h_3 => cases hcases

theorem rereads_registers : Rereads depth (list word16) registersJson :=
  rereads_list_of_forall (fun _ => rereads_word16) depth

theorem Results.rereads : Rereads depth Results.decoder Results.toJson := by
  intro j rs h
  obtain ⟨⟨name, payload⟩, hv, hcases⟩ := Option.bind_eq_some_iff.1 h
  split at hcases
  case h_1 heq =>
    cases heq
    split_ifs at hcases
    cases hcases
    obtain ⟨hname, hreplaces⟩ := rereads_name hv
    exact ⟨by simp [decoder, toJson, hname, isUnit], hreplaces⟩
  case h_2 heq =>
    cases heq
    exact rereads_payload fixed hv rereads_registers (fun _ _ h => by simp [decoder, h])
      (fun _ => rfl) h
  case h_3 => cases hcases

theorem Args.rereads : Rereads depth Args.decoder Args.toJson := by
  intro j args h
  obtain ⟨values, hf, hargs⟩ := Option.bind_eq_some_iff.1 h
  have hfields := isFieldOf_of_fields hf
  split at hargs
  · simp only [List.forall_mem_cons] at hfields
    obtain ⟨fixed, hargs, hfixed⟩ :=
      bind_required hfields.1 (rereads_list_of_forall (fun _ => Operand.rereads) _) hargs
    obtain ⟨spread, hargs, hspread⟩ :=
      bind_withDefault hfields.2.1 rereads_boolean (default_boolean (nesting_of_fields hf)) hargs
    cases hargs
    obtain ⟨hrecord, hreplaces⟩ := rereads_record [_, _] hf (by decide) rfl
      (by simpa using ⟨hfixed.2, hspread.2⟩)
    simp only [List.zip_cons_cons, List.zip_nil_right] at hrecord
    exact ⟨by simp [decoder, toJson, hrecord, hfixed, hspread], hreplaces⟩
  · cases hargs

theorem CaptureSource.rereads : Rereads depth CaptureSource.decoder CaptureSource.toJson := by
  intro j c h
  obtain ⟨⟨name, payload⟩, hv, hcases⟩ := Option.bind_eq_some_iff.1 h
  split at hcases
  case h_1 heq =>
    cases heq
    exact rereads_payload register hv rereads_word16 (fun _ _ h => by simp [decoder, h])
      (fun _ => rfl) h
  case h_2 heq =>
    cases heq
    exact rereads_payload upvalue hv rereads_word16 (fun _ _ h => by simp [decoder, h])
      (fun _ => rfl) h
  case h_3 => cases hcases

/-! ## Operations -/

theorem ArithOp.rereads : Rereads depth ArithOp.decoder fun op => .ofString op.name :=
  rereads_unitVariant ofName?_name

theorem UnaryOp.rereads : Rereads depth UnaryOp.decoder fun op => .ofString op.name :=
  rereads_unitVariant ofName?_name

theorem CompareOp.rereads : Rereads depth CompareOp.decoder fun op => .ofString op.name :=
  rereads_unitVariant ofName?_name

namespace Op

/-- The fields of an operation are written in their order, and each is read again. The cases are
the operations in the order of `fieldNames`. -/
theorem written_of_ofFields {name : String} {names : List String} {values : List (Option Json)}
    {j : Json} {op : Op} (hnames : fieldNames name = some names)
    (hfields : ∀ v ∈ values, IsFieldOf j v) (h : ofFields? depth name values = some op) :
    ∃ ks : List Json, op.toJson = recordJson name (names.zip ks) ∧ ks.length = names.length ∧
      names.Nodup ∧ ofFields? depth name (ks.map some) = some op ∧ ∀ k ∈ ks, k.FitsIn j := by
  unfold ofFields? at h
  split at h
  case h_15 => cases h
  all_goals
    cases hnames
    simp only [List.forall_mem_cons] at hfields
  case h_1 =>
    obtain ⟨dst, h, hdst⟩ := bind_required hfields.1 rereads_word16 h
    obtain ⟨src, h, hsrc⟩ := bind_required hfields.2.1 rereads_word16 h
    cases h
    exact ⟨[_, _], rfl, rfl, by decide, by simp [ofFields?, hdst, hsrc], by simp [hdst, hsrc]⟩
  case h_2 =>
    obtain ⟨dst, h, hdst⟩ := bind_required hfields.1 rereads_word16 h
    obtain ⟨value, h, hvalue⟩ := bind_required hfields.2.1 Const.rereads h
    cases h
    exact ⟨[_, _], rfl, rfl, by decide, by simp [ofFields?, hdst, hvalue], by simp [hdst, hvalue]⟩
  case h_3 =>
    obtain ⟨dst, h, hdst⟩ := bind_required hfields.1 rereads_word16 h
    obtain ⟨i, h, hi⟩ := bind_required hfields.2.1 rereads_word16 h
    cases h
    exact ⟨[_, _], rfl, rfl, by decide, by simp [ofFields?, hdst, hi], by simp [hdst, hi]⟩
  case h_4 =>
    obtain ⟨i, h, hi⟩ := bind_required hfields.1 rereads_word16 h
    obtain ⟨src, h, hsrc⟩ := bind_required hfields.2.1 Operand.rereads h
    cases h
    exact ⟨[_, _], rfl, rfl, by decide, by simp [ofFields?, hi, hsrc], by simp [hi, hsrc]⟩
  case h_5 =>
    obtain ⟨dst, h, hdst⟩ := bind_required hfields.1 rereads_word16 h
    cases h
    exact ⟨[_], rfl, rfl, by decide, by simp [ofFields?, hdst], by simp [hdst]⟩
  case h_6 =>
    obtain ⟨dst, h, hdst⟩ := bind_required hfields.1 rereads_word16 h
    obtain ⟨table, h, htable⟩ := bind_required hfields.2.1 Operand.rereads h
    obtain ⟨key, h, hkey⟩ := bind_required hfields.2.2.1 Operand.rereads h
    cases h
    exact ⟨[_, _, _], rfl, rfl, by decide, by simp [ofFields?, hdst, htable, hkey],
      by simp [hdst, htable, hkey]⟩
  case h_7 =>
    obtain ⟨table, h, htable⟩ := bind_required hfields.1 rereads_word16 h
    obtain ⟨key, h, hkey⟩ := bind_required hfields.2.1 Operand.rereads h
    obtain ⟨value, h, hvalue⟩ := bind_required hfields.2.2.1 Operand.rereads h
    cases h
    exact ⟨[_, _, _], rfl, rfl, by decide, by simp [ofFields?, htable, hkey, hvalue],
      by simp [htable, hkey, hvalue]⟩
  case h_8 =>
    obtain ⟨dst, h, hdst⟩ := bind_required hfields.1 rereads_word16 h
    obtain ⟨op, h, hop⟩ := bind_required hfields.2.1 ArithOp.rereads h
    obtain ⟨a, h, ha⟩ := bind_required hfields.2.2.1 Operand.rereads h
    obtain ⟨b, h, hb⟩ := bind_required hfields.2.2.2.1 Operand.rereads h
    cases h
    exact ⟨[_, _, _, _], rfl, rfl, by decide, by simp [ofFields?, hdst, hop, ha, hb],
      by simp [hdst, hop, ha, hb]⟩
  case h_9 =>
    obtain ⟨dst, h, hdst⟩ := bind_required hfields.1 rereads_word16 h
    obtain ⟨op, h, hop⟩ := bind_required hfields.2.1 UnaryOp.rereads h
    obtain ⟨src, h, hsrc⟩ := bind_required hfields.2.2.1 Operand.rereads h
    cases h
    exact ⟨[_, _, _], rfl, rfl, by decide, by simp [ofFields?, hdst, hop, hsrc],
      by simp [hdst, hop, hsrc]⟩
  case h_10 =>
    obtain ⟨dst, h, hdst⟩ := bind_required hfields.1 rereads_word16 h
    obtain ⟨op, h, hop⟩ := bind_required hfields.2.1 CompareOp.rereads h
    obtain ⟨a, h, ha⟩ := bind_required hfields.2.2.1 Operand.rereads h
    obtain ⟨b, h, hb⟩ := bind_required hfields.2.2.2.1 Operand.rereads h
    cases h
    exact ⟨[_, _, _, _], rfl, rfl, by decide, by simp [ofFields?, hdst, hop, ha, hb],
      by simp [hdst, hop, ha, hb]⟩
  case h_11 =>
    obtain ⟨target, h, htarget⟩ := bind_required hfields.1 rereads_word16 h
    obtain ⟨args, h, hargs⟩ := bind_required hfields.2.1 Args.rereads h
    obtain ⟨results, h, hresults⟩ := bind_required hfields.2.2.1 Results.rereads h
    cases h
    exact ⟨[_, _, _], rfl, rfl, by decide, by simp [ofFields?, htarget, hargs, hresults],
      by simp [htarget, hargs, hresults]⟩
  case h_12 =>
    obtain ⟨dst, h, hdst⟩ := bind_required hfields.1 rereads_word16 h
    obtain ⟨proto, h, hproto⟩ := bind_required hfields.2.1 rereads_word64 h
    cases h
    exact ⟨[_, _], rfl, rfl, by decide, by simp [ofFields?, hdst, hproto], by simp [hdst, hproto]⟩
  case h_13 =>
    obtain ⟨regs, h, hregs⟩ := bind_required hfields.1 rereads_registers h
    cases h
    exact ⟨[_], rfl, rfl, by decide, by simp [ofFields?, hregs], by simp [hregs]⟩
  case h_14 =>
    obtain ⟨results, h, hresults⟩ := bind_required hfields.1 Results.rereads h
    cases h
    exact ⟨[_], rfl, rfl, by decide, by simp [ofFields?, hresults], by simp [hresults]⟩

theorem rereads : Rereads depth decoder toJson := by
  intro j op h
  obtain ⟨⟨name, payload⟩, hv, hvalues⟩ := Option.bind_eq_some_iff.1 h
  obtain ⟨names, hnames, hvalues⟩ := Option.bind_eq_some_iff.1 hvalues
  obtain ⟨p, rfl, hp⟩ := Option.bind_eq_some_iff.1 hvalues
  obtain ⟨values, hf, hop⟩ := Option.bind_eq_some_iff.1 hp
  obtain ⟨ks, hjson, hlen, hnodup, hagain, hfits⟩ :=
    written_of_ofFields hnames (isFieldOf_of_fields hf) hop
  obtain ⟨hrecord, hreplaces⟩ := rereads_record ks hf hnodup hlen hfits
  obtain ⟨hvariant, hreplaces⟩ := rereads_variant hv hreplaces
  rw [hjson]
  exact ⟨by simp [decoder, recordJson, hvariant, hnames, hrecord, hagain], hreplaces⟩

end Op

/-! ## Blocks -/

namespace Exit

variable {j p : Json} {v₁ v₂ v₃ : Option Json}

theorem decoder_branch (hv : variant? depth j = some ("Branch", some p))
    (hf : fields ["cond", "then_block", "else_block"] (depth - 1) p = some [v₁, v₂, v₃]) :
    decoder depth j = (required word16 (depth - 2) v₁).bind fun cond =>
      (required word64 (depth - 2) v₂).bind fun ifTrue =>
        (required word64 (depth - 2) v₃).bind fun ifFalse => some (branch cond ifTrue ifFalse) := by
  simp [decoder, hv, hf]

theorem decoder_tailCall (hv : variant? depth j = some ("TailCall", some p))
    (hf : fields ["target", "args"] (depth - 1) p = some [v₁, v₂]) :
    decoder depth j = (required word16 (depth - 2) v₁).bind fun target =>
      (required Args.decoder (depth - 2) v₂).bind fun args => some (tailCall target args) := by
  simp [decoder, hv, hf]

theorem rereads : Rereads depth decoder toJson := by
  intro j e h
  obtain ⟨⟨name, payload⟩, hv, hcases⟩ := Option.bind_eq_some_iff.1 h
  dsimp only at hcases
  split at hcases
  case h_1 =>
    exact rereads_payload jump hv rereads_word64 (fun _ _ h => by simp [decoder, h])
      (fun _ => rfl) h
  case h_2 =>
    exact rereads_payload ret hv Args.rereads (fun _ _ h => by simp [decoder, h])
      (fun _ => rfl) h
  case h_3 =>
    obtain ⟨p, rfl, hp⟩ := Option.bind_eq_some_iff.1 hcases
    obtain ⟨values, hf, hexit⟩ := Option.bind_eq_some_iff.1 hp
    have hfields := isFieldOf_of_fields hf
    split at hexit
    · simp only [List.forall_mem_cons] at hfields
      obtain ⟨cond, hexit, hcond⟩ := bind_required hfields.1 rereads_word16 hexit
      obtain ⟨t, hexit, ht⟩ := bind_required hfields.2.1 rereads_word64 hexit
      obtain ⟨f, hexit, hf'⟩ := bind_required hfields.2.2.1 rereads_word64 hexit
      cases hexit
      obtain ⟨hrecord, hreplaces⟩ := rereads_record [_, _, _] hf (by decide) rfl
        (by simpa using ⟨hcond.2, ht.2, hf'.2⟩)
      obtain ⟨hvariant, hreplaces⟩ := rereads_variant hv hreplaces
      refine ⟨(decoder_branch hvariant hrecord).trans ?_, hreplaces⟩
      rw [hcond.1, Option.bind_some, ht.1, Option.bind_some, hf'.1, Option.bind_some]
    · cases hexit
  case h_4 =>
    obtain ⟨p, rfl, hp⟩ := Option.bind_eq_some_iff.1 hcases
    obtain ⟨values, hf, hexit⟩ := Option.bind_eq_some_iff.1 hp
    have hfields := isFieldOf_of_fields hf
    split at hexit
    · simp only [List.forall_mem_cons] at hfields
      obtain ⟨target, hexit, htarget⟩ := bind_required hfields.1 rereads_word16 hexit
      obtain ⟨args, hexit, hargs⟩ := bind_required hfields.2.1 Args.rereads hexit
      cases hexit
      obtain ⟨hrecord, hreplaces⟩ := rereads_record [_, _] hf (by decide) rfl
        (by simpa using ⟨htarget.2, hargs.2⟩)
      obtain ⟨hvariant, hreplaces⟩ := rereads_variant hv hreplaces
      refine ⟨(decoder_tailCall hvariant hrecord).trans ?_, hreplaces⟩
      rw [htarget.1, Option.bind_some, hargs.1, Option.bind_some]
    · cases hexit
  case h_5 => cases hcases

end Exit

theorem Block.rereads : Rereads depth Block.decoder Block.toJson := by
  intro j b h
  obtain ⟨values, hf, hblock⟩ := Option.bind_eq_some_iff.1 h
  have hfields := isFieldOf_of_fields hf
  split at hblock
  · simp only [List.forall_mem_cons] at hfields
    obtain ⟨ops, hblock, hops⟩ :=
      bind_required hfields.1 (rereads_list_of_forall (fun _ => Op.rereads) _) hblock
    obtain ⟨exit, hblock, hexit⟩ := bind_required hfields.2.1 Exit.rereads hblock
    cases hblock
    obtain ⟨hrecord, hreplaces⟩ := rereads_record [_, _] hf (by decide) rfl
      (by simpa using ⟨hops.2, hexit.2⟩)
    simp only [List.zip_cons_cons, List.zip_nil_right] at hrecord
    exact ⟨by simp [decoder, toJson, hrecord, hops, hexit], hreplaces⟩
  · cases hblock

/-! ## Procedures -/

namespace Procedure

theorem toJsonAll_eq (ps : List Procedure) : toJsonAll ps = ps.map toJson := by
  induction ps with
  | nil => rfl
  | cons p ps ih => rw [toJsonAll, ih, List.map_cons]

theorem toJson_eq (p : Procedure) : p.toJson = .ofMembers (fieldNames.zip
    [.ofString p.name, .ofNat p.params, .boolean p.isVararg, .ofNat p.registers,
      .array (p.upvalues.map CaptureSource.toJson), .array (p.blocks.map Block.toJson),
      .array (p.nested.map toJson)]) := by
  rw [← toJsonAll_eq]
  cases p
  rw [toJson]
  rfl

/-- The decoder by its fields; nested procedures are a list with a default like upvalues. -/
theorem decoder_fields {j : Json} {v₁ v₂ v₃ v₄ v₅ v₆ v₇ : Option Json}
    (hf : fields fieldNames (depth + 2) j = some [v₁, v₂, v₃, v₄, v₅, v₆, v₇]) :
    decoder (depth + 2) j =
      (withDefault (list decoder) [] (depth + 1) v₇).bind fun nested =>
      (required Decoder.string (depth + 1) v₁).bind fun name =>
      (required word16 (depth + 1) v₂).bind fun params =>
      (withDefault Decoder.boolean false (depth + 1) v₃).bind fun isVararg =>
      (required word16 (depth + 1) v₄).bind fun registers =>
      (withDefault (list CaptureSource.decoder) [] (depth + 1) v₅).bind fun upvalues =>
      (required (list Block.decoder) (depth + 1) v₆).bind fun blocks =>
        some ⟨name, params, isVararg, registers, upvalues, blocks, nested⟩ := by
  rw [decoder, hf]
  rcases v₇ with _ | _ | _ | _ | _ | _ | _ <;> rfl

/-- A procedure has a list of blocks, so its document has a container in it. -/
theorem nesting_of_blocks {j : Json} {v : Option Json} {blocks : List Block}
    (hv : IsFieldOf j v) (h : required (list Block.decoder) depth v = some blocks) :
    1 < j.nesting := by
  obtain ⟨y, rfl, hy⟩ := Option.bind_eq_some_iff.1 h
  have hlt := (hv y rfl).nesting_lt
  unfold list at hy
  split at hy
  · next items =>
    rw [nesting] at hlt
    omega
  · cases hy

/-- **What a procedure is read from is matched by what is written of it**, at every depth. -/
theorem rereads : ∀ depth, Rereads depth decoder toJson
  | 0 | 1 => fun j p h => by simp [decoder] at h
  | depth + 2 => fun j p h => by
    have hprocedures := rereads_list (rereads depth)
    have hcaptures := rereads_list (@CaptureSource.rereads depth)
    have hblocks := rereads_list (@Block.rereads depth)
    have hcases := h
    rw [decoder] at hcases
    obtain ⟨values, hf, hcases⟩ := Option.bind_eq_some_iff.1 hcases
    split at hcases
    case h_2 => cases hcases
    case h_1 v₁ v₂ v₃ v₄ v₅ v₆ v₇ =>
    clear hcases
    rw [decoder_fields hf] at h
    have hfields := isFieldOf_of_fields hf
    simp only [List.forall_mem_cons] at hfields
    obtain ⟨hf₁, hf₂, hf₃, hf₄, hf₅, hf₆, hf₇, -⟩ := hfields
    have hdeep : 1 < j.nesting := by
      simp only [Option.bind_eq_some_iff] at h
      obtain ⟨_, -, _, -, _, -, _, -, _, -, _, -, _, hblocks, -⟩ := h
      exact nesting_of_blocks hf₆ hblocks
    obtain ⟨nested, h, hnested⟩ :=
      bind_withDefault hf₇ hprocedures (default_list hdeep) h
    obtain ⟨name, h, hname⟩ := bind_required hf₁ rereads_string h
    obtain ⟨params, h, hparams⟩ := bind_required hf₂ rereads_word16 h
    obtain ⟨isVararg, h, hvararg⟩ :=
      bind_withDefault hf₃ rereads_boolean (default_boolean (by omega)) h
    obtain ⟨registers, h, hregisters⟩ := bind_required hf₄ rereads_word16 h
    obtain ⟨upvalues, h, hupvalues⟩ :=
      bind_withDefault hf₅ hcaptures (default_list hdeep) h
    obtain ⟨blocks, h, hblocks⟩ := bind_required hf₆ hblocks h
    cases h
    rw [toJson_eq]
    obtain ⟨hrecord, hreplaces⟩ := rereads_record [_, _, _, _, _, _, _] hf (by decide) rfl
      (by simpa using ⟨hname.2, hparams.2, hvararg.2, hregisters.2, hupvalues.2, hblocks.2,
        hnested.2⟩)
    refine ⟨(decoder_fields hrecord).trans ?_, hreplaces⟩
    rw [hnested.1, Option.bind_some, hname.1, Option.bind_some, hparams.1, Option.bind_some,
      hvararg.1, Option.bind_some, hregisters.1, Option.bind_some, hupvalues.1, Option.bind_some,
      hblocks.1, Option.bind_some]

/-! ## Comparison -/

mutual

/-- Procedures are compared field by field, the nested ones in turn. -/
def decEq : (p q : Procedure) → Decidable (p = q)
  | ⟨_, _, _, _, _, _, nested⟩, ⟨_, _, _, _, _, _, nested'⟩ =>
    match decEqAll nested nested' with
    | isTrue h => decidable_of_iff' _ (by rw [mk.injEq, and_iff_left h])
    | isFalse h => isFalse fun heq => h (mk.inj heq).2.2.2.2.2.2

/-- Lists of procedures are compared one by one. -/
def decEqAll : (ps qs : List Procedure) → Decidable (ps = qs)
  | [], [] => isTrue rfl
  | [], _ :: _ => isFalse (List.cons_ne_nil _ _).symm
  | _ :: _, [] => isFalse (List.cons_ne_nil _ _)
  | p :: ps, q :: qs =>
    match decEq p q, decEqAll ps qs with
    | isTrue h, isTrue h' => isTrue (by rw [h, h'])
    | isFalse h, _ => isFalse fun heq => h (List.cons.inj heq).1
    | _, isFalse h => isFalse fun heq => h (List.cons.inj heq).2

end

instance : DecidableEq Procedure := decEq

/-! ## The round trip -/

/-- The doubles that are written of a procedure. -/
def doubles (p : Procedure) : List Float := p.toJson.doubles

/-- **Procedures survive the round trip.** Whatever text a procedure is read from, the text that is
written of it is read as the same procedure. Every double that is written is finite, and nothing is
assumed of it but that its digits are read back; the written document nests no deeper than the one
that was read. -/
theorem round_trip {text : String} {p : Procedure} (h : ofText? text = some p)
    (hdigits : ∀ x ∈ p.doubles, Binary64.isFinite x = true →
      JsonNumber.ofText? (JsonNumber.text (.real x)) = some (.real x)) :
    ofText? p.toText = some p ∧ (∀ x ∈ p.doubles, Binary64.isFinite x = true) ∧
      ∃ j k, Json.ofText? text = some j ∧ Json.ofText? p.toText = some k ∧
        k.nesting ≤ j.nesting := by
  obtain ⟨j, hj, hread⟩ := Option.bind_eq_some_iff.1 h
  obtain ⟨hagain, hreplaces⟩ := rereads depthLimit j p hread
  have hplain : p.toJson.Plain := hreplaces.plain (sound_of_ofText hj)
  have hfinite : ∀ x ∈ p.doubles, Binary64.isFinite x = true := fun x => hplain.isFinite
  have hk : Json.ofText? p.toText = some p.toJson :=
    ofText?_pretty_of_plain hplain fun x hx => hdigits x hx (hfinite x hx)
  refine ⟨?_, hfinite, j, p.toJson, hj, hk, hreplaces.nesting_le⟩
  rw [ofText?, Decoder.ofText?, hk, Option.bind_some, hagain]

/-- A procedure that loads a double, with a nested procedure that never ends. -/
def sample : Procedure where
  name := "é"
  params := 0
  isVararg := false
  registers := 1
  upvalues := []
  blocks := [⟨[.load 0 (.float 1.5)], .ret ⟨[], false⟩⟩]
  nested := [⟨"f", 0, false, 0, [], [⟨[], .jump 0⟩], []⟩]

/-- A text of it: records in both notations, an escape, an exponent, and fields left out. -/
def sampleText : String :=
  "\x7b\"name\":\"\\u00e9\",\"params\":0,\"registers\":1,\"blocks\":[[[\x7b\"Load\":[0," ++
  "\x7b\"Float\":15e-1\x7d]\x7d],\x7b\"Return\":\x7b\"fixed\":[]\x7d\x7d]]," ++
  "\"nested\":[[\"f\",0,false,0,[],[[[],\x7b\"Jump\":0\x7d]]]]\x7d"

theorem round_trip_sample :
    ofText? sampleText = some sample ∧
      (∀ x ∈ sample.doubles, Binary64.isFinite x = true →
        JsonNumber.ofText? (JsonNumber.text (.real x)) = some (.real x)) ∧
      ofText? sample.toText = some sample := by
  have h : ofText? sampleText = some sample := by decide +kernel
  have hdigits : ∀ x ∈ sample.doubles, Binary64.isFinite x = true →
      JsonNumber.ofText? (JsonNumber.text (.real x)) = some (.real x) := by decide +kernel
  exact ⟨h, hdigits, (round_trip h hdigits).1⟩

end Procedure

end ResumableVM
