import ResumableVM.Graph.Document
import ResumableVM.Proofs.Acceptance
import ResumableVM.Proofs.Keys
import ResumableVM.Proofs.SoundDocuments

/-! # Decoders: what is written of a decoded value is decoded again

A decoder accepts many documents for one value: a record as an object or as an array, with or
without the fields that have a default. A writer picks one of them. `Rereads d write` is the
agreement between the two: the document that `write` makes of a value that `d` has read gives the
value again under the same bound on its depth, and it can stand for the document that was read
(`Json.Replaces`): it nests no deeper, and it is plain when that one is sound.

The agreement is proved once for each way to build a decoder: scalars, lists (`rereads_list`),
variants (`Variant`) and records (`Record`). -/

namespace ResumableVM

/-! ## Nesting -/

namespace Json

mutual

/-- The number of containers that are open at once at the deepest point of a document. -/
def nesting : Json → Nat
  | array js => itemNesting js + 1
  | object ms => memberNesting ms + 1
  | _ => 0

/-- The nesting of the deepest item. -/
def itemNesting : List Json → Nat
  | [] => 0
  | j :: js => max (nesting j) (itemNesting js)

/-- The nesting of the deepest member. -/
def memberNesting : List (JsonText × Json) → Nat
  | [] => 0
  | (_, j) :: ms => max (nesting j) (memberNesting ms)

end

theorem nesting_array_le_iff {js : List Json} {n : Nat} (hn : 0 < n) :
    (array js).nesting ≤ n ↔ ∀ j ∈ js, j.nesting < n := by
  rw [nesting]
  induction js with
  | nil => exact iff_of_true hn fun _ h => absurd h List.not_mem_nil
  | cons j js ih =>
    rw [List.forall_mem_cons, ← ih, itemNesting]
    omega

theorem nesting_object_le_iff {ms : List (JsonText × Json)} {n : Nat} (hn : 0 < n) :
    (object ms).nesting ≤ n ↔ ∀ m ∈ ms, m.2.nesting < n := by
  rw [nesting]
  induction ms with
  | nil => exact iff_of_true hn fun _ h => absurd h List.not_mem_nil
  | cons m ms ih =>
    rw [List.forall_mem_cons, ← ih, memberNesting]
    omega

/-- `y` is a part of `j`: it is less deep, and sound if `j` is. -/
structure PartOf (y j : Json) : Prop where
  nesting_lt : y.nesting < j.nesting
  sound : j.Sound → y.Sound

/-- `k` can stand for `j`: it is no deeper, and plain if `j` is sound. -/
structure Replaces (k j : Json) : Prop where
  nesting_le : k.nesting ≤ j.nesting
  plain : j.Sound → k.Plain

/-- `k` can stand for a part of `j`. -/
structure FitsIn (k j : Json) : Prop where
  nesting_lt : k.nesting < j.nesting
  plain : j.Sound → k.Plain

theorem Replaces.fitsIn {k y j : Json} (h : k.Replaces y) (hy : y.PartOf j) : k.FitsIn j :=
  ⟨h.nesting_le.trans_lt hy.nesting_lt, fun hj => h.plain (hy.sound hj)⟩

theorem partOf_array {js : List Json} {j : Json} (h : j ∈ js) : j.PartOf (array js) :=
  ⟨(nesting_array_le_iff (Nat.succ_pos _)).1 le_rfl j h, fun hs => sound_array_iff.1 hs j h⟩

theorem partOf_object {ms : List (JsonText × Json)} {m : JsonText × Json} (h : m ∈ ms) :
    m.2.PartOf (object ms) :=
  ⟨(nesting_object_le_iff (Nat.succ_pos _)).1 le_rfl m h, fun hs => sound_object_iff.1 hs m h⟩

/-- An array of what fits into a container can stand for the container. -/
theorem replaces_array {ks : List Json} {j : Json} (hj : 0 < j.nesting)
    (h : ∀ k ∈ ks, k.FitsIn j) : (array ks).Replaces j :=
  ⟨(nesting_array_le_iff hj).2 fun k hk => (h k hk).nesting_lt,
    fun hs => plain_array_iff.2 fun k hk => (h k hk).plain hs⟩

theorem replaces_ofMembers {ms : List (String × Json)} {j : Json} (hj : 0 < j.nesting)
    (h : ∀ m ∈ ms, m.2.FitsIn j) : (ofMembers ms).Replaces j := by
  constructor
  · rw [ofMembers, nesting_object_le_iff hj, List.forall_mem_map]
    exact fun m hm => (h m hm).nesting_lt
  · intro hs
    rw [ofMembers, plain_object_iff, List.forall_mem_map]
    exact fun m hm => ⟨rfl, (h m hm).plain hs⟩

end Json

open Json Decoder

/-! ## Scalars -/

/-- What `d` reads, it reads again from what `write` makes of it. -/
def Rereads {α : Type} (depth : Nat) (d : Decoder α) (write : α → Json) : Prop :=
  ∀ j x, d depth j = some x → d depth (write x) = some x ∧ (write x).Replaces j

/-- A scalar stands for any document. -/
theorem replaces_scalar {x j : Json} (hleaves : leaves x = [x]) (hdepth : x.nesting = 0)
    (h : j.Sound → x.HasValue) : x.Replaces j :=
  ⟨by omega, fun hs y hy => by rw [hleaves, List.mem_singleton] at hy; exact hy ▸ h hs⟩

theorem rereads_natural {bound : Nat} (hbound : bound ≤ UInt64.size) {depth : Nat} :
    Rereads depth (natural bound) Json.ofNat := by
  intro j x h
  unfold natural at h
  split at h
  · next n =>
    split_ifs at h with hn
    obtain rfl := Option.some.inj h
    have hmin : Int64.minValue.toInt ≤ 0 := by decide
    refine ⟨?_, replaces_scalar rfl rfl fun _ => ⟨by omega, by omega⟩⟩
    simp [natural, Json.ofNat]
    omega
  · cases h

theorem rereads_word16 {depth : Nat} : Rereads depth word16 Json.ofNat :=
  rereads_natural (by decide)

theorem rereads_word64 {depth : Nat} : Rereads depth word64 Json.ofNat :=
  rereads_natural le_rfl

theorem rereads_integer64 {depth : Nat} :
    Rereads depth integer64 fun n => Json.ofInt n.toInt := by
  intro j x h
  have hhigh : x.toInt < UInt64.size := x.toInt_lt.trans (by decide)
  exact ⟨signedWord?_eq_some_iff.2 rfl, replaces_scalar rfl rfl fun _ => ⟨x.le_toInt, hhigh⟩⟩

theorem rereads_float {depth : Nat} :
    Rereads depth Decoder.float fun x => Json.number (.real x) := by
  intro j x h
  refine ⟨rfl, replaces_scalar rfl rfl fun hj => ?_⟩
  unfold Decoder.float at h
  split at h <;> cases h
  · next n =>
    have hn : JsonNumber.FitsWord n := hj _ (List.mem_singleton_self _)
    exact Binary64.isFinite_ofInt hn.natAbs_lt
  · exact hj _ (List.mem_singleton_self _)

theorem rereads_boolean {depth : Nat} : Rereads depth Decoder.boolean Json.boolean :=
  fun _ _ _ => ⟨rfl, replaces_scalar rfl rfl fun _ => trivial⟩

theorem rereads_string {depth : Nat} : Rereads depth Decoder.string Json.ofString :=
  fun _ _ _ => ⟨rfl, replaces_scalar rfl rfl fun _ => rfl⟩

/-! ## Lists -/

theorem exists_of_mapM {α β : Type} {f : α → Option β} {l : List α} {r : List β}
    (h : l.mapM f = some r) {y : β} (hy : y ∈ r) : ∃ x ∈ l, f x = some y := by
  rw [mapM_eq_some_iff] at h
  have hmem : some y ∈ l.map f := h ▸ List.mem_map_of_mem hy
  exact List.mem_map.1 hmem

theorem rereads_list {α : Type} {depth : Nat} {d : Decoder α} {write : α → Json}
    (hd : Rereads depth d write) :
    Rereads (depth + 1) (list d) fun xs => .array (xs.map write) := by
  intro j xs h
  unfold list at h
  split at h
  · next m items hm =>
    cases hm
    have hitem : ∀ x ∈ xs, d depth (write x) = some x ∧ (write x).FitsIn (array items) := by
      intro x hx
      obtain ⟨y, hy, hread⟩ := exists_of_mapM h hx
      obtain ⟨hagain, hreplaces⟩ := hd _ _ hread
      exact ⟨hagain, hreplaces.fitsIn (partOf_array hy)⟩
    constructor
    · rw [list, mapM_eq_some_iff, List.map_map]
      exact List.map_congr_left fun x hx => (hitem x hx).1
    · exact replaces_array (Nat.succ_pos _) (List.forall_mem_map.2 fun x hx => (hitem x hx).2)
  · cases h

/-- A decoder that rereads at every depth rereads lists at every depth. -/
theorem rereads_list_of_forall {α : Type} {d : Decoder α} {write : α → Json}
    (hd : ∀ depth, Rereads depth d write) : ∀ depth,
      Rereads depth (list d) fun xs => .array (xs.map write)
  | 0 => fun _ _ h => by cases h
  | depth + 1 => rereads_list (hd depth)

/-! ## Variants -/

section Variants

variable {depth : Nat} {j : Json} {name : String} {payload : Option Json}

theorem variant?_cases (h : variant? depth j = some (name, payload)) :
    (payload = none ∧ j = .string (some name)) ∨
      ∃ n p, depth = n + 1 ∧ payload = some p ∧ j = .object [(some name, p)] := by
  unfold variant? at h
  split at h <;> cases h
  · exact .inl ⟨rfl, rfl⟩
  · exact .inr ⟨_, _, rfl, rfl, rfl⟩

/-- A variant that carries nothing is written as its name. -/
theorem rereads_name (h : variant? depth j = some (name, payload)) :
    variant? depth (.ofString name) = some (name, none) ∧ (Json.ofString name).Replaces j :=
  ⟨by unfold variant?; cases depth <;> rfl, replaces_scalar rfl rfl fun _ => rfl⟩

/-- What stands for the payload of a variant makes a variant that stands for it. -/
theorem rereads_variant {p k : Json} (h : variant? depth j = some (name, some p))
    (hk : k.Replaces p) :
    variant? depth (variantJson name k) = some (name, some k) ∧
      (variantJson name k).Replaces j := by
  rcases variant?_cases h with ⟨hnone, -⟩ | ⟨n, q, rfl, heq, rfl⟩
  · cases hnone
  · cases heq
    have hpart := partOf_object (List.mem_singleton_self (some name, p))
    refine ⟨rfl, replaces_ofMembers (Nat.succ_pos _) ?_⟩
    simpa using hk.fitsIn hpart

/-- A variant that a decoder `d'` reads by reading its payload with `d`. -/
theorem rereads_payload {α β : Type} {d : Decoder α} {write : α → Json} {d' : Decoder β}
    {write' : β → Json} {x : β} (wrap : α → β) (h : variant? depth j = some (name, payload))
    (hd : Rereads (depth - 1) d write)
    (hd' : ∀ k p, variant? depth k = some (name, p) →
      d' depth k = (required d (depth - 1) p).map wrap)
    (hwrite : ∀ y, write' (wrap y) = variantJson name (write y)) (hx : d' depth j = some x) :
    d' depth (write' x) = some x ∧ (write' x).Replaces j := by
  rw [hd' _ _ h] at hx
  obtain ⟨y, hy, rfl⟩ := Option.map_eq_some_iff.1 hx
  obtain ⟨p, rfl, hread⟩ := Option.bind_eq_some_iff.1 hy
  obtain ⟨hagain, hreplaces⟩ := hd _ _ hread
  obtain ⟨hvariant, hreplaces⟩ := rereads_variant h hreplaces
  rw [hwrite, hd' _ _ hvariant, required, Option.bind_some, hagain]
  exact ⟨rfl, hreplaces⟩

theorem rereads_unitVariant {α : Type} {ofName? : String → Option α} {toName : α → String}
    (hname : ∀ x, ofName? (toName x) = some x) :
    Rereads depth (unitVariant ofName?) fun x => .ofString (toName x) := by
  intro j x h
  have hvariant : variant? depth (.ofString (toName x)) = some (toName x, none) := by
    unfold variant?
    cases depth <;> rfl
  refine ⟨?_, replaces_scalar rfl rfl fun _ => rfl⟩
  simp [unitVariant, hvariant, isUnit, hname]

end Variants

/-! ## Records -/

/-- The value of a field, if it is there, is a part of `j`. -/
def IsFieldOf (j : Json) (v : Option Json) : Prop := ∀ y, v = some y → y.PartOf j

section Records

variable {α : Type} {depth : Nat} {j : Json} {d : Decoder α} {write : α → Json}

theorem required_again {v : Option Json} {x : α} (hv : IsFieldOf j v)
    (hd : Rereads depth d write) (hx : required d depth v = some x) :
    required d depth (some (write x)) = some x ∧ (write x).FitsIn j := by
  obtain ⟨y, rfl, hread⟩ := Option.bind_eq_some_iff.1 hx
  obtain ⟨hagain, hreplaces⟩ := hd _ _ hread
  exact ⟨hagain, hreplaces.fitsIn (hv y rfl)⟩

/-- One field of several is read, and is there to be read again. -/
theorem bind_required {β : Type} {f : α → Option β} {v : Option Json} {x : β}
    (hv : IsFieldOf j v) (hd : Rereads depth d write)
    (hx : (required d depth v).bind f = some x) :
    ∃ y, f y = some x ∧ required d depth (some (write y)) = some y ∧ (write y).FitsIn j := by
  obtain ⟨y, hy, hx⟩ := Option.bind_eq_some_iff.1 hx
  exact ⟨y, hx, required_again hv hd hy⟩

/-- A field with a default is always written, so the default itself has to be read again. -/
theorem withDefault_again {v : Option Json} {default x : α} (hv : IsFieldOf j v)
    (hd : Rereads depth d write)
    (hdefault : d depth (write default) = some default ∧ (write default).FitsIn j)
    (hx : withDefault d default depth v = some x) :
    withDefault d default depth (some (write x)) = some x ∧ (write x).FitsIn j := by
  cases v with
  | none =>
    obtain rfl := Option.some.inj hx
    exact hdefault
  | some y => exact required_again hv hd hx

theorem bind_withDefault {β : Type} {f : α → Option β} {v : Option Json} {default : α} {x : β}
    (hv : IsFieldOf j v) (hd : Rereads depth d write)
    (hdefault : d depth (write default) = some default ∧ (write default).FitsIn j)
    (hx : (withDefault d default depth v).bind f = some x) :
    ∃ y, f y = some x ∧ withDefault d default depth (some (write y)) = some y ∧
      (write y).FitsIn j := by
  obtain ⟨y, hy, hx⟩ := Option.bind_eq_some_iff.1 hx
  exact ⟨y, hx, withDefault_again hv hd hdefault hy⟩

/-- False fits into every container. -/
theorem default_boolean (hj : 0 < j.nesting) :
    Decoder.boolean depth (.boolean false) = some false ∧ (Json.boolean false).FitsIn j :=
  ⟨rfl, hj, fun _ => by simp [Plain, leaves, HasValue]⟩

/-- The empty list fits into every container that has a container in it. -/
theorem default_list (hj : 1 < j.nesting) :
    list d (depth + 1) (.array (List.map write [])) = some [] ∧
      (Json.array (List.map write [])).FitsIn j :=
  ⟨rfl, hj, fun _ => by simp [Plain, leaves, itemLeaves]⟩

variable {names : List String} {vs : List (Option Json)}

theorem depth_of_fields (h : fields names depth j = some vs) : ∃ n, depth = n + 1 := by
  cases depth with
  | zero => cases h
  | succ n => exact ⟨n, rfl⟩

theorem nesting_of_fields (h : fields names depth j = some vs) : 0 < j.nesting := by
  unfold fields at h
  split at h
  · exact Nat.succ_pos _
  · exact Nat.succ_pos _
  · cases h

theorem isFieldOf_of_fields (h : fields names depth j = some vs) : ∀ v ∈ vs, IsFieldOf j v := by
  rintro v hv y rfl
  unfold fields at h
  split at h
  · next members =>
    split_ifs at h
    obtain ⟨name, -, hname⟩ := exists_of_mapM h hv
    unfold member? at hname
    split at hname <;> cases hname
    · next k hfilter =>
      have hmem := List.mem_of_mem_filter (hfilter ▸ List.mem_singleton_self (k, y))
      exact partOf_object hmem
  · next items =>
    split_ifs at h
    cases h
    rcases List.mem_append.1 hv with hv | hv
    · obtain ⟨z, hz, heq⟩ := List.mem_map.1 hv
      cases heq
      exact partOf_array hz
    · cases List.eq_of_mem_replicate hv
  · cases h

theorem filter_zip {ks : List Json} {name : String} {k : Json} (hnames : names.Nodup)
    (h : (name, k) ∈ names.zip ks) :
    (names.zip ks).filter (fun m => m.1 == name) = [(name, k)] := by
  induction names generalizing ks with
  | nil => cases h
  | cons n names ih =>
    cases ks with
    | nil => cases h
    | cons l ks =>
      obtain ⟨hn, hnames⟩ := List.nodup_cons.1 hnames
      rw [List.zip_cons_cons, List.mem_cons] at h
      rcases h with h | h
      · cases h
        have hrest : (names.zip ks).filter (fun m => m.1 == name) = [] := by
          refine List.filter_eq_nil_iff.2 fun m hm heq => hn ?_
          rw [← beq_iff_eq.1 heq]
          exact (List.of_mem_zip hm).1
        rw [List.zip_cons_cons, List.filter_cons_of_pos (by simp), hrest]
      · have hne : (n == name) = false :=
          beq_eq_false_iff_ne.2 fun heq => hn (heq ▸ (List.of_mem_zip h).1)
        rw [List.zip_cons_cons, List.filter_cons_of_neg (by simp [hne]), ih hnames h]

theorem member?_ofMembers {ks : List Json} {name : String} {k : Json}
    {ms : List (JsonText × Json)} (hnames : names.Nodup) (h : (name, k) ∈ names.zip ks)
    (hms : Json.ofMembers (names.zip ks) = .object ms) : member? ms name = some (some k) := by
  cases hms
  rw [member?, List.filter_map]
  generalize hl : List.filter _ (names.zip ks) = l
  obtain rfl : l = [(name, k)] := hl.symm.trans (filter_zip hnames h)
  rfl

/-- The fields of a written record, whose names are apart. -/
theorem fields_ofMembers {ks : List Json} (hnames : names.Nodup)
    (hlen : ks.length = names.length) (depth : Nat) :
    fields names (depth + 1) (.ofMembers (names.zip ks)) = some (ks.map some) := by
  obtain ⟨ms, hms⟩ : ∃ ms, Json.ofMembers (names.zip ks) = .object ms := ⟨_, rfl⟩
  have hall : ms.all (·.1.isSome) = true := by
    cases hms
    simp
  rw [hms, fields, if_pos hall, mapM_eq_some_iff]
  refine List.ext_getElem (by simp [hlen]) fun i hi hi' => ?_
  rw [List.getElem_map, List.getElem_map, List.getElem_map]
  have hname : i < names.length := by simpa using hi
  have hk : i < ks.length := by simpa using hi'
  have hmem : (names[i], ks[i]) ∈ names.zip ks := by
    rw [List.mem_iff_getElem]
    exact ⟨i, by simp; omega, by simp⟩
  exact member?_ofMembers hnames hmem hms

/-- What stands for the fields of a record makes a record that stands for it. -/
theorem rereads_record (ks : List Json) (h : fields names depth j = some vs)
    (hnames : names.Nodup) (hlen : ks.length = names.length) (hks : ∀ k ∈ ks, k.FitsIn j) :
    fields names depth (.ofMembers (names.zip ks)) = some (ks.map some) ∧
      (Json.ofMembers (names.zip ks)).Replaces j := by
  obtain ⟨n, rfl⟩ := depth_of_fields h
  refine ⟨fields_ofMembers hnames hlen n, replaces_ofMembers (nesting_of_fields h) ?_⟩
  exact fun m hm => hks m.2 (List.of_mem_zip hm).2

end Records

end ResumableVM
