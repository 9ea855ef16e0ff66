import ResumableVM.Proofs.JsonText

/-! # SoundDocuments: what every document that is read has in common

A document is *sound* when its numbers are held: its integers fit into words and its reals are
finite. Every document that is read from a text is sound (`sound_of_ofText`), since each number in
it comes from a token and each token from a numeral. It is *plain* when moreover every number has a
value and every string a text; plain documents are those that are read back from what is written of
them, as far as their doubles are (`ofText?_pretty_of_plain`). -/

namespace ResumableVM.Json

/-! ## Documents by their leaves -/

theorem mem_itemLeaves {x : Json} {js : List Json} :
    x ∈ itemLeaves js ↔ ∃ j ∈ js, x ∈ leaves j := by
  induction js with
  | nil => simp [itemLeaves]
  | cons j js ih => simp [itemLeaves, ih]

theorem mem_memberLeaves {x : Json} {ms : List (JsonText × Json)} :
    x ∈ memberLeaves ms ↔ ∃ m ∈ ms, x = string m.1 ∨ x ∈ leaves m.2 := by
  induction ms with
  | nil => simp [memberLeaves]
  | cons m ms ih => simp [memberLeaves, ih, or_assoc]

/-- Every number is in range. -/
def Sound (j : Json) : Prop := ∀ n, number n ∈ leaves j → n.Held

/-- A scalar with a value: a number in range, a string with a text, or a word. -/
def HasValue : Json → Prop
  | null | boolean _ => True
  | number .excessive => False
  | number n => n.Held
  | string text => text.isSome = true
  | array _ | object _ => False

/-- Every scalar has a value. -/
def Plain (j : Json) : Prop := ∀ x ∈ leaves j, HasValue x

theorem sound_array_iff {js : List Json} : (array js).Sound ↔ ∀ j ∈ js, j.Sound := by
  simp only [Sound, leaves, mem_itemLeaves]
  exact ⟨fun h j hj n hn => h n ⟨j, hj, hn⟩, fun h n ⟨j, hj, hn⟩ => h j hj n hn⟩

theorem sound_object_iff {ms : List (JsonText × Json)} :
    (object ms).Sound ↔ ∀ m ∈ ms, m.2.Sound := by
  simp only [Sound, leaves, mem_memberLeaves]
  constructor
  · exact fun h m hm n hn => h n ⟨m, hm, .inr hn⟩
  · rintro h n ⟨m, hm, hkey | hn⟩
    · cases hkey
    · exact h m hm n hn

theorem plain_array_iff {js : List Json} : (array js).Plain ↔ ∀ j ∈ js, j.Plain := by
  simp only [Plain, leaves, mem_itemLeaves]
  exact ⟨fun h j hj x hx => h x ⟨j, hj, hx⟩, fun h x ⟨j, hj, hx⟩ => h j hj x hx⟩

theorem plain_object_iff {ms : List (JsonText × Json)} :
    (object ms).Plain ↔ ∀ m ∈ ms, m.1.isSome = true ∧ m.2.Plain := by
  simp only [Plain, leaves, mem_memberLeaves]
  constructor
  · exact fun h m hm => ⟨h (string m.1) ⟨m, hm, .inl rfl⟩, fun x hx => h x ⟨m, hm, .inr hx⟩⟩
  · rintro h x ⟨m, hm, rfl | hx⟩
    · exact (h m hm).1
    · exact (h m hm).2 x hx

/-! ## Tokens -/

/-- A token that, if it is a number, is in range. -/
def Token.Held : Token → Prop
  | .number n => n.Held
  | _ => True

theorem held_of_close {s : Scan} {ts : List Token} (h : s.close = some ts) : ∀ t ∈ ts, t.Held := by
  cases s with
  | between =>
    obtain rfl := Option.some.inj h
    exact fun _ ht => absurd ht List.not_mem_nil
  | word letters =>
    obtain ⟨t, ht, rfl⟩ := Option.map_eq_some_iff.1 h
    simp only [List.mem_singleton, forall_eq]
    unfold Scan.word? at ht
    split_ifs at ht <;> obtain rfl := Option.some.inj ht <;> trivial
  | number digits =>
    obtain ⟨n, hn, rfl⟩ := Option.map_eq_some_iff.1 h
    simpa [Token.Held] using JsonNumber.held_of_ofText hn
  | string o => cases h

theorem held_of_begin {c : Char} {ts : List Token} {s : Scan} (h : Scan.begin c = some (ts, s)) :
    ∀ t ∈ ts, t.Held := by
  unfold Scan.begin at h
  split_ifs at h <;> try split at h
  all_goals cases h <;> simp [Token.Held]

theorem held_of_inString {o : OpenString} {c : Char} {ts : List Token} {s : Scan}
    (h : Scan.inString o c = some (ts, s)) : ∀ t ∈ ts, t.Held := by
  unfold Scan.inString at h
  split at h
  · split_ifs at h <;> cases h <;> simp [Token.Held]
  · split_ifs at h
    · cases h; simp
    · obtain ⟨d, -, heq⟩ := Option.map_eq_some_iff.1 h
      cases heq; simp
  · dsimp only at h
    split_ifs at h <;> cases h <;> simp

theorem held_of_step {s s' : Scan} {c : Char} {ts : List Token} (h : s.step c = some (ts, s')) :
    ∀ t ∈ ts, t.Held := by
  have hrestart (h : (s.close.bind fun done => (Scan.begin c).bind fun p =>
      some (done ++ p.1, p.2)) = some (ts, s')) : ∀ t ∈ ts, t.Held := by
    obtain ⟨done, hdone, h⟩ := Option.bind_eq_some_iff.1 h
    obtain ⟨⟨more, next⟩, hmore, h⟩ := Option.bind_eq_some_iff.1 h
    cases h
    exact List.forall_mem_append.2 ⟨held_of_close hdone, held_of_begin hmore⟩
  cases s with
  | between => exact held_of_begin h
  | word letters =>
    simp only [Scan.step] at h
    split_ifs at h
    · cases h; simp
    · exact hrestart h
  | number digits =>
    simp only [Scan.step] at h
    split_ifs at h
    · cases h; simp
    · exact hrestart h
  | string o => exact held_of_inString h

theorem held_of_feed {cs : List Char} {done done' : List Token} {s s' : Scan}
    (hdone : ∀ t ∈ done, t.Held) (h : cs.foldlM Scan.feed (done, s) = some (done', s')) :
    ∀ t ∈ done', t.Held := by
  induction cs generalizing done s with
  | nil =>
    cases h
    exact hdone
  | cons c cs ih =>
    rw [List.foldlM_cons] at h
    obtain ⟨⟨more, next⟩, hfeed, h⟩ := Option.bind_eq_some_iff.1 h
    obtain ⟨⟨ts, s'⟩, hstep, heq⟩ := Option.bind_eq_some_iff.1 hfeed
    cases heq
    refine ih (List.forall_mem_append.2 ⟨fun t ht => ?_, hdone⟩) h
    exact held_of_step hstep t (List.mem_reverse.1 ht)

theorem held_of_tokens {cs : List Char} {ts : List Token} (h : tokens? cs = some ts) :
    ∀ t ∈ ts, t.Held := by
  obtain ⟨⟨done, s⟩, hfeed, h⟩ := Option.bind_eq_some_iff.1 h
  obtain ⟨last, hclose, h⟩ := Option.bind_eq_some_iff.1 h
  cases h
  refine List.forall_mem_append.2 ⟨fun t ht => ?_, held_of_close hclose⟩
  exact held_of_feed (fun _ ht => absurd ht List.not_mem_nil) hfeed t (List.mem_reverse.1 ht)

/-! ## Reading -/

/-- What an open container holds so far is sound. -/
def Context.Sound : Context → Prop
  | .item done => ∀ j ∈ done, j.Sound
  | .member done _ => ∀ m ∈ done, m.2.Sound

/-- What the innermost container holds so far is sound. -/
def Goal.Sound : Goal → Prop
  | .value | .firstItem | .firstKey => True
  | .afterItem done => ∀ j ∈ done, j.Sound
  | .key done | .colon done _ | .afterMember done => ∀ m ∈ done, m.2.Sound
  | .finished j => j.Sound

/-- Everything that has been read is sound. -/
structure Reading.Sound (r : Reading) : Prop where
  goal : r.goal.Sound
  enclosing : ∀ c ∈ r.enclosing, c.Sound

theorem sound_deliver {j : Json} {enclosing : List Context} (hj : j.Sound)
    (h : ∀ c ∈ enclosing, c.Sound) : (Reading.deliver j enclosing).Sound := by
  rcases enclosing with _ | ⟨⟨done⟩ | ⟨done, k⟩, rest⟩
  · exact ⟨hj, h⟩
  · obtain ⟨hdone, hrest⟩ := List.forall_mem_cons.1 h
    exact ⟨List.forall_mem_cons.2 ⟨hj, hdone⟩, hrest⟩
  · obtain ⟨hdone, hrest⟩ := List.forall_mem_cons.1 h
    exact ⟨List.forall_mem_cons.2 ⟨hj, hdone⟩, hrest⟩

theorem sound_of_takeValue {enclosing : List Context} {t : Token} {r : Reading}
    (h : ∀ c ∈ enclosing, c.Sound) (ht : t.Held) (hr : Reading.takeValue enclosing t = some r) :
    r.Sound := by
  unfold Reading.takeValue at hr
  split at hr <;> cases hr
  · exact sound_deliver (by simp [Sound, leaves]) h
  · exact sound_deliver (by simp [Sound, leaves]) h
  · exact sound_deliver (by simpa [Sound, leaves, Token.Held] using ht) h
  · exact sound_deliver (by simp [Sound, leaves]) h
  · exact ⟨trivial, h⟩
  · exact ⟨trivial, h⟩

/-- A held token keeps what has been read sound. -/
theorem sound_of_step {r r' : Reading} {t : Token} (h : r.Sound) (ht : t.Held)
    (hr : r.step t = some r') : r'.Sound := by
  obtain ⟨goal, enclosing⟩ := r
  obtain ⟨hgoal, henclosing⟩ := h
  have hempty : ∀ c ∈ Context.item [] :: enclosing, c.Sound :=
    List.forall_mem_cons.2 ⟨fun _ h => absurd h List.not_mem_nil, henclosing⟩
  unfold Reading.step at hr
  dsimp only at hgoal henclosing hr
  split at hr
  case h_1 => exact sound_of_takeValue henclosing ht hr
  case h_3 => exact sound_of_takeValue hempty ht hr
  all_goals cases hr
  case h_2 => exact sound_deliver (sound_array_iff.2 (by simp)) henclosing
  case h_4 => exact ⟨trivial, List.forall_mem_cons.2 ⟨hgoal, henclosing⟩⟩
  case h_5 => exact sound_deliver (sound_array_iff.2 (by simpa [Goal.Sound] using hgoal)) henclosing
  case h_6 => exact sound_deliver (sound_object_iff.2 (by simp)) henclosing
  case h_7 => exact ⟨fun _ h => absurd h List.not_mem_nil, henclosing⟩
  case h_8 => exact ⟨hgoal, henclosing⟩
  case h_9 => exact ⟨trivial, List.forall_mem_cons.2 ⟨hgoal, henclosing⟩⟩
  case h_10 => exact ⟨hgoal, henclosing⟩
  case h_11 =>
    exact sound_deliver (sound_object_iff.2 (by simpa [Goal.Sound] using hgoal)) henclosing

theorem sound_of_foldlM {ts : List Token} {r r' : Reading} (h : r.Sound) (ht : ∀ t ∈ ts, t.Held)
    (hr : ts.foldlM Reading.step r = some r') : r'.Sound := by
  induction ts generalizing r with
  | nil =>
    cases hr
    exact h
  | cons t ts ih =>
    obtain ⟨hhead, htail⟩ := List.forall_mem_cons.1 ht
    obtain ⟨next, hstep, hr⟩ := Option.bind_eq_some_iff.1 (List.foldlM_cons (m := Option) ▸ hr)
    exact ih (sound_of_step h hhead hstep) htail hr

/-- **Every document that is read is sound.** -/
theorem sound_of_ofText {text : String} {j : Json} (h : ofText? text = some j) : j.Sound := by
  obtain ⟨ts, hts, h⟩ := Option.bind_eq_some_iff.1 h
  obtain ⟨r, hr, hj⟩ := Option.bind_eq_some_iff.1 h
  have hstart : Reading.start.Sound := ⟨trivial, fun _ h => absurd h List.not_mem_nil⟩
  have hgoal := (sound_of_foldlM hstart (held_of_tokens hts) hr).goal
  unfold Reading.document? at hj
  split at hj
  · next heq =>
    rw [heq] at hgoal
    cases hj
    exact hgoal
  · cases hj

/-! ## Plain documents -/

/-- The double that a scalar is. -/
def double? : Json → Option Float
  | number (.real d) => some d
  | _ => none

/-- The doubles in a document, in order. -/
def doubles (j : Json) : List Float := (leaves j).filterMap double?

theorem mem_doubles {j : Json} {d : Float} : d ∈ j.doubles ↔ number (.real d) ∈ leaves j := by
  rw [doubles, List.mem_filterMap]
  constructor
  · rintro ⟨x, hx, heq⟩
    unfold double? at heq
    split at heq
    · cases heq
      exact hx
    · cases heq
  · exact fun h => ⟨_, h, rfl⟩

/-- The doubles of a plain document are finite. -/
theorem Plain.isFinite {j : Json} (h : j.Plain) {d : Float} (hd : d ∈ j.doubles) :
    Binary64.isFinite d = true :=
  h _ (mem_doubles.1 hd)

/-- A plain document is read back, if its doubles are. -/
theorem ofText?_pretty_of_plain {j : Json} (h : j.Plain)
    (hdoubles : ∀ d ∈ j.doubles,
      JsonNumber.ofText? (JsonNumber.text (.real d)) = some (.real d)) :
    ofText? j.pretty = some j := by
  refine ofText?_pretty fun x hx => ?_
  have hvalue := h x hx
  cases x with
  | null => exact yields_null
  | boolean b => exact yields_boolean b
  | string text =>
    obtain ⟨s, rfl⟩ := Option.isSome_iff_exists.1 hvalue
    exact .of_reads (reads_stringText s)
  | number n =>
    refine yields_number ?_
    cases n with
    | integer n => exact JsonNumber.ofText?_text_integer hvalue
    | real d => exact hdoubles d (mem_doubles.2 hx)
    | excessive => exact hvalue.elim
  | array js => exact hvalue.elim
  | object ms => exact hvalue.elim

end ResumableVM.Json
