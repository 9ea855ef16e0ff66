import ResumableVM.Json.Writer
import ResumableVM.Json.Reader
import ResumableVM.Proofs.JsonNumbers

/-! # JsonText: a written document is read back

A document is a row of tokens (`Json.tokens`), and both halves of the reader are compared with it.

* The scanner takes the text of a document to its tokens (`yields_prettyChars`). `Reads` is a
  stretch of text between two states of the scanner; `Yields` is a text that may stop inside a word
  or a number, whose token is complete when the text ends or a delimiter follows.
* The reader takes the tokens of a document to the document (`foldlM_tokens`), wherever it stands in
  a larger one.

So a document is read back if its leaves are (`ofText?_pretty`). The leaves of which this holds are
the words, the strings with a text (`yields_stringText`), and the numbers whose own text is read
back (`yields_number`). -/

namespace ResumableVM.Json

/-! ## The tokens and the leaves of a document -/

mutual

/-- The tokens of a document. -/
def tokens : Json → List Token
  | null => [.null]
  | boolean b => [.boolean b]
  | number n => [.number n]
  | string text => [.string text]
  | array [] => [.openArray, .closeArray]
  | array (j :: js) => .openArray :: tokens j ++ itemTokens js ++ [.closeArray]
  | object [] => [.openObject, .closeObject]
  | object ((k, j) :: ms) =>
    .openObject :: .string k :: .colon :: tokens j ++ memberTokens ms ++ [.closeObject]

/-- The tokens of the items after the first. -/
def itemTokens : List Json → List Token
  | [] => []
  | j :: js => .comma :: tokens j ++ itemTokens js

/-- The tokens of the members after the first. -/
def memberTokens : List (JsonText × Json) → List Token
  | [] => []
  | (k, j) :: ms => .comma :: .string k :: .colon :: tokens j ++ memberTokens ms

end

mutual

/-- The scalars in a document, keys included. -/
def leaves : Json → List Json
  | array js => itemLeaves js
  | object ms => memberLeaves ms
  | j => [j]

/-- The scalars in the items of an array. -/
def itemLeaves : List Json → List Json
  | [] => []
  | j :: js => leaves j ++ itemLeaves js

/-- The scalars in the members of an object. -/
def memberLeaves : List (JsonText × Json) → List Json
  | [] => []
  | (k, j) :: ms => string k :: leaves j ++ memberLeaves ms

end

/-! ## Stretches of text -/

/-- Between the states `s` and `s'` the scanner reads `cs` and completes the tokens `ts`. -/
def Reads (s : Scan) (cs : List Char) (ts : List Token) (s' : Scan) : Prop :=
  ∀ done, cs.foldlM Scan.feed (done, s) = some (ts.reverse ++ done, s')

/-- The text `cs` has the tokens `ts`; the last of them may be complete only where the text ends. -/
def Yields (cs : List Char) (ts : List Token) : Prop :=
  ∃ before s last, Reads .between cs before s ∧ s.close = some last ∧ ts = before ++ last

/-- A character that ends words and numbers. -/
def Delimits (c : Char) : Prop := c.isAlpha = false ∧ isNumberChar c = false

instance (c : Char) : Decidable (Delimits c) := by unfold Delimits; infer_instance

section Stretches

variable {s s' s'' : Scan} {c : Char} {cs cs' : List Char} {ts ts' : List Token}

theorem Reads.nil : Reads s [] [] s := fun _ => rfl

theorem Reads.append (h : Reads s cs ts s') (h' : Reads s' cs' ts' s'') :
    Reads s (cs ++ cs') (ts ++ ts') s'' := by
  intro done
  rw [List.foldlM_append, h, Option.bind_eq_bind, Option.bind_some, h', List.reverse_append,
    List.append_assoc]

theorem Reads.cons (h : s.step c = some (ts, s')) (h' : Reads s' cs ts' s'') :
    Reads s (c :: cs) (ts ++ ts') s'' := by
  have hone : Reads s [c] ts s' := fun done => by simp [Scan.feed, h]
  exact hone.append h'

/-- A character that completes no token. -/
theorem Reads.quiet (h : s.step c = some ([], s')) (h' : Reads s' cs ts' s'') :
    Reads s (c :: cs) ts' s'' := .cons h h'

/-- What a delimiter does after an unfinished token, it does after the finished one. -/
theorem feed_of_close {last : List Token} (h : s.close = some last) (hc : Delimits c)
    (done : List Token) : Scan.feed (done, s) c = Scan.feed (last.reverse ++ done, .between) c := by
  cases s with
  | between =>
    obtain rfl := Option.some.inj h
    rfl
  | word letters =>
    simp only [Scan.feed, Scan.step, hc.1, h]
    cases Scan.begin c <;> simp
  | number digits =>
    simp only [Scan.feed, Scan.step, hc.2, h]
    cases Scan.begin c <;> simp
  | string o => cases h

theorem Reads.yields (h : Reads .between cs ts .between) (h' : Yields cs' ts') :
    Yields (cs ++ cs') (ts ++ ts') := by
  obtain ⟨before, s, last, hreads, hclose, rfl⟩ := h'
  exact ⟨_, s, last, h.append hreads, hclose, (List.append_assoc ..).symm⟩

theorem Yields.of_reads (h : Reads .between cs ts .between) : Yields cs ts :=
  ⟨ts, .between, [], h, rfl, (List.append_nil ts).symm⟩

/-- A text goes on after a delimiter. -/
theorem Yields.reads (h : Yields cs ts) (hc : Delimits c)
    (h' : Reads .between (c :: cs') ts' s') : Reads .between (cs ++ c :: cs') (ts ++ ts') s' := by
  obtain ⟨before, s, last, hreads, hclose, rfl⟩ := h
  have hlast : Reads s (c :: cs') (last ++ ts') s' := fun done => by
    rw [List.foldlM_cons, feed_of_close hclose hc, ← List.foldlM_cons, h', List.reverse_append,
      List.append_assoc]
  simpa using hreads.append hlast

theorem tokens?_of_yields (h : Yields cs ts) : tokens? cs = some ts := by
  obtain ⟨before, s, last, hreads, hclose, rfl⟩ := h
  simp [tokens?, hreads [], hclose]

end Stretches

theorem reads_newLine (depth : Nat) : Reads .between (newLine depth) [] .between := by
  refine .quiet rfl ?_
  induction 2 * depth with
  | zero => exact .nil
  | succ n ih => exact .quiet rfl ih

/-- What stands before a new line opens a container or goes on with one. -/
theorem reads_beforeLine {c : Char} {ts : List Token} (depth : Nat)
    (hc : Scan.begin c = some (ts, .between)) :
    Reads .between (c :: newLine depth) ts .between := by
  have hstep : Scan.step .between c = some (ts, .between) := hc
  simpa using Reads.cons hstep (reads_newLine depth)

/-- A container ends on a line of its own. -/
theorem Yields.closed {cs : List Char} {ts ts' : List Token} {c : Char} (h : Yields cs ts)
    (depth : Nat) (hc : Scan.begin c = some (ts', .between)) :
    Yields (cs ++ (newLine depth ++ [c])) (ts ++ ts') := by
  have hstep : Scan.step .between c = some (ts', .between) := hc
  have hclose : Reads .between (newLine depth ++ [c]) ([] ++ (ts' ++ [])) .between :=
    (reads_newLine depth).append (.cons hstep .nil)
  rw [List.append_nil] at hclose
  exact .of_reads (h.reads (by decide) hclose)

/-- A key, its colon and its value. -/
theorem Yields.member {cs : List Char} {ts : List Token} {k : JsonText}
    (hk : Yields (stringText k) [.string k]) (h : Yields cs ts) :
    Yields (stringText k ++ ':' :: ' ' :: cs) (.string k :: .colon :: ts) := by
  have hcolon : Reads .between [':', ' '] [.colon] .between := fun _ => rfl
  simpa using (hk.reads (by decide) hcolon).yields h

/-! ## Leaves -/

theorem yields_null : Yields ['n', 'u', 'l', 'l'] [.null] :=
  ⟨[], .word ['l', 'l', 'u', 'n'], [.null], fun _ => rfl, rfl, rfl⟩

theorem yields_boolean (b : Bool) : Yields (scalarText (.boolean b)) [.boolean b] := by
  cases b
  · exact ⟨[], .word ['e', 's', 'l', 'a', 'f'], [.boolean false], fun _ => rfl, rfl, rfl⟩
  · exact ⟨[], .word ['e', 'u', 'r', 't'], [.boolean true], fun _ => rfl, rfl, rfl⟩

/-- The string after its opening quote and the characters `cs`. -/
def OpenString.after (cs : List Char) : OpenString := ⟨cs.reverse, none, false, .plain⟩

theorem OpenString.push_after (cs : List Char) (c : Char) :
    (OpenString.after cs).push c = OpenString.after (cs ++ [c]) := by
  simp [OpenString.push, OpenString.after]

theorem OpenString.finish_after (cs : List Char) :
    (OpenString.after cs).finish = some (String.ofList cs) := by
  simp [OpenString.finish, OpenString.after]

/-- A control without an escape of its own is written by its code. -/
theorem reads_hexPair (cs : List Char) {n : Nat} (h : n < 0x20) :
    Reads (.string (.after cs)) ('\\' :: 'u' :: '0' :: '0' :: hexPair n) []
      (.string ((OpenString.after cs).push (Char.ofNat n))) := by
  intro done
  interval_cases n <;> rfl

theorem reads_escapeChar (cs : List Char) (c : Char) :
    Reads (.string (.after cs)) (escapeChar c) [] (.string (.after (cs ++ [c]))) := by
  rw [← OpenString.push_after]
  unfold escapeChar
  split
  case h_8 hquote hbackslash _ _ _ _ _ =>
    split_ifs with hcontrol
    · simpa using reads_hexPair cs hcontrol
    · refine .quiet ?_ .nil
      have hquote : (c == '"') = false := by simpa using hquote
      have hbackslash : (c == '\\') = false := by simpa using hbackslash
      simp [Scan.step, Scan.inString, OpenString.after, hquote, hbackslash, hcontrol]
  all_goals exact fun _ => rfl

theorem reads_escaped (cs ds : List Char) :
    Reads (.string (.after cs)) (ds.flatMap escapeChar) [] (.string (.after (cs ++ ds))) := by
  induction ds generalizing cs with
  | nil =>
    rw [List.append_nil]
    exact .nil
  | cons d ds ih =>
    rw [List.flatMap_cons, List.append_cons cs d ds]
    exact (reads_escapeChar cs d).append (ih (cs ++ [d]))

theorem reads_stringText (s : String) :
    Reads .between (stringText (some s)) [.string (some s)] .between := by
  have hopen : Scan.step .between '"' = some ([], .string (.after [])) := rfl
  have hclose : Scan.step (.string (.after s.toList)) '"'
      = some ([.string (some s)], .between) := by
    show some ([Token.string (OpenString.after s.toList).finish], Scan.between) = _
    rw [OpenString.finish_after, String.ofList_toList]
  exact .quiet hopen ((reads_escaped [] s.toList).append (.cons hclose .nil))

theorem begin_number {c : Char} (h : (c.isDigit || c == '-') = true) :
    Scan.begin c = some ([], .number [c]) := by
  have hne (d : Char) (hd : (d.isDigit || d == '-') = false) : (c == d) = false :=
    beq_eq_false_iff_ne.2 fun heq => by rw [heq, hd] at h; cases h
  have hblank : isBlank c = false := by simp [isBlank, hne]
  simp [Scan.begin, hblank, hne '"' rfl, h]

theorem reads_number {cs : List Char} (h : JsonNumber.NumberChars cs) (done : List Char) :
    Reads (.number done) cs [] (.number (cs.reverse ++ done)) := by
  induction cs generalizing done with
  | nil => exact .nil
  | cons c cs ih =>
    have hc : Scan.step (.number done) c = some ([], .number (c :: done)) := by
      simp [Scan.step, h c List.mem_cons_self]
    rw [List.reverse_cons, List.append_assoc]
    exact .quiet hc (ih (fun d hd => h d (List.mem_cons_of_mem _ hd)) (c :: done))

/-- A number whose text is read back has one token. -/
theorem yields_number {n : JsonNumber} (h : JsonNumber.ofText? n.text = some n) :
    Yields n.text [.number n] := by
  obtain ⟨hchars, c, cs, heq, hc⟩ := JsonNumber.numberChars_of_ofText h
  rw [heq] at h hchars ⊢
  have hcs : JsonNumber.NumberChars cs := fun d hd => hchars d (List.mem_cons_of_mem _ hd)
  refine ⟨[], .number (cs.reverse ++ [c]), [.number n], ?_, ?_, rfl⟩
  · exact .quiet (begin_number hc) (reads_number hcs [c])
  · simp [Scan.close, h]

/-! ## Documents -/

mutual

/-- The scanner takes the text of a document to its tokens, if it does so with the leaves. -/
theorem yields_prettyChars (depth : Nat) : ∀ j : Json,
    (∀ x ∈ leaves j, Yields (scalarText x) (tokens x)) → Yields (prettyChars depth j) (tokens j)
  | array [], _ => .of_reads fun _ => rfl
  | array (j :: js), h => by
    have hj := yields_prettyChars (depth + 1) j fun x hx => h x (List.mem_append_left _ hx)
    have hjs := yields_prettyItems (depth + 1) js (fun x hx => h x (List.mem_append_right _ hx)) hj
    have hopen : Reads .between ('[' :: newLine (depth + 1)) [.openArray] .between :=
      reads_beforeLine (depth + 1) rfl
    simpa [prettyChars, tokens] using (hopen.yields hjs).closed (c := ']') depth rfl
  | object [], _ => .of_reads fun _ => rfl
  | object ((k, j) :: ms), h => by
    have hk := h (string k) List.mem_cons_self
    have hrest : ∀ x ∈ leaves j ++ memberLeaves ms, Yields (scalarText x) (tokens x) :=
      fun x hx => h x (List.mem_cons_of_mem _ hx)
    have hj := yields_prettyChars (depth + 1) j fun x hx => hrest x (List.mem_append_left _ hx)
    have hms := yields_prettyMembers (depth + 1) ms
      (fun x hx => hrest x (List.mem_append_right _ hx)) (hk.member hj)
    have hopen : Reads .between ('\x7b' :: newLine (depth + 1)) [.openObject] .between :=
      reads_beforeLine (depth + 1) rfl
    simpa [prettyChars, tokens] using (hopen.yields hms).closed (c := '\x7d') depth rfl
  | null, h => h null (List.mem_singleton_self _)
  | boolean b, h => h (boolean b) (List.mem_singleton_self _)
  | number n, h => h (number n) (List.mem_singleton_self _)
  | string s, h => h (string s) (List.mem_singleton_self _)

theorem yields_prettyItems (depth : Nat) : ∀ js : List Json,
    (∀ x ∈ itemLeaves js, Yields (scalarText x) (tokens x)) → ∀ {cs ts}, Yields cs ts →
      Yields (cs ++ prettyItems depth js) (ts ++ itemTokens js)
  | [], _, _, _, hcs => by simpa [prettyItems, itemTokens] using hcs
  | j :: js, h, _, _, hcs => by
    have hj := yields_prettyChars depth j fun x hx => h x (List.mem_append_left _ hx)
    have hcomma : Reads .between (',' :: newLine depth) [.comma] .between :=
      reads_beforeLine depth rfl
    have hcs' := (hcs.reads (by decide) hcomma).yields hj
    have := yields_prettyItems depth js (fun x hx => h x (List.mem_append_right _ hx)) hcs'
    simpa [prettyItems, itemTokens] using this

theorem yields_prettyMembers (depth : Nat) : ∀ ms : List (JsonText × Json),
    (∀ x ∈ memberLeaves ms, Yields (scalarText x) (tokens x)) → ∀ {cs ts}, Yields cs ts →
      Yields (cs ++ prettyMembers depth ms) (ts ++ memberTokens ms)
  | [], _, _, _, hcs => by simpa [prettyMembers, memberTokens] using hcs
  | (k, j) :: ms, h, _, _, hcs => by
    have hk := h (string k) List.mem_cons_self
    have hrest : ∀ x ∈ leaves j ++ memberLeaves ms, Yields (scalarText x) (tokens x) :=
      fun x hx => h x (List.mem_cons_of_mem _ hx)
    have hj := yields_prettyChars depth j fun x hx => hrest x (List.mem_append_left _ hx)
    have hcomma : Reads .between (',' :: newLine depth) [.comma] .between :=
      reads_beforeLine depth rfl
    have hcs' := (hcs.reads (by decide) hcomma).yields (hk.member hj)
    have := yields_prettyMembers depth ms (fun x hx => hrest x (List.mem_append_right _ hx)) hcs'
    simpa [prettyMembers, memberTokens] using this

end

/-! ## From tokens to a document -/

open Reading

/-- The first item of an array is read like any value. -/
theorem foldlM_tokens_first (j : Json) (enclosing : List Context) :
    (tokens j).foldlM step ⟨.firstItem, enclosing⟩
      = (tokens j).foldlM step ⟨.value, .item [] :: enclosing⟩ := by
  have hcons : ∃ t ts, tokens j = t :: ts ∧ step ⟨.firstItem, enclosing⟩ t
      = step ⟨.value, .item [] :: enclosing⟩ t := by
    cases j with
    | array js => cases js <;> exact ⟨_, _, rfl, rfl⟩
    | object ms => rcases ms with _ | ⟨⟨k, j⟩, ms⟩ <;> exact ⟨_, _, rfl, rfl⟩
    | _ => exact ⟨_, _, rfl, rfl⟩
  obtain ⟨t, ts, heq, hstep⟩ := hcons
  rw [heq, List.foldlM_cons, List.foldlM_cons, hstep]

theorem deliver_item (v : Json) (done : List Json) (rest : List Context) :
    deliver v (.item done :: rest) = ⟨.afterItem (v :: done), rest⟩ := rfl

theorem deliver_member (v : Json) (done : List (JsonText × Json)) (k : JsonText)
    (rest : List Context) :
    deliver v (.member done k :: rest) = ⟨.afterMember ((k, v) :: done), rest⟩ := rfl

mutual

/-- The tokens of a document, where a value is expected, deliver the document. -/
theorem foldlM_tokens : ∀ (j : Json) (enclosing : List Context),
    (tokens j).foldlM step ⟨.value, enclosing⟩ = some (deliver j enclosing)
  | null, _ | boolean _, _ | number _, _ | string _, _ => rfl
  | array [], _ | object [], _ => rfl
  | array (j :: js), enclosing => by
    have hopen : step ⟨.value, enclosing⟩ .openArray = some ⟨.firstItem, enclosing⟩ := rfl
    have hclose (done : List Json) : step ⟨.afterItem done, enclosing⟩ .closeArray
        = some (deliver (.array done.reverse) enclosing) := rfl
    simp [tokens, hopen, foldlM_tokens_first, foldlM_tokens j, deliver_item, foldlM_itemTokens js,
      hclose]
  | object ((k, j) :: ms), enclosing => by
    have hopen : step ⟨.value, enclosing⟩ .openObject = some ⟨.firstKey, enclosing⟩ := rfl
    have hkey : step ⟨.firstKey, enclosing⟩ (.string k) = some ⟨.colon [] k, enclosing⟩ := rfl
    have hcolon : step ⟨.colon [] k, enclosing⟩ .colon
        = some ⟨.value, .member [] k :: enclosing⟩ := rfl
    have hclose (done : List (JsonText × Json)) : step ⟨.afterMember done, enclosing⟩ .closeObject
        = some (deliver (.object done.reverse) enclosing) := rfl
    simp [tokens, hopen, hkey, hcolon, foldlM_tokens j, deliver_member, foldlM_memberTokens ms,
      hclose]

theorem foldlM_itemTokens : ∀ (js done : List Json) (enclosing : List Context),
    (itemTokens js).foldlM step ⟨.afterItem done, enclosing⟩
      = some ⟨.afterItem (js.reverse ++ done), enclosing⟩
  | [], _, _ => rfl
  | j :: js, done, enclosing => by
    have hcomma : step ⟨.afterItem done, enclosing⟩ .comma
        = some ⟨.value, .item done :: enclosing⟩ := rfl
    simp [itemTokens, hcomma, foldlM_tokens j, deliver_item, foldlM_itemTokens js]

theorem foldlM_memberTokens : ∀ (ms done : List (JsonText × Json)) (enclosing : List Context),
    (memberTokens ms).foldlM step ⟨.afterMember done, enclosing⟩
      = some ⟨.afterMember (ms.reverse ++ done), enclosing⟩
  | [], _, _ => rfl
  | (k, j) :: ms, done, enclosing => by
    have hcomma : step ⟨.afterMember done, enclosing⟩ .comma = some ⟨.key done, enclosing⟩ := rfl
    have hkey : step ⟨.key done, enclosing⟩ (.string k) = some ⟨.colon done k, enclosing⟩ := rfl
    have hcolon : step ⟨.colon done k, enclosing⟩ .colon
        = some ⟨.value, .member done k :: enclosing⟩ := rfl
    simp [memberTokens, hcomma, hkey, hcolon, foldlM_tokens j, deliver_member,
      foldlM_memberTokens ms]

end

/-- A document whose leaves are read back is read back. -/
theorem ofText?_pretty {j : Json} (h : ∀ x ∈ leaves j, Yields (scalarText x) (tokens x)) :
    ofText? j.pretty = some j := by
  have htokens := tokens?_of_yields (yields_prettyChars 0 j h)
  simp [ofText?, pretty, htokens, Reading.start, foldlM_tokens, deliver, document?]

end ResumableVM.Json
