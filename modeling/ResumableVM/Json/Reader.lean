import ResumableVM.Json.Token

/-! # Json reader: from tokens to a tree

`Reading` is a partly read document: what may come next, and the containers that enclose it. A token
either opens a container, completes a value, or is out of place; a completed value is delivered to
the innermost open container, and the document is complete when no container is open. -/

namespace ResumableVM.Json

/-- An open container whose next value is being read; what it holds so far is in reverse. -/
inductive Context where
  | item (done : List Json)
  | member (done : List (JsonText × Json)) (key : JsonText)

/-- What may come next inside the innermost open container. -/
inductive Goal where
  /-- A value. -/
  | value
  /-- The first value of an array, or its end. -/
  | firstItem
  /-- After a value in an array: a comma, or the end. -/
  | afterItem (done : List Json)
  /-- The first key of an object, or its end. -/
  | firstKey
  /-- Another key. -/
  | key (done : List (JsonText × Json))
  /-- The colon after a key. -/
  | colon (done : List (JsonText × Json)) (key : JsonText)
  /-- After a member of an object: a comma, or the end. -/
  | afterMember (done : List (JsonText × Json))
  /-- Nothing: the document is complete. -/
  | finished (document : Json)

/-- A partly read document. -/
structure Reading where
  goal : Goal
  enclosing : List Context

namespace Reading

/-- Nothing has been read. -/
def start : Reading := ⟨.value, []⟩

/-- A complete value reaches the innermost open container. -/
def deliver (v : Json) : List Context → Reading
  | [] => ⟨.finished v, []⟩
  | .item done :: rest => ⟨.afterItem (v :: done), rest⟩
  | .member done key :: rest => ⟨.afterMember ((key, v) :: done), rest⟩

/-- A token where a value is expected. -/
def takeValue (enclosing : List Context) : Token → Option Reading
  | .null => some (deliver .null enclosing)
  | .boolean b => some (deliver (.boolean b) enclosing)
  | .number n => some (deliver (.number n) enclosing)
  | .string s => some (deliver (.string s) enclosing)
  | .openArray => some ⟨.firstItem, enclosing⟩
  | .openObject => some ⟨.firstKey, enclosing⟩
  | _ => none

/-- One token. -/
def step (r : Reading) (t : Token) : Option Reading :=
  match r.goal, t with
  | .value, t => takeValue r.enclosing t
  | .firstItem, .closeArray => some (deliver (.array []) r.enclosing)
  | .firstItem, t => takeValue (.item [] :: r.enclosing) t
  | .afterItem done, .comma => some ⟨.value, .item done :: r.enclosing⟩
  | .afterItem done, .closeArray => some (deliver (.array done.reverse) r.enclosing)
  | .firstKey, .closeObject => some (deliver (.object []) r.enclosing)
  | .firstKey, .string k => some ⟨.colon [] k, r.enclosing⟩
  | .key done, .string k => some ⟨.colon done k, r.enclosing⟩
  | .colon done k, .colon => some ⟨.value, .member done k :: r.enclosing⟩
  | .afterMember done, .comma => some ⟨.key done, r.enclosing⟩
  | .afterMember done, .closeObject => some (deliver (.object done.reverse) r.enclosing)
  | _, _ => none

/-- The document, when it is complete. -/
def document? (r : Reading) : Option Json :=
  match r.goal with
  | .finished v => some v
  | _ => none

end Reading

/-- The document with a given text. -/
def ofText? (s : String) : Option Json := do
  let tokens ← tokens? s.toList
  let r ← tokens.foldlM Reading.step Reading.start
  r.document?

end ResumableVM.Json
