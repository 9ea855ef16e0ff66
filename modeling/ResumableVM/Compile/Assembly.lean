import ResumableVM.Code.Basic

/-! # Assembly: code before its addresses are known

A block is laid out without knowing where it will stand: jumps name blocks, a branch skips a number
of lines, and questions have no resumption point yet. `Assembly.link` gives every line its address:
the jump to a block becomes the jump to its first line, and the questions are numbered from 1 in
order of their addresses. -/

namespace ResumableVM

/-- One instruction whose addresses are open. -/
inductive Line where
  | instr (i : Instr)
  | ask (question : Question)
  /-- A jump to a block. -/
  | jump (block : Nat)
  /-- Unless the condition holds, skip a number of lines. -/
  | skipUnless (cond : SlotRef) (count : Nat)
deriving DecidableEq

namespace Assembly

/-- The address of the first line of each block, from the address of the first block on. -/
def starts (address : Nat) : List (List Line) → List Nat
  | [] => []
  | block :: blocks => address :: starts (address + block.length) blocks

/-- The instruction at an address, where `point` is the next resumption point. -/
def linkLine (blockStarts : List Nat) (address point : Nat) : Line → Instr
  | .instr i => i
  | .ask question => .ask question point
  | .jump block => .jump (blockStarts[block]?.getD 0)
  | .skipUnless cond count => .jumpIfFalse cond (address + 1 + count)

/-- The next resumption point after a line. -/
def nextPoint (point : Nat) : Line → Nat
  | .ask _ => point + 1
  | _ => point

/-- The instructions of some lines from an address and a resumption point on. -/
def link (blockStarts : List Nat) (address point : Nat) : List Line → List Instr
  | [] => []
  | line :: lines =>
    linkLine blockStarts address point line ::
      link blockStarts (address + 1) (nextPoint point line) lines

theorem length_link (blockStarts : List Nat) (address point : Nat) (lines : List Line) :
    (link blockStarts address point lines).length = lines.length := by
  induction lines generalizing address point with
  | nil => rfl
  | cons line lines ih => simp [link, ih]

/-- The addresses at which the questions of some lines receive their answers. -/
def answerAddresses (address : Nat) : List Line → List Nat
  | [] => []
  | .ask _ :: lines => (address + 1) :: answerAddresses (address + 1) lines
  | _ :: lines => answerAddresses (address + 1) lines

/-- The resumption table of some lines; without a question there is none. -/
def resumeTable (lines : List Line) : Option (Array Nat) :=
  let targets := answerAddresses 0 lines
  if targets.isEmpty then none else some (0 :: targets).toArray

end Assembly

end ResumableVM
