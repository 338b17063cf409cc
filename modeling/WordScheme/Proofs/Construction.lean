import Mathlib
import WordScheme.Proofs.Labels
import WordScheme.Proofs.Uses

/-!
# Functions under construction, step by step

A `Site` is a draft together with what the lowering knows about it and does not store: the registers
that can be used at the current place, and the blocks that were added and not yet entered. While a
conditional is half built, its arms and its merge block wait; conditionals inside its arms put more
blocks in front of them.

`Site.Step` lists what the lowering does to a site, one draft operation at a time, with the
circumstances in which it does so. Every fact about finished functions is an invariant of these
steps: `Site.Sound` is the one about control flow, `Site.Available` the one about registers.

Statements behind a terminator are dropped but take registers, so `seen` may list registers that no
statement defines; this happens only where the current block has ended.
-/

namespace WordScheme

open NameSupply FunctionDraft

/-- A block that has been added to a draft and not yet entered. -/
structure Waiting where
  ref : BlockRef
  /-- The registers that can be used from its start on. -/
  seen : List Nat
  /-- The blocks that branch to it, each with the operand it hands over. -/
  incoming : List (Operand × Name)

/-- A waiting block notes a branch to it, if it is among the targets, and the value handed over. -/
def Waiting.note (targets : List Name) (value : Operand) (source : Name) (x : Waiting) : Waiting :=
  if x.ref.label ∈ targets then { x with incoming := x.incoming ++ [(value, source)] } else x

/-- A draft, the registers that can be used at the current place, and the blocks that wait. -/
structure Site where
  draft : FunctionDraft
  seen : List Nat
  waiting : List Waiting

/-- The label of the merge block of a conditional. -/
def IsMergeLabel (label : Name) : Prop :=
  ∃ stem n, label = nth (stem ++ ".merge") n

namespace Site

/-- The labels of the blocks that wait. -/
def waitingLabels (p : Site) : List Name :=
  p.waiting.map fun x => x.ref.label

/-- The label of the current block. -/
def label (p : Site) : Name :=
  p.draft.currentBlock.label

/-- Whether an operand can be used at the current place. -/
def Sees (p : Site) (o : Operand) : Prop :=
  o.Within p.draft.params p.seen

/-! ### Steps -/

/-- An instruction is emitted; its register can be used from then on. -/
def emit (p : Site) (i : Instruction) : Site :=
  { p with draft := (p.draft.emit i).2, seen := (p.draft.registers + 1) :: p.seen }

/-- An instruction without result is emitted. -/
def emitEffect (p : Site) (i : Instruction) : Site :=
  { p with draft := p.draft.emitEffect i }

/-- The local names change. -/
def rescope (p : Site) (scope : Scope) : Site :=
  { p with draft := { p.draft with scope } }

/-- A function found in the body is noted. -/
def enqueue (p : Site) (f : PendingFunction) : Site :=
  { p with draft := p.draft.enqueue f }

/-- A block is added, in which everything can be used that can be used here. -/
def addBlock (p : Site) (base : Name) : Site :=
  { p with
    draft := (p.draft.addBlock base).2
    waiting := ⟨(p.draft.addBlock base).1, p.seen, []⟩ :: p.waiting }

/-- The current block ends, and hands a value over to the blocks it branches to. -/
def leave (p : Site) (t : Terminator) (value : Operand) : Site :=
  { p with
    draft := p.draft.endWith t
    waiting := p.waiting.map (Waiting.note t.successors value p.label) }

/-- A waiting block becomes the current one; the blocks `rest` go on waiting. -/
def enter (p : Site) (x : Waiting) (rest : List Waiting)
    (h : x.ref.index < p.draft.blocks.size) : Site :=
  ⟨p.draft.goTo x.ref.index h, x.seen, rest⟩

/-- One operation of the lowering on a site, in the circumstances in which it occurs. -/
inductive Step : Site → Site → Prop
  | emit {p : Site} {i : Instruction} (hphi : i.isPhi = false)
      (hsees : ∀ o ∈ i.operands, p.Sees o) : Step p (p.emit i)
  | emitEffect {p : Site} {i : Instruction} (hphi : i.isPhi = false)
      (hsees : ∀ o ∈ i.operands, p.Sees o) : Step p (p.emitEffect i)
  | rescope {p : Site} (scope : Scope) : Step p (p.rescope scope)
  | enqueue {p : Site} (f : PendingFunction) : Step p (p.enqueue f)
  | addBlock {p : Site} {base : Name} (hbase : Undigited base) : Step p (p.addBlock base)
  /-- The block ends in a `ret` or in branches to blocks that wait. -/
  | leave {p : Site} {t : Terminator} {value : Operand} (hlive : p.draft.terminated = false)
      (ht : t ≠ .unreachable) (hsees : ∀ o ∈ t.operands, p.Sees o) (hvalue : p.Sees value)
      (htargets : ∀ l ∈ t.successors, ∃ x ∈ p.waiting, x.ref.label = l ∧ x.seen ⊆ p.seen) :
      Step p (p.leave t value)
  /-- An arm is entered. -/
  | enter {p : Site} {x : Waiting} (before after : List Waiting) (hdone : p.draft.terminated = true)
      (hwaiting : p.waiting = before ++ x :: after) (hin : x.incoming ≠ [])
      (h : x.ref.index < p.draft.blocks.size) : Step p (p.enter x (before ++ after) h)
  /-- A merge block is entered to which some block branches: its phi comes first. -/
  | join {p : Site} {x : Waiting} (before after : List Waiting) (hdone : p.draft.terminated = true)
      (hwaiting : p.waiting = before ++ x :: after) (hin : x.incoming ≠ [])
      (h : x.ref.index < p.draft.blocks.size) :
      Step p ((p.enter x (before ++ after) h).emit (.phi .word x.incoming))
  /-- A merge block is entered to which no block branches: it ends at once. -/
  | abandon {p : Site} {x : Waiting} (before after : List Waiting)
      (hdone : p.draft.terminated = true) (hwaiting : p.waiting = before ++ x :: after)
      (hin : x.incoming = []) (hmerge : IsMergeLabel x.ref.label)
      (h : x.ref.index < p.draft.blocks.size) :
      Step p { p.enter x (before ++ after) h with
        draft := (p.draft.goTo x.ref.index h).endWith .unreachable }

/-- Any number of steps. -/
abbrev Steps : Site → Site → Prop :=
  Relation.ReflTransGen Step

end Site

end WordScheme
