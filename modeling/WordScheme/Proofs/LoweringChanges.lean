import Mathlib
import WordScheme.Proofs.CheckedLowering

/-!
# The changes that a lowering makes

`LowerState.Change V` lists the single changes that a composed lowering makes to its state. It is
finer than `LowerState.Move` in what it says of local names, labels and strings, and says nothing of
types. A lowering goes by changes also when it fails, up to the state in which it does:
`Composed.goesBy`. So an invariant of the state that every change keeps holds all along.

What is not of this kind is that no block is changed but the current one and those that are added,
since this tells where a lowering ends from where it began: `Composed.onward`.
-/

namespace WordScheme

open Lower NameSupply FunctionDraft

/-- The type of the bytes of a string, with its terminating zero. -/
def stringTy (value : String) : Ty :=
  .array (.int .i8) ((utf8Bytes value).length + 1)

/-- The instruction that takes the address of a string. -/
def stringAddress (name : Name) (value : String) : Instruction :=
  .elementPtr (stringTy value) (.global name (stringTy value)) (.word 0)

namespace LowerState

/-- A single change that a lowering makes to its state. -/
inductive Change (V : Vocabulary) : LowerState → LowerState → Prop
  | emit {s : LowerState} {i : Instruction} (h : i.isOrdinary = true) :
      Change V s { s with draft := (s.draft.emit i).2 }
  /-- The address of a string is taken once it has its constant. -/
  | address {s : LowerState} {value : String} {name : Name}
      (h : s.unit.strings.get? value = some name) :
      Change V s { s with draft := (s.draft.emit (stringAddress name value)).2 }
  | phi {s : LowerState} (incoming : List (Operand × Name)) :
      Change V s { s with draft := (s.draft.emit (.phi .word incoming)).2 }
  | store {s : LowerState} (value pointer : Operand) :
      Change V s { s with draft := s.draft.emitEffect (.store value pointer) }
  | terminate {s : LowerState} (t : Terminator) (hlive : s.draft.terminated = false) :
      Change V s { s with draft := s.draft.endWith t }
  | addBlock {s : LowerState} {base : Name} (h : Undigited base) :
      Change V s { s with draft := (s.draft.addBlock base).2 }
  | goTo {s : LowerState} (index : Nat) (h : index < s.draft.blocks.size) :
      Change V s { s with draft := s.draft.goTo index h }
  | push {s : LowerState} :
      Change V s { s with draft := { s.draft with scope := s.draft.scope.push } }
  | pop {s : LowerState} :
      Change V s { s with draft := { s.draft with scope := s.draft.scope.pop } }
  /-- A name is bound, to a cell if it is kept in one. -/
  | declare {s : LowerState} (name : Name) (b : Binding) (h : b.isSlot = V.cells.contains name) :
      Change V s { s with draft := { s.draft with scope := s.draft.scope.bind name b } }
  /-- A name that stood for a value stands for another. -/
  | rebind {s : LowerState} {name : Name} {old : Operand} (value : Operand) (h : V.assigns name)
      (hvalue : s.draft.scope.lookup? name = some (.value old)) :
      Change V s { s with draft :=
        { s.draft with scope := s.draft.scope.rebind name (.value value) } }
  /-- A parameter that is kept in a cell is moved there. -/
  | spill {s : LowerState} {name : Name} (pointer : Operand) (h : name ∈ V.cells) :
      Change V s { s with draft :=
        { s.draft with scope := s.draft.scope.rebind name (.slot pointer) } }
  | string {s : LowerState} {value : String} (h : V.strings value) :
      Change V s { s with unit := (s.unit.stringConstant value).2 }
  | array {s : LowerState} (length : Nat) :
      Change V s { s with unit := s.unit.ensure (arrayAlias length) }
  | library {s : LowerState} (f : LibraryFunction) :
      Change V s { s with unit := s.unit.ensure f.declaration }
  | lift {s : LowerState} {l : Lambda} (h : ∀ value ∈ stringsAll l.body, V.strings value) :
      Change V s (s.lift l)

/-- Any number of changes. -/
abbrev Changes (V : Vocabulary) : LowerState → LowerState → Prop :=
  Relation.ReflTransGen (Change V)

end LowerState

open LowerState

namespace Lower

/-- The state in which a lowering ends, whether it succeeds or fails. -/
def endState {α : Type} (m : Lower α) (s : LowerState) : LowerState :=
  match m s with
  | .ok _ t => t
  | .error _ t => t

/-- A lowering goes by changes, whether it succeeds or fails. -/
def GoesBy {α : Type} (V : Vocabulary) (m : Lower α) : Prop :=
  ∀ s, Changes V s (endState m s)

section Rules

variable {V : Vocabulary} {α β : Type} {m : Lower α} {s t : LowerState}

theorem endState_of_ok {a : α} (h : m s = .ok a t) : endState m s = t := by
  rw [endState, h]

/-- A run that succeeds goes by changes. -/
theorem GoesBy.ok (hm : GoesBy V m) {a : α} (h : m s = .ok a t) : Changes V s t :=
  endState_of_ok h ▸ hm s

/-- What comes after a lowering that succeeds. -/
theorem bind_of_ok {f : α → Lower β} {a : α} (h : m s = .ok a t) : (m >>= f) s = f a t := by
  rw [run_bind, h]

theorem terminated_eq {done : Bool} (h : s.draft.terminated = done) :
    terminated s = .ok done s := by
  subst h
  rfl

/-- A lowering that leaves its state alone. -/
theorem goesBy_of_eq (h : ∀ s, endState m s = s) : GoesBy V m := by
  intro s
  rw [h s]

theorem goesBy_pure (a : α) : GoesBy V (pure a) :=
  fun _ => .refl

/-- Lowerings that go by changes do so one after another. -/
private theorem GoesBy.bind {f : α → Lower β} (hm : GoesBy V m)
    (hf : ∀ a s t, m s = .ok a t → GoesBy V (f a)) : GoesBy V (m >>= f) := by
  intro s
  have hms := hm s
  rw [endState, run_bind]
  rw [endState] at hms
  cases hrun : m s with
  | ok a t =>
    rw [hrun] at hms
    exact hms.trans (hf a s t hrun t)
  | error e t =>
    rw [hrun] at hms
    exact hms

theorem GoesBy.andThen {f : α → Lower β} (hm : GoesBy V m) (hf : ∀ a, GoesBy V (f a)) :
    GoesBy V (m >>= f) :=
  hm.bind fun a _ _ _ => hf a

theorem goesBy_emit {i : Instruction} (h : i.isOrdinary = true) : GoesBy V (emit i) :=
  fun _ => .single (.emit h)

private theorem goesBy_terminate (t : Terminator) : GoesBy V (terminate t) := by
  intro s
  cases hlive : s.draft.terminated with
  | true =>
    rw [endState, terminate, tryDraft_eq, FunctionDraft.terminate, hlive]
    exact .refl
  | false =>
    rw [endState, terminate_eq hlive]
    exact .single (.terminate t hlive)

private theorem goesBy_moveTo (block : BlockRef) : GoesBy V (moveTo block) := by
  intro s
  by_cases hlt : block.index < s.draft.blocks.size
  · rw [endState, moveTo_eq hlt]
    exact .single (.goTo block.index hlt)
  · rw [endState, moveTo, tryDraft_eq, FunctionDraft.moveTo, dif_neg hlt]

/-- A new block is a change if the base of its label has no digits. -/
private theorem goesBy_addBlock {base : Name} (h : Undigited base) : GoesBy V (addBlock base) :=
  fun _ => .single (.addBlock h)

/-- The fork of a conditional goes by changes. -/
theorem goesBy_fork {stem : String} (hstem : Undigited stem) (condition : Operand) :
    GoesBy V (fork stem condition) := by
  refine (goesBy_emit rfl).andThen fun flag => ?_
  refine (goesBy_addBlock (hstem.append (by simp [Undigited]))).andThen fun thenBlock => ?_
  refine (goesBy_addBlock (hstem.append (by simp [Undigited]))).andThen fun elseBlock => ?_
  refine (goesBy_addBlock (hstem.append (by simp [Undigited]))).andThen fun merge => ?_
  exact (goesBy_terminate _).andThen fun _ => goesBy_pure _

theorem goesBy_enterArm (block : BlockRef) : GoesBy V (enterArm block) :=
  (goesBy_moveTo block).andThen fun _ _ => .single .push

theorem goesBy_leaveArm (merge : BlockRef) (value : Operand) : GoesBy V (leaveArm merge value) := by
  have hpop : GoesBy V (onScope Scope.pop) := fun _ => .single .pop
  refine hpop.andThen fun _ => (goesBy_of_eq fun _ => rfl).andThen fun done => ?_
  split
  · exact goesBy_pure _
  · refine (goesBy_of_eq fun _ => rfl).andThen fun last => ?_
    exact (goesBy_terminate _).andThen fun _ => goesBy_pure _

theorem goesBy_join (merge : BlockRef) (incoming : List (Operand × Name)) :
    GoesBy V (join merge incoming) := by
  refine (goesBy_moveTo merge).andThen fun _ => ?_
  split
  · exact (goesBy_terminate _).andThen fun _ => goesBy_pure _
  · exact fun _ => .single (.phi _)

/-- An arm that is lowered by changes goes by changes as a whole. -/
theorem GoesBy.lowerArm {arm : Lower Operand} (harm : GoesBy V arm) (block merge : BlockRef) :
    GoesBy V (lowerArm block merge arm) := by
  rw [lowerArm_eq]
  exact (goesBy_enterArm block).andThen fun _ => harm.andThen fun v => goesBy_leaveArm merge v

/-- A conditional whose arms go by changes does so itself. -/
theorem GoesBy.lowerBranches {stem : String} (hstem : Undigited stem) (condition : Operand)
    {positive negative : Lower Operand} (hpos : GoesBy V positive) (hneg : GoesBy V negative) :
    GoesBy V (lowerBranches stem condition positive negative) := by
  rw [lowerBranches_eq]
  refine (goesBy_of_eq fun _ => rfl).andThen fun done => ?_
  split
  · exact goesBy_pure _
  · refine (goesBy_fork hstem condition).andThen fun blocks => ?_
    rw [joinArms_eq]
    refine (hpos.lowerArm _ _).andThen fun fromThen => ?_
    exact (hneg.lowerArm _ _).andThen fun fromElse => goesBy_join _ _

/-- Reading something off the draft changes nothing. -/
private theorem endState_ofDraft_bind (g : FunctionDraft → α) (f : α → Lower β) (s : LowerState) :
    endState (ofDraft g >>= f) s = endState (f (g s.draft)) s := by
  rw [endState, run_bind]
  rfl

/-- An assignment that the vocabulary has goes by changes. -/
theorem goesBy_assignment {name : Name} (value : Operand) (h : V.assigns name) :
    GoesBy V (lowerAssignment name value) := by
  intro s
  rw [lowerAssignment, local?, endState_ofDraft_bind]
  cases hlookup : s.draft.scope.lookup? name with
  | some b =>
    cases b with
    | value old => exact .single (.rebind value h hlookup)
    | slot pointer => exact .single (.store value pointer)
  | none =>
    change Changes V s (endState (assignGlobal name value) s)
    rw [assignGlobal, global?, endState_ofDraft_bind]
    split
    · exact .single (.store value _)
    · exact .refl
    · exact .refl

/-- The states that lowering a string goes through. -/
theorem lowerLiteral_string_eq (value : String) (s : LowerState) :
    ∃ name, (s.unit.stringConstant value).2.strings.get? value = some name ∧
      lowerLiteral (.string value) s =
        let address := s.draft.emit (stringAddress name value)
        let word := address.2.emit (.ofPointer address.1)
        .ok word.1 ⟨(s.unit.stringConstant value).2, word.2⟩ := by
  refine ⟨_, get?_stringConstant s.unit value, ?_⟩
  have hty : (s.unit.stringConstant value).1.2 = stringTy value := ty_stringConstant s.unit value
  rw [stringAddress, ← hty]
  rfl

/-- A string that the vocabulary has is lowered by changes. -/
private theorem goesBy_string {value : String} (h : V.strings value) :
    GoesBy V (lowerLiteral (.string value)) := by
  intro s
  obtain ⟨name, hname, hrun⟩ := lowerLiteral_string_eq value s
  rw [endState_of_ok hrun]
  have hconstant : Change V s { s with unit := (s.unit.stringConstant value).2 } := .string h
  exact ((Relation.ReflTransGen.single hconstant).tail (.address hname)).tail (.emit rfl)

private theorem goesBy_store (value pointer : Operand) : GoesBy V (store value pointer) :=
  fun _ => .single (.store value pointer)

/-- **A composed lowering goes by changes.** -/
theorem Composed.goesBy {ε : Effect} (h : Composed V ε m) : GoesBy V m := by
  induction h with
  | pure a => exact goesBy_pure a
  | throw e => exact goesBy_of_eq fun _ => rfl
  | bind _ _ ihm ihf => exact ihm.bind ihf
  | unlessLeft a _ ih =>
    refine (goesBy_of_eq fun _ => rfl).andThen fun done => ?_
    split
    · exact goesBy_pure a
    · exact ih
  | local? name => exact goesBy_of_eq fun _ => rfl
  | global? name => exact goesBy_of_eq fun _ => rfl
  | emit h => exact goesBy_emit h
  | store value pointer => exact goesBy_store value pointer
  | declare name b h => exact fun _ => .single (.declare name b h)
  | assign value h => exact goesBy_assignment value h
  | lift h => exact fun _ => .single (.lift h)
  | string h => exact goesBy_string h
  | array length => exact fun _ => .single (.array length)
  | library f => exact fun _ => .single (.library f)
  | returning value =>
    refine (goesBy_of_eq fun _ => rfl).andThen fun done => ?_
    cases done with
    | true => exact goesBy_pure _
    | false => exact goesBy_terminate _
  | branches hstem condition _ _ ihpos ihneg => exact .lowerBranches hstem condition ihpos ihneg

theorem goesBy_spillParams (names : List Name) : GoesBy V (spillParams V.cells names) := by
  induction names with
  | nil => exact goesBy_pure ()
  | cons name names ih =>
    rw [spillParams]
    split
    · next hcell =>
      have hname : name ∈ V.cells := List.contains_iff_mem.mp hcell
      refine (goesBy_emit rfl).andThen fun pointer => (goesBy_store _ _).andThen fun _ => ?_
      have hspill : GoesBy V (onScope (·.rebind name (.slot pointer))) :=
        fun _ => .single (.spill pointer hname)
      exact hspill.andThen fun _ => ih
    · exact ih

end Rules

end Lower

/-! ### Operations that succeed -/

namespace LowerState

/-- The state in which an arm begins. -/
def entered (s : LowerState) (index : Nat) (h : index < s.draft.blocks.size) : LowerState :=
  ⟨s.unit, { s.draft.goTo index h with scope := s.draft.scope.push }⟩

/-- The state in which the frame of an arm has been closed. -/
def left (s : LowerState) : LowerState :=
  ⟨s.unit, { s.draft with scope := s.draft.scope.pop }⟩

end LowerState

namespace Lower

section Conditionals

variable {s t : LowerState} {block merge : BlockRef} {arm positive negative : Lower Operand}
  {stem : String} {condition value : Operand} {incoming : List (Operand × Name)}

/-- An assignment that succeeds stores its value, or binds the name anew. -/
theorem cases_of_assignment {name : Name} {u : Unit} (h : lowerAssignment name value s = .ok u t) :
    (∃ pointer, t = { s with draft := s.draft.emitEffect (.store value pointer) }) ∨
    (∃ old, s.draft.scope.lookup? name = some (.value old) ∧
      t = { s with draft := { s.draft with
        scope := s.draft.scope.rebind name (.value value) } }) := by
  have hlocal : local? name s = .ok (s.draft.scope.lookup? name) s := rfl
  have hglobal : global? name s = .ok (s.draft.globals.get? name) s := rfl
  rw [lowerAssignment, bind_of_ok hlocal] at h
  cases hlookup : s.draft.scope.lookup? name with
  | some b =>
    rw [hlookup] at h
    cases b with
    | value old =>
      cases h
      exact .inr ⟨old, rfl, rfl⟩
    | slot pointer =>
      cases h
      exact .inl ⟨pointer, rfl⟩
  | none =>
    rw [hlookup] at h
    change assignGlobal name value s = _ at h
    rw [assignGlobal, bind_of_ok hglobal] at h
    cases hkind : s.draft.globals.get? name with
    | none =>
      rw [hkind] at h
      cases h
    | some kind =>
      rw [hkind] at h
      cases kind with
      | function arity => cases h
      | var =>
        cases h
        exact .inl ⟨_, rfl⟩

/-- What follows is left out where the function has been left, and nothing else. -/
theorem cases_of_unlessLeft {α : Type} {m : Lower α} {a b : α}
    (h : (terminated >>= fun done => if done then pure a else m) s = .ok b t) :
    (s.draft.terminated = true ∧ b = a ∧ t = s) ∨
      (s.draft.terminated = false ∧ m s = .ok b t) := by
  cases hlive : s.draft.terminated with
  | true =>
    rw [bind_of_ok (terminated_eq hlive)] at h
    cases h
    exact .inl ⟨rfl, rfl, rfl⟩
  | false =>
    rw [bind_of_ok (terminated_eq hlive)] at h
    exact .inr ⟨rfl, h⟩

/-- A return ends an open block, and behind a terminator it does nothing. -/
theorem cases_of_returning {u : Unit} (h : returning value s = .ok u t) :
    t = s ∨
      (s.draft.terminated = false ∧ t = { s with draft := s.draft.endWith (.ret value) }) := by
  cases hlive : s.draft.terminated with
  | true =>
    rw [returning, bind_of_ok (terminated_eq hlive)] at h
    cases h
    exact .inl rfl
  | false =>
    rw [returning, bind_of_ok (terminated_eq hlive)] at h
    change terminate _ s = _ at h
    rw [terminate_eq hlive] at h
    cases h
    exact .inr ⟨rfl, rfl⟩

/-- An arm is entered if its block is there. -/
theorem enterArm_eq (h : block.index < s.draft.blocks.size) :
    enterArm block s = .ok () (s.entered block.index h) := by
  rw [enterArm, bind_of_ok (moveTo_eq h)]
  rfl

/-- A move succeeds only to a block that is there. -/
private theorem lt_of_moveTo {u : Unit} (h : moveTo block s = .ok u t) :
    block.index < s.draft.blocks.size := by
  by_contra hlt
  rw [moveTo, tryDraft_eq, FunctionDraft.moveTo, dif_neg hlt] at h
  cases h

/-- Leaving an arm closes its frame, and leads to the merge block unless the function was left. -/
theorem cases_of_leaveArm (h : leaveArm merge value s = .ok incoming t) :
    (s.left.draft.terminated = true ∧ incoming = [] ∧ t = s.left) ∨
    (s.left.draft.terminated = false ∧
      incoming = [(value, s.left.draft.currentBlock.label)] ∧
      t = ⟨s.unit, s.left.draft.endWith (.branch merge.label)⟩) := by
  have hpop : onScope Scope.pop s = .ok () s.left := rfl
  have hlast : ofDraft currentRef s.left = .ok s.left.draft.currentRef s.left := rfl
  cases hlive : s.left.draft.terminated with
  | true =>
    rw [leaveArm, bind_of_ok hpop, bind_of_ok (terminated_eq hlive)] at h
    cases h
    exact .inl ⟨rfl, rfl, rfl⟩
  | false =>
    rw [leaveArm, bind_of_ok hpop, bind_of_ok (terminated_eq hlive)] at h
    change (ofDraft currentRef >>= _) s.left = _ at h
    rw [bind_of_ok hlast, bind_of_ok (terminate_eq hlive _)] at h
    cases h
    exact .inr ⟨rfl, rfl, rfl⟩

/-- Joining goes on in the merge block, which is marked as unreachable if no arm leads there. -/
theorem cases_of_join (h : join merge incoming s = .ok value t) :
    ∃ hlt : merge.index < s.draft.blocks.size,
      (incoming = [] ∧ value = .word 0 ∧ (s.draft.goTo merge.index hlt).terminated = false ∧
        t = ⟨s.unit, (s.draft.goTo merge.index hlt).endWith .unreachable⟩) ∨
      (incoming ≠ [] ∧ value = ((s.draft.goTo merge.index hlt).emit (.phi .word incoming)).1 ∧
        t = ⟨s.unit, ((s.draft.goTo merge.index hlt).emit (.phi .word incoming)).2⟩) := by
  obtain ⟨_, d, hmoved, h⟩ := exists_of_bind h
  have hlt := lt_of_moveTo hmoved
  rw [moveTo_eq hlt] at hmoved
  cases hmoved
  refine ⟨hlt, ?_⟩
  cases incoming with
  | nil =>
    obtain ⟨_, e, hended, h⟩ := exists_of_bind h
    cases hlive : (s.draft.goTo merge.index hlt).terminated with
    | true =>
      rw [terminate, tryDraft_eq, FunctionDraft.terminate, hlive] at hended
      cases hended
    | false =>
      rw [terminate_eq hlive] at hended
      cases hended
      cases h
      exact .inl ⟨rfl, rfl, rfl, rfl⟩
  | cons x xs =>
    cases h
    exact .inr ⟨List.cons_ne_nil _ _, rfl, rfl⟩

/-- An arm that is lowered begins in its block, and when it ends its frame is closed. -/
theorem exists_of_lowerArm (h : lowerArm block merge arm s = .ok incoming t) :
    ∃ hlt value r, arm (s.entered block.index hlt) = .ok value r ∧
      leaveArm merge value r = .ok incoming t := by
  rw [lowerArm_eq] at h
  obtain ⟨_, e, hentered, h⟩ := exists_of_bind h
  obtain ⟨_, d, hmoved, -⟩ := exists_of_bind hentered
  have hlt := lt_of_moveTo hmoved
  rw [enterArm_eq hlt] at hentered
  cases hentered
  obtain ⟨value, r, harm, h⟩ := exists_of_bind h
  exact ⟨hlt, value, r, harm, h⟩

/-- A conditional that is lowered behind the end of its block does nothing; any other forks, and
its arms join. -/
theorem cases_of_lowerBranches
    (h : lowerBranches stem condition positive negative s = .ok value t) :
    (s.draft.terminated = true ∧ value = .word 0 ∧ t = s) ∨
    (s.draft.terminated = false ∧ ∃ thenBlock elseBlock merge forked fromThen mid fromElse last,
      fork stem condition s = .ok (thenBlock, elseBlock, merge) forked ∧
      Forked thenBlock elseBlock merge s forked ∧
      lowerArm thenBlock merge positive forked = .ok fromThen mid ∧
      lowerArm elseBlock merge negative mid = .ok fromElse last ∧
      join merge (fromThen ++ fromElse) last = .ok value t) := by
  rw [lowerBranches_eq] at h
  cases hlive : s.draft.terminated with
  | true =>
    rw [bind_of_ok (terminated_eq hlive)] at h
    cases h
    exact .inl ⟨rfl, rfl, rfl⟩
  | false =>
    rw [bind_of_ok (terminated_eq hlive)] at h
    obtain ⟨thenBlock, elseBlock, merge, forked, hfork, hforked⟩ :=
      exists_forked hlive stem condition
    change (fork stem condition >>= _) s = _ at h
    rw [bind_of_ok hfork] at h
    obtain ⟨fromThen, mid, hthen, h⟩ := exists_of_bind h
    obtain ⟨fromElse, last, helse, h⟩ := exists_of_bind h
    exact .inr ⟨rfl, thenBlock, elseBlock, merge, forked, fromThen, mid, fromElse, last, hfork,
      hforked, hthen, helse, h⟩

end Conditionals

/-! ### Blocks -/

section Blocks

variable {V : Vocabulary} {α : Type} {m : Lower α} {s t : LowerState} {block merge : BlockRef}
  {arm positive negative : Lower Operand} {stem : String} {condition value : Operand}
  {incoming : List (Operand × Name)}

/-- If a lowering succeeds, no block is changed but the current one and those that it adds. -/
def GoesOnward (m : Lower α) : Prop :=
  ∀ s a t, m s = .ok a t → s.draft.Onward t.draft

/-- What changes nothing changes no other block. -/
theorem goesOnward_of_eq (h : ∀ s, endState m s = s) : GoesOnward m := by
  intro s a t hrun
  rw [← endState_of_ok hrun, h s]
  exact .refl _

/-- Leaving an arm changes the current block alone. -/
private theorem onward_leaveArm (h : leaveArm merge value s = .ok incoming t) :
    s.draft.Onward t.draft := by
  have hleft : s.draft.Onward s.left.draft := onward_of_eq rfl rfl
  rcases cases_of_leaveArm h with ⟨-, -, rfl⟩ | ⟨-, -, rfl⟩
  · exact hleft
  · exact hleft.trans ⟨keepsBut_updateCurrent s.left.draft _, .inl rfl⟩

/-- An arm changes its own block, and none that was there before it but this one. -/
theorem keepsBut_lowerArm (harm : GoesOnward arm)
    (h : lowerArm block merge arm s = .ok incoming t) :
    s.draft.KeepsBut block.index t.draft := by
  obtain ⟨hlt, value, r, hrun, hleft⟩ := exists_of_lowerArm h
  have honward := (harm _ _ _ hrun).trans (onward_leaveArm hleft)
  exact ⟨honward.keeps.size_le, honward.keeps.kept⟩

/-- Joining changes the merge block only, and goes on there. -/
private theorem keepsBut_join (h : join merge incoming s = .ok value t) :
    s.draft.KeepsBut merge.index t.draft ∧ t.draft.current = merge.index := by
  obtain ⟨hlt, ⟨-, -, -, rfl⟩ | ⟨-, -, rfl⟩⟩ := cases_of_join h
  · have hkeeps := keepsBut_updateCurrent (s.draft.goTo merge.index hlt)
      fun b => { b with terminator := some .unreachable }
    exact ⟨⟨hkeeps.size_le, hkeeps.kept⟩, rfl⟩
  · have hkeeps := (onward_emit (s.draft.goTo merge.index hlt) (.phi .word incoming)).keeps
    exact ⟨⟨hkeeps.size_le, hkeeps.kept⟩, append_current _ _⟩

/-- A conditional changes the current block, and those that it and its arms add. -/
private theorem GoesOnward.lowerBranches (hpos : GoesOnward positive) (hneg : GoesOnward negative) :
    GoesOnward (lowerBranches stem condition positive negative) := by
  intro s value t h
  rcases cases_of_lowerBranches h with ⟨-, -, rfl⟩ | ⟨-, thenBlock, elseBlock, merge, forked,
    fromThen, mid, fromElse, last, -, hforked, hthen, helse, hjoin⟩
  · exact .refl _
  · have hle := hforked.le_then
    have hthenlt := hforked.then_lt
    have helselt := hforked.else_lt
    obtain ⟨hjoined, hcurrent⟩ := keepsBut_join hjoin
    -- the blocks of the arms and of the join are new
    have hmid := hforked.names.keeps.trans (keepsBut_lowerArm hpos hthen) (.inr hle)
    have hlast := hmid.trans (keepsBut_lowerArm hneg helse) (.inr (by omega))
    exact ⟨hlast.trans hjoined (.inr (by omega)), .inr (by omega)⟩

/-- **A composed lowering leaves all blocks alone that it finds**, save the current one. -/
theorem Composed.onward {ε : Effect} (h : Composed V ε m) : GoesOnward m := by
  induction h with
  | pure a => exact goesOnward_of_eq fun _ => rfl
  | throw e => exact goesOnward_of_eq fun _ => rfl
  | bind _ _ ihm ihf =>
    intro s b u hrun
    obtain ⟨a, t, hm, hf⟩ := exists_of_bind hrun
    exact (ihm s a t hm).trans (ihf a s t hm t b u hf)
  | unlessLeft a _ ih =>
    intro s b t hrun
    rcases cases_of_unlessLeft hrun with ⟨-, -, rfl⟩ | ⟨-, hrun⟩
    · exact .refl _
    · exact ih s b t hrun
  | local? name => exact goesOnward_of_eq fun _ => rfl
  | global? name => exact goesOnward_of_eq fun _ => rfl
  | emit h =>
    intro s a t hrun
    cases hrun
    exact onward_emit _ _
  | store value pointer =>
    intro s a t hrun
    cases hrun
    exact onward_append _ _
  | declare name b h =>
    intro s a t hrun
    cases hrun
    exact onward_of_eq rfl rfl
  | assign value h =>
    intro s a t hrun
    rcases cases_of_assignment hrun with ⟨pointer, rfl⟩ | ⟨old, -, rfl⟩
    · exact onward_append _ _
    · exact onward_of_eq rfl rfl
  | lift h =>
    intro s a t hrun
    cases hrun
    exact onward_of_eq rfl rfl
  | @string value h =>
    intro s a t hrun
    obtain ⟨name, -, heq⟩ := lowerLiteral_string_eq value s
    rw [heq] at hrun
    cases hrun
    exact (onward_emit _ _).trans (onward_emit _ _)
  | array length =>
    intro s a t hrun
    cases hrun
    exact .refl _
  | library f =>
    intro s a t hrun
    cases hrun
    exact .refl _
  | returning value =>
    intro s a t hrun
    rcases cases_of_returning hrun with rfl | ⟨-, rfl⟩
    · exact .refl _
    · exact ⟨keepsBut_updateCurrent _ _, .inl rfl⟩
  | branches hstem condition _ _ ihpos ihneg => exact ihpos.lowerBranches ihneg

end Blocks

end Lower

end WordScheme
