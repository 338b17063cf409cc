import Mathlib
import WordScheme.Proofs.Effects
import WordScheme.Proofs.Labels

/-!
# How a lowering is put together

`Lower.Composed V ε m` says that `m` is put together from the operations of the lowering: it emits
instructions, binds and assigns names, lifts lambdas, takes the addresses of strings, returns, and
branches into arms that are put together in the same way. The vocabulary `V` has the names that are
kept in cells, those that may be assigned to, and the strings that may occur; the effect `ε` is what
`m` does besides giving a value. This file shows it of the parts of the lowering that do not
recurse, and `lower_composed` of all expressions. So what is proved by one rule for each operation
holds of every lowering.

The equations of this file put the cases of `lower` into the form in which proofs use them.
Conditionals are taken apart by `lowerBranches_eq` and, behind their fork, by `joinArms_eq` and
`lowerArm_eq`: two arms that are entered and left, and a join.
-/

namespace WordScheme

open Lower NameSupply

/-! ### Runs -/

/-- One step after another. -/
theorem Lower.run_bind {α β : Type} (m : Lower α) (f : α → Lower β) (s : LowerState) :
    (m >>= f) s = match m s with
      | .ok a t => f a t
      | .error e t => .error e t := by
  change EStateM.bind m f s = _
  rw [EStateM.bind]
  cases m s <;> rfl

/-- Two steps that succeed, one after the other. -/
theorem Lower.exists_of_bind {α β : Type} {m : Lower α} {f : α → Lower β} {s u : LowerState} {b : β}
    (hrun : (m >>= f) s = .ok b u) : ∃ a t, m s = .ok a t ∧ f a t = .ok b u := by
  rw [run_bind] at hrun
  cases hm : m s with
  | error e t =>
    rw [hm] at hrun
    cases hrun
  | ok a t =>
    rw [hm] at hrun
    exact ⟨a, t, rfl, hrun⟩

/-! ### Vocabularies -/

/-- What a lowering may refer to. -/
structure Vocabulary where
  /-- The names that are kept in cells. -/
  cells : List Name
  /-- The names that may be assigned to. -/
  assigns : Name → Prop
  /-- The strings that may occur, also in the functions that are found. -/
  strings : String → Prop

/-- The vocabulary has these assigned names and these strings. -/
structure Vocabulary.Covers (V : Vocabulary) (assigned : List Name) (strings : List String) :
    Prop where
  assigned : ∀ name ∈ assigned, V.assigns name
  strings : ∀ value ∈ strings, V.strings value

/-- A vocabulary covers two lists together when it covers each of them. -/
theorem Vocabulary.covers_append {V : Vocabulary} {as bs : List Name} {ss ts : List String} :
    V.Covers (as ++ bs) (ss ++ ts) ↔ V.Covers as ss ∧ V.Covers bs ts := by
  constructor
  · rintro ⟨ha, hs⟩
    rw [List.forall_mem_append] at ha hs
    exact ⟨⟨ha.1, hs.1⟩, ⟨ha.2, hs.2⟩⟩
  · rintro ⟨⟨ha, hs⟩, ⟨hb, ht⟩⟩
    exact ⟨List.forall_mem_append.mpr ⟨ha, hb⟩, List.forall_mem_append.mpr ⟨hs, ht⟩⟩

/-- A vocabulary in which everything may be assigned to and every string may occur. -/
def Vocabulary.all (cells : List Name) : Vocabulary :=
  ⟨cells, fun _ => True, fun _ => True⟩

/-- The whole vocabulary covers everything. -/
theorem Vocabulary.covers_all {cells names : List Name} {strings : List String} :
    (all cells).Covers names strings :=
  ⟨fun _ _ => trivial, fun _ _ => trivial⟩

/-- A vocabulary in which names that are assigned to are kept in cells, and every string may
occur. -/
def Vocabulary.inCells (cells : List Name) : Vocabulary :=
  ⟨cells, fun name => name ∈ cells, fun _ => True⟩

/-- The vocabulary of some cells covers the names among them, whatever the strings. -/
theorem Vocabulary.covers_inCells {cells names : List Name} {strings : List String}
    (h : names ⊆ cells) : (inCells cells).Covers names strings :=
  ⟨fun _ hname => h hname, fun _ _ => trivial⟩

/-- Whether a name stands for a cell. -/
def Binding.isSlot : Binding → Bool
  | .value _ => false
  | .slot _ => true

/-- Whether an instruction is neither a phi nor takes an address within a global. -/
def Instruction.isOrdinary : Instruction → Bool
  | .phi _ _ => false
  | .elementPtr _ (.global _ _) _ => false
  | _ => true

/-! ### The parts of a conditional -/

namespace Lower

/-- Leaves the current block for those of two arms. They come with the block in which the arms
meet. -/
def fork (stem : String) (condition : Operand) : Lower (BlockRef × BlockRef × BlockRef) := do
  let flag ← emit (.icmp .ne condition (.word 0))
  let thenBlock ← addBlock (stem ++ ".then")
  let elseBlock ← addBlock (stem ++ ".else")
  let merge ← addBlock (stem ++ ".merge")
  terminate (.condBranch flag thenBlock.label elseBlock.label)
  return (thenBlock, elseBlock, merge)

/-- Lowers the two arms of a conditional and joins their values. -/
def joinArms (thenBlock elseBlock merge : BlockRef) (positive negative : Lower Operand) :
    Lower Operand := do
  let fromThen ← lowerArm thenBlock merge positive
  let fromElse ← lowerArm elseBlock merge negative
  moveTo merge
  match fromThen ++ fromElse with
  | [] =>
    terminate .unreachable
    return .word 0
  | incoming => emit (.phi .word incoming)

/-- Goes on in the block of an arm, in a frame of its own. -/
def enterArm (block : BlockRef) : Lower Unit := do
  moveTo block
  onScope Scope.push

/-- Closes the frame of an arm and goes on to the merge block, unless the arm left the function. -/
def leaveArm (merge : BlockRef) (value : Operand) : Lower (List (Operand × Name)) := do
  onScope Scope.pop
  if ← terminated then return []
  let last ← ofDraft FunctionDraft.currentRef
  terminate (.branch merge.label)
  return [(value, last.label)]

/-- Goes on in the merge block with the value of the arm that led there. -/
def join (merge : BlockRef) (incoming : List (Operand × Name)) : Lower Operand := do
  moveTo merge
  match incoming with
  | [] =>
    terminate .unreachable
    return .word 0
  | incoming => emit (.phi .word incoming)

/-- Applies a primitive to operands that are there. It is used with as many as the primitive
takes. -/
def lowerPrimitive : Primitive → List Operand → Lower Operand
  | .library f, args => do
    let callee ← onUnit (·.libraryFunction f)
    emit (.callWord callee args)
  | .vectorRef, [vector, index] => do
    let base ← emit (.toPointer vector)
    let element ← emit (.elementPtr (.array .word 0) base index)
    emit (.load .word element)
  | .exactToInexact, [value] => do
    let double ← emit (.toDouble value)
    emit (.cast .bitcast double .word)
  | _, _ => pure (.word 0)

/-- Returns a value, unless the function has been left. -/
def returning (value : Operand) : Lower Unit := do
  unless ← terminated do
    terminate (.ret value)

end Lower

/-- Unless the function has been left, a conditional forks, and its arms join. -/
theorem lowerBranches_eq (stem : String) (condition : Operand) (positive negative : Lower Operand) :
    lowerBranches stem condition positive negative = terminated >>= fun done =>
      if done then pure (.word 0)
      else fork stem condition >>= fun blocks =>
        joinArms blocks.1 blocks.2.1 blocks.2.2 positive negative := by
  simp only [lowerBranches, fork, bind_assoc, pure_bind]
  rfl

/-- An arm is entered, lowered and left. -/
theorem lowerArm_eq (block merge : BlockRef) (arm : Lower Operand) :
    lowerArm block merge arm = enterArm block >>= fun _ => arm >>= leaveArm merge := by
  rw [lowerArm, enterArm, bind_assoc]
  rfl

/-- Two arms are lowered one after the other and joined. -/
theorem joinArms_eq (thenBlock elseBlock merge : BlockRef) (positive negative : Lower Operand) :
    joinArms thenBlock elseBlock merge positive negative =
      lowerArm thenBlock merge positive >>= fun fromThen =>
        lowerArm elseBlock merge negative >>= fun fromElse => join merge (fromThen ++ fromElse) :=
  rfl


/-! ### The cases of the lowering -/

section Equations

variable {assigned : List Name}

/-- The address that a lambda gets is that of a function with its number of parameters. -/
theorem eq_global_of_liftLambda {l : Lambda} {o : Operand} {s t : LowerState}
    (h : liftLambda l s = .ok o t) : ∃ name, o = .global name (.wordFunction l.params.length) := by
  cases h
  exact ⟨_, rfl⟩

/-- The arguments of a lambda are counted, and their number is right if it is that of its
parameters. -/
theorem lowerApplication_of_length (name : Name) {arity : Nat} {args : List Operand}
    (h : args.length = arity) : lowerApplication (.global name (.wordFunction arity)) args =
      emit (.callWord (.global name (.wordFunction arity)) args) := by
  refine if_pos ?_
  rw [List.length_replicate, h]

/-- The values of bindings are lowered like a list of expressions. -/
theorem lowerBindings_eq (bs : List (Name × Expr)) :
    lowerBindings assigned bs = lowerAll assigned (bs.map Prod.snd) := by
  induction bs with
  | nil => rfl
  | cons b bs ih => rw [lowerBindings, List.map_cons, lowerAll, ih]

/-- Every expression of a list gives one operand. -/
theorem length_of_lowerAll {es : List Expr} {s t : LowerState} {vs : List Operand}
    (h : lowerAll assigned es s = .ok vs t) : vs.length = es.length := by
  induction es generalizing s vs t with
  | nil =>
    rw [lowerAll] at h
    cases h
    rfl
  | cons e es ih =>
    rw [lowerAll] at h
    obtain ⟨v, s', -, h⟩ := exists_of_bind h
    obtain ⟨ws, t', hws, h⟩ := exists_of_bind h
    cases h
    rw [List.length_cons, List.length_cons, ih hws]

/-- A conjunction of several operands branches on the first. -/
theorem lowerAnd_cons_cons (e d : Expr) (es : List Expr) : lowerAnd assigned (e :: d :: es) =
    lower assigned e >>= fun condition =>
      lowerBranches "and" condition (lowerAnd assigned (d :: es)) (pure (.word 0)) := by
  rw [lowerAnd]
  simp

/-- A disjunction of several operands branches on the first. -/
theorem lowerOr_cons_cons (e d : Expr) (es : List Expr) : lowerOr assigned (e :: d :: es) =
    lower assigned e >>= fun value =>
      lowerBranches "or" value (pure value) (lowerOr assigned (d :: es)) := by
  rw [lowerOr]
  simp

/-- A definition of something other than a lambda binds the name to its value. -/
theorem lower_define_of_ne {name : Name} {value : Expr}
    (h : ∀ params body, value ≠ .lambda params body) :
    lower assigned (.define name value) = (do
      let value ← lower assigned value
      bindLocal assigned name value
      return .word 0) := by
  rw [lower]
  exact h

/-- A `return` gives its value to `returning`. -/
theorem lower_ret (e : Expr) : lower assigned (.ret e) =
    lower assigned e >>= fun value => returning value >>= fun _ => pure (.word 0) := by
  rw [lower]
  refine bind_congr fun value => ?_
  rw [returning, bind_assoc]
  refine bind_congr fun done => ?_
  cases done <;> rfl

/-- A primitive with the right number of operands lowers them in a row. -/
theorem lower_primitive_eq {p : Primitive} {args : List Expr} (h : args.length = p.arity) :
    lower assigned (.primitive p args) = lowerAll assigned args >>= lowerPrimitive p := by
  cases p with
  | library f =>
    change args.length = f.arity at h
    rw [lower, if_neg (not_not.mpr h)]
    rfl
  | vectorRef =>
    obtain ⟨vector, index, rfl⟩ := List.length_eq_two.mp h
    simp only [lower, lowerAll, bind_assoc, pure_bind, lowerPrimitive]
  | exactToInexact =>
    obtain ⟨value, rfl⟩ := List.length_eq_one_iff.mp h
    simp only [lower, lowerAll, bind_assoc, pure_bind, lowerPrimitive]

/-- A primitive with another number of operands than it takes is refused. -/
theorem lower_primitive_of_ne {p : Primitive} {args : List Expr} (h : args.length ≠ p.arity) :
    lower assigned (.primitive p args) = throw (.argumentCount p.text p.arity args.length) := by
  by_cases hlibrary : ∃ f, p = .library f
  · obtain ⟨f, rfl⟩ := hlibrary
    change args.length ≠ f.arity at h
    rw [lower, if_pos h]
    rfl
  · rw [lower]
    · rintro f rfl
      exact hlibrary ⟨f, rfl⟩
    · rintro vector index rfl rfl
      exact h rfl
    · rintro value rfl rfl
      exact h rfl

end Equations

/-! ### Composed lowerings -/

namespace Lower

/-- A lowering that is put together from operations of the given vocabulary, with the given
effect. -/
inductive Composed (V : Vocabulary) : Effect → {α : Type} → Lower α → Prop
  | pure {α : Type} (a : α) : Composed V .quiet (pure a)
  | throw {ε : Effect} {α : Type} (e : CompileError) : Composed V ε (throw e : Lower α)
  | bind {ε δ : Effect} {α β : Type} {m : Lower α} {f : α → Lower β} (hm : Composed V ε m)
      (hf : ∀ a s t, m s = .ok a t → Composed V δ (f a)) : Composed V (ε.seq δ) (m >>= f)
  /-- The rest is left out where the function has been left. -/
  | unlessLeft {ε : Effect} {α : Type} (a : α) {m : Lower α} (hm : Composed V ε m) :
      Composed V ε.unlessLeft (terminated >>= fun done => if done then Pure.pure a else m)
  | local? (name : Name) : Composed V .quiet (local? name)
  | global? (name : Name) : Composed V .quiet (global? name)
  | emit {i : Instruction} (h : i.isOrdinary = true) : Composed V .quiet (emit i)
  | store (value pointer : Operand) : Composed V .quiet (store value pointer)
  /-- A name is bound, to a cell if it is kept in one. -/
  | declare (name : Name) (b : Binding) (h : b.isSlot = V.cells.contains name) :
      Composed V .quiet (onScope (·.bind name b))
  | assign {name : Name} (value : Operand) (h : V.assigns name) :
      Composed V .quiet (lowerAssignment name value)
  | lift {l : Lambda} (h : ∀ value ∈ stringsAll l.body, V.strings value) :
      Composed V (.lift l) (liftLambda l)
  | string {value : String} (h : V.strings value) :
      Composed V (.literal (.string value)) (lowerLiteral (.string value))
  | array (length : Nat) : Composed V .quiet (onUnit (·.arrayType length))
  | library (f : LibraryFunction) :
      Composed V (.primitive (.library f)) (onUnit (·.libraryFunction f))
  | returning (value : Operand) : Composed V .leaving (returning value)
  | branches {ε δ : Effect} {stem : String} (hstem : Undigited stem) (condition : Operand)
      {positive negative : Lower Operand} (hpos : Composed V ε positive)
      (hneg : Composed V δ negative) :
      Composed V (ε.branches δ) (lowerBranches stem condition positive negative)

variable {V : Vocabulary} {ε : Effect} {α β : Type}

/-- A quiet part, and what comes after it. -/
private theorem Composed.andThen {m : Lower α} {f : α → Lower β} (hm : Composed V .quiet m)
    (hf : ∀ a, Composed V ε (f a)) : Composed V ε (m >>= f) :=
  ε.quiet_seq ▸ hm.bind fun a _ _ _ => hf a

/-- A part, and what comes after it if that is quiet. -/
private theorem Composed.bind_quiet {m : Lower α} {f : α → Lower β} (hm : Composed V ε m)
    (hf : ∀ a s t, m s = .ok a t → Composed V .quiet (f a)) : Composed V ε (m >>= f) :=
  ε.seq_quiet ▸ hm.bind hf

/-- What an emitted instruction gives is a register. -/
private theorem eq_register_of_emit {i : Instruction} {o : Operand} {s t : LowerState}
    (h : emit i s = .ok o t) : ∃ n ty, o = .register n ty := by
  cases h
  exact ⟨_, _, rfl⟩

end Lower

/-! ### Values -/

section Parts

variable {V : Vocabulary}

/-- A value is made a word by one instruction at most. -/
theorem toWord_composed (o : Operand) : Composed V .quiet (toWord o) := by
  rw [toWord.eq_def]
  split
  · exact .pure o
  · exact .emit rfl
  · exact .emit rfl
  · exact .emit rfl
  · exact .pure o

/-- Only a literal that is a string demands something. -/
theorem lowerLiteral_composed (value : Literal)
    (h : ∀ text ∈ value.string?.toList, V.strings text) :
    Composed V (.literal value) (lowerLiteral value) := by
  cases value with
  | integer _ => exact .pure _
  | character _ => exact .pure _
  | boolean _ => exact .pure _
  | empty => exact .pure _
  | double _ => exact .emit rfl
  | string text => exact .string (h text List.mem_cons_self)

/-- Reading a variable is composed of operations and quiet. -/
theorem lowerVariable_composed (name : Name) : Composed V .quiet (lowerVariable name) := by
  refine (Composed.local? name).andThen fun binding => ?_
  split
  · exact toWord_composed _
  · exact .emit rfl
  · refine (Composed.global? name).andThen fun kind => ?_
    split
    · exact .emit rfl
    · exact toWord_composed _
    · exact .throw _

/-- Assigning to a top level name is composed of operations and quiet. -/
theorem assignGlobal_composed (name : Name) (value : Operand) :
    Composed V .quiet (assignGlobal name value) := by
  refine (Composed.global? name).andThen fun kind => ?_
  split
  · exact .store _ _
  · exact .throw _
  · exact .throw _

/-- A name is bound to a cell just if the vocabulary keeps it in one. -/
theorem bindLocal_composed (name : Name) (value : Operand) :
    Composed V .quiet (bindLocal V.cells name value) := by
  rw [bindLocal]
  split
  · next hcell =>
    refine (toWord_composed value).andThen fun value =>
      (Composed.emit rfl).andThen fun pointer => ?_
    exact (Composed.store value pointer).andThen fun _ => .declare name (.slot pointer) hcell.symm
  · next hcell => exact .declare name (.value value) (Bool.eq_false_iff.mpr hcell).symm

/-- Applying an operator is composed of operations and quiet. -/
theorem lowerOperator_composed (op : BinaryOp) (lhs rhs : Operand) :
    Composed V .quiet (lowerOperator op lhs rhs) := by
  cases op with
  | word op => exact .emit rfl
  | compare c => exact (Composed.emit rfl).andThen fun _ => .emit rfl
  | float op =>
    refine (Composed.emit rfl).andThen fun _ => (Composed.emit rfl).andThen fun _ => ?_
    exact (Composed.emit rfl).andThen fun _ => toWord_composed _
  | floatCompare c =>
    refine (Composed.emit rfl).andThen fun _ => (Composed.emit rfl).andThen fun _ => ?_
    exact (Composed.emit rfl).andThen fun _ => toWord_composed _

/-- The address of an element is no address within a global, since the array is in a register. -/
private theorem storeElements_composed (ty : Ty) {base : Operand}
    (hbase : ∃ n ty, base = .register n ty) (index : Nat) (values : List Operand) :
    Composed V .quiet (storeElements ty base index values) := by
  obtain ⟨n, pointer, rfl⟩ := hbase
  induction values generalizing index with
  | nil => exact .pure ()
  | cons value values ih =>
    refine (Composed.emit rfl).andThen fun _ => ?_
    exact (Composed.store _ _).andThen fun _ => ih (index + 1)

/-- Storing the elements of an array is composed of operations and quiet. -/
theorem lowerElements_composed (values : List Operand) :
    Composed V .quiet (lowerElements values) := by
  refine (Composed.array _).andThen fun ty =>
    (Composed.emit rfl).bind_quiet fun base s t hbase => ?_
  exact (storeElements_composed ty (eq_register_of_emit hbase) 0 values).andThen fun _ => .emit rfl

/-! ### Calls -/

/-- Looking up a name that is called is composed of operations and quiet. -/
theorem lowerCalleeVariable_composed (name : Name) :
    Composed V .quiet (lowerCalleeVariable name) := by
  refine (Composed.local? name).andThen fun binding => ?_
  split
  · exact .pure _
  · exact lowerVariable_composed name
  · refine (Composed.global? name).andThen fun kind => ?_
    split
    · exact .pure _
    · exact lowerVariable_composed name

/-- Calling a function is composed of operations and quiet. -/
theorem lowerApplication_composed (callee : Operand) (args : List Operand) :
    Composed V .quiet (lowerApplication callee args) := by
  rw [lowerApplication.eq_def]
  split
  · split
    · exact .emit rfl
    · exact .throw _
  · exact (Composed.emit rfl).andThen fun _ => .emit rfl

/-- Only a library function demands something, its declaration. -/
theorem lowerPrimitive_composed (p : Primitive) (args : List Operand) :
    Composed V (.primitive p) (lowerPrimitive p args) := by
  rw [lowerPrimitive.eq_def]
  split
  · exact (Composed.library _).bind_quiet fun _ _ _ _ => .emit rfl
  · refine (Composed.emit rfl).bind_quiet fun base s t hbase => ?_
    obtain ⟨n, ty, rfl⟩ := eq_register_of_emit hbase
    exact (Composed.emit rfl).andThen fun _ => .emit rfl
  · exact (Composed.emit rfl).bind_quiet fun _ _ _ _ => .emit rfl
  · next hlibrary _ _ =>
    cases p with
    | library f => exact absurd rfl (hlibrary f)
    | vectorRef => exact .pure _
    | exactToInexact => exact .pure _

end Parts

end WordScheme
