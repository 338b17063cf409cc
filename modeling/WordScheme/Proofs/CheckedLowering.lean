import Mathlib
import WordScheme.Proofs.Conditionals
import WordScheme.Proofs.Lockstep
import WordScheme.Proofs.StaticCheck

/-!
# Lowering succeeds where the static check does

`Lower.Checks` is a triple for steps of lowering, with the outcome of the check in it: from a state
whose local names are `locals` the steps succeed if `ok` is true, and then the local names are
`locals'`, and fail if it is false. Its rule for `>>=` is the conjunction, so a proof follows the
check and the lowering side by side, and `lower_lowers` is an induction with one case for each kind
of expression.

Without a return the current block stays open. That is not plain for conditionals, behind which
lowering goes on in a block that was added before the arms: no block but the current one is ever
changed, and arms only move to blocks that they add themselves (`FunctionDraft.Onward`).
-/

namespace WordScheme

open Lower LowerState FunctionDraft

/-! ### Blocks -/

namespace FunctionDraft

variable {d e f : FunctionDraft}

/-- Of the blocks that were there, only the one with this index may have changed. -/
structure KeepsBut (changed : Nat) (d e : FunctionDraft) : Prop where
  size_le : d.blocks.size ≤ e.blocks.size
  kept : ∀ i < d.blocks.size, i ≠ changed → e.block? i = d.block? i

/-- Only the current block has been changed and left, for blocks that were not there. -/
structure Onward (d e : FunctionDraft) : Prop where
  keeps : d.KeepsBut d.current e
  current : e.current = d.current ∨ d.blocks.size ≤ e.current

/-- Two changes leave the other blocks alone if the second is to the same block or to a new one. -/
theorem KeepsBut.trans {changed changed' : Nat} (h : d.KeepsBut changed e)
    (h' : e.KeepsBut changed' f) (hchanged : changed' = changed ∨ d.blocks.size ≤ changed') :
    d.KeepsBut changed f := by
  refine ⟨h.size_le.trans h'.size_le, fun i hi hne => ?_⟩
  have hsize := h.size_le
  rw [h'.kept i (by omega) (by omega), h.kept i hi hne]

/-- Nothing but the blocks and the current one matter. -/
theorem onward_of_eq (hblocks : e.blocks = d.blocks) (hcurrent : e.current = d.current) :
    d.Onward e :=
  ⟨⟨by rw [hblocks], fun i _ _ => by rw [block?, hblocks, block?]⟩, .inl hcurrent⟩

theorem Onward.refl (d : FunctionDraft) : d.Onward d :=
  onward_of_eq rfl rfl

theorem Onward.trans (h : d.Onward e) (h' : e.Onward f) : d.Onward f := by
  have hsize := h.keeps.size_le
  have hcurrent := h.current
  have hcurrent' := h'.current
  exact ⟨h.keeps.trans h'.keeps hcurrent, by omega⟩

/-- An update of the current block keeps the others. -/
theorem keepsBut_updateCurrent (d : FunctionDraft) (g : BlockDraft → BlockDraft) :
    d.KeepsBut d.current (d.updateCurrent g) := by
  refine ⟨le_of_eq (Table.size_update ..).symm, fun i _ hne => ?_⟩
  rw [block?_updateCurrent, if_neg hne]

/-- A statement changes the current block alone. -/
theorem onward_append (d : FunctionDraft) (s : Statement) : d.Onward (d.append s) := by
  refine ⟨?_, .inl (append_current d s)⟩
  rw [append]
  split
  · exact (Onward.refl d).keeps
  · exact keepsBut_updateCurrent d _

theorem onward_emit (d : FunctionDraft) (i : Instruction) : d.Onward (d.emit i).2 :=
  Onward.trans (e := d.freshRegister.2) (onward_of_eq rfl rfl) (onward_append _ _)

/-- A new block leaves those that were there alone. -/
private theorem onward_addBlock (d : FunctionDraft) (base : Name) :
    d.Onward (d.addBlock base).2 := by
  refine ⟨⟨by simp [addBlock], fun i hi _ => ?_⟩, .inl rfl⟩
  rw [block?_addBlock, if_neg (by omega)]

/-- The block with this index has no terminator yet. -/
def IsOpen (d : FunctionDraft) (i : Nat) : Prop :=
  ∃ b, d.block? i = some b ∧ b.terminator = none

/-- A new block is open. -/
private theorem isOpen_addBlock (d : FunctionDraft) (base : Name) :
    (d.addBlock base).2.IsOpen (d.addBlock base).1.index :=
  ⟨_, (block?_addBlock d base _).trans (if_pos rfl), rfl⟩

theorem IsOpen.lt {i : Nat} (h : d.IsOpen i) : i < d.blocks.size := by
  obtain ⟨b, hb, -⟩ := h
  exact block?_lt hb

/-- An open block stays open while another one changes. -/
theorem KeepsBut.isOpen {changed i : Nat} (h : d.KeepsBut changed e) (hi : d.IsOpen i)
    (hne : i ≠ changed) : e.IsOpen i := by
  have hlt := hi.lt
  obtain ⟨b, hb, hopen⟩ := hi
  exact ⟨b, (h.kept i hlt hne).trans hb, hopen⟩

/-- A draft is live while its current block is open. -/
theorem terminated_eq_false_of_isOpen (h : d.IsOpen d.current) : d.terminated = false := by
  obtain ⟨b, hb, hopen⟩ := h
  rw [terminated_eq_false_iff, ← eq_currentBlock hb]
  exact hopen

end FunctionDraft

/-! ### Bindings -/

/-- The number of parameters of the function of which an operand is the address. -/
def Operand.arity? : Operand → Option Nat
  | .global _ (.function _ params) => some params.length
  | _ => none

/-- The number of parameters of the function that a local name is known to be. -/
def Binding.arity? : Binding → Option Nat
  | .value operand => operand.arity?
  | .slot _ => none

@[simp]
theorem arity?_wordFunction (name : Name) (arity : Nat) :
    (Operand.global name (.wordFunction arity)).arity? = some arity := by
  simp [Operand.arity?, Ty.wordFunction]

/-- Only the address of a function has a number of parameters. -/
private theorem Operand.arity?_eq_none {o : Operand}
    (h : ∀ name result params, o ≠ .global name (.function result params)) : o.arity? = none := by
  rw [arity?.eq_def]
  split
  · exact absurd rfl (h _ _ _)
  · rfl

/-- Only a name that is bound to the address of a function has a number of parameters. -/
private theorem Binding.arity?_eq_none {b : Binding}
    (h : ∀ name result params, b ≠ .value (.global name (.function result params))) :
    b.arity? = none := by
  cases b with
  | slot pointer => rfl
  | value o =>
    exact Operand.arity?_eq_none fun name result params ho => h name result params (congrArg _ ho)

/-- A bound name has its new binding, and the other names keep theirs. -/
theorem Scope.lookup?_bind (s : Scope) (name : Name) (b : Binding) (other : Name) :
    (s.bind name b).lookup? other = if name = other then some b else s.lookup? other := by
  change ((s.inner.put name b).get? other).or _ = _
  split_ifs with heq
  · subst heq
    rw [Assoc.get?_put_self, Option.some_or]
  · rw [Assoc.get?_put_of_ne _ _ (Ne.symm heq)]
    rfl

/-! ### States that the check describes -/

namespace LowerState

/-- The names of a state are those that the check knows, and local names that are assigned to live
in cells. -/
structure Tracks (G : Globals) (assigned : List Name) (locals : Locals) (s : LowerState) :
    Prop where
  globals : s.draft.globals = G
  lookup : ∀ name, (s.draft.scope.lookup? name).map Binding.arity? = locals.get? name
  slots : ∀ name ∈ assigned, ∀ b, s.draft.scope.lookup? name = some b → ∃ pointer, b = .slot pointer

/-- The same, with a block that takes instructions. -/
structure At (G : Globals) (assigned : List Name) (locals : Locals) (s : LowerState) : Prop
    extends s.Tracks G assigned locals where
  live : s.draft.terminated = false

/-- What every part of lowering leaves as it was, and the functions that it finds. -/
structure Passes (found : List Lambda) (s t : LowerState) : Prop where
  onward : s.draft.Onward t.draft
  outer : t.draft.scope.outer = s.draft.scope.outer
  found : t.draft.pending.map PendingFunction.lambda =
    s.draft.pending.map PendingFunction.lambda ++ found

variable {G : Globals} {assigned : List Name} {locals : Locals} {s t u : LowerState}

/-- What two runs pass on comes one after the other. -/
theorem Passes.trans {ls ks : List Lambda} (h : Passes ls s t) (h' : Passes ks t u) :
    Passes (ls ++ ks) s u :=
  ⟨h.onward.trans h'.onward, h'.outer.trans h.outer,
    by rw [h'.found, h.found, List.append_assoc]⟩

/-- The names are the same, and of the blocks that were there only the one with the given index has
changed, as when an arm of a conditional has been lowered. -/
structure SameNames (changed : Nat) (found : List Lambda) (s t : LowerState) : Prop where
  globals : t.draft.globals = s.draft.globals
  scope : t.draft.scope = s.draft.scope
  keeps : s.draft.KeepsBut changed t.draft
  found : t.draft.pending.map PendingFunction.lambda =
    s.draft.pending.map PendingFunction.lambda ++ found

/-- Two changes keep the names if the second is to the same block or to a new one. -/
private theorem SameNames.trans {changed changed' : Nat} {ls ks : List Lambda}
    (h : SameNames changed ls s t) (h' : SameNames changed' ks t u)
    (hchanged : changed' = changed ∨ s.draft.blocks.size ≤ changed') :
    SameNames changed (ls ++ ks) s u :=
  ⟨h'.globals.trans h.globals, h'.scope.trans h.scope, h.keeps.trans h'.keeps hchanged,
    by rw [h'.found, h.found, List.append_assoc]⟩

/-- What is tracked depends on the globals and the local names only. -/
private theorem Tracks.of_scope_eq (h : s.Tracks G assigned locals)
    (hglobals : t.draft.globals = s.draft.globals) (hscope : t.draft.scope = s.draft.scope) :
    t.Tracks G assigned locals :=
  ⟨hglobals.trans h.globals, hscope ▸ h.lookup, hscope ▸ h.slots⟩

end LowerState

/-! ### The triple -/

namespace Lower

variable {α β : Type}

/-- From a state `s` the steps succeed, with an outcome of which `Q` holds, or fail, as `ok`
says. -/
def Decides (ok : Bool) (s : LowerState) (m : Lower α) (Q : α → LowerState → Prop) : Prop :=
  match m s with
  | .ok a t => ok = true ∧ Q a t
  | .error _ _ => ok = false

section Decides

variable {ok ok' : Bool} {s t : LowerState} {m : Lower α} {f : α → Lower β}
  {Q : α → LowerState → Prop} {R : β → LowerState → Prop}

/-- Two steps succeed when both of their checks do. -/
theorem Decides.bind (h : Decides ok s m Q) (hf : ∀ a t, Q a t → Decides ok' t (f a) R) :
    Decides (ok && ok') s (m >>= f) R := by
  rw [Decides, run_bind]
  rw [Decides] at h
  cases hm : m s with
  | error e t =>
    rw [hm] at h
    exact Bool.and_eq_false_iff.mpr (.inl h)
  | ok a t =>
    rw [hm] at h
    obtain ⟨rfl, hQ⟩ := h
    exact hf a t hQ

/-- A step, and what comes after it if that always succeeds. -/
theorem Decides.bind_true (h : Decides ok s m Q) (hf : ∀ a t, Q a t → Decides true t (f a) R) :
    Decides ok s (m >>= f) R :=
  Bool.and_true ok ▸ h.bind hf

/-- A step of which everything is known, and what comes after it. -/
theorem Decides.after {a : α} (hm : m s = .ok a t) (h : Decides ok t (f a) R) :
    Decides ok s (m >>= f) R := by
  rw [Decides, run_bind, hm]
  exact h

theorem Decides.mono {Q' : α → LowerState → Prop} (h : Decides ok s m Q)
    (hQ : ∀ a t, Q a t → Q' a t) : Decides ok s m Q' := by
  rw [Decides] at h ⊢
  cases hm : m s with
  | error e t =>
    rw [hm] at h
    exact h
  | ok a t =>
    rw [hm] at h
    exact ⟨h.1, hQ a t h.2⟩

end Decides

variable (G : Globals) (assigned : List Name)

/-- The steps succeed as `ok` says, from the local names `locals` to `locals'`; they find the given
functions, and `A` holds of their value. -/
def Checks (ok : Bool) (locals locals' : Locals) (found : List Lambda) (m : Lower α)
    (A : α → Prop) : Prop :=
  ∀ s : LowerState, s.At G assigned locals →
    Decides ok s m fun a t => t.At G assigned locals' ∧ Passes found s t ∧ A a

/-- An expression is lowered to a value, which is not the address of a known function. -/
def Lowers (ok : Bool) (locals locals' : Locals) (found : List Lambda) (m : Lower Operand) : Prop :=
  Checks G assigned ok locals locals' found m fun v => v.arity? = none

variable {G assigned} {ok ok' : Bool} {locals locals' locals'' : Locals} {ls ks : List Lambda}
  {m : Lower α} {A : α → Prop} {B : β → Prop}

private theorem Checks.mono {A' : α → Prop} (h : Checks G assigned ok locals locals' ls m A)
    (hA : ∀ a, A a → A' a) : Checks G assigned ok locals locals' ls m A' :=
  fun s hs => (h s hs).mono fun a _ hr => ⟨hr.1, hr.2.1, hA a hr.2.2⟩

/-- Two steps succeed when both of their checks do, and find the functions of both. -/
theorem Checks.bind {f : α → Lower β} (h : Checks G assigned ok locals locals' ls m A)
    (hf : ∀ a, A a → Checks G assigned ok' locals' locals'' ks (f a) B) :
    Checks G assigned (ok && ok') locals locals'' (ls ++ ks) (m >>= f) B := by
  intro s hs
  refine (h s hs).bind fun a t ⟨ht, hst, ha⟩ => ?_
  exact (hf a ha t ht).mono fun _ _ ⟨hu, htu, hb⟩ => ⟨hu, hst.trans htu, hb⟩

/-- A step that always succeeds and finds nothing, and what comes after it. -/
theorem Checks.andThen {f : α → Lower β} (h : Checks G assigned true locals locals' [] m A)
    (hf : ∀ a, A a → Checks G assigned ok locals' locals'' ls (f a) B) :
    Checks G assigned ok locals locals'' ls (m >>= f) B :=
  h.bind hf

/-- A step, and what comes after it if that finds nothing. -/
theorem Checks.bind_nil {f : α → Lower β} (h : Checks G assigned ok locals locals' ls m A)
    (hf : ∀ a, A a → Checks G assigned ok' locals' locals'' [] (f a) B) :
    Checks G assigned (ok && ok') locals locals'' ls (m >>= f) B :=
  List.append_nil ls ▸ h.bind hf

/-- A step, and what comes after it if that always succeeds and finds nothing. -/
theorem Checks.bind_true {f : α → Lower β} (h : Checks G assigned ok locals locals' ls m A)
    (hf : ∀ a, A a → Checks G assigned true locals' locals'' [] (f a) B) :
    Checks G assigned ok locals locals'' ls (m >>= f) B :=
  Bool.and_true ok ▸ h.bind_nil hf

/-- To refuse the source is to fail the check. -/
private theorem checks_throw (e : CompileError) :
    Checks G assigned false locals locals' ls (throw e : Lower α) A :=
  fun _ _ => rfl

/-- A step that leaves the local names alone. -/
private theorem checks_quiet (h : ∀ s : LowerState, s.At G assigned locals → ∃ a t, m s = .ok a t ∧
      t.draft.globals = s.draft.globals ∧ t.draft.scope = s.draft.scope ∧
      t.draft.terminated = s.draft.terminated ∧ s.draft.Onward t.draft ∧
      t.draft.pending.map PendingFunction.lambda =
        s.draft.pending.map PendingFunction.lambda ++ ls ∧ A a) :
    Checks G assigned true locals locals ls m A := by
  intro s hs
  obtain ⟨a, t, hrun, hglobals, hscope, hlive, honward, hfound, ha⟩ := h s hs
  rw [Decides, hrun]
  exact ⟨rfl, ⟨hs.toTracks.of_scope_eq hglobals hscope, hlive.trans hs.live⟩,
    ⟨honward, congrArg Scope.outer hscope, hfound⟩, ha⟩

theorem checks_pure {a : α} (h : A a) : Checks G assigned true locals locals [] (pure a) A :=
  checks_quiet fun s _ => ⟨a, s, rfl, rfl, rfl, rfl, .refl _, (List.append_nil _).symm, h⟩

/-- What is asked of the module never fails. -/
private theorem checks_onUnit {f : CompileUnit → α × CompileUnit} (h : ∀ u, A (f u).1) :
    Checks G assigned true locals locals [] (onUnit f) A :=
  checks_quiet fun s _ =>
    ⟨_, _, rfl, rfl, rfl, rfl, .refl _, (List.append_nil _).symm, h s.unit⟩

/-- Reading something off the draft never fails. -/
private theorem checks_ofDraft {f : FunctionDraft → α}
    (h : ∀ s : LowerState, s.At G assigned locals → A (f s.draft)) :
    Checks G assigned true locals locals [] (ofDraft f) A :=
  checks_quiet fun s hs =>
    ⟨_, s, rfl, rfl, rfl, rfl, .refl _, (List.append_nil _).symm, h s hs⟩

/-- Where the check is made, the current block is open. -/
theorem checks_terminated :
    Checks G assigned true locals locals [] terminated (· = false) :=
  checks_ofDraft fun _ hs => hs.live

/-- A local name is looked up as the check does, and a name that is assigned to has a cell. -/
private theorem checks_local? (name : Name) : Checks G assigned true locals locals [] (local? name)
    fun b => b.map Binding.arity? = locals.get? name ∧
      (name ∈ assigned → ∀ binding, b = some binding → ∃ pointer, binding = .slot pointer) :=
  checks_ofDraft fun _ hs => ⟨hs.lookup name, hs.slots name⟩

/-- A top level name is looked up as the check does. -/
private theorem checks_global? (name : Name) :
    Checks G assigned true locals locals [] (global? name) (· = G.get? name) :=
  checks_ofDraft fun _ hs => congrArg (Assoc.get? · name) hs.globals

/-- An instruction of any kind leads to a register. -/
theorem lowers_emit (i : Instruction) : Lowers G assigned true locals locals [] (emit i) := by
  refine checks_quiet fun s _ => ⟨_, _, rfl, ?_, ?_, ?_, ?_, ?_, rfl⟩
  · exact append_globals _ _
  · exact emit_scope _ _
  · exact terminated_append _ _
  · exact onward_emit _ _
  · rw [List.append_nil]
    exact congrArg _ (append_pending _ _)

theorem checks_store (value pointer : Operand) :
    Checks G assigned true locals locals [] (store value pointer) fun _ => True := by
  refine checks_quiet fun s _ => ⟨_, _, rfl, ?_, ?_, ?_, ?_, ?_, trivial⟩
  · exact append_globals _ _
  · exact append_scope _ _
  · exact terminated_append _ _
  · exact onward_append _ _
  · rw [List.append_nil]
    exact congrArg _ (append_pending _ _)

/-- Lifting a lambda never fails, and gives a function of as many parameters. -/
private theorem checks_liftLambda (l : Lambda) :
    Checks G assigned true locals locals [l] (liftLambda l)
      fun v => v.arity? = some l.params.length := by
  refine checks_quiet fun s _ => ⟨_, _, Likeness.liftLambda_eq l s, rfl, rfl, rfl, ?_, ?_, ?_⟩
  · exact onward_of_eq rfl rfl
  · exact List.map_append
  · exact arity?_wordFunction _ _

/-! ### Values and names -/

theorem lowers_word (value : Int64) :
    Lowers G assigned true locals locals [] (pure (.word value)) :=
  checks_pure rfl

/-- A word is never the address of a known function: those are pointers. -/
private theorem toWord_lowers (o : Operand) :
    Lowers G assigned true locals locals [] (toWord o) := by
  have hkeep : o.ty ≠ .ptr → Lowers G assigned true locals locals [] (pure o) := by
    intro hty
    refine checks_pure ?_
    cases o with
    | global name ty => exact absurd rfl hty
    | _ => rfl
  rw [toWord.eq_def]
  split
  · next hty => exact hkeep (by simp [hty])
  · exact lowers_emit _
  · exact lowers_emit _
  · exact lowers_emit _
  · next hty => exact hkeep hty

/-- Lowering a literal never fails. -/
private theorem lowerLiteral_lowers (value : Literal) :
    Lowers G assigned true locals locals [] (lowerLiteral value) := by
  cases value with
  | integer value => exact lowers_word _
  | double value => exact lowers_emit _
  | character value => exact lowers_word _
  | boolean value => exact lowers_word _
  | string value =>
    refine (checks_onUnit (A := fun _ => True) fun _ => trivial).andThen fun c _ => ?_
    exact (lowers_emit _).andThen fun _ _ => lowers_emit _
  | empty => exact lowers_word _

/-- The check knows a local name exactly when it has a binding. -/
private theorem has_eq_isSome {b : Option Binding} {name : Name}
    (h : b.map Binding.arity? = locals.get? name) : locals.has name = b.isSome := by
  rw [Assoc.has, ← h, Option.isSome_map]

/-- A variable is lowered exactly when its name is known. -/
private theorem lowerVariable_lowers (name : Name) :
    Lowers G assigned (isKnown G.get? locals name) locals locals [] (lowerVariable name) := by
  refine (checks_local? name).andThen fun b hb => ?_
  rw [isKnown, has_eq_isSome hb.1]
  match b with
  | some (.value value) => exact toWord_lowers value
  | some (.slot pointer) => exact lowers_emit _
  | none =>
    refine (checks_global? name).andThen fun kind hkind => ?_
    rw [← hkind]
    match kind with
    | some .var => exact lowers_emit _
    | some (.function arity) => exact toWord_lowers _
    | none => exact checks_throw _

/-- A top level name can be assigned to exactly when it is a variable. -/
theorem assignGlobal_checks (name : Name) (value : Operand) :
    Checks G assigned (G.get? name == some .var) locals locals [] (assignGlobal name value)
      fun _ => True := by
  refine (checks_global? name).andThen fun kind hkind => ?_
  rw [← hkind]
  match kind with
  | some .var => exact checks_store _ _
  | some (.function _) => exact checks_throw _
  | none => exact checks_throw _

/-- Local names that are assigned to live in cells, so no binding changes. -/
private theorem lowerAssignment_checks {name : Name} (hname : name ∈ assigned) (value : Operand) :
    Checks G assigned (isAssignable G.get? locals name) locals locals []
      (lowerAssignment name value) fun _ => True := by
  refine (checks_local? name).andThen fun b hb => ?_
  rw [isAssignable, has_eq_isSome hb.1]
  match b with
  | some (.slot pointer) => exact checks_store _ _
  | some (.value v) =>
    obtain ⟨pointer, hpointer⟩ := hb.2 hname _ rfl
    cases hpointer
  | none => exact assignGlobal_checks name value

/-- A name is bound in the innermost frame. -/
private theorem checks_bind (name : Name) {b : Binding}
    (hb : name ∈ assigned → ∃ pointer, b = .slot pointer) :
    Checks G assigned true locals ((name, b.arity?) :: locals) [] (onScope (·.bind name b))
      fun _ => True := by
  intro s hs
  refine ⟨rfl, ⟨⟨hs.globals, fun other => ?_, fun other hother c hc => ?_⟩, hs.live⟩,
    ⟨onward_of_eq rfl rfl, rfl, (List.append_nil _).symm⟩, trivial⟩
  · change ((s.draft.scope.bind name b).lookup? other).map _ = _
    rw [Scope.lookup?_bind, Assoc.get?]
    split_ifs with heq
    · rfl
    · exact hs.lookup other
  · change (s.draft.scope.bind name b).lookup? other = some c at hc
    rw [Scope.lookup?_bind] at hc
    split_ifs at hc with heq
    · subst heq
      obtain rfl := Option.some.inj hc
      exact hb hother
    · exact hs.slots other hother c hc

/-- A name is bound as the check does: one that is assigned to loses what it is known for. -/
private theorem bindLocal_checks (name : Name) (value : Operand) :
    Checks G assigned true locals
      ((name, if assigned.contains name then none else value.arity?) :: locals) []
      (bindLocal assigned name value) fun _ => True := by
  rw [bindLocal]
  split_ifs with hname
  · refine (toWord_lowers value).andThen fun v _ => (lowers_emit _).andThen fun pointer _ => ?_
    refine (checks_store v pointer).andThen fun _ _ => ?_
    exact checks_bind name fun _ => ⟨pointer, rfl⟩
  · refine checks_bind name fun hmem => ?_
    exact absurd (List.contains_iff_mem.mpr hmem) hname

private theorem lowerOperator_lowers (op : BinaryOp) (lhs rhs : Operand) :
    Lowers G assigned true locals locals [] (lowerOperator op lhs rhs) := by
  cases op with
  | word op => exact lowers_emit _
  | compare c => exact (lowers_emit _).andThen fun _ _ => lowers_emit _
  | float op =>
    refine (lowers_emit _).andThen fun _ _ => (lowers_emit _).andThen fun _ _ => ?_
    exact (lowers_emit _).andThen fun _ _ => toWord_lowers _
  | floatCompare c =>
    refine (lowers_emit _).andThen fun _ _ => (lowers_emit _).andThen fun _ _ => ?_
    exact (lowers_emit _).andThen fun _ _ => toWord_lowers _

/-! ### Calls and arrays -/

/-- A name can be called when it is known, and has as many parameters as the check says. -/
private theorem lowerCalleeVariable_checks (name : Name) :
    Checks G assigned (isKnown G.get? locals name) locals locals [] (lowerCalleeVariable name)
      fun v => v.arity? = calleeArity? G.get? locals (.var name) := by
  have hvariable : calleeArity? G.get? locals (.var name) = none →
      Checks G assigned (isKnown G.get? locals name) locals locals [] (lowerVariable name)
        fun v => v.arity? = calleeArity? G.get? locals (.var name) :=
    fun h => (lowerVariable_lowers name).mono fun v hv => hv.trans h.symm
  refine (checks_local? name).andThen fun b hb => ?_
  split
  · next f result params =>
    rw [isKnown, has_eq_isSome hb.1]
    refine checks_pure ?_
    rw [calleeArity?, ← hb.1]
    rfl
  · next b hother =>
    refine hvariable ?_
    rw [calleeArity?, ← hb.1]
    exact Binding.arity?_eq_none hother
  · refine (checks_global? name).andThen fun kind hkind => ?_
    cases kind with
    | none => exact hvariable (by rw [calleeArity?, ← hb.1, ← hkind]; rfl)
    | some kind =>
      cases kind with
      | var => exact hvariable (by rw [calleeArity?, ← hb.1, ← hkind]; rfl)
      | function arity =>
        rw [isKnown, ← hkind, Option.isSome_some, Bool.or_true]
        refine checks_pure ?_
        rw [calleeArity?, ← hb.1, ← hkind]
        exact arity?_wordFunction _ _

/-- A call fails exactly when the callee is known to take another number of arguments. -/
private theorem lowerApplication_lowers (callee : Operand) (args : List Operand) :
    Lowers G assigned (callee.arity?.all (· == args.length)) locals locals []
      (lowerApplication callee args) := by
  rw [lowerApplication.eq_def]
  split
  · next name result params =>
    split_ifs with hlength
    · simp only [Operand.arity?, Option.all_some, hlength, beq_self_eq_true]
      exact lowers_emit _
    · have hne : (params.length == args.length) = false := beq_eq_false_iff_ne.mpr hlength
      simp only [Operand.arity?, Option.all_some, hne]
      exact checks_throw _
  · next hother =>
    rw [Operand.arity?_eq_none hother]
    exact (lowers_emit _).andThen fun _ _ => lowers_emit _

private theorem storeElements_checks (ty : Ty) (base : Operand) (index : Nat)
    (values : List Operand) :
    Checks G assigned true locals locals [] (storeElements ty base index values)
      fun _ => True := by
  induction values generalizing index with
  | nil => exact checks_pure trivial
  | cons value values ih =>
    refine (lowers_emit _).andThen fun element _ => ?_
    exact (checks_store value element).andThen fun _ _ => ih (index + 1)

private theorem lowerElements_lowers (values : List Operand) :
    Lowers G assigned true locals locals [] (lowerElements values) := by
  refine (checks_onUnit (A := fun _ => True) fun _ => trivial).andThen fun ty _ => ?_
  refine (lowers_emit _).andThen fun base _ => ?_
  exact (storeElements_checks ty base 0 values).andThen fun _ _ => lowers_emit _

/-- Applying a primitive to its operands never fails. -/
private theorem lowerPrimitive_lowers (p : Primitive) (args : List Operand) :
    Lowers G assigned true locals locals [] (lowerPrimitive p args) := by
  rw [lowerPrimitive.eq_def]
  split
  · exact (checks_onUnit (A := fun _ => True) fun _ => trivial).andThen fun _ _ => lowers_emit _
  · refine (lowers_emit _).andThen fun base _ => (lowers_emit _).andThen fun element _ => ?_
    exact lowers_emit _
  · exact (lowers_emit _).andThen fun _ _ => lowers_emit _
  · exact lowers_word 0

/-! ### Conditionals -/

/-- A move to a block that is there succeeds. -/
theorem moveTo_eq {s : LowerState} {block : BlockRef} (h : block.index < s.draft.blocks.size) :
    moveTo block s = .ok () ⟨s.unit, s.draft.goTo block.index h⟩ := by
  rw [moveTo, tryDraft_eq, moveTo_of_lt h]

/-- A terminator is accepted in an open block. -/
theorem terminate_eq {s : LowerState} (h : s.draft.terminated = false) (t : Terminator) :
    terminate t s = .ok () ⟨s.unit, s.draft.endWith t⟩ := by
  rw [terminate, tryDraft_eq, terminate_of_live h]

/-- An arm that starts in an open block is lowered exactly when its check succeeds, and then has a
value for the merge. -/
private theorem lowerArm_decides {s : LowerState} (hs : s.Tracks G assigned locals)
    {block : BlockRef} (hopen : s.draft.IsOpen block.index) (merge : BlockRef) {arm : Lower Operand}
    (harm : Lowers G assigned ok locals locals' ls arm) :
    Decides ok s (lowerArm block merge arm) fun incoming t =>
      incoming ≠ [] ∧ SameNames block.index ls s t := by
  have hlt : block.index < s.draft.blocks.size := hopen.lt
  -- the arm begins in its block, in an empty frame
  let entered : LowerState :=
    ⟨s.unit, { s.draft.goTo block.index hlt with scope := s.draft.scope.push }⟩
  have hentered : entered.At G assigned locals := by
    refine ⟨⟨hs.globals, hs.lookup, hs.slots⟩, ?_⟩
    exact terminated_eq_false_of_isOpen (d := s.draft.goTo block.index hlt) hopen
  refine .after (moveTo_eq hlt) (.after (t := entered) rfl ?_)
  refine (harm entered hentered).bind_true fun value t ht => ?_
  obtain ⟨ht, hpasses, -⟩ := ht
  -- and ends in an open block, in that frame
  let left : LowerState := ⟨t.unit, { t.draft with scope := t.draft.scope.pop }⟩
  have hlive : left.draft.terminated = false := ht.live
  refine .after (t := left) rfl ?_
  refine .after (a := false) (congrArg (EStateM.Result.ok · left) hlive) ?_
  refine .after rfl (.after (terminate_eq hlive _) ⟨rfl, List.cons_ne_nil _ _, ?_, ?_, ?_, ?_⟩)
  · exact ht.globals.trans hs.globals.symm
  · exact Site.pop_of_outer_eq hpasses.outer
  · have hkeeps : s.draft.KeepsBut block.index left.draft :=
      ⟨hpasses.onward.keeps.size_le, hpasses.onward.keeps.kept⟩
    exact hkeeps.trans (keepsBut_updateCurrent left.draft _) hpasses.onward.current
  · exact hpasses.found

/-- The three blocks of a conditional are open, and come after those that were there. -/
structure Forked (thenBlock elseBlock merge : BlockRef) (s t : LowerState) : Prop where
  names : SameNames s.draft.current [] s t
  thenOpen : t.draft.IsOpen thenBlock.index
  elseOpen : t.draft.IsOpen elseBlock.index
  mergeOpen : t.draft.IsOpen merge.index
  le_then : s.draft.blocks.size ≤ thenBlock.index
  then_lt : thenBlock.index < elseBlock.index
  else_lt : elseBlock.index < merge.index

/-- From an open block the fork of a conditional succeeds. -/
theorem exists_forked {s : LowerState} (hlive : s.draft.terminated = false) (stem : String)
    (condition : Operand) : ∃ thenBlock elseBlock merge t,
      fork stem condition s = .ok (thenBlock, elseBlock, merge) t ∧
        Forked thenBlock elseBlock merge s t := by
  let tested := s.draft.emit (.icmp .ne condition (.word 0))
  let one := tested.2.addBlock (stem ++ ".then")
  let two := one.2.addBlock (stem ++ ".else")
  let three := two.2.addBlock (stem ++ ".merge")
  let branch : Terminator := .condBranch tested.1 one.1.label two.1.label
  have hlive' : three.2.terminated = false := by
    simp only [three, two, one, terminated_addBlock]
    exact (terminated_append _ _).trans hlive
  have hall : s.draft.Onward three.2 :=
    (onward_emit _ _).trans ((onward_addBlock _ _).trans
      ((onward_addBlock _ _).trans (onward_addBlock _ _)))
  -- nothing but the current block changes, and the three are others
  have hcurrent : tested.2.current = s.draft.current := append_current _ _
  have htwo : one.2.KeepsBut s.draft.current two.2 := hcurrent ▸ (onward_addBlock one.2 _).keeps
  have hthree : two.2.KeepsBut s.draft.current three.2 :=
    hcurrent ▸ (onward_addBlock two.2 _).keeps
  have hend : three.2.KeepsBut s.draft.current (three.2.endWith branch) :=
    hcurrent ▸ keepsBut_updateCurrent three.2 _
  have hle : s.draft.blocks.size ≤ one.1.index := (onward_emit _ _).keeps.size_le
  have hlt : one.1.index < two.1.index := (isOpen_addBlock _ _).lt
  have hlt' : two.1.index < three.1.index := (isOpen_addBlock _ _).lt
  have hsize := s.draft.current_lt
  refine ⟨one.1, two.1, three.1, ⟨s.unit, three.2.endWith branch⟩, ?_, ?_, ?_, ?_, ?_, hle, hlt,
    hlt'⟩
  · change (terminate branch >>= fun _ => pure (one.1, two.1, three.1)) ⟨s.unit, three.2⟩ = _
    rw [run_bind, terminate_eq (s := ⟨s.unit, three.2⟩) hlive']
    rfl
  · refine ⟨append_globals _ _, append_scope _ _, hall.keeps.trans hend (.inl rfl), ?_⟩
    rw [List.append_nil]
    exact congrArg _ (append_pending _ _)
  · exact hend.isOpen (hthree.isOpen (htwo.isOpen (isOpen_addBlock _ _) (by omega)) (by omega))
      (by omega)
  · exact hend.isOpen (hthree.isOpen (isOpen_addBlock _ _) (by omega)) (by omega)
  · exact hend.isOpen (isOpen_addBlock _ _) (by omega)

/-- **The arms of a conditional decide whether it can be lowered**, and leave the local names
alone. -/
theorem lowerBranches_lowers (stem : String) (condition : Operand)
    {positive negative : Lower Operand}
    (hpositive : Lowers G assigned ok locals locals' ls positive)
    (hnegative : Lowers G assigned ok' locals locals'' ks negative) :
    Lowers G assigned (ok && ok') locals locals (ls ++ ks)
      (lowerBranches stem condition positive negative) := by
  intro s hs
  rw [lowerBranches_eq]
  refine .after (a := false) (congrArg (EStateM.Result.ok · s) hs.live) ?_
  obtain ⟨thenBlock, elseBlock, merge, t, hfork, ht⟩ := exists_forked hs.live stem condition
  refine .after hfork ?_
  have hsize := s.draft.current_lt
  have hle := ht.le_then
  have hthenlt := ht.then_lt
  have helselt := ht.else_lt
  -- the blocks of the other arm and of the join stay open while an arm is lowered
  refine (lowerArm_decides (hs.toTracks.of_scope_eq ht.names.globals ht.names.scope) ht.thenOpen
    merge hpositive).bind fun fromThen u hu => ?_
  obtain ⟨hincoming, hu⟩ := hu
  have hsu := ht.names.trans hu (.inr hle)
  refine (lowerArm_decides (hs.toTracks.of_scope_eq hsu.globals hsu.scope)
    (hu.keeps.isOpen ht.elseOpen (by omega)) merge hnegative).bind_true fun fromElse v hv => ?_
  obtain ⟨-, hv⟩ := hv
  have hsv := hsu.trans hv (.inr (by omega))
  have hmerge : v.draft.IsOpen merge.index :=
    hv.keeps.isOpen (hu.keeps.isOpen ht.mergeOpen (by omega)) (by omega)
  have hlt : merge.index < v.draft.blocks.size := hmerge.lt
  refine .after (moveTo_eq hlt) ?_
  -- lowering goes on in the block of the join
  let joined : LowerState := ⟨v.unit, v.draft.goTo merge.index hlt⟩
  have hjoined : joined.At G assigned locals :=
    ⟨hs.toTracks.of_scope_eq hsv.globals hsv.scope,
      terminated_eq_false_of_isOpen (d := v.draft.goTo merge.index hlt) hmerge⟩
  have hpasses : Passes (ls ++ ks) s joined :=
    ⟨⟨⟨hsv.keeps.size_le, hsv.keeps.kept⟩, .inr (by change _ ≤ merge.index; omega)⟩,
      congrArg Scope.outer hsv.scope, hsv.found⟩
  obtain ⟨x, xs, rfl⟩ := List.exists_cons_of_ne_nil hincoming
  refine (lowers_emit _ joined hjoined).mono fun w r hr => ?_
  exact ⟨hr.1, List.append_nil (ls ++ ks) ▸ hpasses.trans hr.2.1, hr.2.2⟩

end Lower

/-! ### Expressions -/

section Expressions

open Lower

variable {G : Globals} {assigned : List Name}

/-- A callee is lowered exactly when its check succeeds, and has as many parameters as the check
says. -/
private theorem lowerCallee_checks (target : Expr) {lowered : Lower Operand} {locals : Locals}
    (hlowered : Lowers G assigned (target.wellFormed G.get? assigned locals) locals
      (target.after assigned locals) (target.lambdas false) lowered) :
    Checks G assigned (target.wellFormed G.get? assigned locals) locals
      (target.after assigned locals) (target.lambdas false) (lowerCallee target lowered)
      fun v => v.arity? = calleeArity? G.get? locals target := by
  cases target with
  | lambda params body => exact checks_liftLambda ⟨params, body⟩
  | var name => exact lowerCalleeVariable_checks name
  | _ => exact hlowered

/-- A definition of a name, behind which a lambda is known under it. -/
private theorem lower_define_lowers (name : Name) (value : Expr) {locals : Locals}
    (hvalue : Lowers G assigned (value.wellFormed G.get? assigned locals) locals
      (value.after assigned locals) (value.lambdas false) (lower assigned value)) :
    Lowers G assigned (value.wellFormed G.get? assigned locals) locals
      ((Expr.define name value).after assigned locals) (value.lambdas false)
      (lower assigned (.define name value)) := by
  have hbind : ∀ v : Operand, v.arity? = value.arity? →
      Lowers G assigned true (value.after assigned locals)
        ((Expr.define name value).after assigned locals) []
        (do bindLocal assigned name v; return Operand.word 0) := by
    intro v hv
    rw [Expr.after, ← hv]
    exact (bindLocal_checks name v).andThen fun _ _ => lowers_word 0
  have hother : (∀ params body, value ≠ .lambda params body) → value.arity? = none →
      Lowers G assigned (value.wellFormed G.get? assigned locals) locals
        ((Expr.define name value).after assigned locals) (value.lambdas false)
        (lower assigned (.define name value)) := by
    intro hne hnone
    rw [lower_define_of_ne hne]
    exact hvalue.bind_true fun v hv => hbind v (hv.trans hnone.symm)
  cases value with
  | lambda params body =>
    rw [lower]
    exact (checks_liftLambda ⟨params, body⟩).bind_true fun v hv => hbind v hv
  | _ => exact hother nofun rfl

/-- A primitive can be lowered just if its operands can and it takes as many. -/
private theorem lower_primitive_lowers (p : Primitive) (args : List Expr) {locals : Locals}
    (hargs : Checks G assigned (wellFormedAll G.get? assigned args locals) locals
      (afterAll assigned args locals) (lambdasAll false args) (lowerAll assigned args)
      fun vs => vs.length = args.length) :
    Lowers G assigned ((Expr.primitive p args).wellFormed G.get? assigned locals) locals
      (afterAll assigned args locals) (lambdasAll false args)
      (lower assigned (.primitive p args)) := by
  rw [Expr.wellFormed]
  by_cases hlength : args.length = p.arity
  · rw [lower_primitive_eq hlength, beq_iff_eq.mpr hlength, Bool.true_and]
    exact hargs.bind_true fun vs _ => lowerPrimitive_lowers p vs
  · rw [lower_primitive_of_ne hlength, beq_eq_false_iff_ne.mpr hlength]
    exact checks_throw _

mutual

/-- **Lowering an expression succeeds if and only if the expression is well formed.** -/
theorem lower_lowers : (e : Expr) → e.returnFree = true → e.assigned ⊆ assigned →
    (locals : Locals) → Lowers G assigned (e.wellFormed G.get? assigned locals) locals
      (e.after assigned locals) (e.lambdas false) (lower assigned e)
  | .literal value, _, _, _ => by
    rw [lower]
    exact lowerLiteral_lowers value
  | .var name, _, _, _ => by
    rw [lower]
    exact lowerVariable_lowers name
  | .binary op lhs rhs, hret, hsub, locals => by
    rw [Expr.returnFree, Bool.and_eq_true] at hret
    rw [Expr.assigned, List.append_subset] at hsub
    rw [lower]
    refine (lower_lowers lhs hret.1 hsub.1 locals).bind fun l _ => ?_
    refine (lower_lowers rhs hret.2 hsub.2 _).bind_true fun r _ => ?_
    exact lowerOperator_lowers op l r
  | .primitive p args, hret, hsub, locals =>
    lower_primitive_lowers p args (lowerAll_checks args hret hsub locals)
  | .ifElse c p n, hret, hsub, locals => by
    rw [Expr.returnFree, Bool.and_eq_true, Bool.and_eq_true] at hret
    rw [Expr.assigned, List.append_subset, List.append_subset] at hsub
    rw [lower]
    refine (lower_lowers c hret.1 hsub.1.1 locals).bind fun v _ => ?_
    exact lowerBranches_lowers "if" v (lower_lowers p hret.2.1 hsub.1.2 _)
      (lower_lowers n hret.2.2 hsub.2 _)
  | .cond clauses, hret, hsub, locals => by
    rw [lower]
    exact lowerClauses_lowers clauses hret hsub locals
  | .and operands, hret, hsub, locals => by
    rw [lower]
    exact lowerAnd_lowers operands hret hsub locals
  | .or operands, hret, hsub, locals => by
    rw [lower]
    exact lowerOr_lowers operands hret hsub locals
  | .not operand, hret, hsub, locals => by
    rw [lower]
    refine (lower_lowers operand hret hsub locals).bind_true fun v _ => ?_
    exact lowerBranches_lowers "not" v (lowers_word 0) (lowers_word 1)
  | .letIn bindings body, hret, hsub, locals => by
    simp only [lower, Expr.lambdas, Bool.false_eq_true, ↓reduceIte, List.append_nil]
    refine (checks_liftLambda ⟨bindings.map Prod.fst, body⟩).bind fun callee _ => ?_
    exact (lowerBindings_checks bindings hret hsub locals).bind_true fun vs _ => lowers_emit _
  | .define name value, hret, hsub, locals =>
    lower_define_lowers name value (lower_lowers value hret hsub locals)
  | .lambda params body, _, _, _ => by
    rw [lower]
    exact (checks_liftLambda ⟨params, body⟩).bind_true fun f _ => toWord_lowers f
  | .call target args, hret, hsub, locals => by
    rw [Expr.returnFree, Bool.and_eq_true] at hret
    rw [Expr.assigned, List.append_subset] at hsub
    rw [lower]
    refine (lowerCallee_checks target (lower_lowers target hret.1 hsub.1 locals)).bind
      fun callee hcallee => (lowerAll_checks args hret.2 hsub.2 _).bind_nil fun vs hvs => ?_
    rw [← hcallee, ← hvs]
    exact lowerApplication_lowers callee vs
  | .array elements, hret, hsub, locals => by
    rw [lower]
    exact (lowerAll_checks elements hret hsub locals).bind_true fun vs _ => lowerElements_lowers vs
  | .assign name value, hret, hsub, locals => by
    rw [Expr.assigned, List.cons_subset] at hsub
    rw [lower]
    refine (lower_lowers value hret hsub.2 locals).bind_nil fun v _ => ?_
    exact (lowerAssignment_checks hsub.1 v).bind_true fun _ _ => lowers_word 0
  | .sequence forms, hret, hsub, locals => by
    rw [lower]
    exact lowerSequence_lowers forms hret hsub rfl locals
  | .ret _, hret, _, _ => nomatch hret

/-- A list of expressions is lowered exactly when the check of each of them succeeds. -/
private theorem lowerAll_checks :
    (es : List Expr) → returnFreeAll es = true → assignedAll es ⊆ assigned →
    (locals : Locals) → Checks G assigned (wellFormedAll G.get? assigned es locals) locals
      (afterAll assigned es locals) (lambdasAll false es) (lowerAll assigned es)
      fun vs => vs.length = es.length
  | [], _, _, _ => by
    rw [lowerAll]
    exact checks_pure rfl
  | e :: es, hret, hsub, locals => by
    rw [returnFreeAll, Bool.and_eq_true] at hret
    rw [assignedAll, List.append_subset] at hsub
    rw [lowerAll]
    refine (lower_lowers e hret.1 hsub.1 locals).bind fun v _ => ?_
    refine (lowerAll_checks es hret.2 hsub.2 _).bind_true fun vs hvs => ?_
    exact checks_pure (congrArg (· + 1) hvs)

private theorem lowerBindings_checks : (bs : List (Name × Expr)) → returnFreeBindings bs = true →
    assignedBindings bs ⊆ assigned → (locals : Locals) →
    Checks G assigned (wellFormedBindings G.get? assigned bs locals) locals
      (afterBindings assigned bs locals) (bindingLambdas false bs) (lowerBindings assigned bs)
      fun _ => True
  | [], _, _, _ => by
    rw [lowerBindings]
    exact checks_pure trivial
  | (_, e) :: bs, hret, hsub, locals => by
    rw [returnFreeBindings, Bool.and_eq_true] at hret
    rw [assignedBindings, List.append_subset] at hsub
    rw [lowerBindings]
    refine (lower_lowers e hret.1 hsub.1 locals).bind fun v _ => ?_
    refine (lowerBindings_checks bs hret.2 hsub.2 _).bind_true fun vs _ => ?_
    exact checks_pure trivial

theorem lowerSequence_lowers : (es : List Expr) → returnFreeAll es = true →
    assignedAll es ⊆ assigned → {value : Operand} → value.arity? = none → (locals : Locals) →
    Lowers G assigned (wellFormedAll G.get? assigned es locals) locals
      (afterAll assigned es locals) (lambdasAll false es) (lowerSequence assigned value es)
  | [], _, _, _, hvalue, _ => by
    rw [lowerSequence]
    exact checks_pure hvalue
  | e :: es, hret, hsub, _, _, locals => by
    rw [returnFreeAll, Bool.and_eq_true] at hret
    rw [assignedAll, List.append_subset] at hsub
    rw [lowerSequence]
    refine (lower_lowers e hret.1 hsub.1 locals).bind fun v hv => ?_
    refine checks_terminated.andThen fun done hdone => ?_
    rw [hdone]
    exact lowerSequence_lowers es hret.2 hsub.2 hv _

private theorem lowerClauses_lowers : (cs : List Clause) → returnFreeClauses cs = true →
    assignedClauses cs ⊆ assigned → (locals : Locals) →
    Lowers G assigned (wellFormedClauses G.get? assigned cs locals) locals
      ((Expr.cond cs).after assigned locals) (clauseLambdas false cs) (lowerClauses assigned cs)
  | [], _, _, _ => by
    rw [lowerClauses]
    exact lowers_word 0
  | .otherwise body :: cs, hret, hsub, locals => by
    rw [returnFreeClauses, Bool.and_eq_true] at hret
    rw [assignedClauses, List.append_subset] at hsub
    rw [lowerClauses]
    exact lowerBranches_lowers "cond" _ (lower_lowers body hret.1 hsub.1 locals)
      (lowerClauses_lowers cs hret.2 hsub.2 locals)
  | .test predicate body :: cs, hret, hsub, locals => by
    rw [returnFreeClauses, Bool.and_eq_true, Bool.and_eq_true] at hret
    rw [assignedClauses, List.append_subset, List.append_subset] at hsub
    rw [lowerClauses]
    refine (lower_lowers predicate hret.1 hsub.1.1 locals).bind fun v _ => ?_
    exact lowerBranches_lowers "cond" v (lower_lowers body hret.2.1 hsub.1.2 _)
      (lowerClauses_lowers cs hret.2.2 hsub.2 _)

private theorem lowerAnd_lowers :
    (es : List Expr) → returnFreeAll es = true → assignedAll es ⊆ assigned →
    (locals : Locals) → Lowers G assigned (wellFormedAll G.get? assigned es locals) locals
      ((Expr.and es).after assigned locals) (lambdasAll false es) (lowerAnd assigned es)
  | [], _, _, _ => by
    rw [lowerAnd]
    exact lowers_word 1
  | [e], hret, hsub, locals => by
    simp only [returnFreeAll, Bool.and_true] at hret
    simp only [assignedAll, List.append_nil] at hsub
    simp only [lowerAnd, wellFormedAll, lambdasAll, Bool.and_true, List.append_nil]
    exact lower_lowers e hret hsub locals
  | e :: d :: es, hret, hsub, locals => by
    rw [returnFreeAll, Bool.and_eq_true] at hret
    rw [assignedAll, List.append_subset] at hsub
    rw [lowerAnd_cons_cons]
    refine (lower_lowers e hret.1 hsub.1 locals).bind fun v _ => ?_
    have hbranches := lowerBranches_lowers "and" v
      (lowerAnd_lowers (d :: es) hret.2 hsub.2 (e.after assigned locals)) (lowers_word 0)
    rwa [Bool.and_true, List.append_nil] at hbranches

private theorem lowerOr_lowers :
    (es : List Expr) → returnFreeAll es = true → assignedAll es ⊆ assigned →
    (locals : Locals) → Lowers G assigned (wellFormedAll G.get? assigned es locals) locals
      ((Expr.or es).after assigned locals) (lambdasAll false es) (lowerOr assigned es)
  | [], _, _, _ => by
    rw [lowerOr]
    exact lowers_word 0
  | [e], hret, hsub, locals => by
    simp only [returnFreeAll, Bool.and_true] at hret
    simp only [assignedAll, List.append_nil] at hsub
    simp only [lowerOr, wellFormedAll, lambdasAll, Bool.and_true, List.append_nil]
    exact lower_lowers e hret hsub locals
  | e :: d :: es, hret, hsub, locals => by
    rw [returnFreeAll, Bool.and_eq_true] at hret
    rw [assignedAll, List.append_subset] at hsub
    rw [lowerOr_cons_cons]
    refine (lower_lowers e hret.1 hsub.1 locals).bind fun v hv => ?_
    have hvalue : Lowers G assigned true (e.after assigned locals) (e.after assigned locals) []
        (pure v) := checks_pure hv
    have hbranches := lowerBranches_lowers "or" v hvalue
      (lowerOr_lowers (d :: es) hret.2 hsub.2 (e.after assigned locals))
    rwa [Bool.true_and, List.nil_append] at hbranches

end

end Expressions

end WordScheme
