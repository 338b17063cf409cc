import Mathlib
import WordScheme.Proofs.LoweringChanges

/-!
# Lowerings that differ in labels only

Two lowerings may build the same blocks under other labels. `FunctionDraft.Twin d d'` says that two
drafts are the same but for the labels of their blocks: what corresponds is read off their blocks
index by index (`FunctionDraft.Matches`), so that the correspondence grows with the drafts and need
not be carried along.

`Lower.Twins m m'` says that from twin states `m` and `m'` go on to the same value or the same
error, in twin states. It holds of every composed lowering and itself (`Composed.twins`), and of two
conditionals whose blocks are named after different stems: `twins_lowerBranches`.
-/

namespace WordScheme

open Lower LowerState FunctionDraft

/-! ### Code with corresponding labels -/

section Code

variable {R R' : Name → Name → Prop}

/-- Two instructions that are the same but for the labels of a phi. -/
inductive Instruction.Alike (R : Name → Name → Prop) : Instruction → Instruction → Prop
  | phi (ty : Ty) {xs ys : List (Operand × Name)}
      (h : List.Forall₂ (fun x y => x.1 = y.1 ∧ R x.2 y.2) xs ys) :
      Alike R (.phi ty xs) (.phi ty ys)
  | other {i : Instruction} (h : ∀ ty xs, i ≠ .phi ty xs) : Alike R i i

/-- Two terminators that are the same but for the labels to which they lead. -/
inductive Terminator.Alike (R : Name → Name → Prop) : Terminator → Terminator → Prop
  | branch {l l' : Name} (h : R l l') : Alike R (.branch l) (.branch l')
  | condBranch (condition : Operand) {p p' n n' : Name} (hp : R p p') (hn : R n n') :
      Alike R (.condBranch condition p n) (.condBranch condition p' n')
  | ret (value : Operand) : Alike R (.ret value) (.ret value)
  | unreachable : Alike R .unreachable .unreachable

/-- Two statements that are the same but for the labels of a phi. -/
structure Statement.Alike (R : Name → Name → Prop) (s s' : Statement) : Prop where
  dest : s'.dest = s.dest
  instruction : s.instruction.Alike R s'.instruction

/-- Two blocks of the same code but for labels. Their own labels may be any. -/
structure BlockDraft.Alike (R : Name → Name → Prop) (b b' : BlockDraft) : Prop where
  statements : List.Forall₂ (Statement.Alike R) b.statements b'.statements
  terminator : Option.Rel (Terminator.Alike R) b.terminator b'.terminator

private theorem Instruction.Alike.mono (h : R ≤ R') {i i' : Instruction} (hi : i.Alike R i') :
    i.Alike R' i' := by
  cases hi with
  | phi ty hxs => exact .phi ty (hxs.imp fun x y hxy => ⟨hxy.1, h _ _ hxy.2⟩)
  | other hi => exact .other hi

private theorem Terminator.Alike.mono (h : R ≤ R') {t t' : Terminator} (ht : t.Alike R t') :
    t.Alike R' t' := by
  cases ht with
  | branch hl => exact .branch (h _ _ hl)
  | condBranch c hp hn => exact .condBranch c (h _ _ hp) (h _ _ hn)
  | ret value => exact .ret value
  | unreachable => exact .unreachable

private theorem BlockDraft.Alike.mono (h : R ≤ R') {b b' : BlockDraft} (hb : b.Alike R b') :
    b.Alike R' b' := by
  obtain ⟨label, statements, terminator⟩ := b
  obtain ⟨label', statements', terminator'⟩ := b'
  obtain ⟨hstatements, hterminator⟩ := hb
  refine ⟨hstatements.imp fun s s' hs => ⟨hs.dest, hs.instruction.mono h⟩, ?_⟩
  cases hterminator with
  | some ht => exact .some (ht.mono h)
  | none => exact .none

/-- Of two blocks that are alike both have ended, or none. -/
private theorem BlockDraft.Alike.isSome {b b' : BlockDraft} (h : b.Alike R b') :
    b'.terminator.isSome = b.terminator.isSome := by
  obtain ⟨label, statements, terminator⟩ := b
  obtain ⟨label', statements', terminator'⟩ := b'
  cases h.terminator with
  | some ht => rfl
  | none => rfl

/-- Labels do not matter for the type of a result. -/
private theorem Instruction.Alike.resultTy {i i' : Instruction} (h : i.Alike R i') :
    i'.resultTy = i.resultTy := by
  cases h with
  | phi ty hxs => rfl
  | other hi => rfl

end Code

/-! ### Twin drafts -/

/-- All of a draft but its blocks and the supply of their labels. -/
structure DraftOutline where
  name : Name
  params : List Name
  current : Nat
  registers : Nat
  scope : Scope
  globals : Globals
  pending : List PendingFunction

namespace FunctionDraft

/-- The draft without its blocks. -/
def outline (d : FunctionDraft) : DraftOutline :=
  ⟨d.name, d.params, d.current, d.registers, d.scope, d.globals, d.pending⟩

/-- The label of the block at an index. -/
def label? (d : FunctionDraft) (i : Nat) : Option Name :=
  (d.block? i).map BlockDraft.label

/-- Two labels that blocks of one index carry. -/
def Matches (d d' : FunctionDraft) (l l' : Name) : Prop :=
  ∃ i, d.label? i = some l ∧ d'.label? i = some l'

/-- Two drafts that are the same but for the labels of their blocks. -/
structure Twin (d d' : FunctionDraft) : Prop where
  outline : d'.outline = d.outline
  size : d'.blocks.size = d.blocks.size
  blocks : ∀ {i b b'}, d.block? i = some b → d'.block? i = some b' → b.Alike (d.Matches d') b'

variable {d d' e e' : FunctionDraft}

/-- An update that keeps the label of the current block keeps all labels. -/
private theorem label?_updateCurrent {f : BlockDraft → BlockDraft}
    (h : (f d.currentBlock).label = d.currentBlock.label) (i : Nat) :
    (d.updateCurrent f).label? i = d.label? i := by
  rw [label?, block?_updateCurrent]
  split
  · next hi =>
    rw [hi, label?, block?_current, Option.map_some, h]
    rfl
  · rfl

/-- A statement changes no label. -/
private theorem label?_append (d : FunctionDraft) (s : Statement) (i : Nat) :
    (d.append s).label? i = d.label? i := by
  rw [append]
  split
  · rfl
  · exact label?_updateCurrent rfl i

/-- Which labels correspond depends on the labels of the blocks alone. -/
private theorem matches_congr (h : ∀ i, e.label? i = d.label? i)
    (h' : ∀ i, e'.label? i = d'.label? i) : e.Matches e' = d.Matches d' := by
  funext l l'
  simp only [Matches, h, h']

namespace Twin

/-- Twins are in the same block. -/
private theorem current_eq (h : d.Twin d') : d'.current = d.current :=
  congrArg DraftOutline.current h.outline

/-- The current blocks are alike. -/
private theorem currentBlock (h : d.Twin d') :
    d.currentBlock.Alike (d.Matches d') d'.currentBlock :=
  h.blocks (block?_current d) (h.current_eq ▸ block?_current d')

/-- A twin of a live draft is live. -/
private theorem terminated (h : d.Twin d') : d'.terminated = d.terminated :=
  h.currentBlock.isSome

/-- The labels of the current blocks correspond. -/
private theorem matches_current (h : d.Twin d') :
    d.Matches d' d.currentBlock.label d'.currentBlock.label := by
  refine ⟨d.current, ?_, ?_⟩
  · rw [label?, block?_current]
    rfl
  · rw [label?, ← h.current_eq, block?_current]
    rfl

/-- Drafts with the blocks of twins. -/
theorem of_blocks (h : d.Twin d') (hblocks : e.blocks = d.blocks) (hblocks' : e'.blocks = d'.blocks)
    (houtline : e'.outline = e.outline) : e.Twin e' := by
  have hmatches : e.Matches e' = d.Matches d' :=
    matches_congr (fun i => by rw [label?, block?, hblocks]; rfl)
      fun i => by rw [label?, block?, hblocks']; rfl
  refine ⟨houtline, by rw [hblocks, hblocks', h.size], fun hb hb' => ?_⟩
  rw [block?, hblocks] at hb
  rw [block?, hblocks'] at hb'
  rw [hmatches]
  exact h.blocks hb hb'

/-- The current blocks are changed alike. -/
private theorem updateCurrent (h : d.Twin d') {f f' : BlockDraft → BlockDraft}
    (hf : (f d.currentBlock).label = d.currentBlock.label)
    (hf' : (f' d'.currentBlock).label = d'.currentBlock.label)
    (halike : (f d.currentBlock).Alike (d.Matches d') (f' d'.currentBlock)) :
    (d.updateCurrent f).Twin (d'.updateCurrent f') := by
  have hmatches : (d.updateCurrent f).Matches (d'.updateCurrent f') = d.Matches d' :=
    matches_congr (label?_updateCurrent hf) (label?_updateCurrent hf')
  refine ⟨h.outline, ?_, fun {i b b'} hb hb' => ?_⟩
  · exact (Table.size_update ..).trans (h.size.trans (Table.size_update ..).symm)
  · rw [block?_updateCurrent] at hb hb'
    rw [h.current_eq] at hb'
    rw [hmatches]
    split_ifs at hb hb' with hi
    · cases hb
      cases hb'
      exact halike
    · exact h.blocks hb hb'

/-- Twins stay twins under statements that are alike. -/
private theorem append (h : d.Twin d') {s s' : Statement} (hs : s.Alike (d.Matches d') s') :
    (d.append s).Twin (d'.append s') := by
  rw [FunctionDraft.append, FunctionDraft.append, h.terminated]
  split
  · exact h
  · refine h.updateCurrent rfl rfl ⟨?_, h.currentBlock.terminator⟩
    exact List.rel_append h.currentBlock.statements (.cons hs .nil)

/-- Twins stay twins under terminators that are alike. -/
private theorem endWith (h : d.Twin d') {t t' : Terminator} (ht : t.Alike (d.Matches d') t') :
    (d.endWith t).Twin (d'.endWith t') :=
  h.updateCurrent rfl rfl ⟨h.currentBlock.statements, .some ht⟩

/-- Twins stay twins as both go on in the same block. -/
private theorem goTo (h : d.Twin d') {index : Nat} (hlt : index < d.blocks.size)
    (hlt' : index < d'.blocks.size) : (d.goTo index hlt).Twin (d'.goTo index hlt') :=
  ⟨congrArg (fun o : DraftOutline => { o with current := index }) h.outline, h.size, h.blocks⟩

end Twin

/-- A new block does not change the labels of the others. -/
private theorem label?_addBlock_of_lt {base : Name} {i : Nat} (hi : i < d.blocks.size) :
    (d.addBlock base).2.label? i = d.label? i := by
  rw [label?, block?_addBlock, if_neg (Nat.ne_of_lt hi)]
  rfl

/-- A new block has its own label. -/
private theorem label?_addBlock_self (d : FunctionDraft) (base : Name) :
    (d.addBlock base).2.label? d.blocks.size = some (d.addBlock base).1.label := by
  rw [label?, block?_addBlock, if_pos rfl]
  rfl

private theorem lt_of_label? {i : Nat} {l : Name} (h : d.label? i = some l) :
    i < d.blocks.size := by
  obtain ⟨b, hb, -⟩ := Option.map_eq_some_iff.mp h
  exact block?_lt hb

/-- Labels that correspond go on to do so when blocks are added. -/
private theorem matches_le_addBlock (base base' : Name) :
    d.Matches d' ≤ (d.addBlock base).2.Matches (d'.addBlock base').2 := by
  rintro l l' ⟨i, hi, hi'⟩
  refine ⟨i, ?_, ?_⟩
  · rwa [label?_addBlock_of_lt (lt_of_label? hi)]
  · rwa [label?_addBlock_of_lt (lt_of_label? hi')]

/-- Added blocks correspond, whatever they are named after. -/
private theorem Twin.addBlock (h : d.Twin d') (base base' : Name) :
    (d.addBlock base).2.Twin (d'.addBlock base').2 ∧
      (d.addBlock base).2.Matches (d'.addBlock base').2 (d.addBlock base).1.label
        (d'.addBlock base').1.label := by
  refine ⟨⟨h.outline, ?_, fun {i b b'} hb hb' => ?_⟩, d.blocks.size,
    label?_addBlock_self d base, ?_⟩
  · exact (Table.size_push ..).trans ((congrArg (· + 1) h.size).trans (Table.size_push ..).symm)
  · rw [block?_addBlock] at hb hb'
    rw [h.size] at hb'
    split_ifs at hb hb' with hi
    · cases hb
      cases hb'
      exact ⟨.nil, .none⟩
    · exact (h.blocks hb hb').mono (matches_le_addBlock base base')
  · rw [← h.size]
    exact label?_addBlock_self d' base'

/-- Emitted instructions give the same register. -/
private theorem Twin.emit (h : d.Twin d') {i i' : Instruction} (hi : i.Alike (d.Matches d') i') :
    (d.emit i).2.Twin (d'.emit i').2 ∧ (d'.emit i').1 = (d.emit i).1 := by
  have hregisters : d'.registers = d.registers := congrArg DraftOutline.registers h.outline
  have hfresh : d.freshRegister.2.Twin d'.freshRegister.2 :=
    h.of_blocks rfl rfl
      (congrArg (fun o : DraftOutline => { o with registers := o.registers + 1 }) h.outline)
  refine ⟨hfresh.append ⟨?_, hi⟩, ?_⟩
  · exact congrArg (fun n => some (n + 1)) hregisters
  · change Operand.register _ _ = .register _ _
    rw [hi.resultTy]
    exact congrArg (fun n => Operand.register (n + 1) i.resultTy) hregisters

/-- Statements do not change which labels correspond. -/
private theorem matches_append (d d' : FunctionDraft) (s s' : Statement) :
    (d.append s).Matches (d'.append s') = d.Matches d' :=
  matches_congr (label?_append d s) (label?_append d' s')

private theorem matches_emit (d d' : FunctionDraft) (i i' : Instruction) :
    (d.emit i).2.Matches (d'.emit i').2 = d.Matches d' :=
  matches_append d.freshRegister.2 d'.freshRegister.2 _ _

private theorem matches_endWith (d d' : FunctionDraft) (t t' : Terminator) :
    (d.endWith t).Matches (d'.endWith t') = d.Matches d' :=
  matches_congr (label?_updateCurrent rfl) (label?_updateCurrent rfl)

end FunctionDraft

/-! ### Twin runs -/

/-- Two states that are the same but for the labels of blocks. -/
structure LowerState.Twin (s s' : LowerState) : Prop where
  unit : s'.unit = s.unit
  draft : s.draft.Twin s'.draft

namespace Lower

/-- Two outcomes in twin states: the same error, or values as `Q` says. Labels that correspond in
the sense of `R` go on to do so. -/
inductive TwinOutcomes {α β : Type} (R : Name → Name → Prop)
    (Q : (Name → Name → Prop) → α → β → Prop) :
    EStateM.Result CompileError LowerState α → EStateM.Result CompileError LowerState β → Prop
  | ok {a : α} {b : β} {t t' : LowerState} (h : t.Twin t') (hR : R ≤ t.draft.Matches t'.draft)
      (hQ : Q (t.draft.Matches t'.draft) a b) : TwinOutcomes R Q (.ok a t) (.ok b t')
  | error (e : CompileError) {t t' : LowerState} (h : t.Twin t') :
      TwinOutcomes R Q (.error e t) (.error e t')

/-- The same value, whatever the labels. -/
def Same {α : Type} (_ : Name → Name → Prop) (a b : α) : Prop :=
  b = a

/-- From twin states both lowerings go on to the same value or error, in twin states. -/
def Twins {α : Type} (m m' : Lower α) : Prop :=
  ∀ s s', s.Twin s' → TwinOutcomes (s.draft.Matches s'.draft) Same (m s) (m' s')

section Rules

variable {α β γ δ : Type} {R R' : Name → Name → Prop} {Q : (Name → Name → Prop) → α → β → Prop}
  {Q' : (Name → Name → Prop) → γ → δ → Prop} {s s' : LowerState}

private theorem TwinOutcomes.mono {x : EStateM.Result CompileError LowerState α}
    {y : EStateM.Result CompileError LowerState β} (h : TwinOutcomes R' Q x y) (hR : R ≤ R') :
    TwinOutcomes R Q x y := by
  cases h with
  | ok h hR' hQ => exact .ok h (hR.trans hR') hQ
  | error e h => exact .error e h

/-- One part after another. What follows may use how both parts ended. -/
private theorem TwinOutcomes.bind {m : Lower α} {m' : Lower β} {f : α → Lower γ} {f' : β → Lower δ}
    (h : TwinOutcomes R Q (m s) (m' s'))
    (hf : ∀ {a b t t'}, m s = .ok a t → m' s' = .ok b t' → t.Twin t' →
      R ≤ t.draft.Matches t'.draft → Q (t.draft.Matches t'.draft) a b →
      TwinOutcomes (t.draft.Matches t'.draft) Q' (f a t) (f' b t')) :
    TwinOutcomes R Q' ((m >>= f) s) ((m' >>= f') s') := by
  rw [run_bind, run_bind]
  generalize hx : m s = x at h
  generalize hy : m' s' = y at h
  cases h with
  | ok ht hR hQ => exact (hf hx hy ht hR hQ).mono hR
  | error e ht => exact .error e ht

/-- Twins one after another are twins. -/
private theorem Twins.bind {m m' : Lower α} {f f' : α → Lower γ} (hm : Twins m m')
    (hf : ∀ a s t, m s = .ok a t → Twins (f a) (f' a)) : Twins (m >>= f) (m' >>= f') := by
  intro s s' hs
  refine (hm s s' hs).bind fun {a b t t'} ha _ ht _ hsame => ?_
  cases hsame
  exact hf a s t ha t t' ht

theorem Twins.andThen {m m' : Lower α} {f f' : α → Lower γ} (hm : Twins m m')
    (hf : ∀ a, Twins (f a) (f' a)) : Twins (m >>= f) (m' >>= f') :=
  hm.bind fun a _ _ _ => hf a

theorem twins_pure (a : α) : Twins (pure a) (pure a) :=
  fun _ _ hs => .ok hs le_rfl rfl

private theorem twins_throw (e : CompileError) : Twins (throw e : Lower α) (throw e) :=
  fun _ _ hs => .error e hs

/-- A lowering that gives something of the outline of the draft. -/
private theorem twins_ofDraft {f : FunctionDraft → α}
    (hf : ∀ {d d'}, FunctionDraft.Twin d d' → f d' = f d) : Twins (ofDraft f) (ofDraft f) :=
  fun _ _ hs => .ok hs le_rfl (hf hs.draft)

/-- Instructions that are alike give the same register in twin drafts. -/
private theorem twinOutcomes_emit (hs : s.Twin s') {i i' : Instruction}
    (hi : i.Alike (s.draft.Matches s'.draft) i') :
    TwinOutcomes (s.draft.Matches s'.draft) Same (emit i s) (emit i' s') := by
  obtain ⟨hdraft, hvalue⟩ := hs.draft.emit hi
  exact .ok ⟨hs.unit, hdraft⟩ (le_of_eq (matches_emit _ _ _ _).symm) hvalue

/-- An instruction that is no phi has itself for a twin. -/
theorem twins_emit {i : Instruction} (h : ∀ ty xs, i ≠ .phi ty xs) : Twins (emit i) (emit i) :=
  fun _ _ hs => twinOutcomes_emit hs (.other h)

theorem twins_store (value pointer : Operand) :
    Twins (store value pointer) (store value pointer) := by
  intro s s' hs
  have hstore : Statement.Alike (s.draft.Matches s'.draft) ⟨none, .store value pointer⟩
      ⟨none, .store value pointer⟩ :=
    ⟨rfl, .other fun ty xs h => by cases h⟩
  exact .ok ⟨hs.unit, hs.draft.append hstore⟩ (le_of_eq (matches_append _ _ _ _).symm) rfl

/-- Blocks that have not ended are ended alike. -/
private theorem twinOutcomes_terminate (hs : s.Twin s') (hlive : s.draft.terminated = false)
    {t t' : Terminator} (ht : t.Alike (s.draft.Matches s'.draft) t') :
    TwinOutcomes (s.draft.Matches s'.draft) Same (terminate t s) (terminate t' s') := by
  rw [terminate_eq hlive, terminate_eq (hs.draft.terminated.trans hlive)]
  exact .ok ⟨hs.unit, hs.draft.endWith ht⟩ (le_of_eq (matches_endWith _ _ _ _).symm) rfl

/-- Two references to blocks of one index, whose labels correspond. -/
structure SameBlock (R : Name → Name → Prop) (b b' : BlockRef) : Prop where
  index : b'.index = b.index
  label : R b.label b'.label

private theorem SameBlock.mono {b b' : BlockRef} (h : SameBlock R b b') (hR : R ≤ R') :
    SameBlock R' b b' :=
  ⟨h.index, hR _ _ h.label⟩

/-- Blocks that are added under any two names correspond. -/
private theorem twinOutcomes_addBlock (hs : s.Twin s') (base base' : Name) :
    TwinOutcomes (s.draft.Matches s'.draft) SameBlock (addBlock base s) (addBlock base' s') := by
  obtain ⟨hdraft, hlabel⟩ := hs.draft.addBlock base base'
  exact .ok ⟨hs.unit, hdraft⟩ (matches_le_addBlock base base') ⟨hs.draft.size, hlabel⟩

/-- Twins go on in blocks that correspond. -/
private theorem twinOutcomes_moveTo (hs : s.Twin s') {b b' : BlockRef} (h : b'.index = b.index) :
    TwinOutcomes (s.draft.Matches s'.draft) Same (moveTo b s) (moveTo b' s') := by
  by_cases hlt : b.index < s.draft.blocks.size
  · have hlt' : b'.index < s'.draft.blocks.size := by
      rwa [h, hs.draft.size]
    rw [moveTo_eq hlt, moveTo_eq hlt']
    refine .ok ⟨hs.unit, ?_⟩ le_rfl rfl
    simp only [h]
    exact hs.draft.goTo hlt _
  · have hlt' : ¬ b'.index < s'.draft.blocks.size := by
      rwa [h, hs.draft.size]
    rw [moveTo, moveTo, tryDraft_eq, tryDraft_eq, FunctionDraft.moveTo, FunctionDraft.moveTo,
      dif_neg hlt, dif_neg hlt', h]
    exact .error _ hs

theorem twins_onScope (f : Scope → Scope) : Twins (onScope f) (onScope f) := by
  intro s s' hs
  refine .ok ⟨hs.unit, hs.draft.of_blocks rfl rfl ?_⟩ le_rfl rfl
  exact congrArg (fun o : DraftOutline => { o with scope := f o.scope }) hs.draft.outline

/-- What is asked of the module is the same for twins. -/
private theorem twins_onUnit (f : CompileUnit → α × CompileUnit) : Twins (onUnit f) (onUnit f) := by
  intro s s' hs
  refine .ok ⟨?_, hs.draft⟩ le_rfl ?_
  · exact congrArg (fun u => (f u).2) hs.unit
  · exact congrArg (fun u => (f u).1) hs.unit

private theorem twins_enqueue (f : PendingFunction) :
    Twins (onDraft fun d => ((), d.enqueue f)) (onDraft fun d => ((), d.enqueue f)) := by
  intro s s' hs
  refine .ok ⟨hs.unit, hs.draft.of_blocks rfl rfl ?_⟩ le_rfl rfl
  exact congrArg (fun o : DraftOutline => { o with pending := o.pending ++ [f] }) hs.draft.outline

/-- The lifting of a lambda has itself for a twin. -/
theorem twins_liftLambda (l : Lambda) : Twins (liftLambda l) (liftLambda l) := by
  rw [liftLambda]
  refine (twins_ofDraft fun h => congrArg DraftOutline.globals h.outline).andThen fun globals => ?_
  refine (twins_onUnit _).andThen fun name => (twins_onUnit _).andThen fun _ => ?_
  exact (twins_enqueue _).andThen fun _ => twins_pure _

private theorem twins_local? (name : Name) : Twins (local? name) (local? name) :=
  twins_ofDraft fun h => congrArg (fun o : DraftOutline => o.scope.lookup? name) h.outline

private theorem twins_global? (name : Name) : Twins (global? name) (global? name) :=
  twins_ofDraft fun h => congrArg (fun o : DraftOutline => o.globals.get? name) h.outline

private theorem twins_terminated : Twins terminated terminated :=
  twins_ofDraft fun h => h.terminated

/-- Both lowerings ask whether their block has ended, and are told the same. -/
private theorem TwinOutcomes.terminated_bind {f : Bool → Lower α} {f' : Bool → Lower β}
    (hs : s.Twin s')
    (h : ∀ done, s.draft.terminated = done → TwinOutcomes R Q (f done s) (f' done s')) :
    TwinOutcomes R Q ((terminated >>= f) s) ((terminated >>= f') s') := by
  rw [bind_of_ok (terminated_eq rfl), bind_of_ok (terminated_eq hs.draft.terminated)]
  exact h _ rfl

private theorem twins_assignment (name : Name) (value : Operand) :
    Twins (lowerAssignment name value) (lowerAssignment name value) := by
  refine (twins_local? name).andThen fun binding => ?_
  split
  · exact twins_store _ _
  · exact twins_onScope _
  · refine (twins_global? name).andThen fun kind => ?_
    split
    · exact twins_store _ _
    · exact twins_throw _
    · exact twins_throw _

private theorem twins_string (value : String) :
    Twins (lowerLiteral (.string value)) (lowerLiteral (.string value)) := by
  refine (twins_onUnit _).andThen fun constant => ?_
  refine (twins_emit fun ty xs h => by cases h).andThen fun address => ?_
  exact twins_emit fun ty xs h => by cases h

private theorem twins_returning (value : Operand) : Twins (returning value) (returning value) := by
  intro s s' hs
  refine .terminated_bind hs fun done hdone => ?_
  cases done with
  | true => exact .ok hs le_rfl rfl
  | false => exact twinOutcomes_terminate hs hdone (.ret value)

end Rules

/-! ### Conditionals -/

section Conditionals

variable {R : Name → Name → Prop} {s s' : LowerState} {stem stem' : String}
  {positive positive' negative negative' arm arm' : Lower Operand}
  {block block' merge merge' : BlockRef}

/-- Two operands are the same, and the blocks from which they come correspond. -/
def SameIncoming (R : Name → Name → Prop) (xs ys : List (Operand × Name)) : Prop :=
  List.Forall₂ (fun x y => x.1 = y.1 ∧ R x.2 y.2) xs ys

/-- The blocks of two conditionals correspond, one by one. -/
def SameBlocks (R : Name → Name → Prop) (bs bs' : BlockRef × BlockRef × BlockRef) : Prop :=
  SameBlock R bs.1 bs'.1 ∧ SameBlock R bs.2.1 bs'.2.1 ∧ SameBlock R bs.2.2 bs'.2.2

/-- The forks of two conditionals give blocks that correspond, whatever their stems. -/
theorem twinOutcomes_fork (hs : s.Twin s') (hlive : s.draft.terminated = false)
    (condition : Operand) : TwinOutcomes (s.draft.Matches s'.draft) SameBlocks
      (fork stem condition s) (fork stem' condition s') := by
  have hicmp : ∀ ty xs, Instruction.icmp .ne condition (.word 0) ≠ .phi ty xs := by
    intro ty xs h
    cases h
  rw [fork, fork]
  refine (twins_emit hicmp s s' hs).bind fun {flag _ t t'} hflag _ ht _ hsame => ?_
  cases hsame
  refine (twinOutcomes_addBlock ht _ _).bind fun {one one' u u'} hone _ hu _ hthen => ?_
  refine (twinOutcomes_addBlock hu _ _).bind fun {two two' v v'} htwo _ hv huv helse => ?_
  refine (twinOutcomes_addBlock hv _ _).bind fun {three three' w w'} hthree _ hw hvw hmerge => ?_
  have hlive' : w.draft.terminated = false := by
    cases hthree
    cases htwo
    cases hone
    cases hflag
    simp only [terminated_addBlock]
    exact (terminated_append _ _).trans hlive
  have hthen := (hthen.mono huv).mono hvw
  have helse := helse.mono hvw
  refine (twinOutcomes_terminate hw hlive' (.condBranch flag hthen.label helse.label)).bind ?_
  intro _ _ x x' _ _ hx hR _
  exact .ok hx le_rfl ⟨hthen.mono hR, helse.mono hR, hmerge.mono hR⟩

/-- Two arms that go on alike give the same value, from blocks that correspond. -/
theorem twinOutcomes_lowerArm (hs : s.Twin s') (hblock : block'.index = block.index)
    (hmerge : s.draft.Matches s'.draft merge.label merge'.label) (harm : Twins arm arm') :
    TwinOutcomes (s.draft.Matches s'.draft) SameIncoming (lowerArm block merge arm s)
      (lowerArm block' merge' arm' s') := by
  rw [lowerArm, lowerArm]
  refine (twinOutcomes_moveTo hs hblock).bind fun {_ _ t t'} _ _ ht hst _ => ?_
  refine (twins_onScope _ t t' ht).bind fun {_ _ u u'} _ _ hu htu _ => ?_
  refine (harm u u' hu).bind fun {value _ v v'} _ _ hv huv hsame => ?_
  cases hsame
  refine (twins_onScope _ v v' hv).bind fun {_ _ w w'} _ _ hw hvw _ => ?_
  have hmerge : w.draft.Matches w'.draft merge.label merge'.label :=
    hvw _ _ (huv _ _ (htu _ _ (hst _ _ hmerge)))
  refine .terminated_bind hw fun done hlive => ?_
  cases done with
  | true => exact .ok hw le_rfl .nil
  | false =>
    have hlast : ofDraft currentRef w = .ok w.draft.currentRef w := rfl
    have hlast' : ofDraft currentRef w' = .ok w'.draft.currentRef w' := rfl
    change TwinOutcomes _ _ ((ofDraft currentRef >>= _) w) ((ofDraft currentRef >>= _) w')
    rw [bind_of_ok hlast, bind_of_ok hlast']
    refine (twinOutcomes_terminate hw hlive (.branch hmerge)).bind fun {_ _ x x'} _ _ hx hR _ => ?_
    exact .ok hx le_rfl (.cons ⟨rfl, hR _ _ hw.draft.matches_current⟩ .nil)

/-- Joins that go on in an open merge block. -/
private theorem twinOutcomes_join (hs : s.Twin s') (hmerge : merge'.index = merge.index)
    (hopen : s.draft.IsOpen merge.index) {xs ys : List (Operand × Name)}
    (hxs : SameIncoming (s.draft.Matches s'.draft) xs ys) :
    TwinOutcomes (s.draft.Matches s'.draft) Same (join merge xs s) (join merge' ys s') := by
  refine (twinOutcomes_moveTo hs hmerge).bind fun {_ _ t t'} ht' _ ht hst _ => ?_
  cases hxs with
  | nil =>
    have hlive : t.draft.terminated = false := by
      rw [moveTo_eq hopen.lt] at ht'
      cases ht'
      exact terminated_eq_false_of_isOpen hopen
    refine (twinOutcomes_terminate ht hlive .unreachable).bind fun {_ _ u u'} _ _ hu _ _ => ?_
    exact .ok hu le_rfl rfl
  | cons hx hxs =>
    refine twinOutcomes_emit ht (.phi .word (.cons ⟨hx.1, hst _ _ hx.2⟩ ?_))
    exact hxs.imp fun x y hxy => ⟨hxy.1, hst _ _ hxy.2⟩

/-- **Conditionals with twin arms are twins**, whatever their blocks are named after. -/
theorem twins_lowerBranches (condition : Operand) (hpos : Twins positive positive')
    (hneg : Twins negative negative') (hpos' : GoesOnward positive) (hneg' : GoesOnward negative) :
    Twins (lowerBranches stem condition positive negative)
      (lowerBranches stem' condition positive' negative') := by
  intro s s' hs
  rw [lowerBranches_eq, lowerBranches_eq]
  refine .terminated_bind hs fun done hlive => ?_
  cases done with
  | true => exact .ok hs le_rfl rfl
  | false =>
    refine (twinOutcomes_fork hs hlive condition).bind ?_
    rintro ⟨thenBlock, elseBlock, merge⟩ ⟨thenBlock', elseBlock', merge'⟩ t t' hfork _ ht _
      ⟨hthen, helse, hmerge⟩
    rw [joinArms_eq, joinArms_eq]
    refine (twinOutcomes_lowerArm ht hthen.index hmerge.label hpos).bind ?_
    intro fromThen fromThen' u u' hrun _ hu htu hfromThen
    refine (twinOutcomes_lowerArm hu helse.index (htu _ _ hmerge.label) hneg).bind ?_
    intro fromElse fromElse' v v' hrun' _ hv huv hfromElse
    have hopen : v.draft.IsOpen merge.index := by
      obtain ⟨_, _, _, _, hfork', hforked⟩ := exists_forked hlive stem condition
      cases hfork.symm.trans hfork'
      -- the arms change their own blocks and those that they add
      have hmid := (keepsBut_lowerArm hpos' hrun).isOpen hforked.mergeOpen
        (Nat.ne_of_gt (hforked.then_lt.trans hforked.else_lt))
      exact (keepsBut_lowerArm hneg' hrun').isOpen hmid (Nat.ne_of_gt hforked.else_lt)
    refine twinOutcomes_join hv hmerge.index hopen (List.rel_append ?_ hfromElse)
    exact hfromThen.imp fun x y hxy => ⟨hxy.1, huv _ _ hxy.2⟩

end Conditionals

private theorem ne_phi_of_isOrdinary {i : Instruction} (h : i.isOrdinary = true) (ty : Ty)
    (xs : List (Operand × Name)) : i ≠ .phi ty xs := by
  rintro rfl
  cases h

/-- **A composed lowering is its own twin**: it does not depend on labels. -/
theorem Composed.twins {V : Vocabulary} {ε : Effect} {α : Type} {m : Lower α}
    (h : Composed V ε m) : Twins m m := by
  induction h with
  | pure a => exact twins_pure a
  | throw e => exact twins_throw e
  | bind _ _ ihm ihf => exact ihm.bind ihf
  | unlessLeft a _ ih =>
    refine twins_terminated.bind fun done s t _ => ?_
    split
    · exact twins_pure a
    · exact ih
  | local? name => exact twins_local? name
  | global? name => exact twins_global? name
  | emit h => exact twins_emit (ne_phi_of_isOrdinary h)
  | store value pointer => exact twins_store value pointer
  | declare name b h => exact twins_onScope _
  | assign value h => exact twins_assignment _ value
  | lift h => exact twins_liftLambda _
  | string h => exact twins_string _
  | array length => exact twins_onUnit _
  | library f => exact twins_onUnit _
  | returning value => exact twins_returning value
  | branches hstem condition hpos hneg ihpos ihneg =>
    exact twins_lowerBranches condition ihpos ihneg hpos.onward hneg.onward

end Lower

end WordScheme
