import Mathlib
import WordScheme.Proofs.LabelTwins
import WordScheme.Proofs.LoweringPoints

/-!
# Conditionals as nested `if`s

Conjunctions, `cond` and `not` mean what nested `if`s mean (`Expr.nested?`), and they are lowered
like these. Their blocks have other labels, so the code is compared with labels replaced by the
indices of the blocks that carry them (`FunctionDraft.numbered`). This needs that at every point of
a function labels are distinct and that every label in its code belongs to a block; both are kept
all along. `nested_lowers_alike` is the result.
-/

namespace WordScheme

open Lower LowerState FunctionDraft NameSupply

/-! ### Labels replaced by indices -/

/-- Replaces the labels of a phi. -/
def Instruction.mapLabels (f : Name → Name) : Instruction → Instruction
  | .phi ty incoming => .phi ty (incoming.map fun x => (x.1, f x.2))
  | i => i

/-- Replaces the labels to which a terminator leads. -/
def Terminator.mapLabels (f : Name → Name) : Terminator → Terminator
  | .branch target => .branch (f target)
  | .condBranch condition positive negative => .condBranch condition (f positive) (f negative)
  | t => t

/-- Replaces the label of a block and those in its code. -/
def BlockDraft.mapLabels (f : Name → Name) (b : BlockDraft) : BlockDraft :=
  ⟨f b.label, b.statements.map fun s => ⟨s.dest, s.instruction.mapLabels f⟩,
    b.terminator.map (Terminator.mapLabels f)⟩

/-- The index of the block with a label, as a label. -/
def FunctionDraft.number (d : FunctionDraft) (label : Name) : Name :=
  (lastLabelled? label d.blocks.rows).elim label toString

/-- The blocks of a draft with labels replaced by indices. -/
def FunctionDraft.numbered (d : FunctionDraft) : List BlockDraft :=
  d.blocks.rows.map (BlockDraft.mapLabels d.number)

section Numbered

variable {R : Name → Name → Prop} {f f' : Name → Name}

private theorem map_eq_map_of_forall₂ {α β γ : Type} {g : α → γ} {g' : β → γ} {xs : List α}
    {ys : List β} (h : List.Forall₂ (fun x y => g x = g' y) xs ys) : xs.map g = ys.map g' := by
  rwa [← List.forall₂_eq_eq_eq, List.forall₂_map_left_iff, List.forall₂_map_right_iff]

/-- Instructions that are alike are the same once corresponding labels are replaced by one. -/
private theorem Instruction.Alike.mapLabels_eq (hf : ∀ l l', R l l' → f l = f' l')
    {i i' : Instruction} (h : i.Alike R i') : i.mapLabels f = i'.mapLabels f' := by
  cases h with
  | phi ty hxs =>
    refine congrArg (Instruction.phi ty) (map_eq_map_of_forall₂ (hxs.imp fun x y hxy => ?_))
    rw [hxy.1, hf _ _ hxy.2]
  | other hi =>
    cases i with
    | phi ty xs => exact absurd rfl (hi ty xs)
    | _ => rfl

private theorem Terminator.Alike.mapLabels_eq (hf : ∀ l l', R l l' → f l = f' l')
    {t t' : Terminator} (h : t.Alike R t') : t.mapLabels f = t'.mapLabels f' := by
  cases h with
  | branch hl => rw [mapLabels, mapLabels, hf _ _ hl]
  | condBranch c hp hn => rw [mapLabels, mapLabels, hf _ _ hp, hf _ _ hn]
  | ret value => rfl
  | unreachable => rfl

private theorem BlockDraft.Alike.mapLabels_eq (hf : ∀ l l', R l l' → f l = f' l')
    {b b' : BlockDraft}
    (h : b.Alike R b') (hlabel : R b.label b'.label) : b.mapLabels f = b'.mapLabels f' := by
  obtain ⟨label, statements, terminator⟩ := b
  obtain ⟨label', statements', terminator'⟩ := b'
  obtain ⟨hstatements, hterminator⟩ := h
  rw [mapLabels, mapLabels]
  congr 1
  · exact hf _ _ hlabel
  · refine map_eq_map_of_forall₂ (hstatements.imp fun s s' hs => ?_)
    rw [hs.dest, hs.instruction.mapLabels_eq hf]
  · cases hterminator with
    | some ht => exact congrArg some (ht.mapLabels_eq hf)
    | none => rfl

end Numbered

namespace FunctionDraft

variable {d d' : FunctionDraft}

/-- A label is replaced by the index of its block. -/
private theorem Labelled.number_eq (h : d.Labelled) {i : Nat} {l : Name}
    (hi : d.label? i = some l) : d.number l = toString i := by
  obtain ⟨b, hb, rfl⟩ := Option.map_eq_some_iff.mp hi
  rw [number, h.lastLabelled?_eq hb]
  rfl

/-- **Twins have the same blocks** once labels are replaced by indices. -/
theorem Twin.numbered_eq (h : d.Twin d') (hd : d.Labelled) (hd' : d'.Labelled) :
    d.numbered = d'.numbered := by
  have hf : ∀ l l', d.Matches d' l l' → d.number l = d'.number l' := by
    rintro l l' ⟨i, hi, hi'⟩
    rw [hd.number_eq hi, hd'.number_eq hi']
  refine map_eq_map_of_forall₂ (List.forall₂_iff_get.mpr ⟨h.size.symm, fun i hi hi' => ?_⟩)
  have hb : d.block? i = some (d.blocks.rows.get ⟨i, hi⟩) := List.getElem?_eq_getElem hi
  have hb' : d'.block? i = some (d'.blocks.rows.get ⟨i, hi'⟩) := List.getElem?_eq_getElem hi'
  refine (h.blocks hb hb').mapLabels_eq hf ⟨i, ?_, ?_⟩
  · rw [label?, hb]
    rfl
  · rw [label?, hb']
    rfl

/-- No two blocks share a label. -/
private theorem Labelled.nodup_labels (h : d.Labelled) :
    (d.blocks.rows.map BlockDraft.label).Nodup := by
  refine List.nodup_iff_injective_get.mpr fun i j hij => Fin.ext ?_
  have hlt : ∀ k : Fin (d.blocks.rows.map BlockDraft.label).length, k.1 < d.blocks.rows.length :=
    fun k => k.2.trans_eq (List.length_map ..)
  refine h.distinct (List.getElem?_eq_getElem (hlt i)) (List.getElem?_eq_getElem (hlt j)) ?_
  simpa using hij

/-- An instruction keeps labels distinct. -/
private theorem Labelled.emit (h : d.Labelled) (i : Instruction) : (d.emit i).2.Labelled := by
  have hfresh : d.freshRegister.2.Labelled := ⟨h.positive, h.issued, h.distinct⟩
  exact hfresh.append _

end FunctionDraft

/-! ### Points of a function -/

section Points

variable {V : Vocabulary} {s t : LowerState}

/-- A change of a lowering keeps labels distinct. -/
private theorem labelled_change (h : s.draft.Labelled) (hchange : Change V s t) :
    t.draft.Labelled := by
  cases hchange with
  | emit hi => exact h.emit _
  | address hi => exact h.emit _
  | phi incoming => exact h.emit _
  | store value pointer => exact h.append _
  | terminate t hlive => exact h.endWith t
  | addBlock hbase => exact h.addBlock hbase
  | _ => exact ⟨h.positive, h.issued, h.distinct⟩

/-- Labels stay distinct. -/
private theorem labelled_changes (h : s.draft.Labelled) (hchanges : Changes V s t) :
    t.draft.Labelled := by
  induction hchanges with
  | refl => exact h
  | tail _ hchange ih => exact labelled_change ih hchange

/-- Every label in the code of a state that is its own twin belongs to a block, so it depends on the
blocks only. -/
private theorem twin_of_blocks (h : s.Twin s) (hblocks : t.draft.blocks = s.draft.blocks) :
    t.Twin t :=
  ⟨rfl, h.draft.of_blocks hblocks hblocks rfl⟩

/-- A run that is its own twin ends in a state that is. -/
private theorem Lower.TwinOutcomes.self {α : Type} {R : Name → Name → Prop}
    {Q : (Name → Name → Prop) → α → α → Prop} {m : Lower α} {a : α}
    (h : TwinOutcomes R Q (m s) (m s)) (hrun : m s = .ok a t) :
    t.Twin t ∧ Q (t.draft.Matches t.draft) a a := by
  rw [hrun] at h
  cases h with
  | ok ht _ hQ => exact ⟨ht, hQ⟩

/-- A lowering that is its own twin keeps a state its own twin. -/
private theorem Lower.Twins.self {α : Type} {m : Lower α} (hm : Twins m m) (hs : s.Twin s) {a : α}
    (hrun : m s = .ok a t) : t.Twin t :=
  ((hm s s hs).self hrun).1

end Points

open Vocabulary

section Twins

variable (assigned : List Name)

/-- The lowering of an expression is its own twin. -/
private theorem lower_twins (e : Expr) : Twins (lower assigned e) (lower assigned e) :=
  (lower_composed (V := all assigned) e covers_all).twins

private theorem lowerAll_twins (es : List Expr) :
    Twins (lowerAll assigned es) (lowerAll assigned es) :=
  (lowerAll_composed (V := all assigned) es covers_all).twins

/-- Spilling the parameters is its own twin. -/
private theorem twins_spillParams (names : List Name) :
    Twins (spillParams assigned names) (spillParams assigned names) := by
  induction names with
  | nil => exact twins_pure ()
  | cons name names ih =>
    rw [spillParams]
    split
    · refine (twins_emit fun ty xs h => by cases h).andThen fun pointer => ?_
      exact (twins_store _ _).andThen fun _ => (twins_onScope _).andThen fun _ => ih
    · exact ih

end Twins

namespace Expr

variable {assigned : List Name} {e e' : Expr} {s s' t : LowerState}

/-- The state in which a conditional branches is its own twin. -/
private theorem Forks.twin {stem : String} {v : Operand} {p n : Arm}
    (h : Forks assigned e s stem v p n t) (hs : s.Twin s) : t.Twin t := by
  cases h with
  | ifElse h => exact (lower_twins assigned _).self hs h
  | test h => exact (lower_twins assigned _).self hs h
  | otherwise => exact hs
  | and h => exact (lower_twins assigned _).self hs h
  | or h => exact (lower_twins assigned _).self hs h
  | not h => exact (lower_twins assigned _).self hs h

private theorem twins_arm (p : Arm) : Twins (p.lowered assigned) (p.lowered assigned) := by
  cases p with
  | expr e => exact lower_twins assigned e
  | value o => exact twins_pure o

/-- Every label belongs to a block at the next point, if it does at this one. -/
private theorem Next.twin (h : Next assigned e s e' s') (hs : s.Twin s) : s'.Twin s' := by
  cases h with
  | rhs h => exact (lower_twins assigned _).self hs h
  | operand _ h => exact (lowerAll_twins assigned _).self hs h
  | positive hforks hlive hfork hlt =>
    obtain ⟨hu, -⟩ := (twinOutcomes_fork (hforks.twin hs) hlive _).self hfork
    exact twin_of_blocks hu rfl
  | negative hforks hlive hfork hthen hlt =>
    obtain ⟨hu, -, -, hmerge⟩ := (twinOutcomes_fork (hforks.twin hs) hlive _).self hfork
    obtain ⟨hw, -⟩ := (twinOutcomes_lowerArm hu rfl hmerge.label (twins_arm _)).self hthen
    exact twin_of_blocks hw rfl
  | binding hlift h =>
    rw [lowerBindings_eq] at h
    exact (lowerAll_twins assigned _).self ((twins_liftLambda _).self hs hlift) h
  | argument hcallee h =>
    have ht := (lowerCallee_composed (V := all assigned) _ covers_all).twins.self hs hcallee
    exact (lowerAll_twins assigned _).self ht h
  | element h => exact (lowerAll_twins assigned _).self hs h
  | form h _ =>
    exact (lowerSequence_composed (V := all assigned) _ _ covers_all).twins.self hs h
  | _ => exact hs

end Expr

namespace Attempt

variable {u : CompileUnit} {a : Attempt} {e : Expr} {s : LowerState}

/-- A function begins in a state that is its own twin. -/
private theorem twin_begin (u : CompileUnit) (a : Attempt) : (a.begin u).Twin (a.begin u) := by
  obtain ⟨name, params, hbegin⟩ := a.exists_begin u
  rw [hbegin]
  refine ⟨rfl, rfl, rfl, fun hb hb' => ?_⟩
  obtain ⟨-, rfl⟩ := Site.block?_start hb
  obtain ⟨-, rfl⟩ := Site.block?_start hb'
  exact ⟨.nil, .none⟩

/-- A function begins with one label. -/
private theorem labelled_begin (u : CompileUnit) (a : Attempt) : (a.begin u).draft.Labelled := by
  obtain ⟨name, params, hbegin⟩ := a.exists_begin u
  rw [hbegin]
  exact (Site.sound_start _ _ _).labelled

/-- Every point of a function is in a state that is its own twin. -/
private theorem Enters.twin (h : a.Enters u e s) : s.Twin s := by
  have hforms : ∀ {assigned skipped pre v},
      lowerForms assigned skipped 0 (.word 0) pre (a.begin u) = .ok v s → s.Twin s := fun h =>
    (lowerForms_composed (V := all _) _ 0 _ _ covers_all).twins.self (twin_begin u a) h
  cases h with
  | body h =>
    exact ((twins_spillParams _ _).andThen fun _ => twins_onScope _).self (twin_begin u _) h
  | form _ _ h _ => exact hforms h
  | defined _ h _ => exact hforms h

/-- At every point of a function labels are distinct, and every label belongs to a block. -/
private theorem Comes.twin (h : a.Comes u e s) : s.Twin s ∧ s.draft.Labelled := by
  refine ⟨?_, ?_⟩
  · induction h with
    | enter h => exact h.twin
    | next _ hnext ih => exact hnext.twin ih
  · exact labelled_changes (labelled_begin u a) h.changes

end Attempt

/-! ### Nested `if`s -/

namespace Expr

/-- A conjunction as nested `if`s. -/
def nestedAnd : List Expr → Expr
  | [] => .literal (.boolean true)
  | [e] => e
  | e :: d :: es => .ifElse e (nestedAnd (d :: es)) (.literal (.boolean false))

/-- Clauses as nested `if`s; an `else` is a test that is always true. -/
def nestedCond : List Clause → Expr
  | [] => .literal .empty
  | .test p b :: cs => .ifElse p b (nestedCond cs)
  | .otherwise b :: cs => .ifElse (.literal (.boolean true)) b (nestedCond cs)

/-- An `and`, `cond` or `not` as nested `if`s. -/
def nested? : Expr → Option Expr
  | .and es => some (nestedAnd es)
  | .cond cs => some (nestedCond cs)
  | .not e => some (.ifElse e (.literal (.boolean false)) (.literal (.boolean true)))
  | _ => none

variable (assigned : List Name)

/-- Lowering an expression changes no block but the current one and those that it adds. -/
private theorem onward_lower (e : Expr) : GoesOnward (lower assigned e) :=
  (lower_composed (V := all assigned) e covers_all).onward

/-- A conjunction is lowered as nested `if`s are, up to labels. -/
private theorem twins_nestedAnd (es : List Expr) :
    Twins (lowerAnd assigned es) (lower assigned (nestedAnd es)) := by
  induction es with
  | nil => exact twins_pure _
  | cons e es ih =>
    cases es with
    | nil => exact lower_twins assigned e
    | cons d es =>
      have honward : GoesOnward (lowerAnd assigned (d :: es)) :=
        (lowerAnd_composed (V := all assigned) _ covers_all).onward
      rw [lowerAnd_cons_cons, nestedAnd, lower]
      refine (lower_twins assigned e).andThen fun v => ?_
      exact twins_lowerBranches v ih (twins_pure _) honward (goesOnward_of_eq fun _ => rfl)

/-- Clauses are lowered as nested `if`s are, up to labels. -/
private theorem twins_nestedCond (cs : List Clause) :
    Twins (lowerClauses assigned cs) (lower assigned (nestedCond cs)) := by
  induction cs with
  | nil => exact twins_pure _
  | cons c cs ih =>
    have honward : GoesOnward (lowerClauses assigned cs) :=
      (lowerClauses_composed (V := all assigned) _ covers_all).onward
    have hbranches : ∀ b v, Twins
        (lowerBranches "cond" v (lower assigned b) (lowerClauses assigned cs))
        (lowerBranches "if" v (lower assigned b) (lower assigned (nestedCond cs))) :=
      fun b v => twins_lowerBranches v (lower_twins assigned b) ih (onward_lower assigned b) honward
    cases c with
    | test p b =>
      rw [lowerClauses, nestedCond, lower]
      exact (lower_twins assigned p).andThen fun v => hbranches b v
    | otherwise b =>
      -- the literal that stands for `else` is the word that an `else` branches on
      have hone : lower assigned (.literal (.boolean true)) = pure (.word 1) := rfl
      rw [lowerClauses, nestedCond, lower, hone, pure_bind]
      exact hbranches b _

/-- **Nested `if`s are lowered like what they stand for.** -/
theorem twins_nested {e e' : Expr} (h : e.nested? = some e') :
    Twins (lower assigned e) (lower assigned e') := by
  cases e with
  | and es =>
    cases h
    rw [lower]
    exact twins_nestedAnd assigned es
  | cond cs =>
    cases h
    rw [lower]
    exact twins_nestedCond assigned cs
  | not e =>
    cases h
    rw [lower, lower]
    refine (lower_twins assigned e).andThen fun v => ?_
    exact twins_lowerBranches v (twins_pure _) (twins_pure _) (goesOnward_of_eq fun _ => rfl)
      (goesOnward_of_eq fun _ => rfl)
  | _ => cases h

end Expr

/-- Two states of a lowering are the same once labels are replaced by indices. In each of them no
two blocks share a label. -/
structure LowerState.SameCode (s s' : LowerState) : Prop where
  unit : s.unit = s'.unit
  /-- Local names, registers and the functions found in the body among them. -/
  outline : s.draft.outline = s'.draft.outline
  blocks : s.draft.numbered = s'.draft.numbered
  labels : (s.draft.blocks.rows.map BlockDraft.label).Nodup
  labels' : (s'.draft.blocks.rows.map BlockDraft.label).Nodup

/-- The same value or the same error, with the same code. -/
inductive Lower.SameOutcome {α : Type} : EStateM.Result CompileError LowerState α →
    EStateM.Result CompileError LowerState α → Prop
  | ok (a : α) {t t' : LowerState} (h : t.SameCode t') : SameOutcome (.ok a t) (.ok a t')
  | error (e : CompileError) {t t' : LowerState} (h : t.SameCode t') :
      SameOutcome (.error e t) (.error e t')

/-- Twins with distinct labels have the same code. -/
private theorem LowerState.Twin.sameCode {s s' : LowerState} (h : s.Twin s') (hs : s.draft.Labelled)
    (hs' : s'.draft.Labelled) : s.SameCode s' :=
  ⟨h.unit.symm, h.draft.outline.symm, h.draft.numbered_eq hs hs', hs.nodup_labels, hs'.nodup_labels⟩

/-- **`and`, `cond` and `not` are lowered like nested `if`s**, at every point of every function:
both succeed with the same operand or fail with the same error, and leave the same unit, local
names, registers, functions found and blocks, but for the labels of these. -/
theorem nested_lowers_alike (u : CompileUnit) (a : Attempt) (here : Expr) (s : LowerState)
    (h : a.Comes u here s) (e e' : Expr) (he : e.nested? = some e') :
    SameOutcome (lower a.assigned e s) (lower a.assigned e' s) := by
  obtain ⟨htwin, hlabelled⟩ := h.twin
  have hend : ∀ c, (endState (lower a.assigned c) s).draft.Labelled := fun c =>
    labelled_changes hlabelled ((lower_composed (V := all a.assigned) c covers_all).goesBy s)
  have houtcomes := Expr.twins_nested a.assigned he s s htwin
  have hleft := hend e
  have hright := hend e'
  rw [endState] at hleft hright
  generalize lower a.assigned e s = x at houtcomes hleft
  generalize lower a.assigned e' s = y at houtcomes hright
  cases houtcomes with
  | ok ht _ hsame =>
    cases hsame
    exact .ok _ (ht.sameCode hleft hright)
  | error e ht => exact .error e (ht.sameCode hleft hright)

/-- In an arm of an `if` there is a conjunction of which one operand leaves the function. -/
theorem nested_lowers_alike_returning :
    let e : Expr := .and [.var "x", .ret (.var "y"), .not (.var "x")]
    let e' : Expr := .ifElse (.var "x")
      (.ifElse (.ret (.var "y")) (.not (.var "x")) (.literal (.boolean false)))
      (.literal (.boolean false))
    let a := Attempt.function ⟨"f", ⟨["x", "y"], [.ifElse (.var "y") e (.var "x")]⟩, []⟩
    ∃ s, a.Comes (.start "module" "main") e s ∧ e.nested? = some e' ∧
      SameOutcome (lower [] e s) (lower [] e' s) := by
  intro e e' a
  have hbody : a.Comes (.start "module" "main") (.sequence [.ifElse (.var "y") e (.var "x")]) _ :=
    .enter (.body rfl)
  have hform : a.Comes (.start "module" "main") (.ifElse (.var "y") e (.var "x")) _ :=
    hbody.next (@Expr.Next.form _ _ [] _ _ _ _ rfl (.inl rfl))
  have harm : a.Comes (.start "module" "main") e _ :=
    hform.next (.positive (.ifElse rfl) rfl rfl (by decide))
  exact ⟨_, harm, rfl, nested_lowers_alike _ _ _ _ harm e e' rfl⟩

end WordScheme
