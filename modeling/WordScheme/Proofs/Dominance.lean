import Mathlib
import WordScheme.Proofs.Availability
import WordScheme.Proofs.ControlFlow

/-!
# Definitions dominate uses

A block dominates another if every path from the first block to the other passes it. The theorem of
this file is that lowered functions are in static single assignment form: each register is defined
once, and wherever a register is read, control has passed its definition
(`Function.SingleAssignment`).

The argument goes by the certificate of `Site.Available`. Along a path, each register in the
certificate of a block has been defined in a block passed before (`defined_on_path`); since a
register is defined in one block only, that block is the same on every path.
-/

namespace WordScheme

/-- The operands of a block: those of its statements, phis included, and of its terminator. -/
def Block.operands (b : Block) : List Operand :=
  b.statements.flatMap (fun s => s.instruction.operands) ++ b.terminator.operands

namespace Function

/-! ### Dominance -/

/-- The labels on a path from the first block to `l`, the last in front. -/
inductive Path (f : Function) : List Name → Name → Prop
  | entry : Path f ["entry"] "entry"
  | step {path : List Name} {l l' : Name} (h : Path f path l) (hg : f.Goes l l') :
      Path f (l' :: path) l'

/-- Every path to `l` passes `k`. -/
def Dominates (f : Function) (k l : Name) : Prop :=
  ∀ path, f.Path path l → k ∈ path

/-- The register `r` is defined in a block that dominates `l`. -/
def DefinedAbove (f : Function) (r : Nat) (l : Name) : Prop :=
  ∃ c ∈ f.blocks, r ∈ destinations c.statements ∧ f.Dominates c.label l

/-- The register `r` is defined in a block that dominates `l` and is another one. -/
def DefinedBefore (f : Function) (r : Nat) (l : Name) : Prop :=
  ∃ c ∈ f.blocks, r ∈ destinations c.statements ∧ c.label ≠ l ∧ f.Dominates c.label l

/-- Static single assignment form: no register is defined twice, every register is read behind its
definition, and every parameter that is read is one of the function's. A phi reads at the ends of
the blocks that it names. -/
structure SingleAssignment (f : Function) : Prop where
  unique : (f.blocks.flatMap fun b => destinations b.statements).Nodup
  statements : ∀ b ∈ f.blocks, ∀ k s, b.statements[k]? = some s → s.instruction.isPhi = false →
    ∀ r ty, .register r ty ∈ s.instruction.operands →
      r ∈ destinations (b.statements.take k) ∨ f.DefinedBefore r b.label
  terminators : ∀ b ∈ f.blocks, ∀ r ty, .register r ty ∈ b.terminator.operands →
    r ∈ destinations b.statements ∨ f.DefinedBefore r b.label
  phis : ∀ b ∈ f.blocks, ∀ s ∈ b.statements, ∀ incoming, s.instruction.incoming? = some incoming →
    ∀ r ty l, (.register r ty, l) ∈ incoming → f.DefinedAbove r l
  params : ∀ b ∈ f.blocks, ∀ name ty, .param name ty ∈ b.operands → name ∈ f.params.map Param.name

variable {f : Function}

private theorem Path.mem {path : List Name} {l : Name} (h : f.Path path l) : l ∈ path := by
  cases h with
  | entry => exact List.mem_cons_self
  | step h hg => exact List.mem_cons_self

/-- A block dominates itself. -/
private theorem dominates_self (f : Function) (l : Name) : f.Dominates l l :=
  fun _ h => h.mem

private theorem exists_path {l : Name} (h : Relation.ReflTransGen f.Goes "entry" l) :
    ∃ path, f.Path path l := by
  induction h with
  | refl => exact ⟨_, .entry⟩
  | tail _ hg ih =>
    obtain ⟨path, hpath⟩ := ih
    exact ⟨_, hpath.step hg⟩

end Function

/-! ### Certificates -/

namespace Site

variable {p q : Site} {f : FinishedFunction} {avail : Name → List Nat}

/-- Along a path, what the certificate of a block lists has been defined in a block passed
before. -/
private theorem Finishes.defined_on_path (h : p.Finishes f q) (ha : q.Available avail)
    {path : List Name} {l : Name} (hpath : f.function.Path path l) {r : Nat} (hr : r ∈ avail l) :
    ∃ c ∈ f.function.blocks, r ∈ destinations c.statements ∧ c.label ∈ path.tail := by
  induction hpath with
  | entry =>
    rw [ha.entry] at hr
    cases hr
  | @step path l l' hpath hg ih =>
    obtain ⟨b, hb, rfl, hmem⟩ := hg
    obtain ⟨i, hi⟩ := List.mem_iff_getElem?.mp hb
    -- the block passed last has the register at its end: from its own start, or it defines it
    have hflow := (ha.fits (h.block?_of_getElem? hi)).flow rfl l' hmem hr
    rw [BlockDraft.atEnd, List.mem_append] at hflow
    rcases hflow with hflow | hflow
    · obtain ⟨c, hc, hrc, hcl⟩ := ih hflow
      exact ⟨c, hc, hrc, List.mem_of_mem_tail hcl⟩
    · exact ⟨b, hb, hflow, hpath.mem⟩

/-- A register is defined in one block only. -/
private theorem Finishes.block_unique (h : p.Finishes f q) (ha : q.Available avail) {b c : Block}
    (hb : b ∈ f.function.blocks) (hc : c ∈ f.function.blocks) {r : Nat}
    (hrb : r ∈ destinations b.statements) (hrc : r ∈ destinations c.statements) : b = c := by
  obtain ⟨i, hi⟩ := List.mem_iff_getElem?.mp hb
  obtain ⟨j, hj⟩ := List.mem_iff_getElem?.mp hc
  obtain rfl := ha.unique (h.block?_of_getElem? hi) (h.block?_of_getElem? hj) hrb hrc
  exact Option.some.inj (hi.symm.trans hj)

/-- What the certificate of a label that control can get to lists is defined before. -/
private theorem Finishes.definedBefore (h : p.Finishes f q) (ha : q.Available avail) {l : Name}
    (hreach : Relation.ReflTransGen f.function.Goes "entry" l) {r : Nat} (hr : r ∈ avail l) :
    f.function.DefinedBefore r l := by
  obtain ⟨path, hpath⟩ := Function.exists_path hreach
  obtain ⟨c, hc, hrc, -⟩ := h.defined_on_path ha hpath hr
  -- one path tells which block it is, and uniqueness that the others pass it as well
  refine ⟨c, hc, hrc, fun heq => ?_, fun path' hpath' => ?_⟩
  · obtain ⟨i, hi⟩ := List.mem_iff_getElem?.mp hc
    exact (ha.fits (h.block?_of_getElem? hi)).new r hrc (by rwa [Block.toDraft, heq])
  · obtain ⟨c', hc', hrc', hcl'⟩ := h.defined_on_path ha hpath' hr
    rw [h.block_unique ha hc hc' hrc hrc']
    exact List.mem_of_mem_tail hcl'

private theorem Finishes.reaches_of_not_abandoned (h : p.Finishes f q) {b : Block}
    (hb : b ∈ f.function.blocks) (hnot : ¬ f.function.Abandoned b) :
    Relation.ReflTransGen f.function.Goes "entry" b.label :=
  (h.intactFlow.reached b hb).resolve_right hnot

private theorem Finishes.reaches_of_statement (h : p.Finishes f q) {b : Block}
    (hb : b ∈ f.function.blocks) {s : Statement} (hs : s ∈ b.statements) :
    Relation.ReflTransGen f.function.Goes "entry" b.label := by
  refine h.reaches_of_not_abandoned hb fun habandoned => ?_
  rw [habandoned.statements] at hs
  cases hs

/-- An operand that is handed over is defined above the end of the block that hands it over. -/
private theorem Finishes.definedAbove (h : p.Finishes f q) (ha : q.Available avail) {r : Nat}
    {ty : Ty}
    {l l' : Name} (hhands : q.draft.Hands avail (.register r ty, l)) (hg : f.function.Goes l l') :
    f.function.DefinedAbove r l := by
  obtain ⟨i, c, hc, hcl, hwithin⟩ := hhands
  obtain ⟨b, hb, rfl⟩ := h.exists_getElem? hc
  obtain rfl : b.label = l := hcl
  have hmem := List.mem_of_getElem? hb
  rcases List.mem_append.mp hwithin with hr | hr
  · -- a block that branches somewhere has not been abandoned
    have hreach : Relation.ReflTransGen f.function.Goes "entry" b.label := by
      refine h.reaches_of_not_abandoned hmem fun habandoned => ?_
      obtain ⟨b', hb', hlabel, hsucc⟩ := hg
      obtain ⟨j, hj⟩ := List.mem_iff_getElem?.mp hb'
      obtain rfl := h.distinct hj hb hlabel
      obtain rfl := Option.some.inj (hj.symm.trans hb)
      rw [habandoned.terminator] at hsucc
      cases hsucc
    obtain ⟨d, hd, hrd, -, hdom⟩ := h.definedBefore ha hreach hr
    exact ⟨d, hd, hrd, hdom⟩
  · exact ⟨b, hmem, hr, f.function.dominates_self _⟩

/-- Every operand of a block is within the parameters of the function and some registers. -/
private theorem Finishes.exists_within (h : p.Finishes f q) (ha : q.Available avail) {b : Block}
    (hb : b ∈ f.function.blocks) {o : Operand} (ho : o ∈ b.operands) :
    ∃ registers, o.Within q.draft.params registers := by
  obtain ⟨i, hi⟩ := List.mem_iff_getElem?.mp hb
  have hblock := h.block?_of_getElem? hi
  rw [Block.operands, List.mem_append, List.mem_flatMap] at ho
  rcases ho with ⟨s, hs, ho⟩ | ho
  · cases hin : s.instruction.incoming? with
    | none =>
      obtain ⟨k, hk⟩ := List.mem_iff_getElem?.mp hs
      exact ⟨_, (ha.fits hblock).statements hk (by rw [Instruction.isPhi, hin]; rfl) o ho⟩
    | some incoming =>
      obtain ⟨ty, hphi⟩ := Instruction.eq_phi_of_incoming? hin
      rw [hphi, Instruction.operands] at ho
      obtain ⟨x, hx, rfl⟩ := List.mem_map.mp ho
      obtain ⟨_, c, -, -, hwithin⟩ := ha.phis hblock hs hin x hx
      exact ⟨_, hwithin⟩
  · exact ⟨_, (ha.fits hblock).terminator rfl o ho⟩

/-- A certificate for the site that a function is made of proves its single assignment form. -/
theorem Finishes.singleAssignment (h : p.Finishes f q) (ha : q.Available avail) :
    f.function.SingleAssignment where
  unique := by
    refine List.nodup_flatMap.mpr ⟨fun b hb => ?_, ?_⟩
    · obtain ⟨i, hi⟩ := List.mem_iff_getElem?.mp hb
      exact (ha.fits (h.block?_of_getElem? hi)).nodup
    · refine List.pairwise_iff_getElem.mpr fun i j hi hj hij r hr hr' => ?_
      have heq := ha.unique (h.block?_of_getElem? (List.getElem?_eq_getElem hi))
        (h.block?_of_getElem? (List.getElem?_eq_getElem hj)) hr hr'
      omega
  statements := by
    intro b hb k s hs hplain r ty ho
    obtain ⟨i, hi⟩ := List.mem_iff_getElem?.mp hb
    have hwithin := (ha.fits (h.block?_of_getElem? hi)).statements hs hplain _ ho
    rcases List.mem_append.mp hwithin with hr | hr
    · exact .inr (h.definedBefore ha (h.reaches_of_statement hb (List.mem_of_getElem? hs)) hr)
    · exact .inl hr
  terminators := by
    intro b hb r ty ho
    obtain ⟨i, hi⟩ := List.mem_iff_getElem?.mp hb
    have hwithin := (ha.fits (h.block?_of_getElem? hi)).terminator rfl _ ho
    rcases List.mem_append.mp hwithin with hr | hr
    · refine .inr (h.definedBefore ha (h.reaches_of_not_abandoned hb fun habandoned => ?_) hr)
      rw [habandoned.terminator] at ho
      cases ho
    · exact .inl hr
  phis := by
    intro b hb s hs incoming hin r ty l hx
    obtain ⟨i, hi⟩ := List.mem_iff_getElem?.mp hb
    obtain ⟨k, hk⟩ := List.mem_iff_getElem?.mp hs
    obtain ⟨-, -, hsources⟩ := h.intactFlow.phis b hb k s incoming hk hin
    have hg : f.function.Goes l b.label :=
      (hsources l).mp (List.mem_map_of_mem (f := Prod.snd) hx)
    exact h.definedAbove ha (ha.phis (h.block?_of_getElem? hi) hs hin _ hx) hg
  params := by
    intro b hb name ty ho
    obtain ⟨registers, hwithin⟩ := h.exists_within ha hb ho
    rw [h.params, wordParams, List.map_map]
    exact List.mem_map.mpr ⟨name, hwithin, rfl⟩

/-- Nothing can be used at the start of a function but its parameters. -/
theorem available_start (name : Name) (params : List Name) (globals : Globals) :
    (start name params globals).Available fun _ => [] where
  entry := rfl
  seen_le := fun _ hr => nomatch hr
  avail_le := fun _ _ hr => nomatch hr
  fits := by
    intro i b hb
    obtain ⟨-, rfl⟩ := block?_start hb
    exact .empty "entry"
  unique := fun hb hc _ _ => (block?_start hb).1.trans (block?_start hc).1.symm
  phis := by
    intro i b s incoming hb hs
    obtain ⟨-, rfl⟩ := block?_start hb
    cases hs
  waiting := fun _ hx => nomatch hx
  noted := fun _ hx => nomatch hx
  current := fun _ => List.nil_subset _

end Site

/-- **Lowered code is in static single assignment form**, for functions over the whole language and
for the entry function of a program. -/
theorem lowered_singleAssignment (unit : CompileUnit) (f : PendingFunction) (forms : List Expr)
    (skipped : List Nat) (globals : Globals) (done : FinishedFunction)
    (h : (lowerFunction unit f).1 = .ok done ∨
      (lowerEntry unit forms skipped globals).1 = .ok done) :
    done.function.SingleAssignment := by
  obtain ⟨_, _, _, q, hq⟩ := exists_finishes h
  obtain ⟨avail, ha⟩ := (Site.available_start _ _ _).steps (Site.sound_start _ _ _) hq.steps
  exact hq.singleAssignment ha

/-- A function that goes on computing behind a `return` in one arm: the registers given out there,
numbers three and four, are never defined. -/
def droppedProduct : PendingFunction :=
  ⟨"f", ⟨["x"], [.define "y" (.binary (.word .add) (.var "x") (.integer 1)),
    .ifElse (.var "x")
      (.binary (.word .add) (.ret (.var "y")) (.binary (.word .multiply) (.var "y") (.var "y")))
      (.binary (.word .add) (.var "y") (.var "x"))]⟩, []⟩

theorem lowered_singleAssignment_dropped : ∃ done,
    (lowerFunction (.start "m" "main") droppedProduct).1 = .ok done ∧
      (done.function.blocks.flatMap fun b => destinations b.statements) = [1, 2, 5, 6] ∧
      done.function.SingleAssignment := by
  have hregisters : (lowerFunction (.start "m" "main") droppedProduct).1.toOption.map
      (fun done => done.function.blocks.flatMap fun b => destinations b.statements) =
        some [1, 2, 5, 6] := by
    cbv
  obtain ⟨done, hok, hdests⟩ := exists_ok_of_toOption hregisters
  exact ⟨done, hok, hdests, lowered_singleAssignment _ droppedProduct [] [] [] done (.inl hok)⟩

end WordScheme
