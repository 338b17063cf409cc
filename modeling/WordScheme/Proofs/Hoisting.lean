import Mathlib
import WordScheme.Proofs.BodyMeaning
import WordScheme.Proofs.FunctionAccount
import WordScheme.Proofs.Lockstep

/-!
# Function definitions are hoisted

Where the functions of the top level stand among the other forms makes no difference. Two programs
that interleave the same functions and the same other forms differ, while they are compiled, in the
order of the top level names, in the indices of the forms that are skipped, and in the places at
which placeholders of functions stand in the module: `ModuleDraft.Shuffled` relates two such
modules. All functions are lowered in step (`hoisting`), and each that is finished leaves the place
of its placeholder, so that in the end no trace of the order is left.

What the top level notes of a program depends on the functions and the other forms alone, up to
order: `TopLevel.Collected`.
-/

namespace WordScheme

open Likeness LowerState

/-! ### Interleavings -/

/-- The members of two lists in one, in an order that keeps that of each. -/
inductive Interleaves {α : Type} : List α → List α → List α → Prop
  | nil : Interleaves [] [] []
  | left {x : α} {xs ys zs : List α} (h : Interleaves xs ys zs) :
      Interleaves (x :: xs) ys (x :: zs)
  | right {y : α} {xs ys zs : List α} (h : Interleaves xs ys zs) :
      Interleaves xs (y :: ys) (y :: zs)

/-- An interleaving has the elements of both lists. -/
private theorem Interleaves.perm {α : Type} {xs ys zs : List α} (h : Interleaves xs ys zs) :
    zs.Perm (xs ++ ys) := by
  induction h with
  | nil => exact .nil
  | left _ ih => exact ih.cons _
  | right _ ih => exact (ih.cons _).trans List.perm_middle.symm

/-! ### Modules that differ in the places of placeholders -/

/-- The placeholder of one of the named functions. -/
def Definition.isWaiting (names : List Name) : Definition → Bool
  | .function f => f.isPlaceholder && names.contains f.name
  | _ => false

/-- The definitions other than the placeholders of the named functions. -/
def settled (names : List Name) (ds : List Definition) : List Definition :=
  ds.filter fun d => !d.isWaiting names

private theorem settled_append (names : List Name) (ds es : List Definition) :
    settled names (ds ++ es) = settled names ds ++ settled names es :=
  List.filter_append ..

namespace ModuleDraft

/-- Two modules with the same definitions, in the same order but for the placeholders of the named
functions. -/
structure Shuffled (names : List Name) (m m' : ModuleDraft) : Prop where
  indexed : m.Indexed
  indexed' : m'.Indexed
  name : m'.name = m.name
  perm : m'.definitions.Perm m.definitions
  order : settled names m'.definitions = settled names m.definitions

variable {names : List Name} {m m' : ModuleDraft}

/-- Shuffled modules have the same definitions. -/
private theorem Shuffled.contains (h : Shuffled names m m') (d : Definition) :
    m'.contains d = m.contains d := by
  rw [Bool.eq_iff_iff, contains_iff h.indexed, contains_iff h.indexed']
  simp only [h.perm.mem_iff]

private theorem name_ensure (m : ModuleDraft) (d : Definition) : (m.ensure d).name = m.name := by
  rw [ensure, add]
  split <;> rfl

private theorem name_dropFunction (m : ModuleDraft) (name : Name) :
    (m.dropFunction name).name = m.name := by
  rw [dropFunction, removeFunction]
  cases (m.defining name).findSome? fun x => x.2.function?.map fun f => (x.1, f) with
  | none => rfl
  | some x => rfl

/-- Shuffled modules stay shuffled under a definition. -/
private theorem Shuffled.ensure (h : Shuffled names m m') (d : Definition) :
    Shuffled names (m.ensure d) (m'.ensure d) := by
  refine ⟨h.indexed.ensure d, h.indexed'.ensure d, ?_, ?_, ?_⟩
  · rw [name_ensure, name_ensure, h.name]
  · rw [ensure_definitions, ensure_definitions, h.contains d]
    split
    · exact h.perm
    · exact h.perm.append_right [d]
  · rw [ensure_definitions, ensure_definitions, h.contains d]
    split
    · exact h.order
    · rw [settled_append, settled_append, h.order]

end ModuleDraft

/-- A definition that occurs once is taken out of two lists that agree but for placeholders. -/
private theorem settled_remove {names : List Name} {d : Definition}
    {xs ys xs' ys' : List Definition}
    (hd : d ∉ xs ++ ys) (h : settled names (xs' ++ d :: ys') = settled names (xs ++ d :: ys)) :
    settled names (xs' ++ ys') = settled names (xs ++ ys) := by
  rw [settled_append, settled_append] at h ⊢
  by_cases hwaiting : d.isWaiting names = true
  · have hcons : ∀ ds, settled names (d :: ds) = settled names ds :=
      fun ds => List.filter_cons_of_neg (by simp [hwaiting])
    rwa [hcons, hcons] at h
  · have hcons : ∀ ds, settled names (d :: ds) = d :: settled names ds :=
      fun ds => List.filter_cons_of_pos (by simp [hwaiting])
    rw [List.mem_append, not_or] at hd
    have hxs : d ∉ settled names xs := fun hmem => hd.1 (List.mem_of_mem_filter hmem)
    have hys : d ∉ settled names ys := fun hmem => hd.2 (List.mem_of_mem_filter hmem)
    rw [hcons, hcons] at h
    obtain ⟨hfront, -, hback⟩ := (List.append_cons_inj_of_notMem hxs hys).mp h.symm
    rw [hfront, hback]

/-- **A finished function leaves the place of its placeholder**, and comes last in both modules. -/
theorem ModuleDraft.Shuffled.install {names : List Name} {u u' : CompileUnit} {G G' : Globals}
    (h : Shuffled names u.module u'.module) (hu : u.Sound G) (hu' : u'.Sound G') {f g : Function}
    (hg : .function g ∈ u.module.definitions) (hname : g.name = f.name) :
    Shuffled names (u.install f).module (u'.install f).module := by
  obtain ⟨xs, ys, hsplit, hinstall⟩ := hu.definitions_install hg hname
  obtain ⟨xs', ys', hsplit', hinstall'⟩ := hu'.definitions_install (h.perm.mem_iff.mpr hg) hname
  have hperm := h.perm
  have hsettled := h.order
  rw [hsplit, hsplit'] at hperm hsettled
  have hdistinct : Definition.function g ∉ xs ++ ys := by
    have hnodup := hu.distinct.of_map
    rw [hsplit, List.nodup_middle, List.nodup_cons] at hnodup
    exact hnodup.1
  have hrest : (xs' ++ ys').Perm (xs ++ ys) :=
    (List.perm_middle.symm.trans (hperm.trans List.perm_middle)).cons_inv
  refine ⟨(h.indexed.dropFunction _).ensure _, (h.indexed'.dropFunction _).ensure _, ?_, ?_, ?_⟩
  · change ((u'.module.dropFunction f.name).ensure _).name =
      ((u.module.dropFunction f.name).ensure _).name
    rw [name_ensure, name_ensure, name_dropFunction, name_dropFunction, h.name]
  · rw [hinstall, hinstall']
    exact hrest.append_right _
  · rw [hinstall, hinstall', settled_append _ (xs' ++ ys'), settled_append _ (xs ++ ys),
      settled_remove hdistinct hsettled]

/-! ### Functions in step -/

/-- Every expression is built like itself. -/
private theorem like_refl (e : Expr) : Expr.Like Eq e e := by
  have hall : ∀ es : List Expr, List.Forall₂ Eq es es :=
    fun es => List.forall₂_same.mpr fun _ _ => rfl
  cases e with
  | literal value => exact .literal value
  | var name => exact .var name
  | binary op lhs rhs => exact .binary op rfl rfl
  | primitive p args => exact .primitive p (hall args)
  | ifElse c p n => exact .ifElse rfl rfl rfl
  | cond clauses =>
    refine .cond (List.forall₂_same.mpr fun c _ => ?_)
    cases c with
    | test p b => exact .test rfl rfl
    | otherwise b => exact .otherwise rfl
  | and operands => exact .and (hall operands)
  | or operands => exact .or (hall operands)
  | not operand => exact .not rfl
  | letIn bindings body => exact .letIn rfl (hall _) (hall body)
  | define name value => exact .define name rfl
  | lambda params body => exact .lambda params (hall body)
  | call target args => exact .call rfl (hall args)
  | array elements => exact .array (hall elements)
  | assign name value => exact .assign name rfl
  | sequence forms => exact .sequence (hall forms)
  | ret value => exact .ret rfl

/-- The same expressions, lowered into modules in which the placeholders of the named functions
stand at different places. -/
def hoisting (names : List Name) : Likeness where
  modules := ModuleDraft.Shuffled names
  exprs := Eq
  ensure := fun h _ => h.ensure _
  like := by
    rintro e _ rfl
    exact like_refl e
  assigned := by
    intro es es' h
    rw [List.forall₂_eq_eq_eq] at h
    rw [h]

variable {names : List Name} {G G' : Globals} {p p' : Progress}

/-- A function that was built has its placeholder still in the module. -/
private theorem Progress.Sound.exists_placeholder (hp : p.Sound G) {name : Name}
    {params : List Name} {n : Nat} {t : LowerState} {f : FinishedFunction} {v : CompileUnit}
    (hbuilds : (start p.unit name params G).Builds n (.ok f, v) t)
    (hdeclared : Declared p.unit.module.definitions name params) :
    v.Sound G ∧ ∃ g, .function g ∈ v.module.definitions ∧ g.name = f.function.name := by
  obtain rfl : v = t.unit := hbuilds.unit
  obtain ⟨hunit, ⟨added, hdefinitions, -⟩, -⟩ :=
    (accounted_start hp.unit name params).moves hbuilds.moves
  rw [show t.draft.globals = G from hbuilds.moves.grows.globals] at hunit
  have hold : Covers p.unit.module.definitions t.unit.module.definitions :=
    covers_of_subset (hdefinitions ▸ List.subset_append_left _ _)
  obtain ⟨d, hd, hheader⟩ := hdeclared.covers hold
  obtain ⟨g, rfl, hname, -⟩ :=
    Definition.exists_function_of_header (hheader.trans (hbuilds.header_eq rfl).symm)
  exact ⟨hunit, g, hd, hname⟩

/-- One function is built in step, and the modules stay alike. -/
private theorem record_hoisting (h : (hoisting names).Progresses p p') (hp : p.Sound G)
    (hp' : p'.Sound G') {name : Name} {params : List Name} {n n' : Nat} {t t' : LowerState}
    {r r' : Except CompileError FinishedFunction × CompileUnit} (hr : (hoisting names).Built r r')
    (hbuilds : (start p.unit name params G).Builds n r t)
    (hbuilds' : (start p'.unit name params G').Builds n' r' t')
    (hdeclared : Declared p.unit.module.definitions name params)
    (hdeclared' : Declared p'.unit.module.definitions name params) (label : Name) :
    (hoisting names).GoOn (p.record .abort label r) (p'.record .abort label r') := by
  refine h.record label hr (fun f hf => ?_) nofun
  cases hr with
  | error => cases hf
  | @ok function ps ps' u u' _ hunit =>
    cases hf
    obtain ⟨hu, g, hg, hname⟩ := hp.exists_placeholder hbuilds hdeclared
    obtain ⟨hu', -⟩ := hp'.exists_placeholder hbuilds' hdeclared'
    obtain ⟨m, hm, rfl⟩ := hunit
    have hshuffled : ModuleDraft.Shuffled names u.module { u with module := m }.module := hm
    exact ⟨_, hshuffled.install hu hu' hg hname, rfl⟩

/-- **The queue is worked off in step.** -/
theorem drain_hoisting (h : (hoisting names).Progresses p p') (hp : p.Sound G) (hp' : p'.Sound G')
    (limit : Nat) : (hoisting names).GoOn (p.drain .abort limit) (p'.drain .abort limit) := by
  induction limit generalizing p p' with
  | zero => exact .ok h
  | succ limit ih =>
    obtain ⟨unit, diagnostics, queue⟩ := p
    obtain ⟨unit', diagnostics', queue'⟩ := p'
    obtain ⟨hunit, hdiagnostics, hqueue⟩ := h
    cases hqueue with
    | nil => exact .ok ⟨hunit, hdiagnostics, .nil⟩
    | @cons f f' queue queue' hf hqueue =>
      obtain ⟨hrest, -, hdeclared, t, hbuilds⟩ := hp.next rfl
      obtain ⟨hrest', -, hdeclared', t', hbuilds'⟩ := hp'.next rfl
      dsimp only at hdeclared hdeclared' hbuilds hbuilds'
      have halike : (hoisting names).Progresses ⟨unit, diagnostics, queue⟩
          ⟨unit', diagnostics', queue'⟩ := ⟨hunit, hdiagnostics, hqueue⟩
      rw [Progress.drain, Progress.drain]
      dsimp only
      rw [hf.name] at hdeclared' hbuilds' ⊢
      rw [hf.lambda.params] at hdeclared' hbuilds'
      refine (record_hoisting halike hrest hrest' (lowerFunction_built hunit hf) hbuilds hbuilds'
        hdeclared hdeclared' f.name).bind fun hq hq' halike' => ?_
      exact ih halike' (hrest.record hbuilds hdeclared hq).1
        (hrest'.record hbuilds' hdeclared' hq').1

/-! ### What the top level notes -/

/-- The definition of a function at the top level. -/
def functionForm (x : Name × Lambda) : Expr :=
  .define x.1 (.lambda x.2.params x.2.body)

/-- The variables once a form has been noted, in the order of their first definitions. -/
def noteVariable (vars : List Name) : Expr → List Name
  | .define name _ => if name ∈ vars then vars else vars ++ [name]
  | _ => vars

/-- The kinds of the names of the top level, functions first. -/
def kinds (fs : List (Name × Lambda)) (vars : List Name) : Globals :=
  fs.map (fun x => (x.1, .function x.2.params.length)) ++ vars.map fun name => (name, .var)

private theorem perm_insert {α : Type} (xs ys zs : List α) :
    (xs ++ ys ++ zs).Perm (xs ++ zs ++ ys) := by
  rw [List.append_assoc, List.append_assoc]
  exact List.perm_append_comm.append_left xs

namespace TopLevel

/-- What has been noted of a program with the given functions and variables: their order is known
of the functions and of the definitions that are not placeholders of these. -/
structure Collected (first : CompileUnit) (names : List Name) (fs : List (Name × Lambda))
    (vars : List Name) (t : TopLevel) : Prop where
  sound : t.Sound
  unit : t.unit = { first with module := t.unit.module }
  moduleName : t.unit.module.name = first.module.name
  functions : t.functions = fs
  keys : (t.globals.map Prod.fst).Nodup
  globals : t.globals.Perm (kinds fs vars)
  definitions : t.unit.module.definitions.Perm (first.module.definitions ++
    (fs.map (fun x => ModuleDraft.placeholder x.1 x.2.params) ++ vars.map ModuleDraft.wordVariable))
  order : settled names t.unit.module.definitions =
    settled names (first.module.definitions ++ vars.map ModuleDraft.wordVariable)

variable {first : CompileUnit} {fs : List (Name × Lambda)} {vars : List Name} {t : TopLevel}

/-- The names of a collected top level are those of its functions and variables. -/
private theorem Collected.has_iff (h : t.Collected first names fs vars) {name : Name} :
    t.globals.has name = true ↔ name ∈ fs.map Prod.fst ∨ name ∈ vars := by
  have hmem : t.globals.has name = true ↔ name ∈ t.globals.map Prod.fst := by
    constructor
    · intro hhas
      obtain ⟨kind, hkind⟩ := Option.isSome_iff_exists.mp hhas
      exact List.mem_map_of_mem (Assoc.mem_of_get? hkind)
    · intro hname
      obtain ⟨x, hx, rfl⟩ := List.mem_map.mp hname
      exact Assoc.has_of_mem hx
  rw [hmem, (h.globals.map Prod.fst).mem_iff, kinds, List.map_append, List.mem_append, List.map_map,
    List.map_map]
  simp [Function.comp_def]

theorem Collected.entry (h : t.Collected first names fs vars) : t.unit.entry = first.entry := by
  rw [h.unit]

/-- A new name and its definition come last. -/
private theorem Collected.introduce (h : t.Collected first names fs vars) {name : Name}
    {kind : GlobalKind} {d : Definition} (hreserved : isReserved t.unit.entry name = false)
    (hnew : t.globals.has name = false) (hd : Introduces name kind d) :
    t.unit.ensure d = { first with module := t.unit.module.ensure d } ∧
      (t.unit.module.ensure d).definitions = t.unit.module.definitions ++ [d] ∧
      t.globals.put name kind = t.globals ++ [(name, kind)] := by
  refine ⟨congrArg (fun u : CompileUnit => u.ensure d) h.unit, ?_, Assoc.put_of_notMem ?_ kind⟩
  · refine ModuleDraft.ensure_of_notMem hd.isPlain fun hmem => ?_
    exact h.sound.name_ne hreserved hnew hmem hd.kind_eq hd.name_eq
  · intro hmem
    obtain ⟨y, hy, hname⟩ := List.mem_map.mp hmem
    rw [← hname, Assoc.has_of_mem hy] at hnew
    cases hnew

/-- A function is noted. -/
theorem Collected.function (h : t.Collected first names fs vars) {x : Name × Lambda} (index : Nat)
    (hreserved : isReserved t.unit.entry x.1 = false) (hnew : t.globals.has x.1 = false)
    (hx : x.1 ∈ names) : (t.define index x.1 (.lambda x.2.params x.2.body)).Collected first names
      (fs ++ [x]) vars := by
  obtain ⟨hunit, hensure, hput⟩ := h.introduce hreserved hnew (.function x.2.params)
  have hwaiting : settled names [ModuleDraft.placeholder x.1 x.2.params] = [] := by
    simp [settled, Definition.isWaiting, ModuleDraft.placeholder, Function.isPlaceholder, hx]
  refine ⟨(h.sound.notes (.function hreserved hnew)).1, hunit, ?_, ?_, ?_, ?_, ?_, ?_⟩
  · exact (ModuleDraft.name_ensure _ _).trans h.moduleName
  · exact congrArg (· ++ [x]) h.functions
  · exact Assoc.nodup_keys_put h.keys _ _
  · change (t.globals.put x.1 _).Perm _
    rw [hput, kinds, List.map_append]
    exact (h.globals.append_right _).trans (perm_insert _ _ _)
  · change (t.unit.module.ensure _).definitions.Perm _
    rw [hensure, List.map_append]
    refine (h.definitions.append_right _).trans ?_
    rw [List.append_assoc]
    exact (perm_insert _ _ _).append_left _
  · change settled names (t.unit.module.ensure _).definitions = _
    rw [hensure, settled_append, hwaiting, List.append_nil, h.order]

/-- A variable is noted. -/
private theorem Collected.variable (h : t.Collected first names fs vars) {name : Name}
    {value : Expr} (index : Nat) (hreserved : isReserved t.unit.entry name = false)
    (hnew : t.globals.has name = false) (hvalue : ∀ params body, value ≠ .lambda params body) :
    (t.define index name value).Collected first names fs (vars ++ [name]) := by
  obtain ⟨hunit, hensure, hput⟩ := h.introduce hreserved hnew .var
  have hnotes : t.Notes index (.define name value) (t.define index name value) := by
    rw [define]
    · exact .var hreserved hnew
    · exact hvalue
  have hdefine : t.define index name value =
      { t with
        unit := t.unit.ensure (ModuleDraft.wordVariable name)
        globals := t.globals.put name .var } := by
    rw [define]
    exact hvalue
  have hsound := (h.sound.notes hnotes).1
  rw [hdefine] at hsound ⊢
  refine ⟨hsound, hunit, ?_, h.functions, ?_, ?_, ?_, ?_⟩
  · exact (ModuleDraft.name_ensure _ _).trans h.moduleName
  · exact Assoc.nodup_keys_put h.keys _ _
  · change (t.globals.put name _).Perm _
    rw [hput, kinds, List.map_append, ← List.append_assoc]
    exact h.globals.append_right _
  · change (t.unit.module.ensure _).definitions.Perm _
    have happend := h.definitions.append_right [ModuleDraft.wordVariable name]
    rw [hensure]
    simpa using happend
  · change settled names (t.unit.module.ensure _).definitions = _
    rw [hensure, settled_append, h.order, ← settled_append, List.map_append, ← List.append_assoc]
    rfl

/-- Between two points of noting the top level, no earlier form becomes one that is skipped, and the
rest is skipped but for the given forms. -/
structure Skips (t top : TopLevel) (index : Nat) (gs forms : List Expr) : Prop where
  old : ∀ i < index, i ∈ top.functionForms → i ∈ t.functionForms
  rest : unskipped top.functionForms index forms = gs

variable {top u : TopLevel} {gs forms : List Expr} {index : Nat}

/-- A form that is skipped is not among those left. -/
theorem Skips.function (h : u.Skips top (index + 1) gs forms)
    (hu : u.functionForms = t.functionForms ++ [index]) (hsub : u.functionForms ⊆ top.functionForms)
    (form : Expr) : t.Skips top index gs (form :: forms) := by
  refine ⟨fun i hi hmem => ?_, ?_⟩
  · have hmem' := h.old i (by omega) hmem
    rw [hu, List.mem_append, List.mem_singleton] at hmem'
    exact hmem'.resolve_right (by omega)
  · have hmem : index ∈ top.functionForms := hsub (by simp [hu])
    rw [unskipped, if_pos (List.contains_iff_mem.mpr hmem), h.rest]

/-- A form that is not skipped is the next of those left. -/
theorem Skips.other (h : u.Skips top (index + 1) gs forms)
    (hu : u.functionForms = t.functionForms) (hold : ∀ i ∈ t.functionForms, i < index)
    (form : Expr) : t.Skips top index (form :: gs) (form :: forms) := by
  refine ⟨fun i hi hmem => hu ▸ h.old i (by omega) hmem, ?_⟩
  have hnot : index ∉ top.functionForms := by
    intro hmem
    have hlt := hold index (hu ▸ h.old index (by omega) hmem)
    omega
  rw [unskipped, if_neg (by simpa using hnot), h.rest]

/-- What is left of a program once the given variables have been noted: functions with names of
their own, and other forms of which none defines a function, or is the first to define a name as a
lambda. -/
structure Left (names vars : List Name) (fs : List (Name × Lambda)) (gs : List Expr) : Prop where
  functions : ∀ x ∈ fs, x.1 ∈ names
  noted : ∀ name ∈ vars, name ∉ names
  forms : ∀ name value, .define name value ∈ gs → name ∉ names
  first : ∀ name ∉ vars, ∀ params body, firstDefinition? name gs ≠ some (.lambda params body)

private theorem Left.tail {x : Name × Lambda} (h : Left names vars (x :: fs) gs) :
    Left names vars fs gs :=
  ⟨fun y hy => h.functions y (List.mem_cons_of_mem _ hy), h.noted, h.forms, h.first⟩

/-- A form that is no new definition. -/
private theorem Left.skip {form : Expr} (h : Left names vars fs (form :: gs))
    (hform : ∀ name value, form = .define name value → name ∈ vars) : Left names vars fs gs := by
  refine ⟨h.functions, h.noted, fun name value hmem => h.forms name value (.tail _ hmem), ?_⟩
  intro name hname params body hlambda
  refine h.first name hname params body ?_
  have hnone : form.definition? name = none := by
    by_cases hdefine : ∃ other value, form = .define other value
    · obtain ⟨other, value, rfl⟩ := hdefine
      refine if_neg ?_
      rintro rfl
      exact hname (hform other value rfl)
    · rw [Expr.definition?]
      exact fun other value heq => hdefine ⟨other, value, heq⟩
  rwa [firstDefinition?, List.findSome?_cons, hnone]

/-- A form that defines a variable. -/
private theorem Left.note {name : Name} {value : Expr}
    (h : Left names vars fs (.define name value :: gs)) :
    Left names (vars ++ [name]) fs gs := by
  have hname : name ∉ names := h.forms name value List.mem_cons_self
  have hmore : Left names (vars ++ [name]) fs (.define name value :: gs) := by
    refine ⟨h.functions, fun other hother => ?_, h.forms, fun other hother => ?_⟩
    · rcases List.mem_append.mp hother with hother | hother
      · exact h.noted other hother
      · exact List.mem_singleton.mp hother ▸ hname
    · exact h.first other fun hmem => hother (List.mem_append_left _ hmem)
  refine hmore.skip fun other value' heq => ?_
  cases heq
  exact List.mem_append_right _ List.mem_cons_self

/-- The first definition of a name among the other forms is none of a function. -/
private theorem Left.ne_lambda {name : Name} {value : Expr}
    (h : Left names vars fs (.define name value :: gs)) (hname : name ∉ vars)
    (params : List Name) (body : List Expr) : value ≠ .lambda params body := by
  rintro rfl
  refine h.first name hname params body ?_
  rw [firstDefinition?, List.findSome?_cons, Expr.definition?, if_pos rfl]

/-- The next function has not been noted. -/
private theorem Collected.has_eq_false {x : Name × Lambda} {fs' : List (Name × Lambda)}
    (h : t.Collected first names fs vars) (hleft : Left names vars (x :: fs') gs)
    (hdistinct : ((fs ++ x :: fs').map Prod.fst).Nodup) : t.globals.has x.1 = false := by
  rw [Bool.eq_false_iff, ne_eq, h.has_iff]
  rintro (hmem | hmem)
  · rw [List.map_append, List.map_cons, List.nodup_append] at hdistinct
    exact hdistinct.2.2 _ hmem _ List.mem_cons_self rfl
  · exact hleft.noted _ hmem (hleft.functions x List.mem_cons_self)

/-- **The order of the functions among the other forms is forgotten**: from what has been noted, any
interleaving leads to the same names. -/
theorem Collected.collect {fs' : List (Name × Lambda)} (h : t.Collected first names fs vars)
    (hforms : Interleaves (fs'.map functionForm) gs forms) (hleft : Left names vars fs' gs)
    (hdistinct : ((fs ++ fs').map Prod.fst).Nodup) (hfs : ∀ x ∈ fs, x.1 ∈ names)
    (hreserved : ∀ name value, .define name value ∈ forms → isReserved first.entry name = false)
    (hold : ∀ i ∈ t.functionForms, i < index) :
    ∃ top, t.collect index forms = .ok top ∧
      top.Collected first names (fs ++ fs') (gs.foldl noteVariable vars) ∧
      t.Skips top index gs forms := by
  generalize hxs : fs'.map functionForm = xs at hforms
  induction hforms generalizing t fs fs' vars index with
  | nil =>
    obtain rfl := List.map_eq_nil_iff.mp hxs
    rw [List.append_nil]
    exact ⟨t, rfl, h, fun _ _ hi => hi, rfl⟩
  | @left form xs gs forms hforms ih =>
    obtain ⟨x, fs'', rfl, rfl, rfl⟩ := List.map_eq_cons_iff.mp hxs
    have hres : isReserved t.unit.entry x.1 = false :=
      h.entry ▸ hreserved x.1 _ List.mem_cons_self
    have hx : x.1 ∈ names := hleft.functions x List.mem_cons_self
    have hnew := h.has_eq_false hleft hdistinct
    have hold' : ∀ i ∈ t.functionForms ++ [index], i < index + 1 := by
      intro i hi
      rcases List.mem_append.mp hi with hi | hi
      · exact Nat.lt_succ_of_lt (hold i hi)
      · exact List.mem_singleton.mp hi ▸ Nat.lt_succ_self index
    rw [functionForm, TopLevel.collect, if_neg (by simp [hres]), if_neg (by simp [hnew])]
    rw [List.append_cons] at hdistinct ⊢
    obtain ⟨top, hcollect, htop, hskips⟩ := ih (h.function index hres hnew hx) hleft.tail hdistinct
      (List.forall_mem_append.mpr ⟨hfs, by simpa using hx⟩)
      (fun name value hmem => hreserved name value (.tail _ hmem)) hold' rfl
    exact ⟨top, hcollect, htop, hskips.function rfl (collect_count hcollect).1 _⟩
  | @right form xs gs forms hforms ih =>
    have hreserved' : ∀ name value, .define name value ∈ forms →
        isReserved first.entry name = false :=
      fun name value hmem => hreserved name value (.tail _ hmem)
    -- a form that is no new definition changes nothing
    have hskip : (∀ name value, form = .define name value → name ∈ vars) →
        t.collect index (form :: forms) = t.collect (index + 1) forms →
        noteVariable vars form = vars →
        ∃ top, t.collect index (form :: forms) = .ok top ∧
          top.Collected first names (fs ++ fs') ((form :: gs).foldl noteVariable vars) ∧
          t.Skips top index (form :: gs) (form :: forms) := by
      intro hform hcollect hvars
      obtain ⟨top, htop, hcollected, hskips⟩ := ih h (hleft.skip hform) hdistinct hfs hreserved'
        (fun i hi => Nat.lt_succ_of_lt (hold i hi)) hxs
      rw [hcollect, List.foldl_cons, hvars]
      exact ⟨top, htop, hcollected, hskips.other rfl hold form⟩
    by_cases hform : ∃ name value, form = .define name value
    · obtain ⟨name, value, rfl⟩ := hform
      have hname : name ∉ names := hleft.forms name value List.mem_cons_self
      have hres : isReserved t.unit.entry name = false :=
        h.entry ▸ hreserved name value List.mem_cons_self
      have hnotFunction : name ∉ fs.map Prod.fst := by
        intro hmem
        obtain ⟨x, hx, rfl⟩ := List.mem_map.mp hmem
        exact hname (hfs x hx)
      by_cases hnew : t.globals.has name = true
      · have hvar : name ∈ vars := (h.has_iff.mp hnew).resolve_left hnotFunction
        refine hskip (fun _ _ heq => ?_) ?_ (if_pos hvar)
        · cases heq
          exact hvar
        · rw [TopLevel.collect, if_neg (by simp [hres]), if_pos hnew]
      · have hvar : name ∉ vars := fun hmem => hnew (h.has_iff.mpr (.inr hmem))
        have hvalue := hleft.ne_lambda hvar
        have hforms' : (t.define index name value).functionForms = t.functionForms := by
          rw [define]
          exact hvalue
        rw [Bool.not_eq_true] at hnew
        obtain ⟨top, htop, hcollected, hskips⟩ := ih (h.variable index hres hnew hvalue) hleft.note
          hdistinct hfs hreserved' (fun i hi => Nat.lt_succ_of_lt (hold i (hforms' ▸ hi))) hxs
        rw [TopLevel.collect, if_neg (by simp [hres]), if_neg (by simp [hnew]), List.foldl_cons,
          noteVariable, if_neg hvar]
        exact ⟨top, htop, hcollected, hskips.other hforms' hold _⟩
    · have hother : ∀ name value, form = .define name value → False :=
        fun name value heq => hform ⟨name, value, heq⟩
      refine hskip (fun name value heq => (hother name value heq).elim) ?_ ?_
      · rw [TopLevel.collect]
        exact hother
      · rw [noteVariable]
        exact hother

/-- What has been noted of two programs with the same functions and variables is alike. -/
private theorem Collected.units {t' : TopLevel} (h : t.Collected first names fs vars)
    (h' : t'.Collected first names fs vars) : (hoisting names).Units t.unit t'.unit := by
  refine ⟨t'.unit.module, ⟨h.sound.unit.indexed, h'.sound.unit.indexed, ?_, ?_, ?_⟩, ?_⟩
  · rw [h.moduleName, h'.moduleName]
  · exact h'.definitions.trans h.definitions.symm
  · rw [h.order, h'.order]
  · rw [h.unit, h'.unit]

/-- Two ways to collect the same definitions know the same names. -/
private theorem Collected.alike {t' : TopLevel} (h : t.Collected first names fs vars)
    (h' : t'.Collected first names fs vars) : t.globals.Alike t'.globals := by
  have hperm : t'.globals.Perm t.globals := h'.globals.trans h.globals.symm
  refine ⟨fun name => Option.ext fun kind => ?_, hperm.length_eq⟩
  constructor
  · exact fun hget => Assoc.get?_of_mem h.keys (hperm.mem_iff.mp (Assoc.mem_of_get? hget))
  · exact fun hget => Assoc.get?_of_mem h'.keys (hperm.mem_iff.mpr (Assoc.mem_of_get? hget))

/-- Two ways to collect the same definitions have the same functions waiting. -/
private theorem Collected.pending {t' : TopLevel} (h : t.Collected first names fs vars)
    (h' : t'.Collected first names fs vars) :
    List.Forall₂ (hoisting names).Pending t.pending t'.pending := by
  rw [TopLevel.pending, TopLevel.pending, h.functions, h'.functions, List.forall₂_map_left_iff,
    List.forall₂_map_right_iff]
  refine List.forall₂_same.mpr fun x _ => ⟨rfl, ⟨rfl, ?_⟩, h.alike h'⟩
  exact List.forall₂_same.mpr fun _ _ => rfl

end TopLevel

/-! ### Programs -/

section Programs

variable {fs : List (Name × Lambda)} {gs forms forms' : List Expr} {options : CompileOptions}

/-- The assignments of a program are those of the forms that define no function. -/
private theorem Interleaves.assignedAll_eq (h : Interleaves (fs.map functionForm) gs forms) :
    assignedAll forms = assignedAll gs := by
  generalize hxs : fs.map functionForm = xs at h
  induction h generalizing fs with
  | nil => rfl
  | left _ ih =>
    obtain ⟨x, fs', rfl, rfl, rfl⟩ := List.map_eq_cons_iff.mp hxs
    rw [assignedAll, ih rfl]
    rfl
  | right _ ih => rw [assignedAll, assignedAll, ih hxs]

private theorem functionCounts_eq_sum (es : List Expr) :
    functionCounts es = (es.map Expr.functionCount).sum := by
  induction es with
  | nil => rfl
  | cons e es ih => rw [functionCounts, List.map_cons, List.sum_cons, ih]

/-- Interleavings of the same forms have as many functions. -/
private theorem Interleaves.functionCounts_eq {xs : List Expr} (h : Interleaves xs gs forms)
    (h' : Interleaves xs gs forms') : functionCounts forms' = functionCounts forms := by
  rw [functionCounts_eq_sum, functionCounts_eq_sum]
  exact ((h'.perm.trans h.perm.symm).map Expr.functionCount).sum_eq

/-- The program has been noted, up to the order of its names, and the functions are skipped. -/
private theorem exists_collected (hdistinct : (fs.map Prod.fst).Nodup)
    (hgs : ∀ name value, .define name value ∈ gs → name ∉ fs.map Prod.fst)
    (hfirst : ∀ name params body, firstDefinition? name gs ≠ some (.lambda params body))
    (h : Interleaves (fs.map functionForm) gs forms)
    (hreserved : ∀ name value, .define name value ∈ forms →
      TopLevel.isReserved options.entry name = false) :
    ∃ top, topLevel forms options = .ok top ∧
      top.Collected ((CompileUnit.start options.moduleName options.entry).ensure
        (ModuleDraft.placeholder options.entry [])) (fs.map Prod.fst) fs
        (gs.foldl noteVariable []) ∧
      unskipped top.functionForms 0 forms = gs := by
  have hstart : TopLevel.Collected ((CompileUnit.start options.moduleName options.entry).ensure
      (ModuleDraft.placeholder options.entry [])) (fs.map Prod.fst) [] []
      ⟨(CompileUnit.start options.moduleName options.entry).ensure
        (ModuleDraft.placeholder options.entry []), [], [], []⟩ :=
    ⟨TopLevel.sound_start _ _, rfl, rfl, rfl, List.nodup_nil, .nil, by simp, by simp⟩
  have hleft : TopLevel.Left (fs.map Prod.fst) [] fs gs :=
    ⟨fun x hx => List.mem_map_of_mem hx, nofun, hgs, fun name _ => hfirst name⟩
  have hold : ∀ i ∈ ([] : List Nat), i < 0 := nofun
  obtain ⟨top, htop, hcollected, hskips⟩ := hstart.collect h hleft hdistinct nofun hreserved hold
  exact ⟨top, htop, hcollected, hskips.rest⟩

/-- **Both programs are compiled in step** once their top levels have been noted. -/
theorem completed_hoisting {first : CompileUnit} {vars : List Name} {top top' : TopLevel}
    (h : top.Collected first names fs vars) (h' : top'.Collected first names fs vars)
    (hskips : unskipped top.functionForms 0 forms = gs)
    (hskips' : unskipped top'.functionForms 0 forms' = gs)
    (hforms : Interleaves (fs.map functionForm) gs forms)
    (hforms' : Interleaves (fs.map functionForm) gs forms') (hpolicy : options.policy = .abort) :
    (hoisting names).GoOn (top.completed forms options) (top'.completed forms' options) := by
  have hbuilt := lowerEntry_built (K := hoisting names) (h.units h') (h.alike h')
    (hforms'.assignedAll_eq.trans hforms.assignedAll_eq.symm)
    (show List.Forall₂ Eq (unskipped top.functionForms 0 forms)
      (unskipped top'.functionForms 0 forms') by
      rw [hskips, hskips']
      exact List.forall₂_same.mpr fun _ _ => rfl)
  have hbegun : (hoisting names).Progresses ⟨top.unit, [], top.pending⟩
      ⟨top'.unit, [], top'.pending⟩ := ⟨h.units h', rfl, h.pending h'⟩
  obtain ⟨t, hbuilds⟩ := lowerEntry_builds top.unit forms top.functionForms top.globals
  obtain ⟨t', hbuilds'⟩ := lowerEntry_builds top'.unit forms' top'.functionForms top'.globals
  have hentry := h.sound.entry
  have hentry' := h'.sound.entry
  rw [h.entry] at hbuilds hentry
  rw [h'.entry] at hbuilds' hentry'
  rw [TopLevel.completed, TopLevel.completed, TopLevel.started, TopLevel.started, hpolicy,
    hforms.functionCounts_eq hforms']
  refine (record_hoisting hbegun h.sound.progress h'.sound.progress hbuilt hbuilds hbuilds' hentry
    hentry' options.entry).bind fun hq hq' hprogresses => ?_
  exact drain_hoisting hprogresses (h.sound.progress.record hbuilds hentry hq).1
    (h'.sound.progress.record hbuilds' hentry' hq').1 _

/-- Under `abort` the functions of a program that compiles have a body. -/
private theorem blocks_ne_nil_of_abort (hpolicy : options.policy = .abort) {output : CompileOutput}
    (h : compileProgram forms options = .ok output) {f : Function}
    (hf : .function f ∈ output.module.definitions) : f.blocks ≠ [] := by
  obtain ⟨calls, hcalls⟩ := exists_compilesBy forms options
  rw [h] at hcalls
  intro hblocks
  have hmem : f ∈ output.module.functions := List.mem_filterMap.mpr ⟨_, hf, rfl⟩
  obtain ⟨d, hd, -⟩ := (hcalls.bodiless_iff f.name).mp ⟨f, hmem, rfl, hblocks⟩
  rw [diagnostics_eq_nil_of_abort hpolicy h] at hd
  cases hd

/-- Where all functions have a body, nothing is left that the order could be seen by. -/
private theorem settled_eq_self {ds : List Definition} (h : ∀ f, .function f ∈ ds → f.blocks ≠ []) :
    settled names ds = ds := by
  refine List.filter_eq_self.mpr fun d hd => ?_
  cases d with
  | function f => simp [Definition.isWaiting, Function.isPlaceholder, h f hd]
  | _ => rfl

/-- Two compilations in step that come to an end give the same module. -/
private theorem compileProgram_eq_of_goOn {top top' : TopLevel} (hpolicy : options.policy = .abort)
    (htop : topLevel forms options = .ok top) (htop' : topLevel forms' options = .ok top')
    (h : (hoisting names).GoOn (top.completed forms options) (top'.completed forms' options)) :
    compileProgram forms options = compileProgram forms' options := by
  have hforms := compileProgram_eq forms options
  have hforms' := compileProgram_eq forms' options
  rw [htop] at hforms
  rw [htop'] at hforms'
  change _ = (do
    let done ← top.completed forms options
    return (⟨done.unit.module.finish, done.diagnostics⟩ : CompileOutput)) at hforms
  change _ = (do
    let done ← top'.completed forms' options
    return (⟨done.unit.module.finish, done.diagnostics⟩ : CompileOutput)) at hforms'
  generalize top.completed forms options = r at h hforms
  generalize top'.completed forms' options = r' at h hforms'
  cases h with
  | error d => rw [hforms, hforms']
  | @ok p p' hp =>
    obtain ⟨m, hm, hunit⟩ := hp.unit
    change compileProgram forms options = .ok ⟨p.unit.module.finish, p.diagnostics⟩ at hforms
    change compileProgram forms' options = .ok ⟨p'.unit.module.finish, p'.diagnostics⟩ at hforms'
    have hbodies : settled names p.unit.module.definitions = p.unit.module.definitions :=
      settled_eq_self fun f hf => blocks_ne_nil_of_abort hpolicy hforms hf
    have hbodies' : settled names p'.unit.module.definitions = p'.unit.module.definitions :=
      settled_eq_self fun f hf => blocks_ne_nil_of_abort hpolicy hforms' hf
    have hmodule : p'.unit.module = m := congrArg CompileUnit.module hunit
    rw [← hmodule] at hm
    have hfinish : p'.unit.module.finish = p.unit.module.finish := by
      rw [ModuleDraft.finish, ModuleDraft.finish, hm.name, ← hbodies, ← hbodies', hm.order]
    rw [hforms, hforms', hfinish, hp.diagnostics]

/-- A program that defines a reserved name is refused for that. -/
private theorem exists_reservedName (h : ¬ ∀ name value, .define name value ∈ forms →
    TopLevel.isReserved options.entry name = false) :
    ∃ name, compileProgram forms options = .error ⟨options.entry, .reservedName name⟩ := by
  have hnone : ¬ ∃ top, topLevel forms options = .ok top :=
    fun htop => h (TopLevel.collect_ok_iff.mp htop)
  cases htop : topLevel forms options with
  | ok top => exact absurd ⟨top, htop⟩ hnone
  | error e =>
    obtain ⟨name, rfl⟩ := collect_error htop
    refine ⟨name, ?_⟩
    rw [compileProgram_eq, htop]
    rfl

/-- **Function definitions are hoisted.** Two programs that interleave the same functions, with
distinct names, and the same other forms, of which none defines one of the functions and none is the
first to define its name as a lambda, compile to the same module, or fail with the same diagnostic
unless that is about a reserved name. -/
theorem functions_hoisted (fs : List (Name × Lambda)) (gs forms forms' : List Expr)
    (options : CompileOptions) (hpolicy : options.policy = .abort)
    (hdistinct : (fs.map Prod.fst).Nodup)
    (hgs : ∀ name value, .define name value ∈ gs → name ∉ fs.map Prod.fst)
    (hfirst : ∀ name params body, firstDefinition? name gs ≠ some (.lambda params body))
    (hforms : Interleaves (fs.map functionForm) gs forms)
    (hforms' : Interleaves (fs.map functionForm) gs forms') :
    (∀ output, compileProgram forms options = .ok output ↔
      compileProgram forms' options = .ok output) ∧
    ∀ d, (∀ name, d.error ≠ .reservedName name) →
      (compileProgram forms options = .error d ↔ compileProgram forms' options = .error d) := by
  have hmem : ∀ form, form ∈ forms' ↔ form ∈ forms :=
    fun form => (hforms'.perm.trans hforms.perm.symm).mem_iff
  by_cases hreserved : ∀ name value, .define name value ∈ forms →
      TopLevel.isReserved options.entry name = false
  · have hreserved' : ∀ name value, .define name value ∈ forms' →
        TopLevel.isReserved options.entry name = false :=
      fun name value h => hreserved name value ((hmem _).mp h)
    obtain ⟨top, htop, hcollected, hskips⟩ :=
      exists_collected hdistinct hgs hfirst hforms hreserved
    obtain ⟨top', htop', hcollected', hskips'⟩ :=
      exists_collected hdistinct hgs hfirst hforms' hreserved'
    have hgoOn := completed_hoisting hcollected hcollected' hskips hskips' hforms hforms' hpolicy
    rw [compileProgram_eq_of_goOn hpolicy htop htop' hgoOn]
    exact ⟨fun _ => Iff.rfl, fun _ _ => Iff.rfl⟩
  · -- both are refused for a reserved name, though perhaps not for the same one
    have hreserved' : ¬ ∀ name value, .define name value ∈ forms' →
        TopLevel.isReserved options.entry name = false :=
      fun h => hreserved fun name value hname => h name value ((hmem _).mpr hname)
    obtain ⟨name, hname⟩ := exists_reservedName hreserved
    obtain ⟨name', hname'⟩ := exists_reservedName hreserved'
    rw [hname, hname']
    refine ⟨fun _ => by simp, fun d hd => iff_of_false ?_ ?_⟩
    · rintro ⟨⟩
      exact hd name rfl
    · rintro ⟨⟩
      exact hd name' rfl

end Programs

/-- Two functions that call each other, each of which reads a variable. -/
def ping : Name × Lambda :=
  ("ping", ⟨["x"], [.call (.var "pong") [.var "x", .var "v"]]⟩)

@[inherit_doc ping]
def pong : Name × Lambda :=
  ("pong", ⟨["x", "y"], [.ifElse (.var "x") (.var "y") (.call (.var "ping") [.var "v"])]⟩)

/-- The variable is defined twice, the second time as a lambda, before the call. -/
def serve : List Expr :=
  [.define "v" (.integer 1), .define "v" (.lambda ["y"] [.var "y"]),
    .call (.var "ping") [.var "v"]]

theorem functions_hoisted_pingPong : ∃ output,
    compileProgram ([ping, pong].map functionForm ++ serve) ⟨"m", "main", .abort⟩ = .ok output ∧
      compileProgram (serve ++ [ping, pong].map functionForm) ⟨"m", "main", .abort⟩ = .ok output ∧
      output.module.definitions.map Definition.name = ["v", "main", "ping", "pong", "lambda"] := by
  have houtput : (compileProgram ([ping, pong].map functionForm ++ serve)
      ⟨"m", "main", .abort⟩).toOption.map (fun output =>
        output.module.definitions.map Definition.name) =
      some ["v", "main", "ping", "pong", "lambda"] := by
    decide +kernel
  obtain ⟨output, hok, hnames⟩ := exists_ok_of_toOption houtput
  have hgs : ∀ name value, .define name value ∈ serve → name ∉ [ping, pong].map Prod.fst := by
    intro name value h
    have hname : name = "v" := by
      simp only [serve, List.mem_cons, Expr.define.injEq, reduceCtorEq, List.not_mem_nil] at h
      grind
    rw [hname]
    decide
  have hfirst : ∀ name params body, firstDefinition? name serve ≠ some (.lambda params body) := by
    intro name params body
    by_cases hname : name = "v" <;>
      simp [firstDefinition?, serve, Expr.definition?, hname, Ne.symm, Expr.integer]
  have hforms : Interleaves ([ping, pong].map functionForm) serve
      ([ping, pong].map functionForm ++ serve) :=
    .left (.left (.right (.right (.right .nil))))
  have hforms' : Interleaves ([ping, pong].map functionForm) serve
      (serve ++ [ping, pong].map functionForm) :=
    .right (.right (.right (.left (.left .nil))))
  have hhoisted := functions_hoisted [ping, pong] serve _ _ ⟨"m", "main", .abort⟩ rfl (by decide)
    hgs hfirst hforms hforms'
  exact ⟨output, hok, (hhoisted.1 output).mp hok, hnames⟩

end WordScheme
