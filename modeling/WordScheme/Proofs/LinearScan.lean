import Mathlib
import WordScheme.Proofs.ModuleIndex

/-!
# Module drafts answer like a linear scan

A finished module is a plain list of definitions, and `Module.add` and `Module.removeFunction` are
the two changes of a draft on such a list, each by a search from the front. A draft does the same
through its index: whatever changes are made to an empty draft, in any order and with any
definitions, it replies as the plain list does and finishes to it (`draft_refines_scan`).

`ModuleDraft.WellIndexed` is the invariant. It says more than `ModuleDraft.Indexed`: no name has an
entry without positions, and no two definitions of the draft compare equal. Comparison is that of
numbers where code holds doubles, so it is not reflexive; it is symmetric (`Definition.beq_comm`).
-/

namespace WordScheme

/-! ### Comparison is symmetric -/

/-- Doubles are compared as numbers, in either order. -/
private theorem Double.beq_comm (x y : Double) : (x == y) = (y == x) := by
  change (!x.isNaN && !y.isNaN && (x.bits == y.bits || (x.magnitude == 0 && y.magnitude == 0))) =
    (!y.isNaN && !x.isNaN && (y.bits == x.bits || (y.magnitude == 0 && x.magnitude == 0)))
  rw [Bool.and_comm (!x.isNaN), BEq.comm (a := x.bits), Bool.and_comm (x.magnitude == 0)]

private theorem Constant.beq_comm (a b : Constant) : (a == b) = (b == a) := by
  change instBEqConstant.beq a b = instBEqConstant.beq b a
  cases a <;> cases b <;> simp [instBEqConstant.beq, Double.beq_comm, BEq.comm]

private theorem Operand.beq_comm (a b : Operand) : (a == b) = (b == a) := by
  change instBEqOperand.beq a b = instBEqOperand.beq b a
  cases a <;> cases b <;> simp [instBEqOperand.beq, Constant.beq_comm, BEq.comm]

/-- Lists compare like their elements. -/
private theorem list_beq_comm {α : Type} [BEq α] (h : ∀ a b : α, (a == b) = (b == a))
    (l l' : List α) : (l == l') = (l' == l) := by
  induction l generalizing l' with
  | nil => cases l' <;> rfl
  | cons a l ih =>
    cases l' with
    | nil => rfl
    | cons b l' => rw [List.cons_beq_cons, List.cons_beq_cons, h, ih]

private theorem incoming_beq_comm (x y : Operand × Name) : (x == y) = (y == x) := by
  change (x.1 == y.1 && x.2 == y.2) = (y.1 == x.1 && y.2 == x.2)
  rw [Operand.beq_comm, BEq.comm (a := x.2)]

private theorem Instruction.beq_comm (i j : Instruction) : (i == j) = (j == i) := by
  cases i with
  | binary op lhs rhs =>
    cases j with
    | binary op' lhs' rhs' =>
      change (op == op' && (lhs == lhs' && rhs == rhs')) =
        (op' == op && (lhs' == lhs && rhs' == rhs))
      rw [BEq.comm (a := op), lhs.beq_comm, rhs.beq_comm]
    | _ => rfl
  | icmp p lhs rhs =>
    cases j with
    | icmp p' lhs' rhs' =>
      change (p == p' && (lhs == lhs' && rhs == rhs')) = (p' == p && (lhs' == lhs && rhs' == rhs))
      rw [BEq.comm (a := p), lhs.beq_comm, rhs.beq_comm]
    | _ => rfl
  | fcmp p lhs rhs =>
    cases j with
    | fcmp p' lhs' rhs' =>
      change (p == p' && (lhs == lhs' && rhs == rhs')) = (p' == p && (lhs' == lhs && rhs' == rhs))
      rw [BEq.comm (a := p), lhs.beq_comm, rhs.beq_comm]
    | _ => rfl
  | alloca ty =>
    cases j with
    | alloca ty' => exact BEq.comm (a := ty)
    | _ => rfl
  | load ty pointer =>
    cases j with
    | load ty' pointer' =>
      change (ty == ty' && pointer == pointer') = (ty' == ty && pointer' == pointer)
      rw [BEq.comm (a := ty), pointer.beq_comm]
    | _ => rfl
  | store value pointer =>
    cases j with
    | store value' pointer' =>
      change (value == value' && pointer == pointer') = (value' == value && pointer' == pointer)
      rw [value.beq_comm, pointer.beq_comm]
    | _ => rfl
  | elementPtr ty base index =>
    cases j with
    | elementPtr ty' base' index' =>
      change (ty == ty' && (base == base' && index == index')) =
        (ty' == ty && (base' == base && index' == index))
      rw [BEq.comm (a := ty), base.beq_comm, index.beq_comm]
    | _ => rfl
  | cast op operand target =>
    cases j with
    | cast op' operand' target' =>
      change (op == op' && (operand == operand' && target == target')) =
        (op' == op && (operand' == operand && target' == target))
      rw [BEq.comm (a := op), operand.beq_comm, BEq.comm (a := target)]
    | _ => rfl
  | call result callee args =>
    cases j with
    | call result' callee' args' =>
      change (result == result' && (callee == callee' && args == args')) =
        (result' == result && (callee' == callee && args' == args))
      rw [BEq.comm (a := result), callee.beq_comm, list_beq_comm Operand.beq_comm]
    | _ => rfl
  | phi ty incoming =>
    cases j with
    | phi ty' incoming' =>
      change (ty == ty' && incoming == incoming') = (ty' == ty && incoming' == incoming)
      rw [BEq.comm (a := ty), list_beq_comm incoming_beq_comm]
    | _ => rfl

private theorem Terminator.beq_comm (t u : Terminator) : (t == u) = (u == t) := by
  change instBEqTerminator.beq t u = instBEqTerminator.beq u t
  cases t <;> cases u <;> simp [instBEqTerminator.beq, Operand.beq_comm, BEq.comm]

private theorem Statement.beq_comm (s t : Statement) : (s == t) = (t == s) := by
  change (s.dest == t.dest && s.instruction == t.instruction) =
    (t.dest == s.dest && t.instruction == s.instruction)
  rw [Instruction.beq_comm, BEq.comm (a := s.dest)]

private theorem Block.beq_comm (b c : Block) : (b == c) = (c == b) := by
  change (b.label == c.label && (b.statements == c.statements && b.terminator == c.terminator)) =
    (c.label == b.label && (c.statements == b.statements && c.terminator == b.terminator))
  rw [BEq.comm (a := b.label), list_beq_comm Statement.beq_comm, Terminator.beq_comm]

private theorem Function.beq_comm (f g : Function) : (f == g) = (g == f) := by
  change (f.name == g.name && (f.result == g.result && (f.params == g.params &&
      f.blocks == g.blocks))) =
    (g.name == f.name && (g.result == f.result && (g.params == f.params && g.blocks == f.blocks)))
  rw [BEq.comm (a := f.name), BEq.comm (a := f.result), BEq.comm (a := f.params),
    list_beq_comm Block.beq_comm]

/-- **Definitions are compared alike in either order.** -/
private theorem Definition.beq_comm (d e : Definition) : (d == e) = (e == d) := by
  change instBEqDefinition.beq d e = instBEqDefinition.beq e d
  cases d <;> cases e <;> simp [instBEqDefinition.beq, Function.beq_comm, BEq.comm]

/-! ### Changes of a plain list -/

namespace Module

/-- Whether an equal definition is there. -/
def contains (m : Module) (d : Definition) : Bool :=
  m.definitions.any (· == d)

/-- Adds a definition at the end unless an equal one is there, and says whether it did. -/
def add (m : Module) (d : Definition) : Bool × Module :=
  if m.contains d then (false, m) else (true, { m with definitions := m.definitions ++ [d] })

/-- Removes the first function of a name; without one the list stays as it is. -/
def removeFunction (m : Module) (name : Name) : EStateM.Result CompileError Module Function :=
  match m.function? name with
  | none => .error (.unknownFunction name) m
  | some f =>
    .ok f { m with definitions := m.definitions.eraseP (Definition.isFunctionNamed name) }

end Module

/-- A change that is asked of a module in the making. -/
inductive ModuleChange where
  | add (d : Definition)
  | removeFunction (name : Name)

/-- What the change comes to: whether a definition is new, or the function that has gone. -/
inductive ModuleReply where
  | added (new : Bool)
  | removed (result : Except CompileError Function)

/-- The reply to a removal, with what it leaves. -/
def removalReply {σ : Type} : EStateM.Result CompileError σ Function → ModuleReply × σ
  | .ok f left => (.removed (.ok f), left)
  | .error e left => (.removed (.error e), left)

/-- Makes a change to a list of definitions. -/
def Module.change (m : Module) : ModuleChange → ModuleReply × Module
  | .add d => (.added (m.add d).1, (m.add d).2)
  | .removeFunction name => removalReply (m.removeFunction name)

/-- Makes a change to a draft. -/
def ModuleDraft.change (m : ModuleDraft) : ModuleChange → ModuleReply × ModuleDraft
  | .add d => (.added (m.add d).1, (m.add d).2)
  | .removeFunction name => removalReply (m.removeFunction name)

/-- Makes several changes to a list of definitions, one after the other. -/
def Module.changes (m : Module) : List ModuleChange → List ModuleReply × Module
  | [] => ([], m)
  | c :: cs =>
    let later := (m.change c).2.changes cs
    ((m.change c).1 :: later.1, later.2)

/-- Makes several changes to a draft, one after the other. -/
def ModuleDraft.changes (m : ModuleDraft) : List ModuleChange → List ModuleReply × ModuleDraft
  | [] => ([], m)
  | c :: cs =>
    let later := (m.change c).2.changes cs
    ((m.change c).1 :: later.1, later.2)

/-! ### The invariant -/

/-- The positions of a list at which a name is defined, ascending. -/
def definedAt (ds : List Definition) (name : Name) : List Nat :=
  ds.findIdxs fun d => d.name == name

/-- The entries of an index are those of a list of definitions, and no two of these are equal. -/
structure ModuleDraft.WellIndexed (m : ModuleDraft) : Prop where
  /-- No name has two entries. -/
  keys : (m.index.map Prod.fst).Nodup
  /-- A name that is defined has its positions for an entry, and any other name has none. -/
  get?_eq : ∀ name, m.index.get? name =
    if definedAt m.definitions name = [] then none else some (definedAt m.definitions name)
  /-- No entry is empty. -/
  entries : ∀ entry ∈ m.index, entry.2 ≠ []
  distinct : ∀ (i j : Nat) (d e : Definition), i ≠ j → m.definitions[i]? = some d →
    m.definitions[j]? = some e → (d == e) = false

namespace ModuleDraft

variable {m : ModuleDraft}

/-- The index has the positions that a scan finds. -/
private theorem Indexed.positions_eq (hm : m.Indexed) (name : Name) :
    m.index.positions name = definedAt m.definitions name := by
  refine (hm.ascending name).eq_of_mem_iff List.pairwise_findIdxs fun i => ?_
  rw [hm.positions, definedAt, List.mem_findIdxs_iff_exists_getElem_pos]
  constructor
  · rintro ⟨d, hd, hname⟩
    obtain ⟨hi, rfl⟩ := List.getElem?_eq_some_iff.mp hd
    exact ⟨hi, beq_iff_eq.mpr hname⟩
  · rintro ⟨hi, hname⟩
    exact ⟨_, List.getElem?_eq_getElem hi, beq_iff_eq.mp hname⟩

/-- What the changes of a draft keep. -/
structure Scanned (m : ModuleDraft) : Prop extends Indexed m where
  entries : ∀ entry ∈ m.index, entry.2 ≠ []
  distinct : m.definitions.Pairwise fun d e => (d == e) = false

/-- A draft that answers like a scan is well indexed. -/
private theorem Scanned.wellIndexed (hm : m.Scanned) : m.WellIndexed where
  keys := hm.keys
  get?_eq := by
    intro name
    have hpositions := hm.toIndexed.positions_eq name
    cases hget : m.index.get? name with
    | none =>
      have hnone : definedAt m.definitions name = [] := by
        rw [← hpositions, NameIndex.positions, hget]
        rfl
      rw [if_pos hnone]
    | some found =>
      have hfound : definedAt m.definitions name = found := by
        rw [← hpositions, NameIndex.positions, hget]
        rfl
      have hne : found ≠ [] := hm.entries _ (Assoc.mem_of_get? hget)
      rw [hfound, if_neg hne]
  entries := hm.entries
  distinct := by
    intro i j d e hij hi hj
    obtain ⟨hi', rfl⟩ := List.getElem?_eq_some_iff.mp hi
    obtain ⟨hj', rfl⟩ := List.getElem?_eq_some_iff.mp hj
    have hdistinct := List.pairwise_iff_getElem.mp hm.distinct
    rcases Nat.lt_or_gt_of_ne hij with hlt | hgt
    · exact hdistinct i j hi' hj' hlt
    · rw [Definition.beq_comm]
      exact hdistinct j i hj' hi' hgt

private theorem scanned_empty (name : String) : (empty name).Scanned where
  toIndexed := indexed_empty name
  entries := fun _ h => nomatch h
  distinct := List.Pairwise.nil

/-! ### Changes through the index -/

/-- A draft has a definition exactly when its list does. -/
private theorem Indexed.contains_eq (hm : m.Indexed) (d : Definition) :
    m.contains d = m.finish.contains d := by
  rw [Bool.eq_iff_iff, contains_iff hm, Module.contains, List.any_eq_true]
  rfl

/-- A definition is added to a draft as it is to its list. -/
private theorem Indexed.add_eq (hm : m.Indexed) (d : Definition) :
    (m.add d).1 = (m.finish.add d).1 ∧ (m.add d).2.finish = (m.finish.add d).2 := by
  rw [add, Module.add, hm.contains_eq]
  split <;> exact ⟨rfl, rfl⟩

/-- A draft with a definition added goes on to answer like a scan. -/
private theorem Scanned.add (hm : m.Scanned) (d : Definition) : (m.add d).2.Scanned := by
  rw [ModuleDraft.add]
  split
  · exact hm
  · next hnew =>
    refine ⟨hm.toIndexed.concat d, fun entry hentry => ?_, ?_⟩
    · rcases Assoc.mem_put hentry with hold | rfl
      · exact hm.entries entry hold
      · simp
    · refine List.pairwise_append.mpr ⟨hm.distinct, List.pairwise_singleton _ _, ?_⟩
      intro e he e' he'
      obtain rfl := List.mem_singleton.mp he'
      rw [← Bool.not_eq_true]
      exact fun heq => hnew ((contains_iff hm.toIndexed).mpr ⟨e, he, heq⟩)

/-- The first function of a name, found by a search through the definitions. -/
private theorem function?_finish (m : ModuleDraft) (name : Name) :
    m.finish.function? name =
      (m.definitions.find? (Definition.isFunctionNamed name)).bind Definition.function? :=
  List.find?_filterMap

/-- What the index finds first, with its position. -/
def firstFunction? (m : ModuleDraft) (name : Name) : Option (Nat × Function) :=
  (m.defining name).findSome? fun x => x.2.function?.map fun f => (x.1, f)

private theorem removeFunction_eq (m : ModuleDraft) (name : Name) :
    m.removeFunction name =
      match m.firstFunction? name with
      | none => .error (.unknownFunction name) m
      | some (i, f) =>
        .ok f { m with
          definitions := m.definitions.eraseIdx i
          index := m.index.erase i } := rfl

/-- A function that the index does not find is not in the list. -/
private theorem Indexed.firstFunction?_eq_none (hm : m.Indexed) {name : Name}
    (h : m.firstFunction? name = none) : m.finish.function? name = none := by
  have hnone : m.definitions.find? (Definition.isFunctionNamed name) = none := by
    refine List.find?_eq_none.mpr fun d hd hnamed => ?_
    obtain ⟨f, rfl, rfl⟩ := Definition.isFunctionNamed_iff.mp hnamed
    obtain ⟨i, hi⟩ := List.mem_iff_getElem?.mp hd
    exact Option.some_ne_none _ (List.findSome?_eq_none_iff.mp h _ (hm.mem_defining hi))
  rw [function?_finish, hnone, Option.bind_none]

/-- The function that the index finds is the first of its name in the list. -/
private theorem Indexed.firstFunction?_eq_some (hm : m.Indexed) {name : Name} {i : Nat}
    {f : Function} (h : m.firstFunction? name = some (i, f)) :
    m.finish.function? name = some f ∧
      m.definitions.eraseIdx i = m.definitions.eraseP (Definition.isFunctionNamed name) := by
  have hfirst := hm.findIdx?_eq h
  obtain ⟨x, hx, hpair⟩ := List.exists_of_findSome?_eq_some h
  obtain ⟨g, hg, heq⟩ := Option.map_eq_some_iff.mp hpair
  obtain ⟨rfl, rfl⟩ := Prod.mk.inj heq
  have hget : m.definitions[x.1]? = some x.2 := mem_of_mem_defining hx
  constructor
  · have hfind : m.definitions.find? (Definition.isFunctionNamed name) = some x.2 := by
      obtain ⟨hlt, hnamed, hbefore⟩ := List.findIdx?_eq_some_iff_getElem.mp hfirst
      have hx2 : m.definitions[x.1] = x.2 := (List.getElem?_eq_some_iff.mp hget).2
      refine List.find?_eq_some_iff_getElem.mpr ⟨hx2 ▸ hnamed, x.1, hlt, hx2, fun j hj => ?_⟩
      simpa using hbefore j hj
    rw [function?_finish, hfind, Option.bind_some, hg]
  · rw [List.eraseP_eq_eraseIdx, hfirst]

/-- A draft has the function of a name exactly when its list does. -/
private theorem Indexed.function?_eq (hm : m.Indexed) (name : Name) :
    m.function? name = m.finish.function? name := by
  have hsnd : m.function? name = (m.firstFunction? name).map Prod.snd := by
    rw [firstFunction?, List.map_findSome?]
    refine congrArg (List.findSome? · _) (funext fun x => ?_)
    simp [Function.comp_def]
  rw [hsnd]
  cases hfirst : m.firstFunction? name with
  | none => exact (hm.firstFunction?_eq_none hfirst).symm
  | some x => exact (hm.firstFunction?_eq_some hfirst).1.symm

/-- A function is removed as by a search through the list, or is missing from both. -/
private theorem Scanned.removeFunction (hm : m.Scanned) (name : Name) :
    (m.removeFunction name = .error (.unknownFunction name) m ∧
      m.finish.removeFunction name = .error (.unknownFunction name) m.finish) ∨
    ∃ f rest, m.removeFunction name = .ok f rest ∧
      m.finish.removeFunction name = .ok f rest.finish ∧ rest.Scanned := by
  rw [removeFunction_eq, Module.removeFunction]
  cases hfirst : m.firstFunction? name with
  | none =>
    rw [hm.toIndexed.firstFunction?_eq_none hfirst]
    exact .inl ⟨rfl, rfl⟩
  | some x =>
    obtain ⟨i, f⟩ := x
    obtain ⟨hfunction, herase⟩ := hm.toIndexed.firstFunction?_eq_some hfirst
    rw [hfunction]
    refine .inr ⟨f, _, rfl, ?_, hm.toIndexed.eraseIdx i, fun entry hentry => ?_, ?_⟩
    · rw [finish, finish, ← herase]
    · simpa using (List.mem_filter.mp hentry).2
    · exact hm.distinct.sublist (List.eraseIdx_sublist _ _)

/-- A removal that fails leaves the draft as it was. -/
private theorem Scanned.of_removeFunction_error (hm : m.Scanned) {name : Name}
    {error : CompileError} {left : ModuleDraft} (h : m.removeFunction name = .error error left) :
    left = m ∧ error = .unknownFunction name := by
  rcases hm.removeFunction name with ⟨hdraft, -⟩ | ⟨f, rest, hdraft, -⟩
  · rw [hdraft] at h
    cases h
    exact ⟨rfl, rfl⟩
  · rw [hdraft] at h
    cases h

/-- **One change**: the draft replies as the list does, and stays in step with it. -/
theorem Scanned.change (hm : m.Scanned) (c : ModuleChange) :
    (m.change c).1 = (m.finish.change c).1 ∧ (m.change c).2.finish = (m.finish.change c).2 ∧
      (m.change c).2.Scanned := by
  cases c with
  | add d =>
    obtain ⟨hreply, hfinish⟩ := hm.toIndexed.add_eq d
    exact ⟨congrArg ModuleReply.added hreply, hfinish, hm.add d⟩
  | removeFunction name =>
    rw [ModuleDraft.change, Module.change]
    rcases hm.removeFunction name with ⟨hdraft, hlist⟩ | ⟨f, rest, hdraft, hlist, hrest⟩
    · rw [hdraft, hlist]
      exact ⟨rfl, rfl, hm⟩
    · rw [hdraft, hlist]
      exact ⟨rfl, rfl, hrest⟩

/-- **A run of changes to a draft replies as the list does and finishes to it.** -/
private theorem Scanned.changes (hm : m.Scanned) (cs : List ModuleChange) :
    (m.changes cs).1 = (m.finish.changes cs).1 ∧
      (m.changes cs).2.finish = (m.finish.changes cs).2 ∧ (m.changes cs).2.Scanned := by
  induction cs generalizing m with
  | nil => exact ⟨rfl, rfl, hm⟩
  | cons c cs ih =>
    obtain ⟨hreply, hfinish, hnext⟩ := hm.change c
    obtain ⟨hreplies, hfinal, hlast⟩ := ih hnext
    rw [hfinish] at hreplies hfinal
    rw [ModuleDraft.changes, Module.changes]
    exact ⟨List.cons_eq_cons.mpr ⟨hreply, hreplies⟩, hfinal, hlast⟩

end ModuleDraft

/-- **Drafts refine a linear scan**. Any changes to an empty draft and to an empty list get the same
replies and end in the same definitions, in the same order; every question about these has the same
answer; a removal that is refused leaves the draft as it was, index and all; and the index is
exact. -/
theorem draft_refines_scan (moduleName : String) (changes : List ModuleChange) :
    ((ModuleDraft.empty moduleName).changes changes).1 =
        (Module.changes ⟨moduleName, []⟩ changes).1 ∧
      ((ModuleDraft.empty moduleName).changes changes).2.finish =
        (Module.changes ⟨moduleName, []⟩ changes).2 ∧
      (∀ d, ((ModuleDraft.empty moduleName).changes changes).2.contains d =
        (Module.changes ⟨moduleName, []⟩ changes).2.contains d) ∧
      (∀ name, ((ModuleDraft.empty moduleName).changes changes).2.function? name =
        (Module.changes ⟨moduleName, []⟩ changes).2.function? name) ∧
      (∀ name error left, ((ModuleDraft.empty moduleName).changes changes).2.removeFunction name =
        .error error left → left = ((ModuleDraft.empty moduleName).changes changes).2 ∧
          error = .unknownFunction name) ∧
      ((ModuleDraft.empty moduleName).changes changes).2.WellIndexed := by
  obtain ⟨hreplies, hfinish, hscanned⟩ :=
    (ModuleDraft.scanned_empty moduleName).changes changes
  change _ = (Module.changes ⟨moduleName, []⟩ changes).1 at hreplies
  change _ = (Module.changes ⟨moduleName, []⟩ changes).2 at hfinish
  refine ⟨hreplies, hfinish, fun d => ?_, fun name => ?_,
    fun name error left => hscanned.of_removeFunction_error, hscanned.wellIndexed⟩
  · rw [hscanned.toIndexed.contains_eq, hfinish]
  · rw [hscanned.toIndexed.function?_eq, hfinish]

end WordScheme
