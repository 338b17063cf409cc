import Mathlib
import WordScheme.Ir.ModuleDraft
import WordScheme.Proofs.FunctionRun

/-!
# The index of a module draft

A draft finds the definitions of a name by its index. `ModuleDraft.Indexed` says that the index is
right: it lists for each name the positions of its definitions, ascending. Every operation keeps it
so, and on indexed drafts the operations are those of the plain list of definitions:

* `contains_iff`: an equal definition is there exactly if one stands in the list;
* `dropFunction_definitions`: the first function of a name goes, as by a search from the front.

Code may hold a NaN, which equals nothing, so an equal definition is only known to be the same one
where neither has code: `Definition.isPlain`.
-/

namespace WordScheme

/-! ### Definitions without code -/

namespace Definition

/-- A definition that holds no code. -/
def isPlain : Definition → Bool
  | .function f => f.isPlaceholder
  | _ => true

/-- Two functions that compare equal, the second of them without code, are the same. -/
private theorem function_eq_of_beq {f g : Function} (hg : g.isPlaceholder = true)
    (h : (f == g) = true) : f = g := by
  obtain ⟨name, result, params, blocks⟩ := f
  obtain ⟨name', result', params', blocks'⟩ := g
  obtain rfl : blocks' = [] := List.isEmpty_iff.mp hg
  change (name == name' && (result == result' && (params == params' && blocks == []))) = true at h
  simp only [Bool.and_eq_true, beq_iff_eq] at h
  obtain ⟨rfl, rfl, rfl, hblocks⟩ := h
  cases blocks with
  | nil => rfl
  | cons b bs => cases hblocks

/-- A definition that equals one without code is that one. -/
private theorem eq_of_beq {d e : Definition} (he : e.isPlain = true) (h : (d == e) = true) :
    d = e := by
  change instBEqDefinition.beq d e = true at h
  cases e with
  | function g =>
    cases d with
    | function f => exact congrArg Definition.function (function_eq_of_beq he h)
    | _ => cases h
  | _ => cases d <;> simp_all [instBEqDefinition.beq]

/-- A definition without code equals itself. -/
theorem beq_self {d : Definition} (hd : d.isPlain = true) : (d == d) = true := by
  change instBEqDefinition.beq d d = true
  cases d with
  | function f =>
    have hf : f.blocks = [] := List.isEmpty_iff.mp hd
    change (f.name == f.name && (f.result == f.result && (f.params == f.params &&
      f.blocks == f.blocks))) = true
    simp [hf]
  | _ => simp [instBEqDefinition.beq]

/-- Equal definitions define the same name. -/
theorem name_eq_of_beq {d e : Definition} (h : (d == e) = true) : d.name = e.name := by
  cases d with
  | function f =>
    cases e with
    | function g =>
      change (f.name == g.name && _) = true at h
      rw [Bool.and_eq_true, beq_iff_eq] at h
      exact h.1
    | _ => cases h
  | _ =>
    cases e with
    | function g => cases h
    | _ => exact congrArg name (eq_of_beq rfl h)

/-- The function of a definition has its name. -/
private theorem name_of_function? {d : Definition} {f : Function} (h : d.function? = some f) :
    f.name = d.name := by
  cases d with
  | function g => exact congrArg Function.name (Option.some.inj h).symm
  | _ => cases h

/-- The function of a name. -/
def isFunctionNamed (name : Name) (d : Definition) : Bool :=
  d.function?.any fun f => f.name == name

/-- A definition is the function of a name exactly when it is a function with that name. -/
theorem isFunctionNamed_iff {name : Name} {d : Definition} :
    d.isFunctionNamed name = true ↔ ∃ f, d = .function f ∧ f.name = name := by
  cases d <;> simp [isFunctionNamed, function?]

end Definition

/-! ### Positions -/

namespace NameIndex

private theorem positions_cons (key : Name) (found : List Nat) (index : NameIndex) (name : Name) :
    positions ((key, found) :: index) name =
      if key = name then found else index.positions name := by
  rw [positions, Assoc.get?]
  split <;> rfl

/-- A name that is no key has no positions. -/
private theorem positions_of_notMem {index : NameIndex} {name : Name}
    (h : name ∉ index.map Prod.fst) : index.positions name = [] := by
  cases hget : Assoc.get? index name with
  | none => rw [positions, hget, Option.getD_none]
  | some value => exact absurd (List.mem_map_of_mem (Assoc.mem_of_get? hget)) h

/-- A name that has no position left has no entry left. -/
private theorem erase_cons (key : Name) (found : List Nat) (index : NameIndex) (removed : Nat) :
    erase ((key, found) :: index) removed =
      if (found.filter (· != removed)).map (shift removed) = [] then NameIndex.erase index removed
      else (key, (found.filter (· != removed)).map (shift removed)) ::
        NameIndex.erase index removed := by
  rw [erase, List.map_cons, List.filter_cons, erase]
  by_cases hempty : (found.filter (· != removed)).map (shift removed) = []
  · rw [if_pos hempty, if_neg]
    simpa using hempty
  · rw [if_neg hempty, if_pos]
    simpa using hempty

/-- The positions that are left once one has gone. -/
private theorem positions_erase {index : NameIndex} (h : (index.map Prod.fst).Nodup) (removed : Nat)
    (name : Name) : (index.erase removed).positions name =
      ((index.positions name).filter (· != removed)).map (shift removed) := by
  induction index with
  | nil => rfl
  | cons entry index ih =>
    obtain ⟨key, found⟩ := entry
    obtain ⟨hkey, hrest⟩ := List.nodup_cons.mp h
    rw [positions_cons, erase_cons]
    split
    · next hempty =>
      rw [ih hrest]
      split
      · next hname =>
        -- the name has no other entry
        rw [hempty, positions_of_notMem (hname ▸ hkey)]
        rfl
      · rfl
    · rw [positions_cons]
      split
      · rfl
      · exact ih hrest

/-- Removing a position keeps the keys distinct. -/
private theorem nodup_keys_erase {index : NameIndex} (h : (index.map Prod.fst).Nodup)
    (removed : Nat) : ((index.erase removed).map Prod.fst).Nodup := by
  refine List.Sublist.nodup (List.Sublist.map Prod.fst List.filter_sublist) ?_
  rwa [List.map_map]

/-- A new position comes behind the others of its name. -/
private theorem positions_insert_self (index : NameIndex) (name : Name) (position : Nat) :
    (index.insert name position).positions name = index.positions name ++ [position] := by
  rw [positions, insert, Assoc.get?_put_self]
  rfl

/-- A new position leaves the other names alone. -/
private theorem positions_insert_of_ne (index : NameIndex) {name other : Name} (position : Nat)
    (h : other ≠ name) : (index.insert name position).positions other = index.positions other := by
  rw [positions, insert, Assoc.get?_put_of_ne _ _ h]
  rfl

private theorem mem_positions_insert {index : NameIndex} {name other : Name} {position i : Nat} :
    i ∈ (index.insert name position).positions other ↔
      i ∈ index.positions other ∨ (i = position ∧ name = other) := by
  by_cases h : other = name
  · subst h
    rw [positions_insert_self, List.mem_append, List.mem_singleton, and_iff_left rfl]
  · rw [positions_insert_of_ne _ _ h]
    exact (or_iff_left fun hi => h hi.2.symm).symm

end NameIndex

namespace ModuleDraft

open NameIndex

variable {m : ModuleDraft}

/-- The index lists for each name the positions of its definitions, ascending. -/
structure Indexed (m : ModuleDraft) : Prop where
  keys : (m.index.map Prod.fst).Nodup
  ascending : ∀ name, (m.index.positions name).Pairwise (· < ·)
  positions : ∀ name i, i ∈ m.index.positions name ↔
    ∃ d, m.definitions[i]? = some d ∧ d.name = name

theorem indexed_empty (name : String) : (empty name).Indexed where
  keys := List.nodup_nil
  ascending := fun _ => List.Pairwise.nil
  positions := by
    intro name i
    simp [empty, NameIndex.positions, Assoc.get?]

/-! ### Additions -/

/-- What the index finds is in the list. -/
theorem mem_of_mem_defining {name : Name} {x : Nat × Definition} (h : x ∈ m.defining name) :
    m.definitions[x.1]? = some x.2 := by
  obtain ⟨i, -, hi⟩ := List.mem_filterMap.mp h
  obtain ⟨d, hd, rfl⟩ := Option.map_eq_some_iff.mp hi
  exact hd

/-- A definition that compares equal to one that is there stands in the list. -/
theorem exists_beq_of_contains {d : Definition} (h : m.contains d = true) :
    ∃ e ∈ m.definitions, (e == d) = true := by
  obtain ⟨x, hx, heq⟩ := List.any_eq_true.mp h
  exact ⟨x.2, List.mem_of_getElem? (mem_of_mem_defining hx), heq⟩

/-- An equal definition is there exactly when one stands in the list. -/
theorem contains_iff (hm : m.Indexed) {d : Definition} :
    m.contains d = true ↔ ∃ e ∈ m.definitions, (e == d) = true := by
  refine ⟨exists_beq_of_contains, ?_⟩
  rintro ⟨e, he, heq⟩
  obtain ⟨i, hi⟩ := List.mem_iff_getElem?.mp he
  refine List.any_eq_true.mpr ⟨(i, e), List.mem_filterMap.mpr ⟨i, ?_, ?_⟩, heq⟩
  · exact (hm.positions _ i).mpr ⟨e, hi, Definition.name_eq_of_beq heq⟩
  · rw [hi]
    rfl

/-- Adding a definition changes nothing, or puts it behind the others. -/
theorem ensure_definitions (m : ModuleDraft) (d : Definition) :
    (m.ensure d).definitions =
      if m.contains d then m.definitions else m.definitions ++ [d] := by
  rw [ensure, add]
  split <;> rfl

/-- A definition without code that is not there is put behind the others. -/
theorem ensure_of_notMem {d : Definition} (hplain : d.isPlain = true) (hd : d ∉ m.definitions) :
    (m.ensure d).definitions = m.definitions ++ [d] := by
  rw [ensure_definitions, if_neg]
  intro hcontains
  obtain ⟨e, he, heq⟩ := exists_beq_of_contains hcontains
  exact hd (Definition.eq_of_beq hplain heq ▸ he)

/-- A definition is added behind those that are there. -/
theorem prefix_ensure (m : ModuleDraft) (d : Definition) :
    m.definitions <+: (m.ensure d).definitions := by
  rw [ensure_definitions]
  split
  · exact List.prefix_rfl
  · exact List.prefix_append _ _

/-- A definition that is there was there before, or it is the new one. -/
theorem mem_or_eq_of_mem_ensure {d e : Definition} (h : e ∈ (m.ensure d).definitions) :
    e ∈ m.definitions ∨ e = d := by
  rw [ensure_definitions] at h
  split at h
  · exact .inl h
  · exact (List.mem_append.mp h).imp_right List.mem_singleton.mp

/-- A definition without code is there once it has been added. -/
theorem mem_ensure {d : Definition} (hd : d.isPlain = true) : d ∈ (m.ensure d).definitions := by
  rw [ensure_definitions]
  split
  · next hcontains =>
    obtain ⟨e, he, heq⟩ := exists_beq_of_contains hcontains
    exact Definition.eq_of_beq hd heq ▸ he
  · exact List.mem_append_right _ (List.mem_singleton_self d)

/-- What stands in a list with a definition put behind it. -/
private theorem exists_getElem?_concat {ds : List Definition} {d : Definition} {i : Nat}
    {name : Name} : (∃ e, (ds ++ [d])[i]? = some e ∧ e.name = name) ↔
      (∃ e, ds[i]? = some e ∧ e.name = name) ∨ (i = ds.length ∧ d.name = name) := by
  rcases Nat.lt_trichotomy i ds.length with hi | rfl | hi
  · rw [List.getElem?_append_left hi]
    exact (or_iff_left fun h => Nat.ne_of_lt hi h.1).symm
  · simp
  · have hnone : (ds ++ [d])[i]? = none := List.getElem?_eq_none (by simpa using hi)
    rw [hnone, List.getElem?_eq_none hi.le]
    simp [Nat.ne_of_gt hi]

/-- The draft with a definition put behind the others. -/
theorem Indexed.concat (hm : m.Indexed) (d : Definition) :
    Indexed { m with
      definitions := m.definitions ++ [d]
      index := m.index.insert d.name m.definitions.length } where
  keys := Assoc.nodup_keys_put hm.keys _ _
  ascending := by
    intro name
    change (NameIndex.positions (m.index.insert d.name m.definitions.length) name).Pairwise _
    by_cases hname : name = d.name
    · rw [hname, positions_insert_self, List.pairwise_append]
      refine ⟨hm.ascending _, List.pairwise_singleton _ _, fun i hi j hj => ?_⟩
      obtain ⟨e, he, -⟩ := (hm.positions _ i).mp hi
      rw [List.mem_singleton.mp hj]
      exact (List.getElem?_eq_some_iff.mp he).1
    · rw [positions_insert_of_ne _ _ hname]
      exact hm.ascending name
  positions := by
    intro name i
    change i ∈ NameIndex.positions (m.index.insert d.name m.definitions.length) name ↔ _
    rw [mem_positions_insert, hm.positions, exists_getElem?_concat]

/-- A draft with a definition added is indexed. -/
theorem Indexed.ensure (hm : m.Indexed) (d : Definition) : (m.ensure d).Indexed := by
  rw [ModuleDraft.ensure, add]
  split
  · exact hm
  · exact hm.concat d

/-! ### Removals -/

/-- Positions keep their order as one is removed. -/
private theorem shift_lt_shift {removed i j : Nat} (hi : i ≠ removed) (hj : j ≠ removed)
    (h : i < j) : shift removed i < shift removed j := by
  rw [shift, shift]
  split <;> split <;> omega

/-- The draft without the definition at a position. -/
theorem Indexed.eraseIdx (hm : m.Indexed) (removed : Nat) :
    Indexed { m with
      definitions := m.definitions.eraseIdx removed
      index := m.index.erase removed } := by
  refine ⟨nodup_keys_erase hm.keys removed, fun name => ?_, fun name i => ?_⟩
  · change (NameIndex.positions (m.index.erase removed) name).Pairwise _
    rw [positions_erase hm.keys, List.pairwise_map]
    refine ((hm.ascending name).filter _).imp_of_mem fun {i j} hi hj hij => ?_
    rw [List.mem_filter, bne_iff_ne] at hi hj
    exact shift_lt_shift hi.2 hj.2 hij
  · change i ∈ NameIndex.positions (m.index.erase removed) name ↔ _
    rw [positions_erase hm.keys, List.mem_map]
    simp only [List.mem_filter, bne_iff_ne, hm.positions, List.getElem?_eraseIdx]
    constructor
    · rintro ⟨j, ⟨⟨d, hd, hname⟩, hj⟩, rfl⟩
      refine ⟨d, ?_, hname⟩
      rw [shift]
      split
      · next hlt =>
        rw [if_neg (by omega), Nat.sub_add_cancel (by omega)]
        exact hd
      · rw [if_pos (by omega)]
        exact hd
    · rintro ⟨d, hd, hname⟩
      split at hd
      · next hlt =>
        refine ⟨i, ⟨⟨d, hd, hname⟩, by omega⟩, ?_⟩
        rw [shift, if_neg (by omega)]
      · next hge =>
        refine ⟨i + 1, ⟨⟨d, hd, hname⟩, by omega⟩, ?_⟩
        rw [shift, if_pos (by omega), Nat.add_sub_cancel]

/-- The positions of a name come in order. -/
private theorem Indexed.pairwise_defining (hm : m.Indexed) (name : Name) :
    (m.defining name).Pairwise fun x y => x.1 < y.1 := by
  refine List.pairwise_filterMap.mpr ((hm.ascending name).imp ?_)
  intro i j hij x hx y hy
  obtain ⟨d, -, rfl⟩ := Option.map_eq_some_iff.mp hx
  obtain ⟨e, -, rfl⟩ := Option.map_eq_some_iff.mp hy
  exact hij

/-- What is in the list is found by the index. -/
theorem Indexed.mem_defining (hm : m.Indexed) {i : Nat} {d : Definition}
    (h : m.definitions[i]? = some d) : (i, d) ∈ m.defining d.name := by
  refine List.mem_filterMap.mpr ⟨i, (hm.positions _ i).mpr ⟨d, h, rfl⟩, ?_⟩
  rw [h]
  rfl

/-- What the index finds for a name has that name. -/
private theorem Indexed.name_of_mem_defining (hm : m.Indexed) {name : Name} {x : Nat × Definition}
    (h : x ∈ m.defining name) : x.2.name = name := by
  obtain ⟨i, hi, hx⟩ := List.mem_filterMap.mp h
  obtain ⟨d, hd, rfl⟩ := Option.map_eq_some_iff.mp hx
  obtain ⟨e, he, hname⟩ := (hm.positions name i).mp hi
  rw [hd] at he
  exact Option.some.inj he ▸ hname

/-- A function of the name is found by the index. -/
private theorem Indexed.mem_defining_function (hm : m.Indexed) {name : Name} {i : Nat}
    {d : Definition} (h : m.definitions[i]? = some d) (hd : d.isFunctionNamed name = true) :
    (i, d) ∈ m.defining name ∧ (d.function?.map fun f => (i, f)) ≠ none := by
  obtain ⟨f, rfl, rfl⟩ := Definition.isFunctionNamed_iff.mp hd
  exact ⟨hm.mem_defining h, nofun⟩

/-- What the index finds first is the first function of the name. -/
theorem Indexed.findIdx?_eq (hm : m.Indexed) {name : Name} {i : Nat} {f : Function}
    (h : (m.defining name).findSome? (fun x => x.2.function?.map fun f => (x.1, f)) =
      some (i, f)) :
    m.definitions.findIdx? (Definition.isFunctionNamed name) = some i := by
  obtain ⟨before, x, after, hsplit, hx, hnone⟩ := List.findSome?_eq_some_iff.mp h
  obtain ⟨g, hfunction, hpair⟩ := Option.map_eq_some_iff.mp hx
  obtain ⟨rfl, rfl⟩ := Prod.mk.inj hpair
  have hmem : x ∈ m.defining name := hsplit ▸ List.mem_append_right _ List.mem_cons_self
  obtain ⟨hlt, hget⟩ := List.getElem?_eq_some_iff.mp (mem_of_mem_defining hmem)
  refine List.findIdx?_eq_some_iff_getElem.mpr ⟨hlt, ?_, fun j hj hnamed => ?_⟩
  · rw [hget, Definition.isFunctionNamed, hfunction]
    exact beq_iff_eq.mpr ((Definition.name_of_function? hfunction).trans
      (hm.name_of_mem_defining hmem))
  · -- an earlier function of the name would stand before the one that was found
    have hj' : m.definitions[j]? = some m.definitions[j] := List.getElem?_eq_getElem _
    obtain ⟨hmem', hsome⟩ := hm.mem_defining_function hj' hnamed
    have hpairwise := hm.pairwise_defining name
    rw [hsplit] at hmem' hpairwise
    obtain ⟨-, hpairwise, -⟩ := List.pairwise_append.mp hpairwise
    rcases List.mem_append.mp hmem' with hbefore | hafter
    · exact hsome (hnone _ hbefore)
    · rcases List.mem_cons.mp hafter with heq | hafter
      · exact absurd (congrArg Prod.fst heq) (Nat.ne_of_lt hj)
      · exact absurd ((List.pairwise_cons.mp hpairwise).1 _ hafter) (Nat.not_lt.mpr hj.le)

/-- **The first function of a name goes**, as by a search through the list from the front. -/
theorem dropFunction_definitions (hm : m.Indexed) (name : Name) :
    (m.dropFunction name).definitions =
      m.definitions.eraseP (Definition.isFunctionNamed name) := by
  rw [dropFunction, removeFunction]
  cases hfound : (m.defining name).findSome? fun x => x.2.function?.map fun f => (x.1, f) with
  | none =>
    rw [List.eraseP_of_forall_not]
    intro d hd hnamed
    obtain ⟨i, hi⟩ := List.mem_iff_getElem?.mp hd
    obtain ⟨hmem, hsome⟩ := hm.mem_defining_function hi hnamed
    exact hsome (List.findSome?_eq_none_iff.mp hfound _ hmem)
  | some x => rw [List.eraseP_eq_eraseIdx, hm.findIdx?_eq hfound]

/-- A draft that lost a function is indexed. -/
theorem Indexed.dropFunction (hm : m.Indexed) (name : Name) : (m.dropFunction name).Indexed := by
  rw [ModuleDraft.dropFunction, removeFunction]
  cases (m.defining name).findSome? fun x => x.2.function?.map fun f => (x.1, f) with
  | none => exact hm
  | some x => exact hm.eraseIdx x.1

end ModuleDraft

end WordScheme
