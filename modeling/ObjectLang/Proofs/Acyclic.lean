import ObjectLang.Proofs.Classes
import ObjectLang.Proofs.Subtyping
import Mathlib.Data.List.Chain

/-!
# Hierarchies without cycles

Nothing checks that classes do not extend each other in a circle.  That they do not follows from two
other rules: a superclass has to be known where a class extends it, and no two classes have the same
name.  So from a class of a program without naming errors one comes to classes that are declared
earlier and earlier, until one extends no other (`Program.exists_climbs`).

What follows is true of any hierarchy in which the way up from each class ends
(`Hierarchy.Ascends`): no class is met twice on the way, since it would be met again and again, and
so there are at most as many steps as there are edges and the bounded walk is not cut short
(`Hierarchy.Ascends.ancestors_eq`), and of two different classes only one can inherit from the other
(`Hierarchy.inherits_antisymm`).
-/

namespace ObjectLang

namespace Hierarchy

variable {h : Hierarchy} {c d : String} {names names' : List String}

/-! ### The way up from a class -/

/-- The names lead from each class to its superclass, up to a class that has none. -/
structure Ascends (h : Hierarchy) (names : List String) : Prop where
  edges : names.IsChain fun cls superclass => h.parent? cls = some superclass
  top : ∀ last ∈ names.getLast?, h.parent? last = none

namespace Ascends

theorem single (hp : h.parent? c = none) : h.Ascends [c] :=
  ⟨.singleton c, by simpa using hp⟩

theorem suffix (before : List String) (ha : h.Ascends (before ++ c :: names)) :
    h.Ascends (c :: names) where
  edges := ha.edges.suffix (List.suffix_append _ _)
  top := by simpa using ha.top

theorem parent?_eq_head? (ha : h.Ascends (c :: names)) : h.parent? c = names.head? := by
  cases names with
  | nil => exact ha.top c rfl
  | cons d names => exact (List.isChain_cons_cons.1 ha.edges).1

/-- A walk that may be longer than the way up is the whole of it. -/
theorem walk_eq (ha : h.Ascends (c :: names)) {n : Nat} (hn : names.length < n) :
    h.walk n c = c :: names := by
  obtain ⟨n, rfl⟩ : ∃ k, n = k + 1 := ⟨n - 1, by omega⟩
  induction names generalizing c n with
  | nil => rw [walk, ha.parent?_eq_head?, List.head?_nil]
  | cons d names ih =>
    obtain ⟨k, rfl⟩ : ∃ k, n = k + 1 := ⟨n - 1, by simp at hn; omega⟩
    rw [walk, ha.parent?_eq_head?, List.head?_cons]
    exact congrArg (c :: ·) (ih (ha.suffix [c]) k (by simpa using hn))

/-- There is only one way up. -/
theorem unique (ha : h.Ascends (c :: names)) (ha' : h.Ascends (c :: names')) : names = names' := by
  have hwalk := ha.walk_eq (n := names.length + names'.length + 1) (by omega)
  rw [ha'.walk_eq (by omega)] at hwalk
  exact (List.cons.inj hwalk).2.symm

theorem nodup (ha : h.Ascends names) : names.Nodup := by
  induction names with
  | nil => exact List.nodup_nil
  | cons c names ih =>
    refine List.nodup_cons.2 ⟨fun hc => ?_, ?_⟩
    · -- the way up from the second occurrence would be a proper part of itself
      obtain ⟨before, after, rfl⟩ := List.append_of_mem hc
      have hlength := congrArg List.length (ha.unique (ha.suffix (c :: before)))
      simp only [List.length_append, List.length_cons] at hlength
      omega
    · cases names with
      | nil => exact List.nodup_nil
      | cons d names => exact ih (ha.suffix [c])

theorem above?_eq (ha : h.Ascends (c :: names)) (i : Nat) : h.above? i c = (c :: names)[i]? := by
  induction i generalizing c names with
  | zero => rfl
  | succ i ih =>
    rw [above?, ha.parent?_eq_head?, List.getElem?_cons_succ]
    cases names with
    | nil => rfl
    | cons d names => exact ih (ha.suffix [c])

/-- There are at least as many edges as the way up has. -/
theorem length_le (ha : h.Ascends (c :: names)) : names.length ≤ h.supers.size := by
  have hlast : names.length < (c :: names).length := by simp
  refine le_size_of_first ((ha.above?_eq _).trans (List.getElem?_eq_getElem hlast)) fun i hi => ?_
  rw [ha.above?_eq, ← List.getElem?_eq_getElem hlast]
  intro heq
  exact Nat.ne_of_lt hi ((List.getElem?_inj (by omega) ha.nodup).1 heq)

/-- **The bounded walk is not cut short where the way up ends.** -/
theorem ancestors_eq (ha : h.Ascends (c :: names)) : h.ancestors c = c :: names :=
  ha.walk_eq (Nat.lt_succ_of_le ha.length_le)

end Ascends

/-- Where every way up ends, no two classes inherit from each other. -/
theorem inherits_antisymm (hall : ∀ c, ∃ names, h.Ascends (c :: names))
    (hcd : h.inherits c d = true) (hdc : h.inherits d c = true) : c = d := by
  obtain ⟨names, ha⟩ := hall c
  rw [inherits, List.contains_iff_mem, ha.ancestors_eq, List.mem_cons] at hcd
  rcases hcd with rfl | hd
  · rfl
  · -- `d` is above `c`, so the way up from `d` is part of the one from `c`
    obtain ⟨before, after, rfl⟩ := List.append_of_mem hd
    have hup : h.Ascends (d :: after) := ha.suffix (c :: before)
    rw [inherits, List.contains_iff_mem, hup.ancestors_eq] at hdc
    exact absurd (List.mem_append_right before hdc) (List.nodup_cons.1 ha.nodup).1

end Hierarchy

/-! ### Programs -/

namespace Program

variable {p : Program}

/-- The classes lead from each class to the one that it extends, which is declared before it, up to
a class that extends no other. -/
structure Climbs (p : Program) (classes : List ClassDecl) : Prop where
  extend : classes.IsChain fun cls superclass =>
    cls.superclass = some superclass.name ∧ [superclass, cls].Sublist p.classes
  top : ∀ last ∈ classes.getLast?, last.superclass = none

theorem Climbs.subset {c : ClassDecl} {supers : List ClassDecl} (hc : p.Climbs (c :: supers))
    (hmem : c ∈ p.classes) : ∀ d ∈ c :: supers, d ∈ p.classes := by
  obtain ⟨hextend, -⟩ := hc
  induction supers generalizing c with
  | nil => simpa using hmem
  | cons d supers ih =>
    obtain ⟨⟨-, hbefore⟩, hextend⟩ := List.isChain_cons_cons.1 hextend
    exact List.forall_mem_cons.2 ⟨hmem, ih (hbefore.subset (by simp)) hextend⟩

section

variable (hn : p.nameErrors = [])
include hn

/-- Superclasses are declared earlier and earlier, so going from one to the next comes to an end. -/
theorem exists_climbs {c : ClassDecl} (hc : c ∈ p.classes) :
    ∃ supers, p.Climbs (c :: supers) := by
  have hall : ∀ st ∈ p.stages, ∃ supers, p.Climbs (st.cls :: supers) := by
    refine stages_induction fun earlier st later hsplit ih => ?_
    cases hd : st.cls.superclass with
    | none => exact ⟨[], .singleton _, by simpa using hd⟩
    | some d =>
      obtain ⟨sup, hsup, rfl, -⟩ := superclass_stage hn hsplit hd
      obtain ⟨supers, hsupers⟩ := ih sup hsup
      have hbefore : [sup.cls, st.cls].Sublist p.classes := by
        rw [classes_split hsplit]
        exact (List.singleton_sublist.2 (List.mem_map_of_mem hsup)).append
          (List.singleton_sublist.2 List.mem_cons_self)
      refine ⟨sup.cls :: supers, List.isChain_cons_cons.2 ⟨⟨hd, hbefore⟩, hsupers.extend⟩, ?_⟩
      rw [List.getLast?_cons_cons]
      exact hsupers.top
  rw [← map_cls_stages .start p.classes] at hc
  obtain ⟨st, hst, rfl⟩ := List.mem_map.1 hc
  exact hall st hst

/-- The hierarchy has the edge of each class that extends another, and no edge from the others. -/
theorem parent?_eq_superclass {c : ClassDecl} (hc : c ∈ p.classes) :
    p.bind.hierarchy.parent? c.name = c.superclass := by
  rw [← map_cls_stages .start p.classes] at hc
  obtain ⟨st, hst, rfl⟩ := List.mem_map.1 hc
  obtain ⟨earlier, later, hsplit⟩ := List.append_of_mem hst
  cases hd : st.cls.superclass with
  | some d => exact parent_stage hn hsplit hd
  | none =>
    by_contra hne
    obtain ⟨d, hp⟩ := Option.ne_none_iff_exists'.1 hne
    obtain ⟨_, other, _, hsplit', hname, hsuper⟩ := exists_stage_of_parent? hp
    have heq : other = st :=
      List.inj_on_of_nodup_map (follows_stages hn).names (mem_stages hsplit') hst hname
    rw [heq, hd] at hsuper
    cases hsuper

theorem Climbs.ascends {c : ClassDecl} {supers : List ClassDecl} (hc : p.Climbs (c :: supers))
    (hmem : c ∈ p.classes) : p.bind.hierarchy.Ascends ((c :: supers).map (·.name)) where
  edges := by
    rw [List.isChain_map]
    refine hc.extend.imp fun cls superclass hcls => ?_
    rw [parent?_eq_superclass hn (hcls.2.subset (by simp))]
    exact hcls.1
  top := by
    intro last hlast
    rw [List.getLast?_map] at hlast
    obtain ⟨d, hd, rfl⟩ := Option.map_eq_some_iff.1 hlast
    rw [parent?_eq_superclass hn (hc.subset hmem d (List.mem_of_mem_getLast? hd))]
    exact hc.top d hd

/-- The way up ends from every name, whether or not it is that of a class. -/
theorem exists_ascends (cls : String) :
    ∃ names, p.bind.hierarchy.Ascends (cls :: names) := by
  cases hp : p.bind.hierarchy.parent? cls with
  | none => exact ⟨[], .single hp⟩
  | some d =>
    obtain ⟨_, st, _, hsplit, rfl, -⟩ := exists_stage_of_parent? hp
    have hmem := mem_classes (mem_stages hsplit)
    obtain ⟨supers, hc⟩ := exists_climbs hn hmem
    exact ⟨_, hc.ascends hn hmem⟩

end

/-- **The hierarchy of a program without naming errors has no cycles.**  The ancestors of a class
are the class and the classes that one comes to by going from each to the one it extends, up to a
class that extends no other.  Each of them is declared before the one that extends it and none is
met twice, and a walk with a higher bound would not find more.  Of two names each of which inherits
from the other both are the same. -/
theorem ancestors_of_nameErrors {p : Program} (hn : p.nameErrors = []) :
    (∀ c ∈ p.classes, ∃ supers, p.Climbs (c :: supers) ∧
      p.bind.hierarchy.ancestors c.name = (c :: supers).map (·.name) ∧
      (p.bind.hierarchy.ancestors c.name).Nodup ∧
      ∀ n > p.bind.hierarchy.supers.size,
        p.bind.hierarchy.walk n c.name = p.bind.hierarchy.ancestors c.name) ∧
    ∀ a b, p.bind.hierarchy.inherits a b = true → p.bind.hierarchy.inherits b a = true → a = b := by
  refine ⟨fun c hmem => ?_, fun a b => Hierarchy.inherits_antisymm (exists_ascends hn)⟩
  obtain ⟨supers, hc⟩ := exists_climbs hn hmem
  have ha := hc.ascends hn hmem
  refine ⟨supers, hc, ha.ancestors_eq, ?_, fun n hlt => ?_⟩
  · rw [ha.ancestors_eq]
    exact ha.nodup
  · rw [ha.ancestors_eq]
    exact ha.walk_eq (Nat.lt_of_le_of_lt ha.length_le hlt)

/-- Two ways down from one class, declared in turns. -/
def branches : Program :=
  .letIn
    [{ name := "Shape", fields := [], methods := [] },
     { name := "Solid", superclass := some "Shape", fields := [], methods := [] },
     { name := "Plane", superclass := some "Shape", fields := [], methods := [] },
     { name := "Cube", superclass := some "Solid", fields := [], methods := [] },
     { name := "Square", superclass := some "Plane", fields := [], methods := [] },
     { name := "Die", superclass := some "Cube", fields := [], methods := [] }]
    [] (.int 0 0)

theorem ancestors_of_nameErrors_branches :
    branches.nameErrors = [] ∧
      (∃ c supers, branches.classes[5]? = some c ∧ branches.Climbs (c :: supers) ∧
        (c :: supers).map (·.name) = ["Die", "Cube", "Solid", "Shape"]) ∧
      (branches.bind.hierarchy.inherits "Die" "Shape" = true ∧
        branches.bind.hierarchy.inherits "Shape" "Die" = false) := by
  obtain ⟨supers, hc, hancestors, -⟩ := (ancestors_of_nameErrors (p := branches) rfl).1 _
    (List.mem_of_getElem? (i := 5) rfl)
  exact ⟨rfl, ⟨_, supers, rfl, hc, hancestors.symm⟩, rfl, rfl⟩

end Program

end ObjectLang
