import ObjectLang.Proofs.Layout
import ObjectLang.Proofs.Reference
import ObjectLang.Typing.Program

/-!
# Superclasses in a list of classes

Where classes have different names and come after their superclasses, the lineage of a class is the
class followed by the lineage of its superclass (`lineage_eq_cons`), and the hierarchy has exactly
the edges of the classes (`parent?_foldl`, `exists_of_parent?_foldl`).
-/

namespace ObjectLang

/-- Among things with different names each is found by its name. -/
theorem find?_name_of_mem {α : Type} {name : α → String} {as : List α}
    (hn : (as.map name).Nodup) {a : α} (h : a ∈ as) :
    as.find? (name · = name a) = some a := by
  induction as with
  | nil => cases h
  | cons b as ih =>
    rw [List.map_cons, List.nodup_cons] at hn
    rcases List.mem_cons.1 h with rfl | h
    · simp
    · have hne : name b ≠ name a := fun heq => hn.1 (heq ▸ List.mem_map_of_mem h)
      rw [List.find?_cons_of_neg (by simpa using hne)]
      exact ih hn.2 h

/-! ### Lineages -/

theorem lineage_append_of_notMem {as bs : List ClassDecl} {name : String}
    (h : name ∉ as.map (·.name)) : lineage (as ++ bs) name = lineage bs name := by
  induction as with
  | nil => rfl
  | cons a as ih =>
    simp only [List.map_cons, List.mem_cons, not_or] at h
    rw [List.cons_append, lineage, if_neg (Ne.symm h.1), ih h.2]

/-- The lineage of a class goes on with that of its superclass. -/
theorem lineage_eq_cons {classes before after : List ClassDecl} {c : ClassDecl}
    (hsplit : classes = before ++ c :: after) (hnames : (classes.map (·.name)).Nodup)
    (hsuper : ∀ d, c.superclass = some d → d ∈ before.map (·.name)) :
    lineage classes.reverse c.name =
      c :: c.superclass.elim [] (lineage classes.reverse) := by
  subst hsplit
  simp only [List.map_append, List.map_cons, List.nodup_append, List.nodup_cons] at hnames
  obtain ⟨-, ⟨hc, -⟩, hbefore⟩ := hnames
  have hrev : (before ++ c :: after).reverse = after.reverse ++ c :: before.reverse := by simp
  -- a class before `c` is looked for only there
  have hskip : ∀ d ∈ before.map (·.name),
      lineage (after.reverse ++ c :: before.reverse) d = lineage before.reverse d := by
    intro d hd
    have hne := hbefore d hd
    rw [lineage_append_of_notMem, lineage, if_neg fun h => hne c.name (by simp) h.symm]
    intro hmem
    have hmem' : d ∈ after.map (·.name) := by simpa using hmem
    exact hne d (List.mem_cons_of_mem _ hmem') rfl
  rw [hrev, lineage_append_of_notMem (by simpa using hc), lineage, if_pos rfl]
  cases hs : c.superclass with
  | none => rfl
  | some d => rw [Option.elim_some, Option.elim_some, hskip d (hsuper d hs)]

theorem ClassDecl.ownMethod?_eq_none {c : ClassDecl} {name : String} :
    c.ownMethod? name = none ↔ name ∉ c.methods.map (·.name) := by
  rw [ClassDecl.ownMethod?, List.find?_eq_none]
  simp

theorem nearestMethod?_cons (c : ClassDecl) (cs : List ClassDecl) (method : String) :
    nearestMethod? (c :: cs) method = (c.ownMethod? method).or (nearestMethod? cs method) := by
  rw [nearestMethod?, List.findSome?_cons]
  cases c.ownMethod? method <;> rfl

theorem nearestMethod?_append (as bs : List ClassDecl) (method : String) :
    nearestMethod? (as ++ bs) method = (nearestMethod? as method).or (nearestMethod? bs method) :=
  List.findSome?_append

theorem mem_of_mem_lineage {classes : List ClassDecl} {cls : String} {c : ClassDecl}
    (h : c ∈ lineage classes cls) : c ∈ classes := by
  induction classes generalizing cls with
  | nil => cases h
  | cons d classes ih =>
    rw [lineage] at h
    split at h
    · rcases List.mem_cons.1 h with rfl | h
      · exact List.mem_cons_self
      · cases hs : d.superclass with
        | none => simp [hs] at h
        | some e =>
          rw [hs] at h
          exact List.mem_cons_of_mem _ (ih h)
    · exact List.mem_cons_of_mem _ (ih h)

/-! ### Hierarchies -/

theorem parent?_addClass (h : Hierarchy) (c : ClassDecl) (name : String) :
    (Program.hierarchy.addClass h c).parent? name =
      if name = c.name ∧ c.superclass.isSome ∧ c.superEntry.isSome then c.superclass
      else h.parent? name := by
  unfold Program.hierarchy.addClass
  cases hs : c.superclass with
  | none => simp
  | some d =>
    cases he : c.superEntry with
    | none => simp
    | some e =>
      simp only [Hierarchy.extend, Hierarchy.parent?, NameMap.get?_insert, Option.isSome_some,
        and_true]

theorem parent?_foldl_of_notMem {cs : List ClassDecl} {name : String}
    (hn : name ∉ cs.map (·.name)) (h : Hierarchy) :
    (cs.foldl Program.hierarchy.addClass h).parent? name = h.parent? name := by
  induction cs generalizing h with
  | nil => rfl
  | cons c cs ih =>
    simp only [List.map_cons, List.mem_cons, not_or] at hn
    rw [List.foldl_cons, ih hn.2, parent?_addClass, if_neg fun hc => hn.1 hc.1]

/-- A class with a known superclass has its edge. -/
theorem parent?_foldl {cs : List ClassDecl} (hnames : (cs.map (·.name)).Nodup) {c : ClassDecl}
    (hc : c ∈ cs) {d : String} (hs : c.superclass = some d) (he : c.superEntry.isSome = true)
    (h : Hierarchy) : (cs.foldl Program.hierarchy.addClass h).parent? c.name = some d := by
  induction cs generalizing h with
  | nil => cases hc
  | cons b cs ih =>
    rw [List.map_cons, List.nodup_cons] at hnames
    rw [List.foldl_cons]
    rcases List.mem_cons.1 hc with rfl | hc
    · rw [parent?_foldl_of_notMem hnames.1, parent?_addClass,
        if_pos ⟨rfl, by rw [hs]; rfl, he⟩, hs]
    · exact ih hnames.2 hc _

/-- There are no other edges. -/
theorem exists_of_parent?_foldl {cs : List ClassDecl} {name d : String} {h : Hierarchy}
    (hp : (cs.foldl Program.hierarchy.addClass h).parent? name = some d) :
    h.parent? name = some d ∨ ∃ c ∈ cs, c.name = name ∧ c.superclass = some d := by
  induction cs generalizing h with
  | nil => exact .inl hp
  | cons c cs ih =>
    rw [List.foldl_cons] at hp
    rcases ih hp with hp | ⟨c', hc', hmem⟩
    · rw [parent?_addClass] at hp
      split at hp
      · rename_i hc
        exact .inr ⟨c, List.mem_cons_self, hc.1.symm, hp⟩
      · exact .inl hp
    · exact .inr ⟨c', List.mem_cons_of_mem _ hc', hmem⟩

end ObjectLang
