import ObjectLang.Proofs.Acyclic

/-!
# The bounded walk decides reachability

A hierarchy is made by adding edges in any order.  A later edge from the same class replaces the
earlier one, and edges may lead back to where they come from.  The walk up from a class is cut short
after as many steps as there are classes with an edge.  It still finds every class that can be
reached, and no longer walk finds more.

If the walk comes to no end, every class on it has an edge, so there are more names on it than
classes with an edge, one of them comes twice, and there is a cycle
(`Hierarchy.ascends_ancestors`).  So exactly where no cycle can be reached the walk is the whole way
up and meets no class twice (`Hierarchy.ancestors_ofEdges`).
-/

namespace ObjectLang

namespace Hierarchy

variable {h : Hierarchy} {c d : String} {names : List String}

/-! ### Ways up and cycles -/

theorem Ascends.cons (hp : h.parent? c = some d) (ha : h.Ascends (d :: names)) :
    h.Ascends (c :: d :: names) where
  edges := List.isChain_cons_cons.2 ⟨hp, ha.edges⟩
  top := by simpa using ha.top

theorem isChain_walk (n : Nat) (c : String) :
    (h.walk n c).IsChain fun cls superclass => h.parent? cls = some superclass := by
  induction n generalizing c with
  | zero => exact .nil
  | succ n ih =>
    rw [walk]
    cases hp : h.parent? c with
    | none => exact .singleton c
    | some d =>
      cases n with
      | zero => exact .singleton c
      | succ n => exact List.isChain_cons_cons.2 ⟨hp, ih d⟩

/-- A walk comes to an end, or else it has as many names as it may, all with an edge. -/
theorem ascends_walk_or (n : Nat) (c : String) : h.Ascends (h.walk (n + 1) c) ∨
    (h.walk (n + 1) c).length = n + 1 ∧
      ∀ cls ∈ h.walk (n + 1) c, (h.parent? cls).isSome = true := by
  induction n generalizing c with
  | zero =>
    cases hp : h.parent? c with
    | none =>
      rw [walk, hp]
      exact .inl (.single hp)
    | some d => exact .inr (by simp [walk, hp])
  | succ n ih =>
    rw [walk]
    cases hp : h.parent? c with
    | none => exact .inl (.single hp)
    | some d =>
      rcases ih d with ha | ⟨hlength, hedges⟩
      · exact .inl (.cons hp ha)
      · refine .inr ⟨by rw [List.length_cons, hlength], ?_⟩
        exact List.forall_mem_cons.2 ⟨by rw [hp]; rfl, hedges⟩

/-- Where the walk comes to no end, it goes through a cycle. -/
theorem ascends_ancestors (hacyclic : ∀ d, h.Reaches c d →
      ¬ Relation.TransGen (fun cls superclass => h.parent? cls = some superclass) d d) :
    h.Ascends (h.ancestors c) := by
  rcases h.ascends_walk_or h.supers.size c with ha | ⟨hlength, hedges⟩
  · exact ha
  · exfalso
    have hsubset : h.ancestors c ⊆ h.supers.entries.map Prod.fst := by
      intro cls hcls
      obtain ⟨superclass, hp⟩ := Option.isSome_iff_exists.1 (hedges cls hcls)
      exact mem_of_parent? hp
    have hrepeats : ¬ (h.ancestors c).Nodup := by
      intro hnodup
      have hle := (hnodup.subperm hsubset).length_le
      rw [ancestors, hlength, List.length_map] at hle
      exact Nat.not_succ_le_self _ hle
    obtain ⟨d, hd⟩ : ∃ d, [d, d].Sublist (h.ancestors c) := by
      simpa [List.nodup_iff_sublist] using hrepeats
    have hpairs : (h.ancestors c).Pairwise
        (Relation.TransGen fun cls superclass => h.parent? cls = some superclass) :=
      List.isChain_iff_pairwise.1 ((isChain_walk _ c).imp fun _ _ hp => .single hp)
    have hcycle := List.rel_of_pairwise_cons (hpairs.sublist hd) List.mem_cons_self
    refine hacyclic d (inherits_iff.1 ?_) hcycle
    exact List.contains_iff_mem.2 (hd.subset List.mem_cons_self)

/-- From a class with a way up that ends, no cycle can be reached. -/
theorem Ascends.not_transGen (ha : h.Ascends (c :: names)) (hr : h.Reaches c d) :
    ¬ Relation.TransGen (fun cls superclass => h.parent? cls = some superclass) d d := by
  intro hcycle
  have hd : d ∈ c :: names := by
    rw [← ha.ancestors_eq]
    exact List.contains_iff_mem.1 (inherits_iff.2 hr)
  obtain ⟨before, after, hsplit⟩ := List.append_of_mem hd
  have hup : h.Ascends (d :: after) := (hsplit ▸ ha).suffix before
  obtain ⟨e, hp, hback⟩ := Relation.TransGen.head'_iff.1 hcycle
  obtain ⟨i, hi⟩ := reaches_iff_above?.1 hback
  have hagain : h.above? (i + 1) d = some d := by
    rw [above?, hp]
    exact hi
  rw [hup.above?_eq, List.getElem?_cons_succ] at hagain
  exact (List.nodup_cons.1 hup.nodup).1 (List.mem_of_getElem? hagain)

/-! ### Edges -/

/-- The hierarchy that has the edges added to it, one after the other. -/
def ofEdges (edges : List (String × String)) : Hierarchy :=
  edges.foldl (fun h edge => h.extend edge.1 edge.2) .empty

/-- The last edge from the class leads to the other one. -/
def LastEdge (edges : List (String × String)) (cls superclass : String) : Prop :=
  ∃ before after, edges = before ++ (cls, superclass) :: after ∧ cls ∉ after.map Prod.fst

theorem lastEdge_concat {edges : List (String × String)} {edge : String × String} :
    LastEdge (edges ++ [edge]) c d ↔ if c = edge.1 then d = edge.2 else LastEdge edges c d := by
  constructor
  · rintro ⟨before, after, heq, hafter⟩
    rcases List.eq_nil_or_concat' after with rfl | ⟨after, edge', rfl⟩
    · obtain ⟨-, hedge⟩ := List.append_inj' heq rfl
      obtain rfl := List.singleton_inj.1 hedge
      exact if_pos rfl ▸ rfl
    · rw [← List.cons_append, ← List.append_assoc] at heq
      obtain ⟨rfl, hedge⟩ := List.append_inj' heq rfl
      obtain rfl := List.singleton_inj.1 hedge
      simp only [List.map_append, List.mem_append, not_or] at hafter
      rw [if_neg (by simpa using hafter.2)]
      exact ⟨before, after, rfl, hafter.1⟩
  · intro hlast
    split at hlast
    · rename_i hc
      exact ⟨edges, [], by rw [hc, hlast], List.not_mem_nil⟩
    · rename_i hc
      obtain ⟨before, after, rfl, hafter⟩ := hlast
      exact ⟨before, after ++ [edge], by simp, by simp [hafter, hc]⟩

theorem parent?_ofEdges (edges : List (String × String)) (c d : String) :
    (ofEdges edges).parent? c = some d ↔ LastEdge edges c d := by
  induction edges using List.reverseRecOn with
  | nil => simp [ofEdges, empty, parent?, LastEdge]
  | append_singleton edges edge ih =>
    have hparent : (ofEdges (edges ++ [edge])).parent? c =
        if c = edge.1 then some edge.2 else (ofEdges edges).parent? c := by
      rw [ofEdges, List.foldl_append]
      exact NameMap.get?_insert _ _ _ _
    rw [hparent, lastEdge_concat, ← ih]
    split
    · rw [Option.some.injEq, eq_comm]
    · rfl

/-- **The bounded walk decides reachability.**  Whatever edges are added, in whatever order, a class
inherits from exactly those that can be reached from it, and a walk of any other length finds none
that the bounded one does not find.  It is the whole way up, without repetition, if and only if no
cycle can be reached. -/
theorem ancestors_ofEdges (edges : List (String × String)) (c : String) :
    (∀ cls superclass,
      (ofEdges edges).parent? cls = some superclass ↔ LastEdge edges cls superclass) ∧
    (∀ d, (ofEdges edges).inherits c d = true ↔ Relation.ReflTransGen (LastEdge edges) c d) ∧
    (∀ n, (ofEdges edges).walk n c ⊆ (ofEdges edges).walk ((ofEdges edges).supers.size + 1) c) ∧
    ((∀ d, Relation.ReflTransGen (LastEdge edges) c d →
        ¬ Relation.TransGen (LastEdge edges) d d) ↔
      ∃ names, (ofEdges edges).ancestors c = c :: names ∧ (ofEdges edges).Ascends (c :: names) ∧
        (c :: names).Nodup) := by
  have hedges : (fun cls superclass => (ofEdges edges).parent? cls = some superclass) =
      LastEdge edges := by
    funext cls superclass
    exact propext (parent?_ofEdges edges cls superclass)
  have hreaches : (ofEdges edges).Reaches = Relation.ReflTransGen (LastEdge edges) := by
    rw [Reaches, hedges]
  rw [← hreaches, ← hedges]
  refine ⟨fun _ _ => Iff.rfl, fun d => inherits_iff, fun n d hd => ?_, fun hacyclic => ?_, ?_⟩
  · obtain ⟨i, -, hi⟩ := mem_walk_iff.1 hd
    exact List.contains_iff_mem.1 (inherits_iff.2 (reaches_iff_above?.2 ⟨i, hi⟩))
  · have ha := ascends_ancestors hacyclic
    exact ⟨_, rfl, ha, ha.nodup⟩
  · rintro ⟨names, -, ha, -⟩ d hd
    exact ha.not_transGen hd

-- No shorter walk would do where the way up takes every edge.
example : (ofEdges [("A", "C"), ("B", "C"), ("A", "B")]).ancestors "A" = ["A", "B", "C"] ∧
    (ofEdges [("A", "C"), ("B", "C"), ("A", "B")]).supers.size = 2 := by decide

end Hierarchy

end ObjectLang
