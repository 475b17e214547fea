import ObjectLang.Proofs.Code.Outline
import ObjectLang.Proofs.Inheritance
import ObjectLang.Proofs.Scopes

/-!
# Classes one after the other

Names are resolved, layouts made and dispatch tables filled class by class.  A `Stage` is a class
together with how far all of this has come before it (`Progress`), and `stages` are those of a list
of classes.  What is done with classes one after the other is then said of each stage by itself
(`bindAll_eq_map`, `inlineAll_eq_flatMap`, …).

If no names are wrong, everything known at a stage comes from exactly one of the stages before it
(`Follows`), wherever a list of stages is cut (`follows_of_split`).
-/

namespace ObjectLang

open Piece (plain)

/-- How far the classes of a program have been gone through. -/
structure Progress where
  env : Env
  /-- Number of labels taken. -/
  labels : Nat
  /-- Number of blocks taken. -/
  blocks : Nat
  tables : NameMap DispatchTable
  /-- First free address of the heap. -/
  free : Nat

/-- A class, and what there is before it. -/
structure Stage where
  before : Progress
  cls : ClassDecl

namespace Stage

variable (st : Stage)

def name : String := st.cls.name

/-- The class with its names bound. -/
def bound : ClassDecl := st.cls.bind st.before.env

def layout : Layout := st.cls.layout st.before.env

def entry : Entry := st.cls.ownEntry st.before.env

/-- What the class table has for the class. -/
def record : ClassRecord := ⟨st.before.env.classes.entered, st.layout, st.entry⟩

/-- The dispatch table of the class. -/
def table : DispatchTable := st.bound.table st.before.blocks st.before.tables

/-- What there is after the class. -/
def after : Progress where
  env := st.cls.extend st.before.env
  labels := st.before.labels + st.bound.labelCount
  blocks := st.before.blocks + st.bound.blockCount
  tables := st.before.tables.insert st.name st.table
  free := st.before.free + st.table.length

end Stage

/-- The stages of a list of classes. -/
def stages (q : Progress) : List ClassDecl → List Stage
  | [] => []
  | c :: cs => ⟨q, c⟩ :: stages (Stage.after ⟨q, c⟩) cs

/-- What there is after a list of classes. -/
def Progress.finish (q : Progress) (cs : List ClassDecl) : Progress :=
  cs.foldl (fun q c => Stage.after ⟨q, c⟩) q

/-! ### What is done class by class -/

variable (q : Progress) (cs : List ClassDecl)

@[simp] theorem map_cls_stages : (stages q cs).map Stage.cls = cs := by
  induction cs generalizing q with
  | nil => rfl
  | cons c cs ih => simp [stages, ih]

theorem env_finish : (q.finish cs).env = ClassDecl.extendAll q.env cs := by
  induction cs generalizing q with
  | nil => rfl
  | cons c cs ih =>
    rw [Progress.finish, List.foldl_cons, ← Progress.finish, ih]
    rfl

theorem bindAll_eq_map : ClassDecl.bindAll q.env cs = (stages q cs).map Stage.bound := by
  induction cs generalizing q with
  | nil => rfl
  | cons c cs ih =>
    simp only [ClassDecl.bindAll, stages, List.map_cons, ← ih]
    rfl

theorem inlineAll_eq_flatMap :
    ClassDecl.inlineAll q.blocks q.tables (ClassDecl.bindAll q.env cs) =
      (stages q cs).flatMap fun st => plain st.table.emit := by
  induction cs generalizing q with
  | nil => rfl
  | cons c cs ih =>
    simp only [ClassDecl.bindAll, ClassDecl.inlineAll, stages, List.flatMap_cons, ← ih]
    rfl

variable {q cs}

/-! ### What is known at a stage -/

/-- The stage of a class among others. -/
def stage? (done : List Stage) (name : String) : Option Stage := done.find? (·.name = name)

theorem mem_of_stage? {done : List Stage} {name : String} {st : Stage}
    (h : stage? done name = some st) : st ∈ done ∧ st.name = name :=
  ⟨List.mem_of_find?_eq_some h, by simpa using List.find?_some h⟩

theorem stage?_eq_none {done : List Stage} {name : String} :
    stage? done name = none ↔ name ∉ done.map Stage.name := by
  rw [stage?, List.find?_eq_none]
  simp

theorem stage?_of_mem {done : List Stage} (hn : (done.map Stage.name).Nodup) {st : Stage}
    (h : st ∈ done) : stage? done st.name = some st := find?_name_of_mem hn h

/-- What a map has for each stage, after one more has been entered. -/
theorem map_stage?_snoc {β : Type} {done : List Stage} {st : Stage}
    (hfresh : st.name ∉ done.map Stage.name) (f : Stage → β) (name : String) :
    (stage? (done ++ [st]) name).map f =
      if name = st.name then some (f st) else (stage? done name).map f := by
  rw [stage?, List.find?_append]
  by_cases hname : name = st.name
  · subst hname
    have hnone : done.find? (·.name = st.name) = none := stage?_eq_none.2 hfresh
    simp [hnone]
  · have hnone : [st].find? (·.name = name) = none := by simp [Ne.symm hname]
    rw [if_neg hname, hnone, Option.or_none]
    rfl

/-- What is known after some stages is what they have made known. -/
structure Follows (done : List Stage) (q : Progress) : Prop where
  single : ∃ scope, q.env.scopes.scopes = [scope]
  nextLocal : q.env.nextLocal = firstLocal - done.length
  free : q.free = (done.flatMap (·.table)).length
  names : (done.map Stage.name).Nodup
  global : ∀ name, q.env.scopes.lookup name = (stage? done name).map Stage.entry
  record : ∀ name, q.env.classes.records.get? name = (stage? done name).map Stage.record
  table : ∀ name, q.tables.get? name = (stage? done name).map Stage.table

namespace Follows

variable {done : List Stage}

theorem opened (h : Follows done q) : q.env.Opened := by
  obtain ⟨scope, hs⟩ := h.single
  simp [Env.Opened, hs]

theorem level (h : Follows done q) : q.env.level = 0 := by
  obtain ⟨scope, hs⟩ := h.single
  simp [Env.level, ScopeStack.level, ScopeStack.depth, hs]

/-- A class that is not declared twice has a new name. -/
theorem fresh (h : Follows done q) {c : ClassDecl}
    (hn : q.env.classDeclaredTwice c.name c.line = []) : c.name ∉ done.map Stage.name := by
  obtain ⟨scope, hs⟩ := h.single
  have hlook : q.env.scopes.lookup c.name = none := by
    unfold Env.classDeclaredTwice at hn
    split at hn
    · cases hn
    · rename_i hsome
      simpa [ScopeStack.findOutermost?, ScopeStack.lookup, hs] using hsome
  rw [h.global, Option.map_eq_none_iff] at hlook
  exact stage?_eq_none.1 hlook

/-- A class without errors makes itself known, and changes nothing else. -/
theorem snoc (h : Follows done q) {c : ClassDecl} (hn : c.nameErrors q.env = []) :
    Follows (done ++ [⟨q, c⟩]) (Stage.after ⟨q, c⟩) := by
  simp only [ClassDecl.nameErrors, List.append_eq_nil_iff] at hn
  have hfresh : (Stage.mk q c).name ∉ done.map Stage.name := h.fresh hn.1.2
  obtain ⟨scope, hs⟩ := h.single
  have hscopes : (Stage.after ⟨q, c⟩).env.scopes =
      ⟨[scope.insert c.name (c.ownEntry q.env)]⟩ := by
    simp only [Stage.after, ClassDecl.extend, Env.declareOutermost, ScopeStack.declareOutermost,
      hs, List.reverse_singleton]
  refine ⟨⟨_, congrArg ScopeStack.scopes hscopes⟩, ?_, ?_, ?_, fun name => ?_, fun name => ?_,
    fun name => ?_⟩
  · have hnext := h.nextLocal
    simp only [Stage.after, ClassDecl.extend, List.length_append, List.length_singleton]
    push_cast
    omega
  · have hfree := h.free
    simp only [Stage.after, List.flatMap_append, List.flatMap_singleton, List.length_append]
    omega
  · rw [List.map_append, List.map_singleton, List.nodup_append]
    refine ⟨h.names, by simp, fun a ha b hb => ?_⟩
    rintro rfl
    exact hfresh (by simpa [List.mem_singleton.1 hb] using ha)
  · have hold := h.global name
    rw [map_stage?_snoc hfresh, hscopes, ← hold]
    simp only [ScopeStack.lookup, hs, List.findSome?_cons, List.findSome?_nil, NameMap.get?_insert]
    by_cases hname : name = c.name
    · simp [hname, Stage.name, Stage.entry]
    · have hname' : name ≠ (Stage.mk q c).name := hname
      rw [if_neg hname, if_neg hname']
  · rw [map_stage?_snoc hfresh, ← h.record name]
    simp only [Stage.after, ClassDecl.extend, ClassTable.insert, NameMap.get?_insert]
    rfl
  · rw [map_stage?_snoc hfresh, ← h.table name]
    simp only [Stage.after, NameMap.get?_insert]

/-- A superclass that is known is that of an earlier stage. -/
theorem superclass {st : Stage} (h : Follows done st.before)
    (hn : st.cls.superclassErrors st.before.env = []) {d : String}
    (hd : st.cls.superclass = some d) :
    ∃ sup ∈ done, sup.name = d ∧ st.cls.inherited st.before.env = sup.layout ∧
      st.before.env.classes.entry? d = some sup.entry ∧
      st.before.tables.get? d = some sup.table := by
  have hknown : (st.before.env.classes.records.get? d).isSome = true := by
    rw [ClassDecl.superclassErrors, hd] at hn
    simp only at hn
    split at hn
    · assumption
    · cases hn
  have hrec := h.record d
  cases hsup : stage? done d with
  | none =>
    rw [hsup] at hrec
    rw [hrec] at hknown
    cases hknown
  | some sup =>
    obtain ⟨hmem, hname⟩ := mem_of_stage? hsup
    rw [hsup] at hrec
    refine ⟨sup, hmem, hname, ?_, ?_, ?_⟩
    · simp [ClassDecl.inherited, hd, ClassTable.layout?, hrec, Stage.record]
    · simp [ClassTable.entry?, hrec, Stage.record]
    · rw [h.table, hsup]
      rfl

end Follows

/-- Wherever stages without errors are cut, each one comes after those before it. -/
theorem follows_of_split {done : List Stage} (h : Follows done q)
    (hn : ClassDecl.nameErrorsAll q.env cs = []) {earlier later : List Stage} {st : Stage}
    (hsplit : stages q cs = earlier ++ st :: later) :
    Follows (done ++ earlier) st.before ∧ st.cls.nameErrors st.before.env = [] := by
  induction cs generalizing q done earlier with
  | nil => simp [stages] at hsplit
  | cons c cs ih =>
    simp only [ClassDecl.nameErrorsAll, List.append_eq_nil_iff] at hn
    obtain _ | ⟨first, earlier⟩ := earlier
    · obtain ⟨rfl, -⟩ : (⟨q, c⟩ : Stage) = st ∧ _ := by simpa [stages] using hsplit
      rw [List.append_nil]
      exact ⟨h, hn.1⟩
    · obtain ⟨rfl, hrest⟩ : (⟨q, c⟩ : Stage) = first ∧ _ := by simpa [stages] using hsplit
      have hih := ih (h.snoc hn.1) hn.2 hrest
      rwa [List.append_assoc, List.singleton_append] at hih

theorem follows_finish {done : List Stage} (h : Follows done q)
    (hn : ClassDecl.nameErrorsAll q.env cs = []) :
    Follows (done ++ stages q cs) (q.finish cs) := by
  induction cs generalizing q done with
  | nil => simpa [stages, Progress.finish] using h
  | cons c cs ih =>
    simp only [ClassDecl.nameErrorsAll, List.append_eq_nil_iff] at hn
    have hih := ih (h.snoc hn.1) hn.2
    rwa [List.append_assoc, List.singleton_append] at hih

/-- What has been numbered before a stage is what the earlier stages have. -/
theorem numbers_of_split {earlier later : List Stage} {st : Stage}
    (hsplit : stages q cs = earlier ++ st :: later) :
    st.before.labels = q.labels + ClassDecl.labelCountAll (earlier.map Stage.bound) ∧
      st.before.blocks = q.blocks + ClassDecl.blockCountAll (earlier.map Stage.bound) := by
  induction cs generalizing q earlier with
  | nil => simp [stages] at hsplit
  | cons c cs ih =>
    obtain _ | ⟨first, earlier⟩ := earlier
    · obtain ⟨rfl, -⟩ : (⟨q, c⟩ : Stage) = st ∧ _ := by simpa [stages] using hsplit
      exact ⟨rfl, rfl⟩
    · obtain ⟨rfl, hrest⟩ : (⟨q, c⟩ : Stage) = first ∧ _ := by simpa [stages] using hsplit
      obtain ⟨hlabels, hblocks⟩ := ih hrest
      simp only [Stage.after] at hlabels hblocks
      simp only [List.map_cons, ClassDecl.labelCountAll_cons, ClassDecl.blockCountAll_cons]
      omega

/-- Induction on stages: those before one come first. -/
theorem stages_induction {P : Stage → Prop} {all : List Stage}
    (step : ∀ earlier st later, all = earlier ++ st :: later → (∀ st' ∈ earlier, P st') → P st) :
    ∀ st ∈ all, P st := by
  have hsplit : ∀ n earlier st later, earlier.length = n → all = earlier ++ st :: later → P st := by
    intro n
    induction n using Nat.strongRecOn with
    | ind n ih =>
      intro earlier st later hlen hall
      refine step earlier st later hall fun st' hst' => ?_
      obtain ⟨front, back, rfl⟩ := List.append_of_mem hst'
      refine ih front.length ?_ front st' (back ++ st :: later) rfl (by simp [hall])
      simp only [List.length_append, List.length_cons] at hlen
      omega
  intro st hst
  obtain ⟨earlier, later, hall⟩ := List.append_of_mem hst
  exact hsplit _ earlier st later rfl hall

end ObjectLang
