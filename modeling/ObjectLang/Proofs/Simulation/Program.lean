import ObjectLang.Proofs.Simulation.Classes
import ObjectLang.Proofs.Simulation.Routines

/-!
# Whole programs

A program begins by writing the dispatch tables of its classes to the heap and their addresses to
the bottom of the stack (`Program.Accepted.run_stages`).  After that it is in a state that stands
for the start of its evaluation, so that all of it does what its evaluation does
(`Program.Accepted.simulates`).
-/

namespace ObjectLang

open Reference
open Segmented (Word State Grows Forward)
open Piece (plain)

/-! ### Dispatch tables -/

/-- The operations that write labels to the heap. -/
def tableOps (table : DispatchTable) : List (Op Label) :=
  table.flatMap fun l => .pushTarget l :: moveOps

theorem tableEmit_eq (table : DispatchTable) :
    table.emit = straight (.lhp :: tableOps table) := by
  have hmove : moveToHeap = straight moveOps := rfl
  rw [DispatchTable.emit, hmove]
  simp only [straight, tableOps, List.map_cons, List.map_nil, List.map_flatMap, List.cons_append,
    List.nil_append]

theorem fallsThrough_tableOps (table : DispatchTable) :
    (tableOps table).all Op.fallsThrough = true := by
  simp [tableOps, moveOps, Op.fallsThrough]

theorem Segmented.execAll_tableOps (img : Image) (table : DispatchTable) (st : List Word)
    (heap : List Int64) (ip : Nat) (fp ra tm : Word) (output : List Int64)
    (made : List (Int64 × String)) :
    execAll img (tableOps table) ⟨st, heap, none, ip, fp, ra, tm, output, made⟩ =
      .next ⟨st, heap ++ table.map fun l => Int64.ofNat (img.address l), none,
        ip + (tableOps table).length, fp, ra, tm, output, made⟩ := by
  induction table generalizing heap ip with
  | nil => simp [tableOps]
  | cons l table ih =>
    have hops : tableOps (l :: table) = .pushTarget l :: (moveOps ++ tableOps table) := by
      simp [tableOps]
    rw [hops, execAll_pushTarget, execAll_move, ih]
    congr 2
    · simp
    · simp only [List.length_cons, List.length_append, moveOps, List.length_nil]
      omega

namespace World

variable {K : World}

/-- A dispatch table is written to the end of the heap, and its address is left on the stack. -/
theorem run_table {s : State} (hlow : K.Low s) {table : DispatchTable} (hpending : s.pending = none)
    (hp : K.img.Placed s.ip (plain table.emit)) :
    ∃ n, K.Run n s { s with
      stack := .plain (Int64.ofNat s.heap.length) :: s.stack
      heap := s.heap ++ table.map fun l => Int64.ofNat (K.img.address l)
      ip := s.ip + width (plain table.emit) } := by
  obtain ⟨st, heap, pending, ip, fp, ra, tm, output, made⟩ := s
  simp only at hpending hp ⊢
  subst hpending
  rw [tableEmit_eq] at hp ⊢
  refine ⟨_, run_straight hlow (.lhp :: tableOps table) ?_ hp ?_⟩
  · rw [List.all_cons, fallsThrough_tableOps]
    rfl
  · refine (Segmented.execAll_tableOps K.img table (.plain (Int64.ofNat heap.length) :: st) heap
      (ip + 1) fp ra tm output made).trans ?_
    rw [width_plain_straight, List.length_cons]
    congr 2
    omega

/-- The tables of some stages have been written. -/
structure Prepared (K : World) (done : List Stage) (s : State) : Prop where
  heap : s.heap.length = (done.flatMap (·.table)).length
  pending : s.pending = none
  output : s.output = []
  made : s.made = []
  fp : s.fp = .cell 0
  stack : ∃ vs : List Int64, s.stack = vs.map Word.plain ∧ vs.length = done.length + 1
  tables : ∀ st ∈ done, ∀ (i : Nat) label, st.table[i]? = some label →
    s.heap[st.before.free + i]? = some (Int64.ofNat (K.img.address label))
  directory : ∀ (j : Nat) st, done[j]? = some st →
    s.slot (.cell 0) (firstLocal - j) = some (.plain (Int64.ofNat st.before.free))
  forward : s.stack.length ≤ s.ip

/-- One more table. -/
theorem Prepared.snoc {done : List Stage} {s : State} {st : Stage} (h : K.Prepared done s)
    (hf : Follows done st.before) (hlow : K.img.size ≤ K.limit)
    (hp : K.img.Placed s.ip (plain st.table.emit)) :
    ∃ n t, K.Run n s t ∧ K.Prepared (done ++ [st]) t ∧
      t.ip = s.ip + width (plain st.table.emit) := by
  have hforward := h.forward
  obtain ⟨n, hrun⟩ := run_table (by unfold Low; omega) h.pending hp
  refine ⟨n, _, hrun, ?_, rfl⟩
  have hg : Grows s { s with
      stack := .plain (Int64.ofNat s.heap.length) :: s.stack
      heap := s.heap ++ st.table.map fun l => Int64.ofNat (K.img.address l)
      ip := s.ip + width (plain st.table.emit) } :=
    ⟨List.suffix_cons _ _, List.prefix_append _ _⟩
  have hfree : st.before.free = s.heap.length := hf.free.trans h.heap.symm
  obtain ⟨vs, hst, hlen⟩ := h.stack
  refine ⟨?_, h.pending, h.output, h.made, h.fp, ?_, fun st' hst' i label hi => ?_,
    fun j st' hj => ?_, ?_⟩
  · rw [List.length_append, List.length_map, h.heap, List.flatMap_append, List.flatMap_singleton,
      List.length_append]
  · exact ⟨_ :: vs, by rw [List.map_cons, ← hst], by simp [hlen]⟩
  · rcases List.mem_append.1 hst' with hst' | hst'
    · exact Segmented.getElem?_of_prefix hg.heap (h.tables st' hst' i label hi)
    · obtain rfl := List.mem_singleton.1 hst'
      rw [hfree, List.getElem?_append_right (Nat.le_add_right _ _), Nat.add_sub_cancel_left,
        List.getElem?_map, hi]
      rfl
  · rcases Nat.lt_trichotomy j done.length with hlt | heq | hgt
    · rw [List.getElem?_append_left hlt] at hj
      exact hg.slot (h.directory j st' hj)
    · obtain rfl : st = st' := by simpa [heq] using hj
      rw [hfree, State.slot, if_pos ⟨Int.le_refl 0, by omega⟩]
      refine read_cell [] rfl ?_
      rw [hst, List.length_map, hlen, heq, firstLocal]
      push_cast
      omega
    · rw [List.getElem?_eq_none (by simp; omega)] at hj
      cases hj
  · rw [tableEmit_eq, width_plain_straight]
    simp only [List.length_cons]
    omega

end World

namespace Program.Accepted

variable {p : Program} {nulls plainTypes : Prop} {limit fuel : Nat}
  (h : p.Accepted nulls plainTypes)
include h

/-- The tables of all classes, one after the other. -/
theorem run_stages (hlow : (Image.ofPieces p.bind.outline).size ≤ limit)
    {done rest : List Stage} {s : State} (hsplit : p.stages = done ++ rest)
    (hs : (p.world nulls plainTypes limit).Prepared done s)
    (hp : (p.world nulls plainTypes limit).img.Placed s.ip
      (rest.flatMap fun st => plain st.table.emit)) :
    ∃ n t, (p.world nulls plainTypes limit).Run n s t ∧
      (p.world nulls plainTypes limit).Prepared p.stages t ∧
      t.ip = s.ip + width (rest.flatMap fun st => plain st.table.emit) := by
  induction rest generalizing done s with
  | nil =>
    rw [List.append_nil] at hsplit
    exact ⟨0, s, .refl s, hsplit ▸ hs, rfl⟩
  | cons st rest ih =>
    rw [List.flatMap_cons, Image.placed_append] at hp
    obtain ⟨n, t, hrun, ht, hip⟩ := hs.snoc (follows_stage h.names hsplit).1 hlow hp.1
    obtain ⟨m, u, hrun', hu, hip'⟩ := ih (by simp [hsplit]) ht (by rw [hip]; exact hp.2)
    refine ⟨n + m, u, hrun.trans hrun', hu, ?_⟩
    rw [hip', hip, List.flatMap_cons, width_append, Nat.add_assoc]

/-- The dispatch tables take up as much of the heap as evaluation assumes. -/
theorem store_free : p.store.free = (p.stages.flatMap (·.table)).length := by
  have hlayout : ∀ st ∈ p.stages, (((p.declEnv .empty).classes.layout? st.cls.name).elim []
      (·.methods)).length = st.table.length := by
    intro st hst
    have hl : (p.world nulls plainTypes 0).classes.layout? st.name = some st.layout := h.layout hst
    obtain ⟨memorySize, code, hcode⟩ := h.emitted
    rw [length_table_stage h.names hcode st hst]
    exact congrArg (fun l => (Option.elim l [] (·.methods)).length) hl
  rw [Program.store]
  have hclasses := map_cls_stages .start p.classes
  rw [← Program.stages] at hclasses
  simp only
  rw [← hclasses, List.flatMap_map, List.length_flatMap, List.length_flatMap]
  exact congrArg List.sum (List.map_congr_left hlayout)

/-- A state with all tables written stands for the start of evaluation. -/
theorem sound_start {s : State} (hs : (p.world nulls plainTypes limit).Prepared p.stages s) :
    (p.world nulls plainTypes limit).Sound s p.store where
  heap := hs.heap.trans h.store_free.symm
  pending := hs.pending
  output := hs.output
  made := hs.made
  distinct := List.nodup_nil
  objects ho := by cases ho
  tables {cls i a} ha := by
    cases hst : stage? p.stages cls with
    | none => simp [Program.world, hst] at ha
    | some st =>
      obtain ⟨hmem, rfl⟩ := mem_of_stage? hst
      rw [h.table hmem, List.getElem?_map] at ha
      obtain ⟨label, hlabel, rfl⟩ := Option.map_eq_some_iff.1 ha
      simp only [Program.world, hst, Option.elim_some]
      exact hs.tables st hmem i label hlabel
  directory {cls e} he := by
    obtain ⟨r, hr, rfl⟩ := Option.map_eq_some_iff.1 he
    obtain ⟨st, hst, rfl, rfl⟩ := exists_stage h.names hr
    obtain ⟨earlier, later, hsplit⟩ := List.append_of_mem hst
    have hoff : st.record.entry.offset = firstLocal - earlier.length :=
      (follows_stage h.names hsplit).1.nextLocal
    have hhome : (p.world nulls plainTypes limit).home st.name = st.before.free := by
      simp only [Program.world, stage?_of_mem (follows_stages h.names).names hst, Option.elim_some]
    rw [hoff, hhome]
    exact hs.directory earlier.length st (by simp [hsplit])
  bare hbare := by
    have hstages : p.stages = [] := by
      refine List.eq_nil_iff_forall_not_mem.2 fun st hst => ?_
      cases (hbare st.name).symm.trans (h.layout hst)
    have hheap := hs.heap
    rw [hstages] at hheap
    exact List.length_eq_zero_iff.1 hheap

/-- Before the declarations of a program the only names are those of classes. -/
theorem represents_start (s : State) (σ : Store) :
    (p.world nulls plainTypes limit).Represents s σ (p.declEnv .empty) ⟨[], none⟩ [.cell 0] := by
  have hfinish := follows_stages h.names
  rw [declEnv_eq_finish]
  refine .intro (fun _ => .empty) hfinish.opened (List.isChain_singleton _)
    (fun {name e} hx hsh => ?_) (fun _ _ hb => by cases hb)
  obtain ⟨st, -, rfl⟩ := Option.map_eq_some_iff.1 ((hfinish.global name).symm.trans hx)
  cases hsh

theorem situated_start (hlow : (fuel + 1) * (Image.ofPieces p.bind.outline).size ≤ limit)
    {s : State} (hs : (p.world nulls plainTypes limit).Sound s p.store) (hfp : s.fp = .cell 0)
    (hforward : s.stack.length ≤ s.ip) :
    (p.world nulls plainTypes limit).Situated s p.store fuel (p.declEnv .empty) ⟨[], none⟩
      [.cell 0] :=
  ⟨h.represents_start s p.store, hs, by rw [hfp]; rfl, fun _ _ hr => hr, by
    rw [Nat.add_comm]
    exact Nat.add_le_add hlow hforward⟩

end Program.Accepted

/-- Number of words that a program keeps on the stack below its value. -/
def Program.frameSize : Program → Nat
  | .body _ => 0
  | .letIn classes decls _ => classes.length + decls.length + 1

/-- The run of a program is about to halt. -/
structure Program.Finished (p : Program) (K : World) (v : Int64) (τ : Store) (t : State) :
    Prop where
  halt : K.img.piece t.ip = some (.instr (.op .halt))
  sound : K.Sound t τ
  low : t.stack.length ≤ K.limit
  value : ∀ ty, p.bind.main.infer p.bind.hierarchy = .ok ty → K.Holds τ ty v
  stack : ∃ vs : List Int64, t.stack = .plain v :: vs.map Word.plain ∧ vs.length = p.frameSize

/-- The parts of a program with classes and declarations. -/
theorem Program.outline_letIn (classes : List ClassDecl) (decls : List Decl) (main : Expr) :
    let p := Program.letIn classes decls main
    ∃ labels blocks n hoisted, p.bind.outline =
      plain (straight [.push 0]) ++ p.stages.flatMap (fun st => plain st.table.emit) ++
        Decl.inlineAll labels blocks (Decl.bindAll (p.declEnv .empty) p.decls) ++
        (p.main.bind (p.mainEnv .empty)).outline n ++ plain (straight [.halt]) ++ hoisted ++
        Decl.hoistedAll labels blocks (Decl.bindAll (p.declEnv .empty) p.decls) := by
  intro p
  rw [Program.stages, ← inlineAll_eq_flatMap]
  exact ⟨_, _, _, _, rfl⟩

namespace Program.Accepted

/-- The expression of a program, and the end of its run. -/
theorem simulates_main {p : Program} {nulls plainTypes : Prop} {limit : Nat}
    (h : p.Accepted nulls plainTypes) {fuel n : Nat} {s : State} {σ : Store} {ρ : Context}
    (hs : (p.world nulls plainTypes limit).Situated s σ fuel (p.mainEnv .empty) ρ [.cell 0])
    (hp : (p.world nulls plainTypes limit).img.Placed s.ip
      ((p.main.bind (p.mainEnv .empty)).outline n ++ plain (straight [.halt])))
    (hst : ∃ vs : List Int64, s.stack = vs.map Word.plain ∧ vs.length = p.frameSize) :
    (p.world nulls plainTypes limit).Simulates fuel s
      (eval p.references (invoke p.references fuel) ρ p.main σ)
      (p.Finished (p.world nulls plainTypes limit)) := by
  rw [Image.placed_append] at hp
  have hn := h.names
  simp only [Program.nameErrors, Program.nameErrorsIn, List.append_eq_nil_iff] at hn
  obtain ⟨ty, hty⟩ := h.main
  have hmain : p.bind.main = p.main.bind (p.mainEnv .empty) := by cases p <;> rfl
  have hty' := hty
  rw [hmain] at hty
  have hrun : (p.world nulls plainTypes limit).Runnable (p.mainEnv .empty) n s.ip p.main ty := by
    refine ⟨hp.1, World.lt_size hp.2.1, hn.2, hty, fun hm => h.nulls ?_⟩
    simp only [Program.mentionsNull, Bool.or_eq_true]
    exact .inr hm
  refine (World.computes h.lawful (World.calls h.lawful fuel) p.main hrun hs).mono ?_
  rintro v τ t ⟨ha, hv⟩
  obtain ⟨vs, hvs, hlen⟩ := hst
  have hhalt : (p.world nulls plainTypes limit).img.piece t.ip = some (.instr (.op .halt)) := by
    rw [ha.ip]
    exact hp.2.1
  refine ⟨hhalt, ha.sound, (ha.low hs.low).le_limit (World.lt_size hhalt).le, fun ty' h' => ?_, vs,
    ?_, hlen⟩
  · cases hty'.symm.trans h'
    exact hv
  · rw [ha.stack, hvs]
    rfl

/-- A program that is an expression alone. -/
theorem simulates_body {main : Expr} {nulls plainTypes : Prop} {limit fuel : Nat}
    (h : (Program.body main).Accepted nulls plainTypes)
    (hlow : (fuel + 1) * (Image.ofPieces (Program.body main).bind.outline).size ≤ limit) :
    ((Program.body main).world nulls plainTypes limit).Simulates fuel .initial
      ((Program.body main).evaluate fuel)
      ((Program.body main).Finished ((Program.body main).world nulls plainTypes limit)) := by
  have hsound : ((Program.body main).world nulls plainTypes limit).Sound .initial
      (Program.body main).store :=
    { heap := rfl
      pending := rfl
      output := rfl
      made := rfl
      distinct := List.nodup_nil
      objects := fun ho => by cases ho
      tables := fun ha => by cases ha
      directory := fun he => by cases he
      bare := fun _ => rfl }
  refine h.simulates_main (h.situated_start hlow hsound rfl (Nat.le_refl 0)) (n := 0) ?_
    ⟨[], rfl, rfl⟩
  exact h.lawful.placed

section Declarations

variable {p : Program} {nulls plainTypes : Prop} {limit fuel : Nat}
  (h : p.Accepted nulls plainTypes)
include h

theorem aligned_start {s : State} (hs : (p.world nulls plainTypes limit).Prepared p.stages s) :
    World.Aligned s (p.declEnv .empty) 0 := by
  obtain ⟨vs, hst, hlen⟩ := hs.stack
  have hnext := (follows_stages h.names).nextLocal
  rw [← declEnv_eq_finish, firstLocal] at hnext
  refine ⟨hs.fp, Int.le_refl 0, ?_, by omega⟩
  rw [hst, List.length_map, hlen, hnext]
  push_cast
  omega

theorem runnableDecls {labels blocks i : Nat}
    (hp : (p.world nulls plainTypes limit).img.Placed i
      (Decl.inlineAll labels blocks (Decl.bindAll (p.declEnv .empty) p.decls)))
    (hi : i + width (Decl.inlineAll labels blocks (Decl.bindAll (p.declEnv .empty) p.decls)) <
      (p.world nulls plainTypes limit).img.size)
    (hh : Decl.hoistedAll labels blocks (Decl.bindAll (p.declEnv .empty) p.decls) <:+:
      p.bind.outline) :
    (p.world nulls plainTypes limit).RunnableDecls (p.declEnv .empty) labels blocks i p.decls := by
  have hn := h.names
  simp only [Program.nameErrors, Program.nameErrorsIn, List.append_eq_nil_iff] at hn
  have ht := h.types
  have hbind : p.bind.decls = Decl.bindAll (p.declEnv .empty) p.decls := by cases p <;> rfl
  simp only [Program.declErrors, List.append_eq_nil_iff, hbind] at ht
  refine ⟨hp, hi, hh, hn.1.2, ht.2, fun hpl ty hty => h.annotations hpl ty ?_,
    fun hm => h.nulls ?_⟩
  · exact List.mem_append_right _ hty
  · simp only [Program.mentionsNull, Bool.or_eq_true]
    exact .inl (.inr hm)

/-- The declarations and the expression of a program, from a state with all tables written. -/
theorem simulates_prepared (hlow : (fuel + 1) * (Image.ofPieces p.bind.outline).size ≤ limit)
    {labels blocks n : Nat} {s : State}
    (hs : (p.world nulls plainTypes limit).Prepared p.stages s)
    (hd : (p.world nulls plainTypes limit).RunnableDecls (p.declEnv .empty) labels blocks s.ip
      p.decls)
    (hp : (p.world nulls plainTypes limit).img.Placed
      (s.ip + width (Decl.inlineAll labels blocks (Decl.bindAll (p.declEnv .empty) p.decls)))
      ((p.main.bind (p.mainEnv .empty)).outline n ++ plain (straight [.halt])))
    (hsize : p.frameSize = p.stages.length + 1 + p.decls.length) :
    (p.world nulls plainTypes limit).Simulates fuel s (p.evaluate fuel)
      (p.Finished (p.world nulls plainTypes limit)) := by
  have hsit := h.situated_start hlow (h.sound_start hs) hs.fp hs.forward
  refine .bind ((World.simulates_decls h.lawful (World.calls h.lawful fuel) hd hsit
    (h.aligned_start hs)).mono ?_)
  rintro ρ τ t ⟨vs, hlen, ha, hrep⟩
  obtain ⟨ws, hst, hws⟩ := hs.stack
  refine h.simulates_main (n := n) ⟨hrep, ha.sound, ?_, ?_, (hsit.advance ha).spare⟩ (ha.ip ▸ hp)
    ⟨vs ++ ws, ?_, ?_⟩
  · rw [ha.fp]
    exact hsit.fp
  · rw [World.Knows, Program.mainEnv, Decl.classes_extendAll]
    exact hsit.knows
  · rw [ha.stack, hst, List.map_append]
  · rw [List.length_append, hlen, hws, hsize]
    omega

end Declarations

/-- A program with classes and declarations. -/
theorem simulates_letIn {classes : List ClassDecl} {decls : List Decl} {main : Expr}
    {nulls plainTypes : Prop} {limit fuel : Nat}
    (h : (Program.letIn classes decls main).Accepted nulls plainTypes)
    (hlow : (fuel + 1) * (Image.ofPieces (Program.letIn classes decls main).bind.outline).size ≤
      limit) :
    ((Program.letIn classes decls main).world nulls plainTypes limit).Simulates fuel .initial
      ((Program.letIn classes decls main).evaluate fuel)
      ((Program.letIn classes decls main).Finished
        ((Program.letIn classes decls main).world nulls plainTypes limit)) := by
  obtain ⟨labels, blocks, n, hoisted, houtline⟩ := outline_letIn classes decls main
  have hsize : (Program.letIn classes decls main).frameSize =
      (Program.letIn classes decls main).stages.length + 1 +
        (Program.letIn classes decls main).decls.length := by
    have hlen := congrArg List.length (map_cls_stages .start classes)
    rw [List.length_map] at hlen
    simp only [Program.frameSize, Program.stages, Program.classes, Program.decls, hlen]
    omega
  generalize Program.letIn classes decls main = p at *
  have hplaced : (p.world nulls plainTypes limit).img.Placed 0 p.bind.outline := h.lawful.placed
  rw [houtline] at hplaced
  simp only [Image.placed_append, width_append, width_plain_straight, List.length_cons,
    List.length_nil, Nat.zero_add] at hplaced
  obtain ⟨⟨⟨⟨⟨⟨hzero, htables⟩, hdecls⟩, hmain⟩, hhalt⟩, -⟩, -⟩ := hplaced
  have hsize₀ : (Image.ofPieces p.bind.outline).size ≤ limit := by
    rw [Nat.add_mul, Nat.one_mul] at hlow
    omega
  have hpush : (p.world nulls plainTypes limit).Run 1 .initial
      { State.initial with stack := [.plain 0], ip := 1 } :=
    World.run_straight (by
      change 0 + (Image.ofPieces p.bind.outline).size ≤ limit + 0
      omega) [.push 0] rfl hzero rfl
  have hstart : (p.world nulls plainTypes limit).Prepared []
      { State.initial with stack := [.plain 0], ip := 1 } :=
    ⟨rfl, rfl, rfl, rfl, rfl, ⟨[0], rfl, rfl⟩, fun _ hst => (List.not_mem_nil hst).elim,
      fun _ _ hst => (by cases hst), Nat.le_refl 1⟩
  obtain ⟨m, t, hrun, hprep, hip⟩ := h.run_stages hsize₀ (List.nil_append _).symm hstart htables
  have hip : t.ip = 1 + width (p.stages.flatMap fun st => plain st.table.emit) := hip
  rw [← hip] at hdecls hmain hhalt
  refine World.Simulates.run (hpush.trans hrun) ?_
  have hinside := World.lt_size hhalt.1
  refine h.simulates_prepared hlow hprep (h.runnableDecls hdecls (by omega) ?_)
    (Image.placed_append.2 ⟨hmain, hhalt⟩) hsize
  rw [houtline]
  exact (List.suffix_append _ _).isInfix

/-- **A program that is accepted does what its evaluation does**, class tables, declarations and
all.  For calls nested as deep as the fuel allows, its stack is at most that many times as high as
its code is long. -/
theorem simulates {p : Program} {nulls plainTypes : Prop} {limit fuel : Nat}
    (h : p.Accepted nulls plainTypes)
    (hlow : (fuel + 1) * (Image.ofPieces p.bind.outline).size ≤ limit) :
    (p.world nulls plainTypes limit).Simulates fuel .initial (p.evaluate fuel)
      (p.Finished (p.world nulls plainTypes limit)) := by
  cases p with
  | body main => exact h.simulates_body hlow
  | letIn classes decls main => exact h.simulates_letIn hlow

end Program.Accepted

end ObjectLang
