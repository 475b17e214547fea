import ObjectLang.Proofs.Simulation.Calls

/-!
# Construction of objects

The code of `new` moves its arguments from the stack to the heap, the last one first, and puts the
address of the dispatch table after them, which it has found in the class directory at the bottom of
the stack (`World.computes_new`).  The object is what its layout says it should be, and all that
was on the heap before is still there.
-/

namespace ObjectLang

open Reference
open Segmented (Word State Grows Forward)
open Piece (plain)

/-! ### Moving words to the heap -/

/-- The operations that move the top of the stack to the heap. -/
def moveOps : List (Op Label) := [.lhp, .sw, .lhp, .push 1, .add, .shp]

theorem moves_eq (count : Nat) : (List.replicate count moveToHeap).flatten =
    straight (List.replicate count moveOps).flatten := by
  have hmove : moveToHeap = straight moveOps := rfl
  simp only [hmove, straight, List.map_flatten, List.map_replicate]

theorem fallsThrough_moves (count : Nat) :
    (List.replicate count moveOps).flatten.all Op.fallsThrough = true := by
  induction count with
  | zero => rfl
  | succ count ih =>
    rw [List.replicate_succ, List.flatten_cons, List.all_append, ih]
    rfl

namespace Segmented

variable (img : Image) (os : List (Op Label)) (st : List Word) (heap : List Int64) (ip : Nat)
  (fp ra tm : Word) (v : Int64) (output : List Int64) (made : List (Int64 × String))

theorem execAll_move :
    execAll img (moveOps ++ os) ⟨.plain v :: st, heap, none, ip, fp, ra, tm, output, made⟩ =
      execAll img os ⟨st, heap ++ [v], none, ip + 6, fp, ra, tm, output, made⟩ := by
  simp [moveOps, execAll, execute, State.push, State.hp, State.store, State.growHeap, Word.add]

theorem execAll_moves (vs : List Int64) :
    execAll img ((List.replicate vs.length moveOps).flatten ++ os)
        ⟨vs.map Word.plain ++ st, heap, none, ip, fp, ra, tm, output, made⟩ =
      execAll img os
        ⟨st, heap ++ vs, none, ip + 6 * vs.length, fp, ra, tm, output, made⟩ := by
  induction vs generalizing heap ip with
  | nil => simp
  | cons v vs ih =>
    rw [List.length_cons, List.replicate_succ, List.flatten_cons, List.append_assoc, List.map_cons,
      List.cons_append, execAll_move, ih]
    congr 2
    · simp
    · omega

end Segmented

namespace World

variable {K : World} {fuel : Nat} {call : Routine → Context → List Int64 → Eval Int64}
  {env : Env} {ρ : Context} {chain : List Word}

/-- Arguments evaluated from the first to the last: the last is on top of the stack. -/
theorem computes_all {es : List Expr} (hes : ∀ e ∈ es, K.Computes fuel call e)
    {tys : List Ty} (hfit : K.Fitting env es tys) {n : Nat} {s : State} {σ : Store}
    (hp : K.img.Placed s.ip (Expr.outlineAll n (Expr.bindAll env es)))
    (hin : s.ip + width (Expr.outlineAll n (Expr.bindAll env es)) < K.img.size)
    (hs : K.Situated s σ fuel env ρ chain) :
    K.Simulates fuel s (evalAll K.references call ρ es σ) fun vs τ t =>
      K.Advance s σ (vs.reverse.map Word.plain)
        (s.ip + width (Expr.outlineAll n (Expr.bindAll env es))) t τ ∧
      List.Forall₂ (K.Holds τ) tys vs := by
  induction es generalizing tys n s σ with
  | nil =>
    cases hfit.types
    rw [evalAll]
    exact .pure ⟨.refl hs.sound, .nil⟩
  | cons e es ih =>
    obtain _ | ⟨ty, tys⟩ := tys
    · cases hfit.types
    obtain ⟨hn, ⟨found, ht, hsub⟩, hnull, hrest⟩ := hfit.cons
    simp only [Expr.bindAll, Expr.outlineAll, Image.placed_append, width_append,
      ← Nat.add_assoc] at hp hin ⊢
    have hrun : K.Runnable env _ s.ip e found := ⟨hp.1, by omega, hn, ht, hnull⟩
    rw [evalAll]
    refine .bind ((hes e List.mem_cons_self hrun hs).mono ?_)
    rintro v τ t ⟨ha, hv⟩
    have hes' := ih (fun e he => hes e (List.mem_cons_of_mem _ he)) hrest
      (by rw [ha.ip]; exact hp.2) (by rw [ha.ip]; exact hin) (hs.advance ha)
    refine .bind (hes'.mono ?_)
    rintro vs υ u ⟨hb, hvs⟩
    rw [ha.ip] at hb
    refine .pure ⟨?_, .cons ((hsub τ v hv).mono hb.store) hvs⟩
    rw [List.reverse_cons, List.map_append]
    exact ha.trans hb

/-! ### The new object -/

theorem lookup_zip {names : List String} (hn : names.Nodup) {vs : List Int64} {i : Nat}
    {name : String} {v : Int64} (hname : names[i]? = some name) (hv : vs[i]? = some v) :
    (names.zip vs).lookup name = some v := by
  induction names generalizing vs i with
  | nil => cases hname
  | cons x names ih =>
    obtain _ | ⟨w, vs⟩ := vs
    · cases hv
    rw [List.zip_cons_cons, List.lookup_cons]
    cases i with
    | zero =>
      obtain rfl : x = name := by simpa using hname
      obtain rfl : w = v := by simpa using hv
      simp
    | succ i =>
      have hmem : name ∈ names := List.mem_of_getElem? (by simpa using hname)
      have hne : (name == x) = false := by
        rw [beq_eq_false_iff_ne]
        rintro rfl
        exact (List.nodup_cons.1 hn).1 hmem
      rw [hne]
      exact ih (List.nodup_cons.1 hn).2 (by simpa using hname) (by simpa using hv)

section Construct

variable {s t : State} {σ : Store} {cls : String} {l : Layout} {values : List Int64}
  (hl : K.classes.layout? cls = some l)
  (hheap : t.heap = s.heap ++ values.reverse ++ [Int64.ofNat (K.home cls)])
  (hvalues : List.Forall₂ (K.Holds σ) (l.fields.map (·.entry.ty)) values)
include hl hheap hvalues

/-- The heap has the new object at its end. -/
theorem houses_construct (hproper : l.Proper 1) (hin : K.inhabited cls) :
    K.Houses t σ (s.heap.length + values.length) ⟨cls, (l.fields.map (·.name)).zip values⟩ l := by
  have hlen : l.fields.length = values.length := by simpa using hvalues.length_eq
  refine ⟨hl, hin, ?_, ?_, fun {i slot} hi => ?_⟩
  · exact List.map_fst_zip (by simp [hlen])
  · rw [hheap]
    simp
  · have hilt := (List.getElem?_eq_some_iff.1 hi).1
    have hv : values[i]? = some values[i] := List.getElem?_eq_getElem (by omega)
    refine ⟨values[i], by omega, ?_, ?_, ?_⟩
    · have hidx : s.heap.length + values.length - (i + 1) =
          s.heap.length + (values.length - 1 - i) := by omega
      rw [hheap, List.append_assoc, hidx, List.getElem?_append_right (by omega),
        Nat.add_sub_cancel_left, List.getElem?_append_left (by simp; omega),
        List.getElem?_reverse (by omega)]
      rw [← hv]
      congr 1
      omega
    · exact lookup_zip hproper.nodup_fields (by simp [hi]) hv
    · have hget := (List.forall₂_iff_get.1 hvalues).2 i (by simp; omega) (by omega)
      have hslot : l.fields[i] = slot := (List.getElem?_eq_some_iff.1 hi).2
      simpa [hslot] using hget

omit hheap in
/-- Where the fields have got their values, there may be objects. -/
theorem inhabited_of_values (hK : K.Lawful) : K.inhabited cls := by
  refine hK.inhabited hl fun ⟨slot, hslot, hk⟩ => ?_
  obtain ⟨i, hi⟩ := List.mem_iff_getElem?.1 hslot
  have hilt := (List.getElem?_eq_some_iff.1 hi).1
  have hlen : l.fields.length = values.length := by simpa using hvalues.length_eq
  -- the only value of the type of a method is null
  have hvalue := (List.forall₂_iff_get.1 hvalues).2 i (by simpa using hilt) (by omega)
  have hslot : l.fields[i] = slot := (List.getElem?_eq_some_iff.1 hi).2
  obtain ⟨sig, hsig⟩ : ∃ sig, slot.entry.ty = .method sig := by
    rw [Entry.isMethod] at hk
    cases hty : slot.entry.ty <;> simp_all [Ty.isMethod]
  simp only [List.get_eq_getElem, List.getElem_map, hslot, hsig] at hvalue
  exact hvalue.1

/-- The new object is at a new address, and the heap is as it should be. -/
theorem Sound.construct (hK : K.Lawful) (h : K.Sound s σ) (hroom : t.Room)
    (hst : s.stack <:+ t.stack) (hpending : t.pending = none) (houtput : t.output = s.output)
    (hmade : t.made = (Int64.ofNat (s.heap.length + values.length), cls) :: s.made) :
    ∃ τ, Reference.construct cls (l.fields.map (·.name)) values σ =
        .ok (Int64.ofNat (s.heap.length + values.length), τ) ∧ K.Sound t τ ∧ σ.Extends τ ∧
      τ.object? (Int64.ofNat (s.heap.length + values.length)) =
        some ⟨cls, (l.fields.map (·.name)).zip values⟩ := by
  unfold State.Room at hroom
  have hin := inhabited_of_values hl hvalues hK
  have hlen : t.heap.length = s.heap.length + values.length + 1 := by
    simp [hheap, Nat.add_assoc]
  have hg : Grows s t := ⟨hst, ⟨values.reverse ++ [Int64.ofNat (K.home cls)], by simp [hheap]⟩⟩
  -- objects made before are below the end of the heap
  have hfresh : ∀ a o, (a, o) ∈ σ.objects →
      a ≠ Int64.ofNat (s.heap.length + values.length) := by
    rintro _ o ho heq
    obtain ⟨n, l', rfl, hh⟩ := h.objects ho
    have hn := congrArg Int64.toInt heq
    rw [Int64.toInt_ofNat_of_lt (by have := hh.lt; omega), Int64.toInt_ofNat_of_lt (by omega)] at hn
    have := hh.lt
    omega
  have hx : σ.Extends
      { σ with
        free := σ.free + values.length + 1
        objects := (Int64.ofNat (s.heap.length + values.length),
          ⟨cls, (l.fields.map (·.name)).zip values⟩) :: σ.objects } := by
    intro a o ho
    have hne := hfresh a o (Store.mem_of_object? ho)
    rw [Store.object?, List.lookup_cons, beq_false_of_ne hne]
    exact ho
  refine ⟨_, by rw [Reference.construct, ← h.heap], ?_, hx, ?_⟩
  · exact
      { heap := by rw [hlen, h.heap]
        pending := hpending
        output := houtput.trans h.output
        made := by rw [hmade, h.made, List.map_cons]
        distinct := by
          rw [List.map_cons, List.nodup_cons]
          refine ⟨fun hmem => ?_, h.distinct⟩
          obtain ⟨⟨a, o⟩, ho, heq⟩ := List.mem_map.1 hmem
          exact hfresh a o ho heq
        objects := fun ho => by
          rcases List.mem_cons.1 ho with heq | ho
          · simp only [Prod.mk.injEq] at heq
            obtain ⟨rfl, rfl⟩ := heq
            exact ⟨_, l, rfl, (houses_construct hl hheap hvalues (hK.proper hl hin) hin).mono
              (.refl t) hx⟩
          · obtain ⟨n, l', hn, hh⟩ := h.objects ho
            exact ⟨n, l', hn, hh.mono hg hx⟩
        tables := fun ha => Segmented.getElem?_of_prefix hg.heap (h.tables ha)
        directory := fun he => hg.slot (h.directory he)
        bare := fun hbare => by rw [hbare cls] at hl; cases hl }
  · rw [Store.object?, List.lookup_cons, beq_self_eq_true]

end Construct

/-! ### The code of `new` -/

/-- The code of `new` that moves the values to the heap. -/
theorem run_moves {t : State} (hlow : K.Low t) {values : List Int64} {rest : List Word}
    (hst : t.stack = values.map Word.plain ++ rest) (hpending : t.pending = none)
    (hp : K.img.Placed t.ip (plain (List.replicate values.length moveToHeap).flatten)) :
    ∃ n, K.Run n t
      { t with stack := rest, heap := t.heap ++ values, ip := t.ip + 6 * values.length } := by
  obtain ⟨st, heap, pending, ip, fp, ra, tm, output, made⟩ := t
  simp only at hst hpending
  subst hst hpending
  have hmoves := Segmented.execAll_moves K.img [] rest heap ip fp ra tm output made values
  rw [List.append_nil] at hmoves
  rw [moves_eq] at hp
  exact ⟨_, run_straight hlow _ (fallsThrough_moves _) hp hmoves⟩

/-- The code of `new` that finds the dispatch table and completes the object with it. -/
def completion (cls : String) (entry : Entry) : List Piece :=
  [.memoryEnd] ++ plain (straight [.push (Int64.ofInt entry.offset), .add, .lw, .lhp]) ++
    [.construct cls] ++ plain (straight [.lhp, .lhp, .push 1, .add, .shp])

theorem objectOutline_eq (cls : String) (entry : Entry) (count : Nat) :
    objectOutline cls entry count =
      plain (List.replicate count moveToHeap).flatten ++ completion cls entry := by
  simp [objectOutline, completion, advanceHeap]

theorem width_moves (count : Nat) :
    width (plain (List.replicate count moveToHeap).flatten) = 6 * count := by
  rw [moves_eq, width_plain_straight]
  simp [moveOps, Nat.mul_comm]

theorem width_completion (cls : String) (entry : Entry) : width (completion cls entry) = 11 := rfl

theorem run_completion {s t : State} (hlow : K.Low t) {cls : String} {entry : Entry}
    {home : Int64} (hroom : s.Room)
    (hdirectory : s.slot (.cell 0) entry.offset = some (.plain home))
    (hst : t.stack = s.stack) (hheap : s.heap <+: t.heap) (hpending : t.pending = none)
    (hp : K.img.Placed t.ip (completion cls entry)) :
    ∃ n, K.Run n t { t with
      stack := .plain (Int64.ofNat t.heap.length) :: s.stack
      heap := t.heap ++ [home]
      ip := t.ip + 11
      made := (Int64.ofNat t.heap.length, cls) :: t.made } := by
  obtain ⟨st, heap, pending, ip, fp, ra, tm, output, made⟩ := t
  simp only at hst hheap hpending hp
  subst hst hpending
  simp only [completion, Image.placed_append, width_append, width_plain_straight,
    Image.placed_memoryEnd, Image.placed_construct, width_cons_memoryEnd, width_cons_construct,
    width_nil, List.length_cons, List.length_nil, Nat.zero_add, Nat.reduceAdd] at hp
  obtain ⟨⟨⟨⟨hend, -⟩, hload⟩, hconstruct, -⟩, hadvance⟩ := hp
  have hrun₁ : K.Run 1 ⟨s.stack, heap, none, ip, fp, ra, tm, output, made⟩
      ⟨.cell 0 :: s.stack, heap, none, ip + 1, fp, ra, tm, output, made⟩ :=
    .single (hlow.observes_of_ne hend (fun _ => by simp)) (by rw [Segmented.step, hend]; rfl)
  have hrun₂ : K.Run 4 ⟨.cell 0 :: s.stack, heap, none, ip + 1, fp, ra, tm, output, made⟩
      ⟨.plain (Int64.ofNat heap.length) :: .plain home :: s.stack, heap, none, ip + 5, fp, ra, tm,
        output, made⟩ :=
    run_straight (hlow.mono (by simp only [Forward, List.length_cons]; omega)) _ rfl hload
      (Segmented.execAll_loadAt (s := s)
      (u := ⟨.cell 0 :: s.stack, heap, none, ip + 1, fp, ra, tm, output, made⟩) List.suffix_rfl
      hheap hroom hdirectory rfl [.lhp])
  have hrun₃ : K.Run 1
      ⟨.plain (Int64.ofNat heap.length) :: .plain home :: s.stack, heap, none, ip + 5, fp, ra, tm,
        output, made⟩
      ⟨s.stack, heap, some home, ip + 6, fp, ra, tm, output,
        (Int64.ofNat heap.length, cls) :: made⟩ := by
    refine .single (Low.observes_of_ne (hlow.mono ?_) hconstruct (fun _ => by simp)) ?_
    · simp only [Forward, List.length_cons]
      omega
    · rw [Segmented.step, hconstruct]
      simp [Segmented.perform, State.store, State.hp]
  have hrun₄ : K.Run 5
      ⟨s.stack, heap, some home, ip + 6, fp, ra, tm, output, (Int64.ofNat heap.length, cls) :: made⟩
      ⟨.plain (Int64.ofNat heap.length) :: s.stack, heap ++ [home], none, ip + 11, fp, ra, tm,
        output, (Int64.ofNat heap.length, cls) :: made⟩ :=
    run_straight (hlow.mono (by simp only [Forward]; omega)) [.lhp, .lhp, .push 1, .add, .shp] rfl
      hadvance (by
        simp [Segmented.execAll, Segmented.execute, State.push, State.hp, State.growHeap, Word.add])
  exact ⟨_, hrun₁.trans (hrun₂.trans (hrun₃.trans hrun₄))⟩

theorem newSignature_ok {line : SourceLine} {cls : String} {shape : Shape} {sig : Signature}
    (h : newSignature line cls (.shape shape) = .ok sig) : sig = ⟨shape.fields, .ref cls⟩ := by
  simpa [newSignature, Ty.shape?] using h.symm

theorem computes_new (hK : K.Lawful) {args : List Expr}
    (hargs : ∀ e ∈ args, K.Computes fuel call e) (line : SourceLine) (cls : String)
    (entry : Option Entry) : K.Computes fuel call (.new line cls args entry) := by
  intro env ρ chain n s σ ty h hs
  obtain ⟨hp, hin, hn, ht, hnull⟩ := h
  simp only [Expr.nameErrors, List.append_eq_nil_iff] at hn
  obtain ⟨e, he⟩ := Env.entry_of_newErrors hn.1
  obtain ⟨l, hl, hshape⟩ := hK.shape (hs.knows.entry he)
  simp only [Expr.bind, Expr.infer, bind_ok_iff, he, bound, Except.ok.injEq] at ht
  obtain ⟨_, rfl, sig, hsig, hty⟩ := ht
  rw [hshape] at hsig
  obtain rfl := newSignature_ok hsig
  obtain ⟨rfl, hfit⟩ := fitting_of_callType hty hn.2 hnull
  simp only [Expr.bind, Expr.outline, he, Option.elim_some, length_bindAll, Image.placed_append,
    width_append, ← Nat.add_assoc, objectOutline_eq, width_moves, width_completion] at hp hin ⊢
  obtain ⟨hpargs, hpmoves, hprest⟩ := hp
  refine .assume_room hs.sound hs.low (by omega) fun hroom => ?_
  rw [eval]
  refine .bind ((computes_all hargs hfit hpargs (by omega) hs).mono ?_)
  rintro vs τ t ⟨ha, hvs⟩
  have hlen : args.length = vs.length := hfit.types.length_eq.trans hvs.length_eq
  rw [show args.length = vs.reverse.length by rw [List.length_reverse, hlen]] at hpmoves hprest
  rw [← ha.ip] at hpmoves hprest
  have hf := ha.forward
  rw [List.length_map, List.length_reverse] at hf
  have hlow : K.Low { t with
      stack := s.stack, heap := t.heap ++ vs.reverse, ip := t.ip + 6 * vs.reverse.length } := by
    refine hs.low.mono ?_
    simp only [Forward, ha.ip]
    omega
  obtain ⟨n₁, hrun₁⟩ := run_moves (ha.low hs.low) ha.stack ha.sound.pending hpmoves
  obtain ⟨n₂, hrun₂⟩ := run_completion hlow
    hroom (hs.sound.directory (hs.knows.entry he)) rfl (ha.heap.trans (List.prefix_append _ _))
    ha.sound.pending hprest
  simp only [hK.fields hl]
  -- where the new object does not fit, the run ends here
  refine ⟨_, _, hrun₁.trans hrun₂, or_iff_not_imp_left.2 fun hfull => ?_⟩
  have hheight : s.stack.length + 1 ≤ K.limit := by
    have hlow := hs.low
    unfold Low at hlow
    omega
  have hroom' := Classical.not_not.1 fun hnot =>
    hfull ⟨hnot, hheight, fun hbare => by rw [hbare cls] at hl; cases hl⟩
  have hbase : K.Sound { t with stack := s.stack } τ :=
    ha.sound.rebase hs.sound List.suffix_rfl rfl rfl rfl rfl ha.heap
  obtain ⟨υ, hconstruct, hsound, hextends, hobject⟩ := hbase.construct hl (by rfl) hvs hK hroom'
    (List.suffix_cons _ _) ha.sound.pending rfl (by simp)
  rw [hconstruct]
  refine ⟨⟨⟨by simp, ?_, ha.fp, ?_, ha.store.trans hextends, hsound⟩, ?_⟩,
    .inr ⟨_, hobject, .refl⟩⟩
  · simp only [ha.ip, List.length_reverse, hlen]
  · rw [List.append_assoc]
    exact ha.heap.trans (List.prefix_append _ _)
  · rw [List.length_singleton]
    omega

end World

end ObjectLang
