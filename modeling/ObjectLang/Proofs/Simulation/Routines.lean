import ObjectLang.Proofs.Holes
import ObjectLang.Proofs.Simulation.Objects

/-!
# Routines

Every expression computes once calls do what they should (`World.computes`).  Declarations leave
one word each on the stack, where the environment after them finds it
(`World.simulates_decls`).  A block sets up a frame, goes through the local declarations and the
body of its routine and takes the frame down again, so calls do what they should, by induction on
how deeply they are nested (`World.calls`).
-/

namespace ObjectLang

open Reference
open Segmented (Word State Grows Forward)
open Piece (plain)

@[simp] theorem length_placeParams (offset : Int) (ps : List TypedName) :
    (placeParams offset ps).length = ps.length := by
  induction ps generalizing offset with
  | nil => rfl
  | cons p ps ih => simp [placeParams, ih]

@[simp] theorem Decl.length_bindAll (env : Env) (ds : List Decl) :
    (Decl.bindAll env ds).length = ds.length := by
  induction ds generalizing env with
  | nil => rfl
  | cons d ds ih => simp [Decl.bindAll, ih]

namespace World

variable {K : World} {fuel : Nat} {call : Routine → Context → List Int64 → Eval Int64}
  {env : Env} {ρ : Context} {chain : List Word}

/-- **The code of an expression does what its evaluation does**, if calls do. -/
theorem computes (hK : K.Lawful) (hcall : K.Calls fuel call) (e : Expr) :
    K.Computes fuel call e := by
  induction e using Expr.ind with
  | int line v => exact computes_int line v
  | bool line b => exact computes_bool line b
  | null line => exact computes_null line
  | arith line op l r hl hr => exact computes_arith hl hr line op
  | compare line op l r hl hr => exact computes_compare hl hr line op
  | logic line op l r hl hr => exact computes_logic hl hr line op
  | not line e he => exact computes_not he line
  | cond line c t f hc ht hf => exact computes_cond hc ht hf line
  | print line e he => exact computes_print he line
  | ident line name b => exact computes_ident hK line name b
  | call line name args b hargs => exact computes_call hK hcall hargs line name b
  | send line receiver method args b hargs =>
    exact computes_send hK hcall hargs line receiver method b
  | new line cls args entry hargs => exact computes_new hK hargs line cls entry

/-! ### Declarations -/

variable (K env) in
/-- The code of declarations stands at an address, and nothing is wrong with them. -/
structure RunnableDecls (n k i : Nat) (ds : List Decl) : Prop where
  placed : K.img.Placed i (Decl.inlineAll n k (Decl.bindAll env ds))
  inside : i + width (Decl.inlineAll n k (Decl.bindAll env ds)) < K.img.size
  hoisted : Decl.hoistedAll n k (Decl.bindAll env ds) <:+: K.outline
  names : Decl.nameErrorsAll env ds = []
  types : Decl.typeErrorsAll K.hierarchy (Decl.bindAll env ds) = []
  annotations : K.plainTypes → ∀ ty ∈ Decl.annotationsAll ds, ty.isPlain = true
  nulls : Decl.mentionNull ds = true → K.nulls

/-- The next word on the stack is the next local declaration of the frame. -/
structure Aligned (s : State) (env : Env) (d : Int) : Prop where
  fp : s.fp = .cell d
  nonneg : 0 ≤ d
  next : s.stack.length + 1 = d - env.nextLocal
  below : env.nextLocal < 0

/-- The word with a given number of words below it. -/
theorem read_cell {s : State} (above : List Word) {below : List Word} {w : Word}
    (hst : s.stack = above ++ w :: below) {d : Int} (hd : d = below.length + 1) :
    s.read (.cell d) = some w := by
  have hdepth : d.toNat - 1 = below.reverse.length := by
    rw [List.length_reverse]
    omega
  rw [State.read, if_pos (by omega), hst, hdepth]
  simp

theorem Aligned.slot {s t : State} {d : Int} (h : Aligned s env d) {w : Word}
    (hst : t.stack = w :: s.stack) : t.slot (.cell d) env.nextLocal = some w := by
  have hnext := h.next
  have hbelow := h.below
  have hlen : t.stack.length = s.stack.length + 1 := by rw [hst, List.length_cons]
  rw [State.slot, if_pos ⟨h.nonneg, by omega⟩]
  exact read_cell [] hst hnext.symm

theorem Aligned.advance {s t : State} {σ τ : Store} {d : Int} (h : Aligned s env d) {v : Int64}
    {i : Nat} (ha : K.Advance s σ [.plain v] i t τ) (name : String) (ty : Ty) :
    Aligned t (env.declareLocal name ty) d where
  fp := ha.fp.trans h.fp
  nonneg := h.nonneg
  next := by
    have hnext := h.next
    rw [ha.stack, Env.nextLocal_declareLocal]
    simp only [List.cons_append, List.nil_append, List.length_cons]
    omega
  below := by
    have hbelow := h.below
    rw [Env.nextLocal_declareLocal]
    omega

/-- The first of several declarations is a variable. -/
theorem RunnableDecls.var {n k i : Nat} {v : Variable} {ds : List Decl}
    (h : K.RunnableDecls env n k i (.var v :: ds)) :
    (∃ found, K.Runnable env n i v.init found ∧ K.Sub found v.ty) ∧
      (K.plainTypes → v.ty.isPlain = true) ∧
      K.RunnableDecls (env.declareLocal v.name v.ty) (n + (v.init.bind env).labelCount) k
        (i + width ((v.init.bind env).outline n)) ds := by
  obtain ⟨hp, hin, hh, hn, ht, hplain, hnull⟩ := h
  simp only [Decl.bindAll, Decl.bind, Decl.extend, Decl.inlineAll, Decl.inline, Decl.hoistedAll,
    Decl.hoisted, Decl.labelCount, Decl.blockCount, Image.placed_append, width_append,
    ← Nat.add_assoc, List.nil_append, Nat.add_zero] at hp hin hh
  simp only [Decl.nameErrorsAll, Decl.nameErrors, Decl.extend, List.append_eq_nil_iff] at hn
  simp only [Decl.bindAll, Decl.bind, Decl.extend, Decl.typeErrorsAll, Decl.typeErrors,
    List.append_eq_nil_iff] at ht
  simp only [Decl.annotationsAll, Decl.annotations, List.mem_append, List.mem_singleton] at hplain
  simp only [Decl.mentionNull, Decl.mentionsNull, Bool.or_eq_true] at hnull
  obtain ⟨found, hf, hsub⟩ := Variable.check_ok (v.init.isBound_infer hn.1.1.2) ht.1
  exact ⟨⟨found, ⟨hp.1, by omega, hn.1.1.2, hf, fun hm => hnull (.inl hm)⟩,
      sub_of_isSubtype hsub⟩, fun hpl => hplain hpl v.ty (.inl rfl),
    ⟨hp.2, hin, hh, hn.2, ht.2, fun hpl ty hty => hplain hpl ty (.inr hty),
      fun hm => hnull (.inr hm)⟩⟩

/-- The first of several declarations is a function. -/
theorem RunnableDecls.fn {n k i : Nat} {f : Routine} {ds : List Decl}
    (h : K.RunnableDecls env n k i (.fn f :: ds)) (hknows : K.Knows env) :
    K.img.piece i = some (.instr (.op (.pushTarget (blockLabel k)))) ∧
      K.Ready (env.declareLocal f.name (.arrow f.signature)) f (K.img.address (blockLabel k)) ∧
      ∃ n' k', K.RunnableDecls (env.declareLocal f.name (.arrow f.signature)) n' k' (i + 1) ds ∧
        width (Decl.inlineAll n k (Decl.bindAll env (.fn f :: ds))) =
          1 + width (Decl.inlineAll n' k'
            (Decl.bindAll (env.declareLocal f.name (.arrow f.signature)) ds)) := by
  obtain ⟨hp, hin, hh, hn, ht, hplain, hnull⟩ := h
  simp only [Decl.bindAll, Decl.bind, Decl.extend, Decl.inlineAll, Decl.inline, straight_cons,
    straight_nil, plain_cons, plain_nil, List.cons_append, List.nil_append, Image.placed_op,
    width_cons_op] at hp hin ⊢
  simp only [Decl.bindAll, Decl.bind, Decl.extend, Decl.hoistedAll, Decl.hoisted,
    Routine.outline_offset] at hh
  simp only [Decl.nameErrorsAll, Decl.nameErrors, Decl.extend, List.append_eq_nil_iff] at hn
  simp only [Decl.bindAll, Decl.bind, Decl.extend, Decl.typeErrorsAll, Decl.typeErrors,
    Routine.typeErrors_offset, List.append_eq_nil_iff] at ht
  simp only [Decl.annotationsAll, Decl.annotations, List.mem_append] at hplain
  simp only [Decl.mentionNull, Decl.mentionsNull, Bool.or_eq_true] at hnull
  have hready : K.Ready (env.declareLocal f.name (.arrow f.signature)) f
      (K.img.address (blockLabel k)) :=
    { block := ⟨n, k, (List.prefix_append _ _).isInfix.trans hh, rfl⟩
      names := hn.1.2
      types := ht.1
      knows := by rw [Knows, Env.classes_declareLocal]; exact hknows
      annotations := fun hpl ty hty => hplain hpl ty (.inl hty)
      nulls := fun hm => hnull (.inl hm) }
  refine ⟨hp.1, hready, _, _, ⟨hp.2, by omega, (List.suffix_append _ _).isInfix.trans hh, hn.2,
    ht.2, fun hpl ty hty => hplain hpl ty (.inr hty), fun hm => hnull (.inr hm)⟩, ?_⟩
  rw [Nat.add_comm]

/-- Declarations leave one word each, and the names they declare are found there. -/
theorem simulates_decls (hK : K.Lawful) (hcall : K.Calls fuel call) {ds : List Decl} {n k : Nat}
    {s : State} {σ : Store} {d : Int} (h : K.RunnableDecls env n k s.ip ds)
    (hs : K.Situated s σ fuel env ρ chain) (hd : Aligned s env d) :
    K.Simulates fuel s (elaborate K.references call ρ ds σ) fun ρ' τ t =>
      ∃ vs : List Int64, vs.length = ds.length ∧
        K.Advance s σ (vs.map Word.plain)
          (s.ip + width (Decl.inlineAll n k (Decl.bindAll env ds))) t τ ∧
        K.Represents t τ (Decl.extendAll env ds) ρ' chain := by
  induction ds generalizing env ρ n k s σ with
  | nil => exact .pure ⟨[], rfl, .refl hs.sound, hs.represents⟩
  | cons decl ds ih =>
    cases decl with
    | var v =>
      obtain ⟨⟨found, hrun, hsub⟩, hplain, hrest⟩ := h.var
      rw [elaborate]
      refine .bind ((computes hK hcall v.init hrun hs).mono ?_)
      rintro w τ t ⟨ha, hw⟩
      have hslot : t.slot s.fp env.nextLocal = some (.plain w) := hd.fp ▸ hd.slot ha.stack
      have hrep := (hs.advance ha).represents.declare_word v.name
        (e := env.localEntry v.ty) rfl hs.fp hslot (hsub τ w hw)
        fun hpl => Ty.isMethod_of_isPlain (hplain hpl)
      have hsit : K.Situated t τ fuel (env.declareLocal v.name v.ty) (ρ.bind v.name (.word w))
          chain :=
        ⟨hrep.of_scopes rfl, ha.sound, by rw [ha.fp]; exact hs.fp,
          by rw [Knows, Env.classes_declareLocal]; exact hs.knows, (hs.advance ha).spare⟩
      refine (ih (ha.ip ▸ hrest) hsit (hd.advance ha v.name v.ty)).mono ?_
      rintro ρ' υ u ⟨vs, hlen, hb, hrep'⟩
      refine ⟨vs ++ [w], by simp [hlen], ?_, hrep'⟩
      rw [List.map_append]
      have htrans := ha.trans hb
      simp only [Decl.bindAll, Decl.bind, Decl.extend, Decl.inlineAll, Decl.inline, width_append,
        Decl.labelCount, Decl.blockCount, Nat.add_zero, ← Nat.add_assoc]
      rw [ha.ip] at htrans
      exact htrans
    | fn f =>
      obtain ⟨hp, hready, n', k', hrest, hwidth⟩ := h.fn hs.knows
      have hrun : K.Run 1 s { s with
          stack := .plain (Int64.ofNat (K.img.address (blockLabel k))) :: s.stack,
          ip := s.ip + 1 } := run_op hs.low hp rfl
      have ha : K.Advance s σ [.plain (Int64.ofNat (K.img.address (blockLabel k)))] (s.ip + 1)
          { s with stack := .plain (Int64.ofNat (K.img.address (blockLabel k))) :: s.stack,
                   ip := s.ip + 1 } σ :=
        (Advance.refl hs.sound).replace hs.sound rfl rfl rfl rfl rfl rfl rfl (Nat.add_comm _ _).le
      have hslot := hd.slot ha.stack
      rw [← hd.fp] at hslot
      have hrep := (hs.advance ha).represents.declare_fn hs.fp hslot hready
      have hsit : K.Situated _ σ fuel (env.declareLocal f.name (.arrow f.signature))
          (ρ.bind f.name (.fn f ρ.names ρ.this)) chain :=
        ⟨hrep, ha.sound, hs.fp, hready.knows, (hs.advance ha).spare⟩
      rw [elaborate]
      refine .run hrun ((ih hrest hsit (hd.advance ha f.name _)).mono ?_)
      rintro ρ' υ u ⟨vs, hlen, hb, hrep'⟩
      refine ⟨vs ++ [Int64.ofNat (K.img.address (blockLabel k))], by simp [hlen], ?_, hrep'⟩
      rw [List.map_append, hwidth, ← Nat.add_assoc]
      exact ha.trans hb

/-! ### Blocks -/

/-- Parameters are found above the access link. -/
theorem Represents.withParams {s : State} {σ : Store} {link : Word} (offset : Int)
    {ps : List TypedName} {vs : List Int64} (h : K.Represents s σ env ρ (link :: chain))
    (hslots : ∀ (j : Nat) v, vs[j]? = some v → s.slot link (offset + j) = some (.plain v))
    (hvs : List.Forall₂ (K.Holds σ) (ps.map (·.ty)) vs)
    (hplain : K.plainTypes → ∀ p ∈ ps, p.ty.isPlain = true) :
    K.Represents s σ (env.withParams offset ps) (ρ.enter ps vs) (link :: chain) := by
  induction ps generalizing env ρ offset vs with
  | nil =>
    cases hvs
    exact h
  | cons p ps ih =>
    obtain _ | ⟨v, vs⟩ := vs
    · cases hvs
    obtain ⟨hv, hvs⟩ := List.forall₂_cons.1 hvs
    have hrep := h.declare_word p.name (e := ⟨env.level, p.ty, offset⟩) (v := v) rfl rfl
      (by simpa using hslots 0 v rfl) hv
      fun hpl => Ty.isMethod_of_isPlain (hplain hpl p List.mem_cons_self)
    refine ih _ hrep (fun j w hw => ?_) hvs fun hpl q hq => hplain hpl q (List.mem_cons_of_mem _ hq)
    have hslot := hslots (j + 1) w (by simpa using hw)
    rw [← hslot]
    congr 1
    push_cast
    omega

/-- Arguments have the offsets of parameters. -/
theorem slot_argument {s : State} (above : List Word) {rest : List Word} {args : List Int64}
    {d : Int} (hst : s.stack = above ++ (args.map Word.plain ++ rest))
    (hd : d = args.length + rest.length + 1) (hle : d ≤ s.stack.length) {j : Nat} {v : Int64}
    (hv : args[j]? = some v) : s.slot (.cell d) (firstParam + j) = some (.plain v) := by
  obtain ⟨hlt, hget⟩ := List.getElem?_eq_some_iff.1 hv
  have hsplit : args = args.take j ++ v :: args.drop (j + 1) := by
    rw [← hget, List.getElem_cons_drop, List.take_append_drop]
  have hst' : s.stack = above ++ (args.take j).map Word.plain ++
      Word.plain v :: ((args.drop (j + 1)).map Word.plain ++ rest) := by
    rw [hst]
    conv => lhs; rw [hsplit]
    simp
  rw [State.slot, if_pos ⟨by omega, hle⟩]
  refine read_cell _ hst' ?_
  simp only [List.length_append, List.length_map, List.length_drop, firstParam]
  omega

/-- The end of a block takes the frame down and leaves the result in its place. -/
theorem run_epilogue (hK : K.Lawful) {t : State} (hlow : K.Low t) {v : Int64}
    {vs args : List Int64} {ret : Nat} {link fp : Word} {rest : List Word}
    (hst : t.stack = .plain v :: (vs.map Word.plain ++
      .plain (Int64.ofNat ret) :: link :: (args.map Word.plain ++ fp :: rest)))
    (hret : ret < K.img.size) (hp : K.img.Placed t.ip (plain (epilogue args.length vs.length))) :
    ∃ n ra, K.Run n t { t with
      stack := .plain v :: rest, ip := ret, fp := fp, ra := ra, tm := .plain v } := by
  obtain ⟨st, heap, pending, ip, fp', ra, tm, output, made⟩ := t
  simp only at hst hp
  subst hst
  have hcode : epilogue args.length vs.length =
      straight (.stm :: (List.replicate vs.length .pop ++ (.sra :: .pop ::
        (List.replicate args.length .pop ++ [.sfp, .ltm, .lra])))) ++ straight [.js] := by
    simp [epilogue, straight]
  rw [hcode, plain_append, Image.placed_append, width_plain_straight] at hp
  simp only [List.length_cons, List.length_append, List.length_replicate, List.length_nil] at hp
  have hdown : Segmented.execAll K.img (.stm :: (List.replicate vs.length .pop ++ (.sra :: .pop ::
        (List.replicate args.length .pop ++ [.sfp, .ltm, .lra]))))
      ⟨.plain v :: (vs.map Word.plain ++
        .plain (Int64.ofNat ret) :: link :: (args.map Word.plain ++ fp :: rest)), heap, pending, ip,
        fp', ra, tm, output, made⟩ =
      .next ⟨.plain (Int64.ofNat ret) :: .plain v :: rest, heap, pending,
        ip + (vs.length + (args.length + 6)), fp, .plain (Int64.ofNat ret), .plain v, output,
        made⟩ := by
    rw [Segmented.execAll_stm, Segmented.execAll_pops _ _ _ _ _ _ _ _ _ _ _ _ _ (by simp),
      Segmented.execAll_sra, Segmented.execAll_pop,
      Segmented.execAll_pops _ _ _ _ _ _ _ _ _ _ _ _ _ (by simp), Segmented.execAll_sfp,
      Segmented.execAll_ltm, Segmented.execAll_lra, Segmented.execAll_nil]
    congr 2
    omega
  have hrun := run_straight hlow _ (by simp [Op.fallsThrough]) hp.1 hdown
  have hjs : K.img.piece (ip + (vs.length + (args.length + 6))) = some (.instr (.op .js)) := by
    rw [← hp.2.1]
    congr 1
  have hlow' : K.Low ⟨.plain (Int64.ofNat ret) :: .plain v :: rest, heap, pending,
      ip + (vs.length + (args.length + 6)), fp, .plain (Int64.ofNat ret), .plain v, output,
      made⟩ := by
    refine hlow.mono ?_
    simp only [Forward, List.length_cons, List.length_append, List.length_map]
    omega
  have hjump := run_jump hK hret (u := ⟨.plain (Int64.ofNat ret) :: .plain v :: rest, heap, pending,
      ip + (vs.length + (args.length + 6)), fp, .plain (Int64.ofNat ret), .plain v, output, made⟩)
    rfl hjs (fun _ => rfl) (hlow'.observes_of_instr hjs)
  exact ⟨_, _, hrun.trans hjump⟩

/-- What the block of a routine consists of. -/
theorem Ready.code (hK : K.Lawful) {f : Routine} {a : Nat} (h : K.Ready env f a) :
    ∃ n k m found, K.img.Placed a (plain (straight [.cfp, .lra])) ∧
      K.RunnableDecls (env.enterRoutine f.params) n k (a + 2) f.decls ∧
      K.Runnable (Decl.extendAll (env.enterRoutine f.params) f.decls) m
        (a + 2 + width (Decl.inlineAll n k (Decl.bindAll (env.enterRoutine f.params) f.decls)))
        f.body found ∧ K.Sub found f.ret ∧
      K.img.Placed
        (a + 2 + width (Decl.inlineAll n k (Decl.bindAll (env.enterRoutine f.params) f.decls)) +
          width ((f.body.bind (Decl.extendAll (env.enterRoutine f.params) f.decls)).outline m))
        (plain (epilogue f.params.length f.decls.length)) := by
  obtain ⟨⟨n, k, hinfix, rfl⟩, hn, ht, -, hplain, hnull⟩ := h
  obtain ⟨name, params, ret, decls, body, line, offset⟩ := f
  obtain ⟨i, hp⟩ := hK.placed_infix hinfix
  simp only [Routine.bindInner, Routine.outline, length_placeParams, Decl.length_bindAll]
    at hinfix hp
  simp only [Image.placed_append, blockOutline, plain_append, plain_cons, plain_nil,
    Image.placed_label, Image.placed_nil, and_true, width_append, width_cons_label, width_nil,
    width_plain_straight, List.length_cons, List.length_nil, Nat.zero_add, Nat.reduceAdd,
    ← Nat.add_assoc] at hp
  obtain ⟨-, ⟨⟨⟨haddress, hstart⟩, hdecls⟩, hbody⟩, hend⟩ := hp
  rw [haddress]
  simp only [Routine.innerErrors, List.append_eq_nil_iff] at hn
  simp only [Routine.bindInner, Routine.typeErrors, List.append_eq_nil_iff] at ht
  simp only [Routine.annotations, List.mem_append, List.mem_cons] at hplain
  simp only [Routine.mentionsNull, Bool.or_eq_true] at hnull
  obtain ⟨found, hf, hsub⟩ := checkBody_ok (body.isBound_infer hn.2) ht.2
  have hsize : ∀ {j : Nat}, K.img.Placed j (plain (epilogue params.length decls.length)) →
      j < K.img.size := fun h => World.lt_size (p := .instr (.op .stm)) h.1
  have hlast := hsize hend
  refine ⟨n, k + 1, _, found, hstart, ⟨hdecls, ?_, ?_, hn.1.2, ht.1, ?_, ?_⟩,
    ⟨hbody, hlast, hn.2, hf, fun hm => hnull (.inr hm)⟩, sub_of_isSubtype hsub, hend⟩
  · exact Nat.lt_of_le_of_lt (Nat.le_add_right _ _) hlast
  · exact (List.prefix_append _ _).isInfix.trans hinfix
  · exact fun hpl ty hty => hplain hpl ty (.inr (.inr hty))
  · exact fun hm => hnull (.inl hm)

/-- The names inside a routine, once its frame has been set up. -/
theorem situated_enter {f : Routine} {a : Nat} (ret : Nat) {link fp : Word} {rest : List Word}
    {args : List Int64} {s : State} {σ : Store} (hready : K.Ready env f a)
    (hrep : K.Represents s σ env ρ chain) (hlink : chain[0]? = some link)
    (hst : s.stack = link :: (args.map Word.plain ++ fp :: rest))
    (hsound : K.Sound { s with stack := rest } σ)
    (hargs : List.Forall₂ (K.Holds σ) (f.params.map (·.ty)) args)
    (hspare : s.stack.length + (fuel + 1) * K.img.size ≤ K.limit) :
    K.Situated { s with
        stack := .plain (Int64.ofNat ret) :: s.stack, ip := a + 2, fp := .cell s.stack.length } σ
      fuel (env.enterRoutine f.params) (ρ.enter f.params args) (.cell s.stack.length :: chain) := by
  have hlen : (s.stack.length : Int) = args.length + (fp :: rest).length + 1 := by
    rw [hst]
    simp only [List.length_cons, List.length_append, List.length_map]
    push_cast
    omega
  have hg : Grows s { s with
      stack := .plain (Int64.ofNat ret) :: s.stack, ip := a + 2, fp := .cell s.stack.length } :=
    ⟨List.suffix_cons _ _, List.prefix_rfl⟩
  have hread : State.read { s with
      stack := .plain (Int64.ofNat ret) :: s.stack, ip := a + 2, fp := .cell s.stack.length }
      (.cell s.stack.length) = some link := by
    refine read_cell [.plain (Int64.ofNat ret)] (congrArg (_ :: ·) hst) ?_
    simpa using hlen
  have hplain : K.plainTypes → ∀ p ∈ f.params, p.ty.isPlain = true := by
    intro hpl p hp
    refine hready.annotations hpl p.ty ?_
    cases f
    exact List.mem_append_left _ (List.mem_map_of_mem hp)
  have hparams := ((hrep.mono hg (.refl σ)).enter hlink hread).withParams firstParam
    (fun j v hv => slot_argument [.plain (Int64.ofNat ret), link]
      (congrArg (_ :: ·) hst) hlen (by simp only [List.length_cons]; omega) hv) hargs hplain
  have hrest : rest <:+ .plain (Int64.ofNat ret) :: s.stack :=
    ⟨.plain (Int64.ofNat ret) :: link :: (args.map Word.plain ++ [fp]), by simp [hst]⟩
  refine ⟨hparams, ?_, rfl, ?_, ?_⟩
  · exact hsound.push hrest rfl rfl rfl rfl
  · rw [Knows, Env.classes_enterRoutine]
    exact hready.knows
  · simp only [List.length_cons]
    omega

/-- The block of a routine does what a call does, if calls nested less deeply do. -/
theorem Calls.succ (hK : K.Lawful) (hcall : K.Calls fuel (invoke K.references fuel)) :
    K.Calls (fuel + 1) (invoke K.references (fuel + 1)) := by
  intro f env ρ chain link fp rest args a ret s σ hready hrep hlink hip hst hra hret hsound hargs
    hspare
  obtain ⟨n, k, m, found, hstart, hdecls, hbody, hsub, hend⟩ := hready.code hK
  have hrun : K.Run 2 s { s with
      stack := .plain (Int64.ofNat ret) :: s.stack, ip := a + 2, fp := .cell s.stack.length } := by
    refine run_straight ?_ [.cfp, .lra] rfl (hip ▸ hstart) ?_
    · rw [Nat.add_mul, Nat.one_mul] at hspare
      unfold Low
      omega
    · rw [← hip, ← hra]
      rfl
  have hsit := situated_enter ret hready hrep hlink hst hsound hargs hspare
  have haligned : Aligned { s with
      stack := .plain (Int64.ofNat ret) :: s.stack, ip := a + 2, fp := .cell s.stack.length }
      (env.enterRoutine f.params) s.stack.length := by
    refine ⟨rfl, by omega, ?_, ?_⟩ <;> rw [Env.nextLocal_enterRoutine, firstLocal]
    · simp only [List.length_cons]
      push_cast
      omega
    · omega
  rw [invoke]
  refine ((?_ : K.Simulates fuel _ _ _).after hrun).weaken (by omega)
  refine .bind ((simulates_decls hK hcall hdecls hsit haligned).mono ?_)
  rintro ρ' τ t ⟨vs, hlen, ha, hrep'⟩
  have hsit' : K.Situated t τ fuel (Decl.extendAll (env.enterRoutine f.params) f.decls) ρ'
      (.cell s.stack.length :: chain) :=
    ⟨hrep', ha.sound, by rw [ha.fp]; rfl,
      by rw [Knows, Decl.classes_extendAll]; exact hsit.knows, (hsit.advance ha).spare⟩
  refine (computes hK hcall f.body (ha.ip ▸ hbody) hsit').extend ?_
  rintro v υ u ⟨hb, hv⟩
  have hadv := ha.trans hb
  have hstack : u.stack = .plain v :: (vs.map Word.plain ++
      .plain (Int64.ofNat ret) :: link :: (args.map Word.plain ++ fp :: rest)) := by
    rw [hadv.stack, ← hst]
    rfl
  have hcount : f.params.length = args.length := by simpa using hargs.length_eq
  rw [hcount, ← hlen, ← ha.ip, ← hb.ip] at hend
  obtain ⟨steps, ra, hdown⟩ := run_epilogue hK (hadv.low hsit.low) hstack hret hend
  refine ⟨steps, _, hdown, ⟨rfl, rfl, rfl, hadv.heap, hadv.store, ?_⟩, hsub υ v hv⟩
  exact hb.sound.rebase hsound (List.suffix_cons _ _) rfl rfl rfl rfl hadv.heap

/-- **The block of a routine does what a call of the routine does.** -/
theorem calls (hK : K.Lawful) (fuel : Nat) : K.Calls fuel (invoke K.references fuel) := by
  induction fuel with
  | zero =>
    intro f env ρ chain link fp rest args a ret s σ _ _ _ _ _ _ _ _ _ _
    exact .of_run (.refl s) (Nat.zero_le _)
  | succ fuel ih => exact ih.succ hK

end World

end ObjectLang
