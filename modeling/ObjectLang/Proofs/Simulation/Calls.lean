import ObjectLang.Proofs.Simulation.Uses

/-!
# Calls

A call leaves the control link, the arguments and the access link on the stack and jumps to a block.
What the block does is an assumption here (`World.Calls`); under it, calls of functions
(`World.computes_call`) and of methods (`World.computes_send`) do what their evaluation does.

The jump of a method call is where runs are watched: what `World.Observes` asks of the state before
it is shown here, and nowhere else.
-/

namespace ObjectLang

open Reference
open Segmented (Word State Grows Forward)
open Piece (plain)

namespace World

variable (K : World)

/-- The block of a routine does what a call of the routine does.  At its start there are the access
link and the arguments on the stack, and below them the control link; and for every call that the
fuel allows there is as much room on the stack as there is code. -/
def Calls (fuel : Nat) (call : Routine → Context → List Int64 → Eval Int64) : Prop :=
  ∀ {f : Routine} {env : Env} {ρ : Context} {chain : List Word} {link fp : Word}
    {rest : List Word} {args : List Int64} {a ret : Nat} {s : State} {σ : Store},
    K.Ready env f a → K.Represents s σ env ρ chain →
    chain[0]? = some link → s.ip = a → s.stack = link :: (args.map Word.plain ++ fp :: rest) →
    s.ra = .plain (Int64.ofNat ret) → ret < K.img.size → K.Sound { s with stack := rest } σ →
    List.Forall₂ (K.Holds σ) (f.params.map (·.ty)) args →
    s.stack.length + fuel * K.img.size ≤ K.limit →
    K.Simulates fuel s (call f ρ args σ) fun v τ t =>
      K.Reaches { s with stack := rest, fp := fp } σ [.plain v] ret t τ ∧ K.Holds τ f.ret v

variable {K} {fuel : Nat} {call : Routine → Context → List Int64 → Eval Int64}
  {env : Env} {ρ : Context} {chain : List Word}

/-! ### Arguments -/

variable (K env) in
/-- Nothing is wrong with arguments for parameters of the given types. -/
structure Fitting (args : List Expr) (tys : List Ty) : Prop where
  names : Expr.nameErrorsAll env args = []
  types : List.Forall₂
    (fun e ty => ∃ found, (e.bind env).infer K.hierarchy = .ok found ∧ K.Sub found ty) args tys
  nulls : Expr.mentionNull args = true → K.nulls

theorem Fitting.cons {e : Expr} {es : List Expr} {ty : Ty} {tys : List Ty}
    (h : K.Fitting env (e :: es) (ty :: tys)) :
    e.nameErrors env = [] ∧ (∃ found, (e.bind env).infer K.hierarchy = .ok found ∧
      K.Sub found ty) ∧ (e.mentionsNull = true → K.nulls) ∧ K.Fitting env es tys := by
  obtain ⟨hn, ht, hnull⟩ := h
  simp only [Expr.nameErrorsAll, List.append_eq_nil_iff] at hn
  simp only [Expr.mentionNull, Bool.or_eq_true] at hnull
  obtain ⟨he, hes⟩ := List.forall₂_cons.1 ht
  exact ⟨hn.1, he, fun hm => hnull (.inl hm), hn.2, hes, fun hm => hnull (.inr hm)⟩

@[simp] theorem length_bindAll (es : List Expr) : (Expr.bindAll env es).length = es.length := by
  rw [Expr.bindAll_eq_map, List.length_map]

theorem fitting_of_callType {line : SourceLine} {name : String} {sig : Signature}
    {position : Nat} {es : List Expr} {ty : Ty}
    (h : callType line name sig (Expr.bindAll env es).length
      (Expr.checkArgs K.hierarchy line name position (Expr.bindAll env es) sig.params) = .ok ty)
    (hn : Expr.nameErrorsAll env es = []) (hnull : Expr.mentionNull es = true → K.nulls) :
    ty = sig.ret ∧ K.Fitting env es sig.params := by
  obtain ⟨hty, hargs⟩ := args_of_callType h
  rw [Expr.bindAll_eq_map, List.forall₂_map_left_iff] at hargs
  refine ⟨hty, hn, hargs.imp ?_, hnull⟩
  rintro e ty ⟨found, hf, hsub⟩
  exact ⟨found, hf, sub_of_isSubtype hsub⟩

theorem holds_mono {σ τ : Store} (h : σ.Extends τ) {tys : List Ty} {vs : List Int64}
    (hv : List.Forall₂ (K.Holds σ) tys vs) : List.Forall₂ (K.Holds τ) tys vs :=
  hv.imp fun _ _ hv => hv.mono h

/-- Arguments evaluated from the last to the first: the first is on top of the stack. -/
theorem computes_reversed {es : List Expr} (hes : ∀ e ∈ es, K.Computes fuel call e)
    {tys : List Ty} (hfit : K.Fitting env es tys) {n : Nat} {s : State} {σ : Store}
    (hp : K.img.Placed s.ip (Expr.outlineReversed n (Expr.bindAll env es)))
    (hin : s.ip + width (Expr.outlineReversed n (Expr.bindAll env es)) < K.img.size)
    (hs : K.Situated s σ fuel env ρ chain) :
    K.Simulates fuel s (evalReversed K.references call ρ es σ) fun vs τ t =>
      K.Advance s σ (vs.map Word.plain)
        (s.ip + width (Expr.outlineReversed n (Expr.bindAll env es))) t τ ∧
      List.Forall₂ (K.Holds τ) tys vs := by
  induction es generalizing tys with
  | nil =>
    cases hfit.types
    rw [evalReversed]
    exact .pure ⟨.refl hs.sound, .nil⟩
  | cons e es ih =>
    obtain _ | ⟨ty, tys⟩ := tys
    · cases hfit.types
    obtain ⟨hn, ⟨found, ht, hsub⟩, hnull, hrest⟩ := hfit.cons
    simp only [Expr.bindAll, Expr.outlineReversed, Image.placed_append, width_append,
      ← Nat.add_assoc] at hp hin ⊢
    have hes' := ih (fun e he => hes e (List.mem_cons_of_mem _ he)) hrest hp.1 (by omega)
    rw [evalReversed]
    refine .bind (hes'.mono ?_)
    rintro vs τ t ⟨ha, hvs⟩
    have hrun : K.Runnable env _ t.ip e found :=
      ⟨by rw [ha.ip]; exact hp.2, by rw [ha.ip]; exact hin, hn, ht, hnull⟩
    have he := hes e List.mem_cons_self hrun (hs.advance ha)
    refine .bind (he.mono ?_)
    rintro v υ u ⟨hb, hv⟩
    rw [ha.ip] at hb
    exact .pure ⟨ha.trans hb, .cons (hsub υ v hv) (holds_mono hb.store hvs)⟩

/-- The control link and the arguments, before what comes after them. -/
theorem simulates_arguments {es : List Expr} (hes : ∀ e ∈ es, K.Computes fuel call e)
    {tys : List Ty} (hfit : K.Fitting env es tys) {n : Nat} {rest : List Piece} {s : State}
    {σ : Store}
    (hp : K.img.Placed s.ip
      (plain (straight [.lfp]) ++ Expr.outlineReversed n (Expr.bindAll env es) ++ rest))
    (hin : s.ip + 1 + width (Expr.outlineReversed n (Expr.bindAll env es)) < K.img.size)
    (hs : K.Situated s σ fuel env ρ chain) {f : List Int64 → Eval Int64}
    {P : Int64 → Store → State → Prop}
    (hf : ∀ {vs : List Int64} {t : State} {τ : Store},
      K.Advance s σ (vs.map Word.plain ++ [s.fp])
        (s.ip + 1 + width (Expr.outlineReversed n (Expr.bindAll env es))) t τ →
      List.Forall₂ (K.Holds τ) tys vs → K.Simulates fuel t (f vs τ) P) :
    K.Simulates fuel s ((evalReversed K.references call ρ es >>= f) σ) P := by
  simp only [Image.placed_append, width_plain_straight, List.length_singleton] at hp
  have hlink : K.Run 1 s { s with stack := s.fp :: s.stack, ip := s.ip + 1 } :=
    run_straight hs.low [.lfp] rfl hp.1.1 rfl
  have hadv : K.Advance s σ [s.fp] (s.ip + 1)
      { s with stack := s.fp :: s.stack, ip := s.ip + 1 } σ :=
    (Advance.refl hs.sound).replace hs.sound rfl rfl rfl rfl rfl rfl rfl (Nat.add_comm _ _).le
  have hargs := computes_reversed hes hfit
    (s := { s with stack := s.fp :: s.stack, ip := s.ip + 1 }) hp.1.2 hin (hs.advance hadv)
  refine .run hlink (.bind (hargs.mono ?_))
  rintro vs τ t ⟨ha, hvs⟩
  exact hf (hadv.trans ha) hvs

/-! ### Arriving at a block -/

/-- Links are followed along the chain. -/
theorem follow_linked {s : State} {chain : List Word} (hl : s.Linked chain) {a b : Word}
    (ha : chain[0]? = some a) {hops : Nat} (hb : chain[hops]? = some b) :
    s.follow hops a = some b := by
  induction hops generalizing chain a with
  | zero => rw [← hb, ha, State.follow]
  | succ hops ih =>
    obtain _ | ⟨a', _ | ⟨c, chain⟩⟩ := chain
    · cases ha
    · cases hb
    · obtain rfl : a' = a := by simpa using ha
      obtain ⟨hac, hl⟩ := List.isChain_cons_cons.1 hl
      rw [State.follow, hac, Option.bind_some]
      exact ih hl rfl (by simpa using hb)

section Receiver

variable {s t : State} {σ : Store} (h : K.Situated s σ fuel env ρ chain) (hg : Grows s t)
  (hfp : t.fp = s.fp) {hops : Nat} {link : Word} (hlink : chain[hops]? = some link)
include h hg hfp hlink

theorem Situated.receiver_link (name : String) :
    t.receiver ⟨hops, none, name⟩ = some link := by
  have hfollow : t.follow hops t.fp = some link :=
    follow_linked (hg.linked h.represents.linked) (by rw [hfp]; exact h.fp) hlink
  rw [State.receiver, hfollow]
  rfl

theorem Situated.receiver_variable (hroom : s.Room) {offset : Int} {w : Word}
    (hslot : s.slot link offset = some w) (name : String) :
    t.receiver ⟨hops, some offset, name⟩ = some w := by
  have hfollow : t.follow hops t.fp = some link :=
    follow_linked (hg.linked h.represents.linked) (by rw [hfp]; exact h.fp) hlink
  obtain ⟨a, ha, hr⟩ := hroom.address hslot
  rw [State.receiver, hfollow]
  simp only [Option.bind_some, ha]
  exact hg.read hr

end Receiver

/-- The jump of a call, whichever piece of code it is. -/
theorem run_jump {a : Nat} (hK : K.Lawful) (ha : a < K.img.size) {u : State} {rest : List Word}
    (hst : u.stack = .plain (Int64.ofNat a) :: rest) {p : Piece} (hp : K.img.piece u.ip = some p)
    (hjump : ∀ s, Segmented.perform K.img s p = s.jump K.img.size) (hobs : K.Observes u) :
    K.Run 1 u { u with stack := rest, ip := a, ra := .plain (Int64.ofNat (u.ip + 1)) } := by
  refine Segmented.Steps.single hobs ?_
  have hsize := hK.size
  have hto : (Int64.ofNat a).toNatClampNeg = a := Int64.toNatClampNeg_ofNat_of_lt (by omega)
  rw [Segmented.step, hp]
  simp only [hjump, State.jump, hst, hto]
  rw [if_pos ⟨zero_le_ofNat (by omega), ha⟩]

/-- A jump to the block of a routine with everything in place. -/
theorem Calls.arrive (hcall : K.Calls fuel call) {f : Routine} {env' : Env} {ρ' : Context}
    {chain' : List Word} {link w : Word} {a i j : Nat} {args : List Int64} {s t u : State}
    {σ τ : Store} (hready : K.Ready env' f a) (hs : K.Sound s σ)
    (hadv : K.Advance s σ (args.map Word.plain ++ [s.fp]) i t τ)
    (hrep : K.Represents t τ env' ρ' chain') (hlink : chain'[0]? = some link)
    (hu : u = { t with stack := .plain (Int64.ofNat a) :: link :: t.stack, ip := j, tm := w })
    (hjump : K.Run 1 u
      { u with stack := link :: t.stack, ip := a, ra := .plain (Int64.ofNat (u.ip + 1)) })
    (hij : i ≤ j) (hin : j + 1 < K.img.size)
    (hargs : List.Forall₂ (K.Holds τ) (f.params.map (·.ty)) args)
    (hspare : t.stack.length + (fuel + 1) * K.img.size ≤ K.limit + t.ip) :
    K.Simulates fuel u (call f ρ' args τ) fun v υ u' =>
      K.Advance s σ [.plain v] (j + 1) u' υ ∧ K.Holds υ f.ret v := by
  subst hu
  have hst : t.stack = args.map Word.plain ++ s.fp :: s.stack := by
    rw [hadv.stack, List.append_assoc, List.singleton_append]
  have hrep' : K.Represents { t with
      stack := link :: t.stack, ip := a, ra := .plain (Int64.ofNat (j + 1)), tm := w } τ env' ρ'
      chain' := hrep.mono ⟨List.suffix_cons _ _, List.prefix_rfl⟩ (.refl τ)
  have hsound : K.Sound { t with
      stack := s.stack, ip := a, ra := .plain (Int64.ofNat (j + 1)), tm := w } τ :=
    hadv.sound.rebase hs List.suffix_rfl rfl rfl rfl rfl hadv.heap
  have hroom : (link :: t.stack).length + fuel * K.img.size ≤ K.limit := by
    rw [hadv.ip, Nat.add_mul, Nat.one_mul] at hspare
    rw [List.length_cons]
    omega
  refine .run hjump ((hcall hready hrep' hlink rfl (congrArg (link :: ·) hst) rfl hin hsound
    hargs hroom).mono ?_)
  rintro v υ u' ⟨ha, hv⟩
  refine ⟨?_, hv⟩
  have hf := hadv.forward
  rw [List.length_append, List.length_singleton] at hf
  refine ⟨⟨ha.stack, ha.ip, ha.fp, hadv.heap.trans ha.heap, hadv.store.trans ha.store,
    ha.sound⟩, ?_⟩
  rw [List.length_singleton]
  omega

theorem SubSignature.args {sig sig' : Signature} (h : K.SubSignature sig' sig) {σ : Store}
    {vs : List Int64} (hv : List.Forall₂ (K.Holds σ) sig.params vs) :
    List.Forall₂ (K.Holds σ) sig'.params vs := holds_params h.params hv

/-- The jump of a method call: it can be observed, and goes to the method of the object. -/
theorem Calls.dispatch (hK : K.Lawful) (hcall : K.Calls fuel call) {this : Int64} {o : Object}
    {slot : Slot} {f : Routine} {a i j k : Nat} {sig : Signature} {args : List Int64} {w : Word}
    {s t u : State} {σ τ : Store} {site : MethodSite} (ho : τ.object? this = some o)
    (himp : K.Implements o.cls k slot f a) (hsub : K.SubSignature f.signature sig)
    (hs : K.Sound s σ) (hadv : K.Advance s σ (args.map Word.plain ++ [s.fp]) i t τ)
    (hu : u = { t with
      stack := .plain (Int64.ofNat a) :: .plain this :: t.stack, ip := j, tm := w })
    (hp : K.img.piece j = some (.dispatch site)) (hsite : slot.name = site.method)
    (hrecv : u.receiver site = some (.plain this)) (hij : i + 2 ≤ j) (hin : j + 1 < K.img.size)
    (hargs : List.Forall₂ (K.Holds τ) sig.params args) (hsit : K.Situated t τ fuel env ρ chain) :
    K.Simulates fuel u (Reference.dispatch K.references call this o site.method args τ)
      fun v υ u' => K.Advance s σ [.plain v] (j + 1) u' υ ∧ K.Holds υ sig.ret v := by
  obtain ⟨env', owner, hin', hd, hready⟩ := himp.ready
  obtain ⟨n, l, -, hhouses⟩ := hadv.sound.object ho
  have hrep : K.Represents t τ env' ⟨[], some this⟩ [.plain this] :=
    .of_class hK hin' ho hd hhouses.inhabited
  have ha := hready.lt_size hK
  have hobs : K.Observes u := by
    subst hu
    have hip := hadv.ip
    refine Low.observes (hsit.low.mono ?_) hp fun site' hsite' => ?_
    · simp only [Forward, List.length_cons]
      omega
    obtain rfl : site = site' := by simpa using hp.symm.trans hsite'
    refine ⟨a, this, t.stack, rfl, ha, hrecv, fun cls hmade => ?_⟩
    rw [hadv.sound.cls_of_made ho hmade, ← hsite]
    exact himp.compiled
  have hjump : K.Run 1 u { u with
      stack := .plain this :: t.stack, ip := a, ra := .plain (Int64.ofNat (u.ip + 1)) } :=
    run_jump hK ha (by rw [hu]) (p := .dispatch site) (by rw [hu]; exact hp) (fun _ => rfl) hobs
  have hdecl : K.references.method? o.cls site.method = some f := hsite ▸ himp.declared
  simp only [Reference.dispatch, hdecl]
  refine (hcall.arrive hready hs hadv hrep rfl hu hjump (by omega) hin (hsub.args hargs)
    hsit.spare).mono ?_
  rintro v υ u' ⟨hadv', hv⟩
  exact ⟨hadv', hsub.ret υ v hv⟩

/-! ### Calls by name -/

theorem arrow_of_signature {ty : Ty} {sig : Signature} (h : ty.signature? = some sig)
    (hm : ty.isMethod = false) : ty = .arrow sig := by
  cases ty <;> simp_all [Ty.signature?, Ty.isMethod]

theorem method_of_signature {ty : Ty} {sig : Signature} (h : ty.signature? = some sig)
    (hm : ty.isMethod = true) : ty = .method sig := by
  cases ty <;> simp_all [Ty.signature?, Ty.isMethod]

theorem shape?_of_signature {ty : Ty} {sig : Signature} (h : ty.signature? = some sig) :
    ty.shape? = none := by
  cases ty <;> simp_all [Ty.signature?, Ty.shape?]

/-- The code after the arguments of a call of a function. -/
def functionOps (hops : Nat) (offset : Int) : List (Op Label) :=
  .lfp :: (List.replicate hops .lw ++
    ([.stm, .ltm, .ltm] ++ [.push (Int64.ofInt offset), .add, .lw]))

/-- The code after the arguments of a call of a method of the current object. -/
def ownMethodOps (hops : Nat) (offset : Int) : List (Op Label) :=
  .lfp :: (List.replicate hops .lw ++
    ([.stm, .ltm, .ltm] ++ (.lw :: [.push (Int64.ofInt offset), .add, .lw])))

@[simp] theorem length_functionOps (hops : Nat) (offset : Int) :
    (functionOps hops offset).length = hops + 7 := by
  simp [functionOps]

@[simp] theorem length_ownMethodOps (hops : Nat) (offset : Int) :
    (ownMethodOps hops offset).length = hops + 8 := by
  simp [ownMethodOps]

theorem callOutline_function {b : Binding} (hm : b.entry.isMethod = false) (name : String)
    (args : List Piece) :
    callOutline name b args = plain (straight [.lfp]) ++ args ++
      (plain (straight (functionOps b.hops b.entry.offset)) ++ [.instr (.op .js)]) := by
  simp [callOutline, hm, functionOps, climbLinks, copyTop, loadAt, straight]

theorem callOutline_method {b : Binding} (hm : b.entry.isMethod = true) (name : String)
    (args : List Piece) :
    callOutline name b args = plain (straight [.lfp]) ++ args ++
      (plain (straight (ownMethodOps b.hops b.entry.offset)) ++
        [.dispatch ⟨b.hops, none, name⟩]) := by
  simp [callOutline, hm, ownMethodOps, climbLinks, copyTop, loadAt, straight]

section ByName

variable {s t : State} {σ τ : Store} {name : String} {e : Entry} {sig : Signature} {i : Nat}
  {args : List Int64} (hK : K.Lawful) (hcall : K.Calls fuel call) (hroom : t.Room)
  (h : K.Situated t τ fuel env ρ chain) (hx : env.scopes.lookup name = some e)
  (hsig : e.ty.signature? = some sig) (hs : K.Sound s σ)
  (hadv : K.Advance s σ (args.map Word.plain ++ [s.fp]) i t τ)
  (hargs : List.Forall₂ (K.Holds τ) sig.params args)
include hK hcall hroom h hx hsig hs hadv hargs

/-- A call of what is not a method: a function, or a variable or field that has the type of one. -/
theorem simulates_function (hm : e.isMethod = false)
    (hp : K.img.Placed i (plain (straight (functionOps (env.level - e.level) e.offset)) ++
      [.instr (.op .js)])) (hin : i + (env.level - e.level + 7) + 1 < K.img.size) :
    K.Simulates fuel t (ρ.apply K.references call name args τ) fun v υ u =>
      K.Advance s σ [.plain v] (i + (env.level - e.level + 7) + 1) u υ ∧
      K.Holds υ sig.ret v := by
  simp only [Image.placed_append, width_plain_straight, length_functionOps] at hp
  obtain ⟨hops, hjs, -⟩ := hp
  have harrow := arrow_of_signature hsig hm
  have hload : ∀ {link w : Word}, chain[env.level - e.level]? = some link →
      t.slot link e.offset = some w →
      ∃ n, K.Run n t { t with
        stack := w :: link :: t.stack, ip := t.ip + (env.level - e.level + 7), tm := link } :=
    fun hlink hslot => ⟨_, run_straight h.low _ (by simp [Op.fallsThrough])
      (hadv.ip ▸ hops) (h.execAll_function hroom hlink hslot)⟩
  -- a word that has the type of a function is null, and null is no address
  have hnull : ∀ {link : Word} {v : Int64}, chain[env.level - e.level]? = some link →
      t.slot link e.offset = some (.plain v) → K.Holds τ e.ty v →
      K.Simulates fuel t (.error .noFunction) fun v υ u =>
        K.Advance s σ [.plain v] (i + (env.level - e.level + 7) + 1) u υ ∧
        K.Holds υ sig.ret v := by
    intro link v hlink hslot hv
    rw [harrow] at hv
    obtain ⟨hnulls, rfl⟩ := hv
    obtain ⟨n, hrun⟩ := hload hlink hslot
    refine .of_run hrun ⟨hnulls, fun _ => Faults.of_op (o := .js) ?_ rfl⟩
    simp only [hadv.ip]
    exact hjs
  cases h.represents with
  | intro before _ _ names closures =>
    obtain ⟨-, link, hlink, hst⟩ := names hx (shape?_of_signature hsig)
    cases hst with
    | word hb hslot hv _ =>
      simp only [Context.apply, hb]
      exact hnull hlink hslot hv
    | @fn f fnames this a hb hslot he hown hready =>
      obtain ⟨n, hrun⟩ := hload hlink hslot
      have hclosure := closures hx (shape?_of_signature hsig) hb
      have hlink' : (chain.drop (env.level - e.level))[0]? = some link := by simpa using hlink
      have hrep : K.Represents t τ ((before name).declareLocal name (.arrow f.signature))
          ⟨(name, .fn f fnames this) :: fnames, this⟩ (chain.drop (env.level - e.level)) := by
        subst hown
        exact hclosure.declare_fn hlink' (by rw [he] at hslot; exact hslot) hready
      have hsig' : f.signature = sig := by
        rw [he] at hsig
        simpa [Env.localEntry, Ty.signature?] using hsig
      have hlow : K.Low { t with
          stack := .plain (Int64.ofNat a) :: link :: t.stack,
          ip := t.ip + (env.level - e.level + 7), tm := link } := by
        refine h.low.mono ?_
        simp only [Forward, List.length_cons]
        omega
      have hjump := run_jump hK (hready.lt_size hK) (u := { t with
          stack := .plain (Int64.ofNat a) :: link :: t.stack,
          ip := t.ip + (env.level - e.level + 7), tm := link }) rfl
        (p := .instr (.op .js)) (by simp only [hadv.ip]; exact hjs) (fun _ => rfl)
        (hlow.observes_of_instr (i := .op .js) (by simp only [hadv.ip]; exact hjs))
      have hcalled := hcall.arrive hready hs hadv hrep hlink' rfl hjump
        (by rw [hadv.ip]; exact Nat.le_add_right _ _) (by rw [hadv.ip]; exact hin)
        (by subst hsig'; exact hargs) h.spare
      rw [hadv.ip] at hcalled
      simp only [Context.apply, hb]
      subst hsig'
      rw [hadv.ip] at hrun
      exact .run hrun hcalled
    | @member this o cls l hf hc hl ho hd hlay hmem =>
      subst hl
      obtain ⟨v, hslot, hlook, hv⟩ := h.sound.field hK hroom ho hd hlay hmem hm
      simp only [Context.apply, hf, hc, objectAt, bind, StateT.bind, Except.bind, ho, hlook]
      exact hnull hlink hslot hv

/-- A call of a method of the current object. -/
theorem simulates_ownMethod (hm : e.isMethod = true)
    (hp : K.img.Placed i (plain (straight (ownMethodOps (env.level - e.level) e.offset)) ++
      [.dispatch ⟨env.level - e.level, none, name⟩]))
    (hin : i + (env.level - e.level + 8) + 1 < K.img.size) :
    K.Simulates fuel t (ρ.apply K.references call name args τ) fun v υ u =>
      K.Advance s σ [.plain v] (i + (env.level - e.level + 8) + 1) u υ ∧
      K.Holds υ sig.ret v := by
  simp only [Image.placed_append, width_plain_straight, length_ownMethodOps] at hp
  obtain ⟨hops, hjump, -⟩ := hp
  cases h.represents with
  | intro before _ _ names closures =>
    obtain ⟨-, link, hlink, hst⟩ := names hx (shape?_of_signature hsig)
    cases hst with
    | word hb _ hv hk =>
      -- a variable with the type of a method, which plain annotations rule out
      simp only [Context.apply, hb]
      rw [method_of_signature hsig hm] at hv
      refine .of_run (.refl t) ⟨hv.1, fun hplain => ?_⟩
      rw [hk hplain] at hm
      cases hm
    | fn _ _ he =>
      rw [he] at hm
      cases hm
    | @member this o cls l hf hc hl ho hd hlay hmem =>
      subst hl
      obtain ⟨slot, k, f, a, table, hname, himp, hsub, hlook, hread, hslot⟩ :=
        h.sound.dispatch hK hroom ho hd hlay hmem (method_of_signature hsig hm)
      have hrun := run_straight h.low _ (by simp [Op.fallsThrough]) (hadv.ip ▸ hops)
        (h.execAll_ownMethod hroom hlink hread hslot)
      have hrecv : State.receiver { t with
          stack := .plain (Int64.ofNat a) :: .plain this :: t.stack,
          ip := t.ip + (env.level - e.level + 8), tm := .plain this }
          ⟨env.level - e.level, none, name⟩ = some (.plain this) := by
        refine h.receiver_link ?_ ?_ hlink name
        · exact ⟨⟨[_, _], rfl⟩, List.prefix_rfl⟩
        · rfl
      have hcalled := hcall.dispatch hK ho himp hsub hs hadv rfl
        (by rw [hadv.ip]; exact hjump) hname hrecv (by rw [hadv.ip]; omega)
        (by rw [hadv.ip]; exact hin) hargs h
      rw [hadv.ip] at hcalled hrun
      simp only [Context.apply, hf, hc, objectAt, bind, StateT.bind, Except.bind, ho, hlook]
      exact .run hrun hcalled

end ByName

theorem computes_call (hK : K.Lawful) (hcall : K.Calls fuel call) {args : List Expr}
    (hargs : ∀ e ∈ args, K.Computes fuel call e) (line : SourceLine) (name : String)
    (b : Option Binding) : K.Computes fuel call (.call line name args b) := by
  intro env ρ chain n s σ ty h hs
  obtain ⟨hp, hin, hn, ht, hnull⟩ := h
  simp only [Expr.nameErrors, List.append_eq_nil_iff] at hn
  obtain ⟨e, hx⟩ := Env.lookup_of_useErrors hn.1
  have hb : env.binding? name = some ⟨e, env.level⟩ := by rw [Env.binding?, hx]; rfl
  simp only [Expr.bind, Expr.infer, bind_ok_iff, hb, bound, Except.ok.injEq] at ht
  obtain ⟨_, rfl, sig, hsig, hty⟩ := ht
  obtain ⟨rfl, hfit⟩ := fitting_of_callType hty hn.2 hnull
  have hsig := callSignature_ok hsig
  rw [eval]
  cases hm : e.isMethod with
  | false =>
    simp only [Expr.bind, Expr.outline, hb, Option.elim_some,
      callOutline_function (b := ⟨e, env.level⟩) hm, Binding.hops] at hp hin ⊢
    simp only [width_append, width_plain_straight, List.length_singleton, length_functionOps,
      width_cons_op, width_nil, Nat.zero_add, ← Nat.add_assoc] at hin ⊢
    refine simulates_arguments hargs hfit hp (by omega) hs fun {vs t τ} hadv hvs => ?_
    have hip := hadv.ip
    refine .assume_room hadv.sound (hadv.low hs.low) (by omega) fun hroom => ?_
    rw [Image.placed_append] at hp
    simp only [width_append, width_plain_straight, List.length_singleton, ← Nat.add_assoc] at hp
    exact simulates_function hK hcall hroom (hs.advance hadv) hx hsig hs.sound hadv hvs hm hp.2
      (by omega)
  | true =>
    simp only [Expr.bind, Expr.outline, hb, Option.elim_some,
      callOutline_method (b := ⟨e, env.level⟩) hm, Binding.hops] at hp hin ⊢
    simp only [width_append, width_plain_straight, List.length_singleton, length_ownMethodOps,
      width_cons_dispatch, width_nil, Nat.zero_add, ← Nat.add_assoc] at hin ⊢
    refine simulates_arguments hargs hfit hp (by omega) hs fun {vs t τ} hadv hvs => ?_
    have hip := hadv.ip
    refine .assume_room hadv.sound (hadv.low hs.low) (by omega) fun hroom => ?_
    rw [Image.placed_append] at hp
    simp only [width_append, width_plain_straight, List.length_singleton, ← Nat.add_assoc] at hp
    exact simulates_ownMethod hK hcall hroom (hs.advance hadv) hx hsig hs.sound hadv hvs hm hp.2
      (by omega)

/-! ### Calls of methods -/

/-- The code that leaves the object of a method call twice on the stack. -/
def receiverOps (hops : Nat) (offset : Int) : List (Op Label) :=
  .lfp :: (List.replicate hops .lw ++
    ([.push (Int64.ofInt offset), .add, .lw] ++ [.stm, .ltm, .ltm]))

/-- The code that replaces an object by the address of one of its methods. -/
def methodOps (offset : Int) : List (Op Label) := [.lw, .push (Int64.ofInt offset), .add, .lw]

theorem sendOutline_eq (b : MethodBinding) (method : String) (args : List Piece) :
    sendOutline method b args = plain (straight [.lfp]) ++ args ++
      (plain (straight (receiverOps b.hops b.receiver.offset)) ++
        (plain (straight (methodOps b.method.offset)) ++
          [.dispatch ⟨b.hops, some b.receiver.offset, method⟩])) := by
  simp [sendOutline, receiverOps, methodOps, climbLinks, copyTop, loadAt, straight]

@[simp] theorem length_receiverOps (hops : Nat) (offset : Int) :
    (receiverOps hops offset).length = hops + 7 := by
  simp [receiverOps]

@[simp] theorem length_methodOps (offset : Int) : (methodOps offset).length = 4 := rfl

/-- There is no object at the address that stands for `null`. -/
theorem Sound.object_null {s : State} {σ : Store} (h : K.Sound s σ) (hroom : s.Room) :
    σ.object? (-1) = none := by
  cases ho : σ.object? (-1) with
  | none => rfl
  | some o =>
    obtain ⟨n, l, hn, hh⟩ := h.object ho
    have hlt := hh.lt
    unfold State.Room at hroom
    have hpos : (0 : Int64) ≤ -1 := hn ▸ zero_le_ofNat (by omega)
    exact absurd hpos (by decide)

theorem sendSignature_ok {line : SourceLine} {name : String} {ty : Ty} {sig : Signature}
    (h : sendSignature line name ty = .ok sig) : ty = .method sig := by
  cases ty <;> simp_all [sendSignature, illTyped]

/-- Calling a method on `null` faults when the dispatch table is looked for. -/
theorem faults_noObject {t : State} {rest : List Word} (hst : t.stack = .plain (-1) :: rest)
    (hp : K.img.piece t.ip = some (.instr (.op .lw))) : K.Faults t (.badAddress (-1)) := by
  refine Faults.of_op hp ?_
  have hread : State.read { t with stack := rest, ip := t.ip + 1 } (.plain (-1)) = none := rfl
  simp only [Segmented.execute, State.load, hst, hread]
  rfl

/-- What comes after the arguments of a method call. -/
theorem simulates_send {s t : State} {σ τ : Store} {receiver method cls : String} {e m : Entry}
    {l : Layout} {sig : Signature} {i : Nat} {args : List Int64} (hK : K.Lawful)
    (hcall : K.Calls fuel call) (hroom : t.Room) (h : K.Situated t τ fuel env ρ chain)
    (hx : env.scopes.lookup receiver = some e) (href : e.ty = .ref cls)
    (hl : env.classes.layout? cls = some l) (hm : l.member? method = some m)
    (hsig : m.ty = .method sig) (hs : K.Sound s σ)
    (hadv : K.Advance s σ (args.map Word.plain ++ [s.fp]) i t τ)
    (hargs : List.Forall₂ (K.Holds τ) sig.params args)
    (hp : K.img.Placed i (plain (straight (receiverOps (env.level - e.level) e.offset)) ++
      (plain (straight (methodOps m.offset)) ++
        [.dispatch ⟨env.level - e.level, some e.offset, method⟩])))
    (hin : i + (env.level - e.level + 7) + 4 + 1 < K.img.size) :
    K.Simulates fuel t ((do
      let address ← ρ.value receiver
      let o ← objectAt address .noObject
      Reference.dispatch K.references call address o method args : Eval Int64) τ) fun v υ u =>
        K.Advance s σ [.plain v] (i + (env.level - e.level + 7) + 4 + 1) u υ ∧
        K.Holds υ sig.ret v := by
  simp only [Image.placed_append, width_plain_straight, length_receiverOps] at hp
  obtain ⟨hrecv, hmethod, hjump, -⟩ := hp
  have hip := hadv.ip
  obtain ⟨v, link, hval, hlink, hslot, hv⟩ := h.value hK hroom hx (by rw [href]; rfl)
    (by rw [href]; rfl)
  -- the receiver is on the stack twice
  have hrun : K.Run (receiverOps (env.level - e.level) e.offset).length t { t with
      stack := .plain v :: .plain v :: t.stack, ip := i + (env.level - e.level + 7),
      tm := .plain v } := by
    refine run_straight h.low _ (by simp [receiverOps, Op.fallsThrough]) (hip ▸ hrecv) ?_
    rw [← hip]
    exact h.execAll_variable hroom hlink hslot [.stm, .ltm, .ltm]
  refine .bind ?_
  rw [hval]
  refine .run hrun (.pure (.bind ?_))
  rw [href] at hv
  cases ho : τ.object? v with
  | none =>
    obtain ⟨hnulls, rfl⟩ : K.Null v := by
      refine hv.resolve_right ?_
      rintro ⟨o, ho', -⟩
      rw [ho] at ho'
      cases ho'
    simp only [objectAt, ho]
    exact .of_run (.refl _) ⟨hnulls, faults_noObject rfl hmethod.1⟩
  | some o =>
    have hd : K.Descends o.cls cls := by
      rcases hv with ⟨-, rfl⟩ | ⟨o', ho', hd⟩
      · rw [h.sound.object_null hroom] at ho
        cases ho
      · obtain rfl : o' = o := by simpa [ho] using ho'.symm
        exact hd
    obtain ⟨slot, k, f, a, table, hname, himp, hsub, -, hread, hfound⟩ :=
      h.sound.dispatch hK hroom ho hd (h.knows.layout hl) hm hsig
    have hlow : K.Low { t with
        stack := .plain v :: .plain v :: t.stack, ip := i + (env.level - e.level + 7),
        tm := .plain v } := by
      refine h.low.mono ?_
      simp only [Forward, List.length_cons]
      omega
    have hrun' := run_straight hlow (methodOps m.offset) rfl hmethod
      (execAll_method (u := { t with
          stack := .plain v :: .plain v :: t.stack, ip := i + (env.level - e.level + 7),
          tm := .plain v }) hroom hread hfound rfl (List.suffix_cons _ _) List.prefix_rfl [])
    have hrecv' : State.receiver { t with
        stack := .plain (Int64.ofNat a) :: .plain v :: t.stack,
        ip := i + (env.level - e.level + 7) + 4, tm := .plain v }
        ⟨env.level - e.level, some e.offset, method⟩ = some (.plain v) := by
      refine h.receiver_variable ?_ ?_ hlink hroom hslot method
      · exact ⟨⟨[_, _], rfl⟩, List.prefix_rfl⟩
      · rfl
    simp only [objectAt, ho]
    refine .run hrun' (.pure ?_)
    exact hcall.dispatch hK ho himp hsub hs hadv rfl hjump hname hrecv' (by omega) hin hargs h

theorem computes_send (hK : K.Lawful) (hcall : K.Calls fuel call) {args : List Expr}
    (hargs : ∀ e ∈ args, K.Computes fuel call e) (line : SourceLine) (receiver method : String)
    (b : Option MethodBinding) : K.Computes fuel call (.send line receiver method args b) := by
  intro env ρ chain n s σ ty h hs
  obtain ⟨hp, hin, hn, ht, hnull⟩ := h
  simp only [Expr.nameErrors, List.append_eq_nil_iff] at hn
  obtain ⟨e, cls, l, m, hx, href, hl, hm, hb⟩ := Env.methodBinding_of_sendErrors hn.1
  simp only [Expr.bind, Expr.infer, bind_ok_iff, hb, bound, Except.ok.injEq] at ht
  obtain ⟨_, rfl, sig, hsig, hty⟩ := ht
  obtain ⟨rfl, hfit⟩ := fitting_of_callType hty hn.2 hnull
  rw [eval]
  simp only [Expr.bind, Expr.outline, hb, Option.elim_some, sendOutline_eq,
    MethodBinding.hops] at hp hin ⊢
  simp only [width_append, width_plain_straight, List.length_singleton, length_receiverOps,
    length_methodOps, width_cons_dispatch, width_nil, Nat.zero_add, ← Nat.add_assoc] at hin ⊢
  refine simulates_arguments hargs hfit hp (by omega) hs fun {vs t τ} hadv hvs => ?_
  have hip := hadv.ip
  refine .assume_room hadv.sound (hadv.low hs.low) (by omega) fun hroom => ?_
  rw [Image.placed_append] at hp
  simp only [width_append, width_plain_straight, List.length_singleton, ← Nat.add_assoc] at hp
  exact simulates_send hK hcall hroom (hs.advance hadv) hx href hl hm (sendSignature_ok hsig)
    hs.sound hadv hvs hp.2 (by omega)

end World

end ObjectLang
