import ObjectLang.Proofs.Checked
import ObjectLang.Proofs.Simulation.Operators

/-!
# Variables, fields and methods

What the uses of a name find at run time: the word of a variable or of a field of the current object
(`World.Situated.value`), and the block of a method in the dispatch table of an object
(`World.Sound.dispatch`).
-/

namespace ObjectLang

open Reference
open Segmented (Word State Grows)
open Piece (plain)

theorem straight_append (as bs : List (Op Label)) :
    straight (as ++ bs) = straight as ++ straight bs := List.map_append

namespace World

variable {K : World} {s : State} {σ : Store}

/-! ### Members of objects -/

theorem Houses.lt {n : Nat} {o : Object} {l : Layout} (h : K.Houses s σ n o l) :
    n < s.heap.length := (List.getElem?_eq_some_iff.1 h.table).1

/-- The slot of a heap address. -/
theorem slot_ofNat {n : Nat} (hroom : s.Room) (hn : n < s.heap.length) {offset : Int} {i : Nat}
    (hi : (n : Int) + offset = i) {v : Int64} (hv : s.heap[i]? = some v) :
    s.slot (.plain (Int64.ofNat n)) offset = some (.plain v) := by
  unfold State.Room at hroom
  have hto : (Int64.ofNat n).toInt = n := Int64.toInt_ofNat_of_lt (by omega)
  simp only [State.slot, hto, hi]
  rw [if_pos ⟨zero_le_ofNat (by omega), by omega⟩, Int.toNat_natCast, hv]
  rfl

theorem read_ofNat {n : Nat} (hroom : s.Room) (hn : n < s.heap.length) {v : Int64}
    (hv : s.heap[n]? = some v) : s.read (.plain (Int64.ofNat n)) = some (.plain v) := by
  unfold State.Room at hroom
  rw [State.read, if_pos (zero_le_ofNat (by omega)),
    Int64.toNatClampNeg_ofNat_of_lt (by omega), hv]
  rfl

/-- A field is where the layout of any class above says. -/
theorem Sound.field (hK : K.Lawful) (hroom : s.Room) (h : K.Sound s σ) {this : Int64} {o : Object}
    (ho : σ.object? this = some o) {cls : String} (hd : K.Descends o.cls cls) {l : Layout}
    (hl : K.classes.layout? cls = some l) {name : String} {e : Entry}
    (hm : l.member? name = some e) (hk : e.isMethod = false) :
    ∃ v, s.slot (.plain this) e.offset = some (.plain v) ∧ o.fields.lookup name = some v ∧
      K.Holds σ e.ty v := by
  obtain ⟨n, l', rfl, hh⟩ := h.object ho
  obtain ⟨e', hm', hover⟩ := hK.member hd hh.inhabited hh.layout hl hm
  have hproper := hK.proper hh.layout hh.inhabited
  obtain ⟨i, hi⟩ := hproper.field_of_member hm' (hover.kind.trans hk)
  have hoff := (hproper.field hi).2.1
  obtain ⟨v, hin, hv, hlook, hval⟩ := hh.field hi
  refine ⟨v, slot_ofNat hroom hh.lt ?_ hv, hlook, hover.value hk σ v hval⟩
  rw [← hover.offset]
  simp only at hoff
  omega

/-- What a method call finds in the dispatch table of an object. -/
theorem Sound.dispatch (hK : K.Lawful) (hroom : s.Room) (h : K.Sound s σ) {this : Int64}
    {o : Object} (ho : σ.object? this = some o) {cls : String} (hd : K.Descends o.cls cls)
    {l : Layout} (hl : K.classes.layout? cls = some l) {name : String} {e : Entry}
    (hm : l.member? name = some e) {sig : Signature} (hty : e.ty = .method sig) :
    ∃ slot i f a table, slot.name = name ∧ K.Implements o.cls i slot f a ∧
      K.SubSignature f.signature sig ∧ o.fields.lookup name = none ∧
      s.read (.plain this) = some (.plain table) ∧
      s.slot (.plain table) e.offset = some (.plain (Int64.ofNat a)) := by
  obtain ⟨n, l', rfl, hh⟩ := h.object ho
  obtain ⟨e', hm', hover⟩ := hK.member hd hh.inhabited hh.layout hl hm
  have hk' : e'.isMethod = true := by
    rw [hover.kind, Entry.isMethod, hty]
    rfl
  have hproper := hK.proper hh.layout hh.inhabited
  obtain ⟨i, hi⟩ := hproper.method_of_member hm' hk'
  have hoff := (hproper.method hi).2.1
  obtain ⟨f, a, himp⟩ := hK.methods hh.layout hh.inhabited hi
  obtain ⟨sig', hsig', hsub⟩ := hover.method hty
  have hstored := h.tables himp.stored
  have hlt := (List.getElem?_eq_some_iff.1 hstored).1
  refine ⟨_, i, f, a, Int64.ofNat (K.home o.cls), rfl, himp, ?_, ?_,
    read_ofNat hroom hh.lt hh.table, slot_ofNat hroom (by omega) ?_ hstored⟩
  · have hsig := himp.signature
    simp only [hsig', Ty.method.injEq] at hsig
    exact hsig ▸ hsub
  · refine List.lookup_eq_none_iff.2 fun p hp => ?_
    have hp' : p.1 ∈ l'.fields.map (·.name) := hh.names ▸ List.mem_map_of_mem hp
    obtain ⟨slot, hslot, hname⟩ := List.mem_map.1 hp'
    obtain ⟨j, hj⟩ := List.mem_iff_getElem?.1 hslot
    obtain ⟨hmem, -, hfield, -⟩ := hproper.field hj
    simp only [bne_iff_ne, ne_eq]
    rintro rfl
    rw [hname, hm', Option.some.injEq] at hmem
    rw [← hmem, hk'] at hfield
    cases hfield
  · rw [← hover.offset]
    simp only at hoff
    omega

theorem Ready.lt_size (hK : K.Lawful) {env : Env} {f : Routine} {a : Nat} (h : K.Ready env f a) :
    a < K.img.size := by
  obtain ⟨n, k, hinfix, rfl⟩ := h.block
  obtain ⟨i, hp⟩ := hK.placed_infix hinfix
  cases hf : f.bindInner env with
  | mk name params ret decls body line offset =>
    rw [hf, Routine.outline, Image.placed_append] at hp
    simp only [blockOutline, straight_cons, straight_nil, plain_cons, plain_nil,
      List.cons_append, List.nil_append, Image.placed_label, Image.placed_op] at hp
    rw [hp.2.1]
    exact World.lt_size hp.2.2.1

/-! ### Variables -/

variable {env : Env} {ρ : Context} {chain : List Word} {fuel : Nat}

/-- A name that is not that of a function or class stands for a word. -/
theorem Situated.value (hK : K.Lawful) (hroom : s.Room) (h : K.Situated s σ fuel env ρ chain)
    {name : String} {e : Entry} (hx : env.scopes.lookup name = some e)
    (hsig : e.ty.signature? = none) (hsh : e.ty.shape? = none) :
    ∃ v link, ρ.value name σ = .ok (v, σ) ∧ chain[env.level - e.level]? = some link ∧
      s.slot link e.offset = some (.plain v) ∧ K.Holds σ e.ty v := by
  cases h.represents with
  | intro before _ _ names _ =>
    obtain ⟨-, link, hlink, hst⟩ := names hx hsh
    cases hst with
    | word hb hslot hv _ =>
      refine ⟨_, link, ?_, hlink, hslot, hv⟩
      simp only [Context.value, hb]
      rfl
    | fn hb hslot he _ _ =>
      rw [he] at hsig
      cases hsig
    | @member this o cls l hf hc hl ho hd hlay hm =>
      subst hl
      have hk : e.isMethod = false := by
        rw [Entry.isMethod]
        cases hty : e.ty <;> simp_all [Ty.signature?, Ty.isMethod]
      obtain ⟨v, hslot, hlook, hv⟩ := h.sound.field hK hroom ho hd hlay hm hk
      refine ⟨v, _, ?_, hlink, hslot, hv⟩
      simp only [Context.value, hf, hc, objectAt, bind, StateT.bind, Except.bind, ho, hlook]
      rfl

/-! ### Straight-line code of uses -/

section Code

variable {img : Image} {u : State} {hops : Nat} {link w : Word} {offset : Int}

/-- Following links from the frame pointer. -/
theorem Situated.execAll_link (h : K.Situated s σ fuel env ρ chain)
    (hlink : chain[hops]? = some link) (os : List (Op Label)) :
    Segmented.execAll img (.lfp :: (List.replicate hops .lw ++ os)) s =
      Segmented.execAll img os { s with stack := link :: s.stack, ip := s.ip + 1 + hops } :=
  Segmented.execAll_climb (s := s) (u := { s with stack := s.fp :: s.stack, ip := s.ip + 1 })
    List.suffix_rfl List.prefix_rfl h.represents.linked rfl h.fp hlink os

theorem execAll_copyTop {rest : List Word} (hu : u.stack = w :: rest) (os : List (Op Label)) :
    Segmented.execAll img ([.stm, .ltm, .ltm] ++ os) u =
      Segmented.execAll img os { u with stack := w :: w :: rest, ip := u.ip + 3, tm := w } := by
  obtain ⟨st, heap, pending, ip, fp, ra, tm, output, made⟩ := u
  simp only at hu
  subst hu
  rfl

/-- An object is replaced by the address of a method, found in its dispatch table. -/
theorem execAll_method (hroom : s.Room) {table : Word} (hread : s.read link = some table)
    (hslot : s.slot table offset = some w) {rest : List Word} (hu : u.stack = link :: rest)
    (hst : s.stack <:+ rest) (hhp : s.heap <+: u.heap) (os : List (Op Label)) :
    Segmented.execAll img (.lw :: ([.push (Int64.ofInt offset), .add, .lw] ++ os)) u =
      Segmented.execAll img os { u with stack := w :: rest, ip := u.ip + 4 } := by
  have hg : Grows s { u with stack := rest } := ⟨hst, hhp⟩
  rw [Segmented.execAll_lw _ hu (hg.read hread)]
  exact Segmented.execAll_loadAt (s := s) (u := { u with stack := table :: rest, ip := u.ip + 1 })
    hst hhp hroom hslot rfl os

/-- A variable is loaded. -/
theorem Situated.execAll_variable (h : K.Situated s σ fuel env ρ chain) (hroom : s.Room)
    (hlink : chain[hops]? = some link) (hslot : s.slot link offset = some w)
    (os : List (Op Label)) :
    Segmented.execAll img
        (.lfp :: (List.replicate hops .lw ++ ([.push (Int64.ofInt offset), .add, .lw] ++ os))) s =
      Segmented.execAll img os { s with stack := w :: s.stack, ip := s.ip + (hops + 4) } := by
  rw [h.execAll_link hlink]
  refine (Segmented.execAll_loadAt (s := s)
    (u := { s with stack := link :: s.stack, ip := s.ip + 1 + hops }) List.suffix_rfl
    List.prefix_rfl hroom hslot rfl os).trans ?_
  congr 2
  simp only
  omega

/-- The access link and the address of a function, found through it. -/
theorem Situated.execAll_function (h : K.Situated s σ fuel env ρ chain) (hroom : s.Room)
    (hlink : chain[hops]? = some link) (hslot : s.slot link offset = some w) :
    Segmented.execAll img
        (.lfp :: (List.replicate hops .lw ++
          ([.stm, .ltm, .ltm] ++ [.push (Int64.ofInt offset), .add, .lw]))) s =
      .next { s with stack := w :: link :: s.stack, ip := s.ip + (hops + 7), tm := link } := by
  rw [h.execAll_link hlink, execAll_copyTop rfl]
  refine (Segmented.execAll_loadAt (s := s)
    (u := { s with stack := link :: link :: s.stack, ip := s.ip + 1 + hops + 3, tm := link })
    (List.suffix_cons _ _) List.prefix_rfl hroom hslot rfl []).trans ?_
  rw [Segmented.execAll_nil]
  congr 2
  simp only
  omega

/-- The current object and the address of one of its methods. -/
theorem Situated.execAll_ownMethod (h : K.Situated s σ fuel env ρ chain) (hroom : s.Room)
    (hlink : chain[hops]? = some link) {table : Word} (hread : s.read link = some table)
    (hslot : s.slot table offset = some w) :
    Segmented.execAll img
        (.lfp :: (List.replicate hops .lw ++
          ([.stm, .ltm, .ltm] ++ (.lw :: [.push (Int64.ofInt offset), .add, .lw])))) s =
      .next { s with stack := w :: link :: s.stack, ip := s.ip + (hops + 8), tm := link } := by
  rw [h.execAll_link hlink, execAll_copyTop rfl]
  refine (execAll_method
    (u := { s with stack := link :: link :: s.stack, ip := s.ip + 1 + hops + 3, tm := link }) hroom
    hread hslot rfl (List.suffix_cons _ _) List.prefix_rfl []).trans ?_
  rw [Segmented.execAll_nil]
  congr 2
  simp only
  omega

end Code

/-! ### Uses of variables -/

theorem computes_ident {call : Routine → Context → List Int64 → Eval Int64}
    (hK : K.Lawful) (line : SourceLine) (name : String) (b : Option Binding) :
    K.Computes fuel call (.ident line name b) := by
  intro env ρ chain n s σ ty h hs
  obtain ⟨hp, hin, hn, ht, -⟩ := h
  obtain ⟨e, hx⟩ := Env.lookup_of_useErrors hn
  have hb : env.binding? name = some ⟨e, env.level⟩ := by rw [Env.binding?, hx]; rfl
  simp only [Expr.bind, Expr.infer, bind_ok_iff, hb, bound, Except.ok.injEq] at ht
  obtain ⟨_, rfl, hty⟩ := ht
  obtain ⟨rfl, hsig, hsh⟩ := valueType_ok hty
  refine .assume_room hs.sound hs.low (by omega) fun hroom => ?_
  obtain ⟨v, link, hval, hlink, hslot, hv⟩ := hs.value hK hroom hx hsig hsh
  simp only [Expr.bind, Expr.outline, hb, Option.elim_some, identCode, climbLinks, loadAt,
    ← straight_append, List.singleton_append, Binding.hops] at hp ⊢
  rw [eval, hval]
  have hrun := run_straight hs.low _ (by simp [Op.fallsThrough]) hp
    (hs.execAll_variable hroom hlink hslot [])
  refine .ok hrun
    ⟨(Advance.refl hs.sound).replace hs.sound rfl (by simp) rfl rfl rfl rfl rfl ?_, hv⟩
  simp
  omega

end World

end ObjectLang
