import ObjectLang.Proofs.Simulation.World

/-!
# States that stand for evaluation

How a state of the machine stands for a point of evaluation:

* `World.Sound`: the heap holds the dispatch tables and the objects of the store, and every field
  holds a value of its type;
* `World.Represents`: the names of a context are found, from the links of a chain, where the naming
  environment says they are; a function is represented by the address of its block, together with
  the names around its declaration;
* `World.Situated`: both, for the frame that the frame pointer points to.

All of it is kept when stack and heap grow (`World.Advance`), since neither ever changes below its
top.
-/

namespace ObjectLang

open Reference (Store Object Context Denotation)
open Segmented (Word State Grows Forward)

namespace Reference

/-- The objects of the first store are still there in the second. -/
def Store.Extends (σ τ : Store) : Prop :=
  ∀ a o, σ.object? a = some o → τ.object? a = some o

theorem Store.Extends.refl (σ : Store) : σ.Extends σ := fun _ _ h => h

theorem Store.Extends.trans {σ τ υ : Store} (h₁ : σ.Extends τ) (h₂ : τ.Extends υ) :
    σ.Extends υ := fun a o h => h₂ a o (h₁ a o h)

theorem Store.mem_of_object? {σ : Store} {a : Int64} {o : Object} (h : σ.object? a = some o) :
    (a, o) ∈ σ.objects := by
  obtain ⟨l₁, l₂, hl, -⟩ := List.lookup_eq_some_iff.1 h
  simp [hl]

theorem Context.lookup_bind (ρ : Context) (name other : String) (d : Denotation) :
    (ρ.bind name d).names.lookup other =
      if other = name then some d else ρ.names.lookup other := by
  rw [Context.bind, List.lookup_cons]
  by_cases h : other = name
  · simp [h]
  · have hne : (other == name) = false := by simpa using h
    rw [hne, if_neg h]

end Reference

namespace World

variable (K : World)

theorem Holds.mono {K : World} {σ τ : Store} (h : σ.Extends τ) {ty : Ty} {v : Int64}
    (hv : K.Holds σ ty v) : K.Holds τ ty v := by
  cases ty with
  | ref cls =>
    rcases hv with hv | ⟨o, ho, hd⟩
    · exact .inl hv
    · exact .inr ⟨o, h v o ho, hd⟩
  | int | bool | null | arrow | method | shape => exact hv

/-! ### The heap -/

/-- The object is laid out at its address. -/
structure Houses (s : State) (σ : Store) (n : Nat) (o : Object) (l : Layout) : Prop where
  layout : K.classes.layout? o.cls = some l
  inhabited : K.inhabited o.cls
  names : o.fields.map Prod.fst = l.fields.map (·.name)
  table : s.heap[n]? = some (Int64.ofNat (K.home o.cls))
  field : ∀ {i : Nat} {slot : Slot}, l.fields[i]? = some slot →
    ∃ v, i < n ∧ s.heap[n - (i + 1)]? = some v ∧ o.fields.lookup slot.name = some v ∧
      K.Holds σ slot.entry.ty v

/-- There are no classes. -/
def Bare : Prop := ∀ cls, K.classes.layout? cls = none

/-- The heap holds the tables and the objects. -/
structure Sound (s : State) (σ : Store) : Prop where
  heap : s.heap.length = σ.free
  pending : s.pending = none
  output : s.output = σ.output
  made : s.made = σ.objects.map fun e => (e.1, e.2.cls)
  distinct : (σ.objects.map Prod.fst).Nodup
  objects : ∀ {a : Int64} {o : Object}, (a, o) ∈ σ.objects →
    ∃ n l, a = Int64.ofNat n ∧ K.Houses s σ n o l
  tables : ∀ {cls : String} {i a : Nat}, (K.table cls)[i]? = some a →
    s.heap[K.home cls + i]? = some (Int64.ofNat a)
  directory : ∀ {cls : String} {e : Entry}, K.classes.entry? cls = some e →
    s.slot (.cell 0) e.offset = some (.plain (Int64.ofNat (K.home cls)))
  bare : K.Bare → s.heap = []

variable {K} {s t : State} {σ τ : Store}

theorem Houses.mono (hg : Grows s t) (hx : σ.Extends τ) {n : Nat} {o : Object} {l : Layout}
    (h : K.Houses s σ n o l) : K.Houses t τ n o l where
  layout := h.layout
  inhabited := h.inhabited
  names := h.names
  table := Segmented.getElem?_of_prefix hg.heap h.table
  field hi := by
    obtain ⟨v, hn, hv, ho, ht⟩ := h.field hi
    exact ⟨v, hn, Segmented.getElem?_of_prefix hg.heap hv, ho, ht.mono hx⟩

/-- Only the stack has changed, and it has grown. -/
theorem Sound.push (h : K.Sound s σ) (hst : s.stack <:+ t.stack) (hh : t.heap = s.heap)
    (hp : t.pending = s.pending) (ho : t.output = s.output) (hm : t.made = s.made) :
    K.Sound t σ := by
  have hg : Grows s t := ⟨hst, hh ▸ List.prefix_rfl⟩
  exact
    { heap := hh ▸ h.heap
      pending := hp ▸ h.pending
      output := ho ▸ h.output
      made := hm ▸ h.made
      distinct := h.distinct
      objects := fun ha => by
        obtain ⟨n, l, hn, hl⟩ := h.objects ha
        exact ⟨n, l, hn, hl.mono hg (.refl σ)⟩
      tables := fun ha => Segmented.getElem?_of_prefix hg.heap (h.tables ha)
      directory := fun he => hg.slot (h.directory he)
      bare := hh ▸ h.bare }

/-- The heap is that of one state, and the class directory is still where another one had it. -/
theorem Sound.rebase {u : State} (ht : K.Sound t τ) (hs : K.Sound s σ) (hst : s.stack <:+ u.stack)
    (hh : u.heap = t.heap) (hp : u.pending = t.pending) (ho : u.output = t.output)
    (hm : u.made = t.made) (hheap : s.heap <+: t.heap) : K.Sound u τ :=
  { heap := hh ▸ ht.heap
    pending := hp ▸ ht.pending
    output := ho ▸ ht.output
    made := hm ▸ ht.made
    distinct := ht.distinct
    objects := fun ha => by
      obtain ⟨n, l, hn, hl⟩ := ht.objects ha
      exact ⟨n, l, hn, hl.layout, hl.inhabited, hl.names, hh ▸ hl.table, hh ▸ hl.field⟩
    tables := fun ha => hh ▸ ht.tables ha
    directory := fun he => Grows.slot ⟨hst, hh ▸ hheap⟩ (hs.directory he)
    bare := hh ▸ ht.bare }

theorem Sound.object (h : K.Sound s σ) {a : Int64} {o : Object} (ho : σ.object? a = some o) :
    ∃ n l, a = Int64.ofNat n ∧ K.Houses s σ n o l :=
  h.objects (Store.mem_of_object? ho)

/-- An object is known by its address. -/
theorem Sound.cls_of_made (h : K.Sound s σ) {a : Int64} {o : Object} (ho : σ.object? a = some o)
    {cls : String} (hm : (a, cls) ∈ s.made) : cls = o.cls := by
  rw [h.made, List.mem_map] at hm
  obtain ⟨⟨b, o'⟩, hb, heq⟩ := hm
  simp only [Prod.mk.injEq] at heq
  obtain ⟨rfl, rfl⟩ := heq
  have hmem := Store.mem_of_object? ho
  have hinj := List.inj_on_of_nodup_map h.distinct hb hmem rfl
  simp only [Prod.mk.injEq, true_and] at hinj
  rw [hinj]

/-! ### Names -/

variable (K s σ)

/-- The name stands for the same in the context and in the state.  A function also has the
environment before its declaration. -/
inductive Stands (ρ : Context) (link : Word) (before : Env) (name : String) (e : Entry) : Prop
  | word {v : Int64} (bound : ρ.names.lookup name = some (.word v))
      (stored : s.slot link e.offset = some (.plain v)) (holds : K.Holds σ e.ty v)
      (kind : K.plainTypes → e.isMethod = false)
  | fn {f : Routine} {names : List (String × Denotation)} {this : Option Int64} {a : Nat}
      (bound : ρ.names.lookup name = some (.fn f names this))
      (stored : s.slot link e.offset = some (.plain (Int64.ofNat a)))
      (entry : e = before.localEntry (.arrow f.signature)) (own : f.name = name)
      (ready : K.Ready (before.declareLocal name (.arrow f.signature)) f a)
  | member {this : Int64} {o : Object} {cls : String} {l : Layout}
      (free : ρ.names.lookup name = none) (current : ρ.this = some this)
      (link_eq : link = .plain this) (object : σ.object? this = some o)
      (descends : K.Descends o.cls cls) (layout : K.classes.layout? cls = some l)
      (member : l.member? name = some e)

/-- The names of the environment stand for the same in the context and in the state, in which the
frames around are reached by the links of the chain. -/
inductive Represents : Env → Context → List Word → Prop
  | intro {env : Env} {ρ : Context} {chain : List Word} (before : String → Env)
      (opened : env.Opened) (linked : s.Linked chain)
      (names : ∀ {name : String} {e : Entry}, env.scopes.lookup name = some e →
        e.ty.shape? = none → e.level ≤ env.level ∧ ∃ link, chain[env.level - e.level]? = some link ∧
          K.Stands s σ ρ link (before name) name e)
      (closures : ∀ {name : String} {e : Entry} {f : Routine}
        {names : List (String × Denotation)} {this : Option Int64},
        env.scopes.lookup name = some e → e.ty.shape? = none →
        ρ.names.lookup name = some (.fn f names this) →
        Represents (before name) ⟨names, this⟩ (chain.drop (env.level - e.level))) :
      Represents env ρ chain

variable {K s σ} {env : Env} {ρ : Context} {chain : List Word}

theorem Stands.mono (hg : Grows s t) (hx : σ.Extends τ) {link : Word} {before : Env}
    {name : String} {e : Entry} (h : K.Stands s σ ρ link before name e) :
    K.Stands t τ ρ link before name e := by
  cases h with
  | word hb hs hv hk => exact .word hb (hg.slot hs) (hv.mono hx) hk
  | fn hb hs he ho hr => exact .fn hb (hg.slot hs) he ho hr
  | member hf hc hl ho hd hlay hm => exact .member hf hc hl (hx _ _ ho) hd hlay hm

namespace Represents

theorem mono (hg : Grows s t) (hx : σ.Extends τ) (h : K.Represents s σ env ρ chain) :
    K.Represents t τ env ρ chain := by
  induction h with
  | intro before opened linked names _ ih =>
    refine .intro before opened (hg.linked linked) (fun hn hs => ?_) ih
    obtain ⟨hle, link, hl, hst⟩ := names hn hs
    exact ⟨hle, link, hl, hst.mono hg hx⟩

theorem linked (h : K.Represents s σ env ρ chain) : s.Linked chain := by
  cases h with
  | intro _ _ linked => exact linked

/-- Only the scopes of an environment matter. -/
theorem of_scopes (h : K.Represents s σ env ρ chain) {env' : Env}
    (hs : env'.scopes = env.scopes) : K.Represents s σ env' ρ chain := by
  cases h with
  | intro before opened linked names closures =>
    have hlevel : env'.level = env.level := by simp only [Env.level, hs]
    refine .intro before (by rw [Env.Opened, hs]; exact opened) linked (fun hn hsh => ?_)
      (fun hn hsh hb => ?_)
    · rw [hlevel]
      exact names (hs ▸ hn) hsh
    · rw [hlevel]
      exact closures (hs ▸ hn) hsh hb

/-- A new name, described by its entry. -/
theorem declare (h : K.Represents s σ env ρ chain) {name : String} {e : Entry} {d : Denotation}
    (before : Env) {link : Word} (hlevel : e.level = env.level) (hlink : chain[0]? = some link)
    (hst : K.Stands s σ (ρ.bind name d) link before name e)
    (hclosure : ∀ f names this, d = .fn f names this →
      K.Represents s σ before ⟨names, this⟩ chain) :
    K.Represents s σ (env.declare name e) (ρ.bind name d) chain := by
  cases h with
  | intro before' opened linked names closures =>
    refine .intro (fun x => if x = name then before else before' x) (by simpa using opened) linked
      (fun {x e'} hx hs => ?_) (fun {x e' f fnames this} hx hs hb => ?_)
    · rw [Env.lookup_declare opened] at hx
      split at hx
      · rename_i hxn
        obtain rfl : e = e' := by simpa using hx
        subst hxn
        refine ⟨by simp [hlevel], link, by simpa [hlevel] using hlink, ?_⟩
        rw [if_pos rfl]
        exact hst
      · rename_i hxn
        obtain ⟨hle, link', hl, hst'⟩ := names hx hs
        refine ⟨by simpa using hle, link', by simpa using hl, ?_⟩
        have hlook : (ρ.bind name d).names.lookup x = ρ.names.lookup x := by
          rw [Context.lookup_bind, if_neg hxn]
        rw [if_neg hxn]
        cases hst' with
        | word hb hsl hv hk => exact .word (hlook.trans hb) hsl hv hk
        | fn hb hsl he ho hr => exact .fn (hlook.trans hb) hsl he ho hr
        | member hf hc hl ho hd hlay hm => exact .member (hlook.trans hf) hc hl ho hd hlay hm
    · rw [Env.lookup_declare opened] at hx
      split at hx
      · rename_i hxn
        obtain rfl : e = e' := by simpa using hx
        subst hxn
        have hd : d = .fn f fnames this := by simpa [Context.lookup_bind] using hb
        simpa [hlevel] using hclosure f fnames this hd
      · rename_i hxn
        have hb' : ρ.names.lookup x = some (.fn f fnames this) := by
          rwa [Context.lookup_bind, if_neg hxn] at hb
        simpa [hxn] using closures hx hs hb'

/-- A new variable. -/
theorem declare_word (h : K.Represents s σ env ρ chain) (name : String) {e : Entry} {v : Int64}
    {link : Word} (hlevel : e.level = env.level) (hlink : chain[0]? = some link)
    (hslot : s.slot link e.offset = some (.plain v)) (hv : K.Holds σ e.ty v)
    (hk : K.plainTypes → e.isMethod = false) :
    K.Represents s σ (env.declare name e) (ρ.bind name (.word v)) chain :=
  h.declare env hlevel hlink (.word (by rw [Context.lookup_bind, if_pos rfl]) hslot hv hk)
    fun _ _ _ hd => by cases hd

/-- A new function. -/
theorem declare_fn (h : K.Represents s σ env ρ chain) {f : Routine} {a : Nat} {link : Word}
    (hlink : chain[0]? = some link)
    (hslot : s.slot link env.nextLocal = some (.plain (Int64.ofNat a)))
    (hr : K.Ready (env.declareLocal f.name (.arrow f.signature)) f a) :
    K.Represents s σ (env.declareLocal f.name (.arrow f.signature))
      (ρ.bind f.name (.fn f ρ.names ρ.this)) chain := by
  have hb : (ρ.bind f.name (.fn f ρ.names ρ.this)).names.lookup f.name =
      some (.fn f ρ.names ρ.this) := by
    rw [Context.lookup_bind, if_pos rfl]
  have hst : K.Stands s σ (ρ.bind f.name (.fn f ρ.names ρ.this)) link env f.name
      (env.localEntry (.arrow f.signature)) := .fn hb hslot rfl rfl hr
  have hdecl := h.declare env rfl hlink hst (fun g names this hd => by cases hd; exact h)
  exact hdecl.of_scopes rfl

/-- A new frame, whose link is the frame around it. -/
theorem enter (h : K.Represents s σ env ρ chain) {d : Int} {link : Word}
    (hlink : chain[0]? = some link) (hread : s.read (.cell d) = some link) :
    K.Represents s σ (env.enter .empty) ρ (.cell d :: chain) := by
  cases h with
  | intro before opened linked names closures =>
    have hl : s.Linked (.cell d :: chain) := by
      obtain _ | ⟨a, chain⟩ := chain
      · cases hlink
      obtain rfl : a = link := by simpa using hlink
      exact List.isChain_cons_cons.2 ⟨hread, linked⟩
    refine .intro before (by simp) hl (fun {x e} hx hs => ?_)
      (fun {x e f fnames this} hx hs hb => ?_)
    · rw [Env.lookup_enter_empty] at hx
      obtain ⟨hle, link', hl', hst⟩ := names hx hs
      rw [Env.level_enter opened, Nat.sub_add_comm hle]
      exact ⟨by omega, link', hl', hst⟩
    · rw [Env.lookup_enter_empty] at hx
      have hle := (names hx hs).1
      rw [Env.level_enter opened, Nat.sub_add_comm hle]
      exact closures hx hs hb

/-- The names of a class stand for the members of an object of the class or a subclass. -/
theorem of_class (hK : K.Lawful) {cls : String} (hc : K.InClass env cls) {this : Int64}
    {o : Object} (ho : σ.object? this = some o) (hd : K.Descends o.cls cls)
    (hin : K.inhabited o.cls) :
    K.Represents s σ env ⟨[], some this⟩ [.plain this] := by
  refine .intro (fun _ => env) hc.opened (List.isChain_singleton _) (fun {x e} hx hs => ?_)
    (fun _ _ hb => by cases hb)
  obtain ⟨l, hl, hm⟩ := hc.member hx hs
  have hproper := hK.proper hl (hK.inhabited_of_descends hd hin)
  have hlevel : e.level = env.level := by rw [hc.level, hproper.level_of_member hm]
  refine ⟨hlevel.le, .plain this, by simp [hlevel], ?_⟩
  exact .member rfl rfl rfl ho hd hl hm

end Represents

/-! ### Points of a run -/

variable (K s σ)

/-- The stack is low enough for the code ahead. -/
def Low : Prop := s.stack.length + K.img.size ≤ K.limit + s.ip

/-- The state stands for a point at which the names are those of the environment, and the stack is
low enough for the code ahead and for calls nested as deep as the fuel allows. -/
structure Situated (fuel : Nat) (env : Env) (ρ : Context) (chain : List Word) : Prop where
  represents : K.Represents s σ env ρ chain
  sound : K.Sound s σ
  fp : chain[0]? = some s.fp
  knows : K.Knows env
  spare : s.stack.length + (fuel + 1) * K.img.size ≤ K.limit + s.ip

/-- The run has come to an address, leaving words on the stack. -/
structure Reaches (ws : List Word) (i : Nat) (t : State) (τ : Store) : Prop where
  stack : t.stack = ws ++ s.stack
  ip : t.ip = i
  fp : t.fp = s.fp
  heap : s.heap <+: t.heap
  store : σ.Extends τ
  sound : K.Sound t τ

/-- The run has gone on in the same frame, leaving no more words than it has passed operations. -/
structure Advance (ws : List Word) (i : Nat) (t : State) (τ : Store) : Prop
    extends K.Reaches s σ ws i t τ where
  forward : ws.length + s.ip ≤ i

variable {K s σ} {ws : List Word} {i : Nat}

theorem Low.mono (h : K.Low s) (hf : Forward s t) : K.Low t := by
  unfold Low Forward at *
  omega

theorem Situated.low {fuel : Nat} (h : K.Situated s σ fuel env ρ chain) : K.Low s := by
  have hspare := h.spare
  rw [Nat.add_mul, Nat.one_mul] at hspare
  unfold Low
  omega

theorem Advance.refl (h : K.Sound s σ) : K.Advance s σ [] s.ip s σ :=
  ⟨⟨rfl, rfl, rfl, List.prefix_rfl, .refl σ, h⟩, by simp⟩

theorem Advance.moves (h : K.Advance s σ ws i t τ) : Forward s t := by
  have hf := h.forward
  rw [Forward, h.stack, h.ip, List.length_append]
  omega

theorem Advance.low (h : K.Advance s σ ws i t τ) (hs : K.Low s) : K.Low t := hs.mono h.moves

theorem Advance.grows (h : K.Advance s σ ws i t τ) : Grows s t :=
  ⟨⟨ws, h.stack.symm⟩, h.heap⟩

theorem Advance.trans (h₁ : K.Advance s σ ws i t τ) {ws' : List Word} {j : Nat} {u : State}
    {υ : Store} (h₂ : K.Advance t τ ws' j u υ) : K.Advance s σ (ws' ++ ws) j u υ where
  stack := by rw [h₂.stack, h₁.stack, List.append_assoc]
  ip := h₂.ip
  fp := h₂.fp.trans h₁.fp
  heap := h₁.heap.trans h₂.heap
  store := h₁.store.trans h₂.store
  sound := h₂.sound
  forward := by
    have h₁f := h₁.forward
    have h₂f := h₂.forward
    rw [h₁.ip] at h₂f
    rw [List.length_append]
    omega

/-- The words left on the stack have been replaced by others. -/
theorem Advance.replace (hs : K.Sound s σ) (h : K.Advance s σ ws i t τ) {ws' : List Word} {j : Nat}
    {u : State} (hst : u.stack = ws' ++ s.stack) (hip : u.ip = j) (hfp : u.fp = t.fp)
    (hh : u.heap = t.heap) (hp : u.pending = t.pending) (ho : u.output = t.output)
    (hm : u.made = t.made) (hf : ws'.length + s.ip ≤ j) : K.Advance s σ ws' j u τ where
  stack := hst
  ip := hip
  fp := hfp.trans h.fp
  heap := hh ▸ h.heap
  store := h.store
  sound := h.sound.rebase hs ⟨ws', hst.symm⟩ hh hp ho hm h.heap
  forward := hf

theorem Situated.advance {fuel : Nat} (h : K.Situated s σ fuel env ρ chain)
    (ha : K.Advance s σ ws i t τ) : K.Situated t τ fuel env ρ chain where
  represents := h.represents.mono ha.grows ha.store
  sound := ha.sound
  fp := by rw [ha.fp]; exact h.fp
  knows := h.knows
  spare := by
    have hspare := h.spare
    have hmoves := ha.moves
    unfold Forward at hmoves
    omega

end World

end ObjectLang
