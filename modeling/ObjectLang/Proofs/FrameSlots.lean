import ObjectLang.Proofs.Code.Rising
import ObjectLang.Proofs.Tables
import ObjectLang.Proofs.WellFormed

/-!
# Where the words of a frame lie

Name resolution counts the offsets at which the declarations of a frame are stored, and emitted code
leaves the words of the declarations on the stack one after the other.  The two meet in every
program for which code is emitted, whatever is wrong with its names (`Program.frames_of_emit`):

* in the code of the program and in each of its blocks, the word that a class or a declaration
  leaves lies as far above the base of the frame as its offset says below (`Frame.LeavesAt`);
* at a call site, the arguments lie where the offsets of the parameters say, seen from the access
  link, which becomes the base of the frame that is entered (`IsCallSite`).

Heights are those of `Proofs.Code.Heights`, on all paths through the code.
-/

namespace ObjectLang

/-! ### Offsets -/

/-- The place of a declaration. -/
def Decl.offset : Decl → Option Int
  | .var v => v.offset
  | .fn f => f.offset

/-- Things are stored one below the other, the first one at the given offset. -/
def StoredFrom {α : Type} (offset : α → Option Int) (first : Int) (l : List α) : Prop :=
  ∀ l₁ a l₂, l = l₁ ++ a :: l₂ → offset a = some (first - l₁.length)

theorem storedFrom_nil {α : Type} (offset : α → Option Int) (first : Int) :
    StoredFrom offset first [] := by
  intro l₁ a l₂ h
  simp at h

theorem StoredFrom.cons {α : Type} {offset : α → Option Int} {first : Int} {a : α} {l : List α}
    (ha : offset a = some first) (hl : StoredFrom offset (first - 1) l) :
    StoredFrom offset first (a :: l) := by
  intro l₁ b l₂ h
  cases l₁ with
  | nil =>
    cases h
    simpa using ha
  | cons c l₁ =>
    rw [List.cons_append, List.cons.injEq] at h
    rw [hl l₁ b l₂ h.2, List.length_cons]
    congr 1
    push_cast
    omega

theorem Decl.storedFrom_bindAll (env : Env) (ds : List Decl) :
    StoredFrom Decl.offset env.nextLocal (Decl.bindAll env ds) := by
  induction ds generalizing env with
  | nil => exact storedFrom_nil _ _
  | cons d ds ih =>
    have hnext : (d.extend env).nextLocal = env.nextLocal - 1 := by
      cases d <;> rfl
    refine .cons ?_ (hnext ▸ ih (d.extend env))
    cases d <;> simp only [Decl.bind, Decl.offset]

/-- The place of the word that a class leaves. -/
def ClassDecl.offset (c : ClassDecl) : Option Int := c.entry.map (·.offset)

theorem ClassDecl.storedFrom_bindAll (env : Env) (cs : List ClassDecl) :
    StoredFrom ClassDecl.offset env.nextLocal (ClassDecl.bindAll env cs) := by
  induction cs generalizing env with
  | nil => exact storedFrom_nil _ _
  | cons c cs ih => exact .cons rfl (ih (c.extend env))

theorem ClassDecl.length_bindAll (env : Env) (cs : List ClassDecl) :
    (ClassDecl.bindAll env cs).length = cs.length := by
  induction cs generalizing env with
  | nil => rfl
  | cons c cs ih => rw [ClassDecl.bindAll, List.length_cons, List.length_cons, ih]

theorem nextLocal_extendAll (env : Env) (cs : List ClassDecl) :
    (ClassDecl.extendAll env cs).nextLocal = env.nextLocal - cs.length := by
  induction cs generalizing env with
  | nil => simp [ClassDecl.extendAll]
  | cons c cs ih =>
    have hnext : (c.extend env).nextLocal = env.nextLocal - 1 := rfl
    rw [ClassDecl.extendAll, List.foldl_cons, ← ClassDecl.extendAll, ih, hnext, List.length_cons]
    push_cast
    omega

theorem offset_placeParams {first : Int} {params : List TypedName} {i : Nat} {x : TypedName}
    (hx : (placeParams first params)[i]? = some x) : x.offset = some (first + i) := by
  induction params generalizing first i with
  | nil => cases hx
  | cons p ps ih =>
    cases i with
    | zero =>
      cases hx
      simp
    | succ i =>
      rw [ih hx]
      congr 1
      push_cast
      omega

/-- The local declarations and the parameters of a routine have their places. -/
structure Routine.Stored (f : Routine) : Prop where
  decls : StoredFrom Decl.offset firstLocal f.decls
  params : ∀ {i : Nat} {x : TypedName}, f.params[i]? = some x → x.offset = some (firstParam + i)

theorem Routine.stored_bindInner (env : Env) (f : Routine) : (f.bindInner env).Stored := by
  obtain ⟨name, params, ret, decls, body, line, offset⟩ := f
  simp only [Routine.bindInner]
  refine ⟨?_, offset_placeParams⟩
  have hstored := Decl.storedFrom_bindAll (env.enterRoutine params) decls
  rwa [Env.nextLocal_enterRoutine] at hstored

/-- The functions in a bound declaration have their places filled. -/
def Decl.StoresRoutines (d : Decl) : Prop := ∀ env, ∀ f ∈ (d.bind env).routines, f.Stored

theorem Decl.storesRoutines_all {ds : List Decl} (hs : ∀ d ∈ ds, d.StoresRoutines) (env : Env) :
    ∀ f ∈ Decl.routinesAll (Decl.bindAll env ds), f.Stored := by
  induction ds generalizing env with
  | nil => simp [Decl.bindAll, Decl.routinesAll]
  | cons d ds ih =>
    rw [List.forall_mem_cons] at hs
    rw [Decl.bindAll, Decl.routinesAll, List.forall_mem_append]
    exact ⟨hs.1 env, ih hs.2 _⟩

theorem Routine.stored_of {f : Routine} (hs : ∀ d ∈ f.decls, d.StoresRoutines) (env : Env) :
    ∀ g ∈ (f.bindInner env).routines, g.Stored := by
  have hf := f.stored_bindInner env
  obtain ⟨name, params, ret, decls, body, line, offset⟩ := f
  simp only [Routine.bindInner, Routine.routines, List.forall_mem_cons] at hf ⊢
  exact ⟨hf, Decl.storesRoutines_all hs _⟩

theorem Decl.storesRoutines (d : Decl) : d.StoresRoutines := by
  induction d using Decl.ind with
  | var v => simp [Decl.StoresRoutines, Decl.bind, Decl.routines]
  | fn f hf =>
    intro env
    rw [Decl.bind, Decl.routines, ← Routine.bindInner_offset]
    exact Routine.stored_of (f := { f with offset := some env.nextLocal }) hf _

theorem ClassDecl.stored_of_mem {env : Env} {cs : List ClassDecl} {c : ClassDecl}
    (hc : c ∈ ClassDecl.bindAll env cs) {m : Routine} (hm : m ∈ c.methods) :
    ∀ f ∈ m.routines, f.Stored := by
  induction cs generalizing env with
  | nil => cases hc
  | cons c' cs ih =>
    rcases List.mem_cons.1 hc with rfl | hc
    · obtain ⟨m', -, rfl⟩ := List.mem_map.1 hm
      exact Routine.stored_of (fun d _ => d.storesRoutines) _
    · exact ih hc

/-- All words of the frames of a program have their places. -/
structure Program.Stored (p : Program) : Prop where
  classes : StoredFrom ClassDecl.offset firstLocal p.classes
  decls : StoredFrom Decl.offset (firstLocal - p.classes.length) p.decls
  routines : ∀ f ∈ p.routines, f.Stored

/-- Name resolution gives all words their places, whatever is wrong with the names. -/
theorem Program.stored_bindIn (env : Env) (p : Program) : (p.bindIn env).Stored := by
  cases p with
  | body main =>
    refine ⟨storedFrom_nil _ _, storedFrom_nil _ _, fun f hf => ?_⟩
    cases hf
  | letIn classes decls main =>
    refine ⟨ClassDecl.storedFrom_bindAll _ classes, ?_,
      List.forall_mem_append.2 ⟨fun f hf => ?_, ?_⟩⟩
    · have hstored := Decl.storedFrom_bindAll ((letIn classes decls main).declEnv env) decls
      rwa [Program.declEnv, nextLocal_extendAll, ← ClassDecl.length_bindAll (env.enter .empty)]
        at hstored
    · obtain ⟨c, hc, hf⟩ := List.mem_flatMap.1 hf
      obtain ⟨m, hm, hf⟩ := List.mem_flatMap.1 hf
      exact ClassDecl.stored_of_mem hc hm f hf
    · exact Decl.storesRoutines_all (fun d _ => d.storesRoutines) _

/-! ### Frames -/

/-- Code that is executed in one frame. -/
structure Frame where
  code : List Instruction
  /-- The numbers of arguments at its call sites, in the order of their jumps. -/
  calls : List Nat
  /-- Number of words on the stack when the code is entered. -/
  entry : Nat
  /-- Height of the word that `fp` points at. -/
  base : Nat

namespace Frame

variable (fr : Frame)

/-- After `before`, the code of the frame goes on with `word`, which leaves one word on the stack,
at the given offset from the base.  The stack grows downward, so that higher words have smaller
offsets. -/
def LeavesAt (before word : List Instruction) (offset : Int) : Prop :=
  before ++ word <+: fr.code ∧ ∃ h : Nat, (h : Int) + 1 = fr.base - offset ∧
    HeightAt fr.calls fr.code fr.entry before.length h ∧
    HeightAt fr.calls fr.code fr.entry (before.length + word.length) (h + 1)

end Frame

section Passes

variable {lab : Label → Nat} {before word after : List Instruction}
  {calls₁ calls₂ calls₃ : List Nat} {entry h exit : Nat}

/-- Between two parts of code that is gone through, the height is what it is there. -/
theorem Passes.heightAt (hb : Passes lab before calls₁ entry h)
    (ha : Passes lab after calls₂ h exit) :
    HeightAt (calls₁ ++ calls₂) (before ++ after) entry before.length h := by
  obtain ⟨seen, -, hthrough⟩ := hb [] calls₂
  obtain ⟨seen', -, hall⟩ := (hb.append ha) [] []
  rw [List.append_nil] at hall
  refine Scan.heightAt_of_finds hall (by simp) ⟨⟨some h, seen, calls₂⟩, ?_, .inl rfl⟩
  rwa [List.take_left]

theorem Passes.leavesAt (hb : Passes lab before calls₁ entry h)
    (hw : Passes lab word calls₂ h (h + 1)) (ha : Passes lab after calls₃ (h + 1) exit)
    (base : Nat) (offset : Int) (hoffset : (h : Int) + 1 = base - offset) :
    Frame.LeavesAt ⟨before ++ word ++ after, calls₁ ++ calls₂ ++ calls₃, entry, base⟩ before word
      offset := by
  refine ⟨List.prefix_append _ _, h, hoffset, ?_, ?_⟩
  · have hat := hb.heightAt (hw.append ha)
    rwa [← List.append_assoc, ← List.append_assoc] at hat
  · have hat := (hb.append hw).heightAt ha
    rwa [List.length_append] at hat

end Passes

/-! ### Call sites -/

/-- The arguments of a call. -/
def Expr.callArgs? : Expr → Option (List Expr)
  | .call _ _ args _ | .send _ _ _ args _ => some args
  | _ => none

/-- The code of a call with the given arguments, with labels from number `n`: the control link, the
arguments from the last to the first, the access link, the address to jump to, and the jump.  Seen
from the access link, the arguments are where the parameters are. -/
def IsCallSite (size n : Nat) (args : List Expr) (calls : List Nat) (code : List Instruction) :
    Prop :=
  let fr : Frame := ⟨code, calls, 0, args.length + 2⟩
  ∃ words link target, Expr.emitReversed size n args = .ok words ∧
    code = straight [.lfp] ++ words ++ link ++ target ++ straight [.js] ∧
    fr.LeavesAt (straight [.lfp] ++ words) link 0 ∧
    HeightAt calls code 0 (code.length - 1) (args.length + 3) ∧
    ∀ as e bs, args = as ++ e :: bs → ∃ before word, Expr.emitReversed size n bs = .ok before ∧
      e.emit size (n + Expr.labelCountAll bs) = .ok word ∧
      fr.LeavesAt (straight [.lfp] ++ before) word (firstParam + as.length)

section CallSites

variable {size n h : Nat} {lab : Label → Nat}

/-- One of several expressions whose code goes from the last to the first. -/
theorem Expr.passes_split {as bs : List Expr} {e : Expr} {words : List Instruction}
    (hemit : Expr.emitReversed size n (as ++ e :: bs) = .ok words)
    (hfits : Fits lab n (Expr.labelHeightsReversed h (as ++ e :: bs))) :
    ∃ before word after, words = before ++ word ++ after ∧
      Expr.emitReversed size n bs = .ok before ∧
      e.emit size (n + Expr.labelCountAll bs) = .ok word ∧
      Passes lab before (Expr.callsReversed bs) h (h + bs.length) ∧
      Passes lab word e.calls (h + bs.length) (h + bs.length + 1) ∧
      ∃ calls, Expr.callsReversed (as ++ e :: bs) = Expr.callsReversed bs ++ e.calls ++ calls ∧
        Passes lab after calls (h + bs.length + 1) (h + (as ++ e :: bs).length) := by
  -- the code of the expressions in `as` comes after that of `e`
  have horder : (as ++ e :: bs).reverse = bs.reverse ++ e :: as.reverse := by simp
  have hone (es : List Expr) : ∀ e ∈ es, e.LeavesOne := fun e _ => e.leavesOne
  simp only [Expr.emitReversed_eq, Expr.labelHeightsReversed_eq, Expr.callsReversed_eq, horder,
    Expr.emitAll_append, Expr.emitAll, bind_ok_iff] at hemit hfits ⊢
  obtain ⟨before, hbefore, rest, ⟨word, hword, after, hafter, hrest⟩, hwords⟩ := hemit
  cases hrest
  cases hwords
  rw [Expr.labelHeightsAll_append, fits_append, Expr.labelHeightsAll, fits_append,
    Expr.length_labelHeights, Expr.length_labelHeightsAll fun e _ => e.length_labelHeights,
    List.length_reverse] at hfits
  have hpb := Expr.passes_all (hone _) hbefore hfits.1
  have hpa := Expr.passes_all (hone _) hafter hfits.2.2
  rw [Expr.labelCountAll_reverse] at hword hfits
  refine ⟨before, word, after, (List.append_assoc _ _ _).symm, hbefore, hword,
    hpb.of_heights rfl (by simp), e.leavesOne hword hfits.2.1, Expr.callsAll as.reverse, ?_,
    hpa.of_heights rfl (by simp; omega)⟩
  rw [Expr.callsAll_append, Expr.callsAll, List.append_assoc]

/-- Code that goes through as that of a call does is that of a call site. -/
theorem isCallSite {args : List Expr} {words link target : List Instruction}
    (hemit : Expr.emitReversed size n args = .ok words)
    (hlink : ∀ {lab : Label → Nat} {h : Nat}, Passes lab link [] h (h + 1))
    (htarget : ∀ {lab : Label → Nat} {h : Nat}, Passes lab target [] h (h + 1)) :
    IsCallSite size n args (Expr.callsReversed args ++ [args.length])
      (straight [.lfp] ++ words ++ link ++ target ++ straight [.js]) := by
  obtain ⟨lab, hfits, -⟩ := exists_fits n (Expr.labelHeightsReversed 1 args) 0 0
  have hwords := Expr.passes_reversed (fun e _ => e.leavesOne) hemit hfits
  have hlfp : Passes lab (straight [.lfp]) [] 0 1 := passes_lfp
  have hjs : Passes lab (straight [.js]) [args.length] (1 + args.length + 1 + 1) 1 := by
    rw [show 1 + args.length + 1 + 1 = 0 + args.length + 3 by omega]
    exact passes_js args.length
  have hsite := ((hlfp.append hwords).append hlink).append htarget
  refine ⟨words, link, target, hemit, rfl, ?_, ?_, fun as e bs hargs => ?_⟩
  · have hleaves := (hlfp.append hwords).leavesAt hlink (htarget.append hjs) (args.length + 2) 0
      (by push_cast; omega)
    simpa only [List.append_assoc, List.nil_append, List.append_nil] using hleaves
  · have hat := hsite.heightAt hjs
    have hlast : (straight [.lfp] ++ words ++ link ++ target ++ straight [.js]).length - 1 =
        (straight [.lfp] ++ words ++ link ++ target).length := by
      simp [straight]
      omega
    rw [hlast, show args.length + 3 = 1 + args.length + 1 + 1 by omega]
    simpa only [List.append_assoc, List.nil_append, List.append_nil] using hat
  · subst hargs
    obtain ⟨before, word, after, rfl, hbefore, hword, hpb, hpw, calls, hcalls, hpa⟩ :=
      Expr.passes_split hemit hfits
    refine ⟨before, word, hbefore, hword, ?_⟩
    have hleaves := (hlfp.append hpb).leavesAt hpw (((hpa.append hlink).append htarget).append hjs)
      ((as ++ e :: bs).length + 2) (firstParam + as.length)
      (by simp only [firstParam, List.length_append, List.length_cons]; push_cast; omega)
    rw [hcalls]
    simpa only [List.append_assoc, List.nil_append, List.append_nil] using hleaves

theorem Expr.isCallSite {e : Expr} {args : List Expr} {code : List Instruction}
    (hemit : e.emit size n = .ok code) (hargs : e.callArgs? = some args) :
    IsCallSite size n args e.calls code := by
  cases e with
  | call line name args' b =>
    cases hargs
    simp only [Expr.emit, bind_ok_iff] at hemit
    obtain ⟨b', -, words, hwords, hcode⟩ := hemit
    cases hcode
    rw [callCode_eq]
    exact ObjectLang.isCallSite hwords b'.passes_linkCode b'.passes_targetCode
  | send line receiver method args' b =>
    cases hargs
    simp only [Expr.emit, bind_ok_iff] at hemit
    obtain ⟨b', -, words, hwords, hcode⟩ := hemit
    cases hcode
    rw [sendCode_eq]
    exact ObjectLang.isCallSite hwords b'.passes_linkCode b'.passes_targetCode
  | _ => cases hargs

end CallSites

/-! ### Declarations of a frame -/

/-- The words of declarations lie where they are stored.  Their code, with labels from number `n`
and blocks from number `k`, comes after `start`. -/
def Frame.Holds (fr : Frame) (size n k : Nat) (start : List Instruction) (ds : List Decl) : Prop :=
  ∀ ds₁ d ds₂, ds = ds₁ ++ d :: ds₂ → ∃ before code offset,
    Decl.emitAll size n k ds₁ = .ok before ∧
      d.emit size (n + Decl.labelCountAll ds₁) (k + Decl.blockCountAll ds₁) = .ok code ∧
      d.offset = some offset ∧ fr.LeavesAt (start ++ before.inline) code.inline offset

/-- The words of classes lie where they are stored.  Their code comes after `start`. -/
def Frame.HoldsClasses (fr : Frame) (size : Nat) (start : List Instruction) (cs : List ClassDecl) :
    Prop :=
  ∀ cs₁ c cs₂, cs = cs₁ ++ c :: cs₂ → ∃ before n k tables table code offset,
    ClassDecl.emitAll size 0 0 .empty cs₁ = .ok before ∧
      c.emit size n k tables = .ok (table, code) ∧
      c.offset = some offset ∧ fr.LeavesAt (start ++ before.inline) code.inline offset

section Declarations

variable {size n k h : Nat} {lab : Label → Nat} {code : Fragment}

theorem Decl.labelHeightsAll_append (h : Nat) (ds ds' : List Decl) :
    Decl.labelHeightsAll h (ds ++ ds') =
      Decl.labelHeightsAll h ds ++ Decl.labelHeightsAll (h + ds.length) ds' := by
  induction ds generalizing h with
  | nil => rfl
  | cons d ds ih => simp [Decl.labelHeightsAll, ih, Nat.add_assoc, Nat.add_comm 1]

/-- The code of declarations that come after others is code of its own. -/
theorem Decl.exists_of_emitAll_append {ds ds' : List Decl}
    (hemit : Decl.emitAll size n k (ds ++ ds') = .ok code) :
    ∃ before after, code.inline = before.inline ++ after.inline ∧
      Decl.emitAll size n k ds = .ok before ∧
      Decl.emitAll size (n + Decl.labelCountAll ds) (k + Decl.blockCountAll ds) ds' =
        .ok after := by
  induction ds generalizing n k code with
  | nil => exact ⟨.empty, code, rfl, rfl, hemit⟩
  | cons d ds ih =>
    simp only [List.cons_append, Decl.emitAll, bind_ok_iff] at hemit
    obtain ⟨first, h₁, rest, h₂, hcode⟩ := hemit
    cases hcode
    obtain ⟨before, after, hcode, hbefore, hafter⟩ := ih h₂
    refine ⟨first.append before, after, by simp [Fragment.append, hcode], ?_, ?_⟩
    · rw [Decl.emitAll, h₁, hbefore]
      rfl
    · rwa [Decl.labelCountAll, Decl.blockCountAll, ← Nat.add_assoc, ← Nat.add_assoc]

theorem Decl.passes_split {ds₁ ds₂ : List Decl} {d : Decl}
    (hemit : Decl.emitAll size n k (ds₁ ++ d :: ds₂) = .ok code)
    (hfits : Fits lab n (Decl.labelHeightsAll h (ds₁ ++ d :: ds₂))) :
    ∃ before word after, code.inline = before.inline ++ word.inline ++ after ∧
      Decl.emitAll size n k ds₁ = .ok before ∧
      d.emit size (n + Decl.labelCountAll ds₁) (k + Decl.blockCountAll ds₁) = .ok word ∧
      Passes lab before.inline (Decl.callsAll ds₁) h (h + ds₁.length) ∧
      Passes lab word.inline d.calls (h + ds₁.length) (h + ds₁.length + 1) ∧
      Passes lab after (Decl.callsAll ds₂) (h + ds₁.length + 1) (h + (ds₁ ++ d :: ds₂).length) := by
  obtain ⟨before, rest, hcode, hbefore, hrest⟩ := Decl.exists_of_emitAll_append hemit
  simp only [Decl.emitAll, bind_ok_iff] at hrest
  obtain ⟨word, hword, after, hafter, hrest⟩ := hrest
  cases hrest
  rw [Decl.labelHeightsAll_append, fits_append, Decl.length_labelHeightsAll, Decl.labelHeightsAll,
    fits_append, Decl.length_labelHeights] at hfits
  refine ⟨before, word, after.inline, by simp [hcode, Fragment.append], hbefore, hword,
    Decl.passes_all hbefore hfits.1, Decl.passes hword hfits.2.1, ?_⟩
  exact (Decl.passes_all hafter hfits.2.2).of_heights rfl (by simp; omega)

/-- The code of classes that come after others is code of its own. -/
theorem ClassDecl.exists_of_emitAll_append {tables : NameMap DispatchTable}
    {cs cs' : List ClassDecl} (hemit : ClassDecl.emitAll size n k tables (cs ++ cs') = .ok code) :
    ∃ before after n' k' tables', code.inline = before.inline ++ after.inline ∧
      ClassDecl.emitAll size n k tables cs = .ok before ∧
      ClassDecl.emitAll size n' k' tables' cs' = .ok after := by
  induction cs generalizing n k tables code with
  | nil => exact ⟨.empty, code, n, k, tables, rfl, rfl, hemit⟩
  | cons c cs ih =>
    simp only [List.cons_append, ClassDecl.emitAll, bind_ok_iff] at hemit
    obtain ⟨⟨table, first⟩, h₁, rest, h₂, hcode⟩ := hemit
    cases hcode
    obtain ⟨before, after, n', k', tables', hcode, hbefore, hafter⟩ := ih h₂
    refine ⟨first.append before, after, n', k', tables', by simp [Fragment.append, hcode], ?_,
      hafter⟩
    simp only [ClassDecl.emitAll, bind_ok_iff]
    exact ⟨⟨table, first⟩, h₁, before, hbefore, rfl⟩

theorem ClassDecl.passes_split {tables : NameMap DispatchTable} {cs₁ cs₂ : List ClassDecl}
    {c : ClassDecl} (hemit : ClassDecl.emitAll size n k tables (cs₁ ++ c :: cs₂) = .ok code) :
    ∃ before n' k' tables' table word after,
      code.inline = before.inline ++ word.inline ++ after ∧
      ClassDecl.emitAll size n k tables cs₁ = .ok before ∧
      c.emit size n' k' tables' = .ok (table, word) ∧
      Passes lab before.inline [] h (h + cs₁.length) ∧
      Passes lab word.inline [] (h + cs₁.length) (h + cs₁.length + 1) ∧
      Passes lab after [] (h + cs₁.length + 1) (h + (cs₁ ++ c :: cs₂).length) := by
  obtain ⟨before, rest, n', k', tables', hcode, hbefore, hrest⟩ :=
    ClassDecl.exists_of_emitAll_append hemit
  simp only [ClassDecl.emitAll, bind_ok_iff] at hrest
  obtain ⟨⟨table, word⟩, hword, after, hafter, hrest⟩ := hrest
  cases hrest
  refine ⟨before, n', k', tables', table, word, after.inline, by simp [hcode, Fragment.append],
    hbefore, hword, ClassDecl.passes_all hbefore, ClassDecl.passes hword, ?_⟩
  exact (ClassDecl.passes_all hafter).of_heights rfl (by simp; omega)

variable {start rest : List Instruction} {calls₁ calls₂ : List Nat} {entry base exit : Nat}
  {first : Int}

/-- Declarations lie where they are stored if the first one does. -/
theorem Decl.holds {ds : List Decl} (hstart : Passes lab start calls₁ entry h)
    (hemit : Decl.emitAll size n k ds = .ok code) (hfits : Fits lab n (Decl.labelHeightsAll h ds))
    (hrest : Passes lab rest calls₂ (h + ds.length) exit)
    (hstored : StoredFrom Decl.offset first ds) (hfirst : (h : Int) + 1 = base - first) :
    Frame.Holds ⟨start ++ code.inline ++ rest, calls₁ ++ Decl.callsAll ds ++ calls₂, entry, base⟩
      size n k start ds := by
  rintro ds₁ d ds₂ rfl
  obtain ⟨before, word, after, hcode, hbefore, hword, hpb, hpw, hpa⟩ :=
    Decl.passes_split hemit hfits
  refine ⟨before, word, _, hbefore, hword, hstored ds₁ d ds₂ rfl, ?_⟩
  have hleaves := (hstart.append hpb).leavesAt hpw (hpa.append hrest) base (first - ds₁.length)
    (by push_cast; omega)
  rw [hcode]
  simpa only [Decl.callsAll, List.flatMap_append, List.flatMap_cons, List.append_assoc]
    using hleaves

/-- Classes lie where they are stored if the first one does. -/
theorem ClassDecl.holds {cs : List ClassDecl} (hstart : Passes lab start [] entry h)
    (hemit : ClassDecl.emitAll size 0 0 .empty cs = .ok code)
    (hrest : Passes lab rest calls₂ (h + cs.length) exit)
    (hstored : StoredFrom ClassDecl.offset first cs) (hfirst : (h : Int) + 1 = base - first) :
    Frame.HoldsClasses ⟨start ++ code.inline ++ rest, calls₂, entry, base⟩ size start cs := by
  rintro cs₁ c cs₂ rfl
  obtain ⟨before, n, k, tables, table, word, after, hcode, hbefore, hword, hpb, hpw, hpa⟩ :=
    ClassDecl.passes_split hemit
  refine ⟨before, n, k, tables, table, word, _, hbefore, hword, hstored cs₁ c cs₂ rfl, ?_⟩
  have hleaves := (hstart.append hpb).leavesAt hpw (hpa.append hrest) base (first - cs₁.length)
    (by push_cast; omega)
  rw [hcode]
  simpa only [List.nil_append, List.append_assoc] using hleaves

end Declarations

/-! ### Blocks -/

/-- The frame of a routine.  The control link, the arguments and the access link are on the stack
when the code is entered, and the access link is its base. -/
def Routine.frame (f : Routine) (code : List Instruction) : Frame where
  code := code
  calls := Decl.callsAll f.decls ++ f.body.calls
  entry := f.params.length + 2
  base := f.params.length + 2

/-- The start of the block with number `k`. -/
def prologue (k : Nat) : List Instruction := [.label (blockLabel k)] ++ straight [.cfp, .lra]

/-- The code of a routine, up to the jump back, with labels from number `n` and with block number
`k`, has the words of its frame in their places. -/
structure Routine.KeepsFrame (size n k : Nat) (f : Routine) (code : List Instruction) : Prop where
  /-- It starts by making `fp` point at the base of the frame. -/
  start : prologue k <+: code
  base : HeightAt (f.frame code).calls code (f.frame code).entry 1 (f.frame code).base
  /-- The result and the return address are what is left of the frame. -/
  steady : Steady (f.frame code).calls code (f.frame code).entry 2
  decls : (f.frame code).Holds size n (k + 1) (prologue k) f.decls
  params : ∀ {i : Nat} {x : TypedName}, f.params[i]? = some x → x.offset = some (firstParam + i)

section Blocks

variable {lab : Label → Nat} {size n k : Nat}

theorem passes_label (l : Label) : Passes lab [.label l] [] (lab l) (lab l) :=
  fun seen calls => ⟨seen, List.Subset.refl _, by simp [Scan.next]⟩

/-- The end of a block takes down the frame.  The jump back is left out. -/
theorem exists_unwinding (params locals : Nat) : ∃ code,
    epilogue params locals = code ++ straight [.js] ∧ StaysInside code ∧
      ∀ lab, Passes lab code [] (params + 2 + 1 + locals + 1) 2 := by
  have hpops : ∀ {lab h} count,
      Passes lab (straight (List.replicate count .pop)) [] (h + count) h :=
    fun count => passes_straight (heightAfter_replicate_pop count)
  refine ⟨straight [.stm] ++ straight (List.replicate locals .pop) ++ straight [.sra, .pop] ++
    straight (List.replicate params .pop) ++ straight [.sfp, .ltm, .lra], ?_, ?_, fun lab => ?_⟩
  · simp [epilogue, straight]
  · refine staysInside_of_forall fun o ho => ?_
    simp only [straight, List.map_cons, List.map_nil, List.map_replicate, List.mem_append,
      List.mem_replicate, List.mem_cons, List.not_mem_nil, Instruction.op.injEq, or_false] at ho
    grind [Op.branchTarget?]
  · have hresult : Passes lab (straight [.stm]) [] (params + 2 + 1 + locals + 1)
        (params + 2 + 1 + locals) := passes_straight rfl
    have hlinks : Passes lab (straight [.sra, .pop]) [] (params + 2 + 1) (1 + params) :=
      (passes_straight (h := params + 2 + 1) (k := params + 1) rfl).of_heights rfl
        (Nat.add_comm params 1)
    have hleave : Passes lab (straight [.sfp, .ltm, .lra]) [] 1 2 := passes_straight rfl
    exact (((hresult.append (hpops locals)).append hlinks).append (hpops params)).append hleave

/-- The block of a routine whose words have their places keeps its frame. -/
theorem Routine.IsBlock.exists_keepsFrame {f : Routine} {block : List Instruction}
    (hblock : f.IsBlock size n k block) (hf : f.Stored) :
    ∃ code, block = code ++ straight [.js] ∧ f.KeepsFrame size n k code := by
  obtain ⟨locals, result, hlocals, hresult, rfl⟩ := Routine.isBlock_iff.1 hblock
  obtain ⟨unwinding, hepilogue, hinside, hunwinding⟩ :=
    exists_unwinding f.params.length f.decls.length
  refine ⟨prologue k ++ locals.inline ++ (result ++ unwinding), ?_, ?_⟩
  · simp only [blockCode, hepilogue, prologue, List.append_assoc]
  -- heights of all labels, that of the block among them
  obtain ⟨lab, hfits, hlab⟩ := exists_fits n
    (Decl.labelHeightsAll (f.params.length + 2 + 1) f.decls ++
      f.body.labelHeights (f.params.length + 2 + 1 + f.decls.length)) k (f.params.length + 2)
  rw [fits_append, Decl.length_labelHeightsAll] at hfits
  have hlabel : Passes lab [.label (blockLabel k)] [] (f.params.length + 2)
      (f.params.length + 2) := hlab ▸ passes_label (blockLabel k)
  have henter : Passes lab (straight [.cfp, .lra]) [] (f.params.length + 2)
      (f.params.length + 2 + 1) := passes_straight rfl
  have hdecls := Decl.passes_all hlocals hfits.1
  have hrest : Passes lab (result ++ unwinding) f.body.calls _ 2 :=
    ((f.body.leavesOne hresult hfits.2).append (hunwinding lab)).of_calls (List.append_nil _)
  have hall := ((hlabel.append henter).append hdecls).append hrest
  have hstart : StaysInside (prologue k) := staysInside_of_branches_eq_nil rfl
  refine ⟨?_, ?_, ?_, ?_, hf.params⟩
  · rw [List.append_assoc]
    exact List.prefix_append _ _
  · have hat := hlabel.heightAt ((henter.append hdecls).append hrest)
    simpa only [Routine.frame, List.append_assoc, List.nil_append, List.length_singleton, prologue]
      using hat
  · exact hall.steady
      ((hstart.append (Decl.staysInside_all hlocals)).append
        ((Expr.staysInside hresult).append hinside))
  · exact Decl.holds (hlabel.append henter) hlocals hfits.1 hrest hf.decls
      (by simp only [firstLocal]; push_cast; omega)

end Blocks

/-! ### The program -/

namespace Program

/-- What a program pushes before its words: the place of the return address of a frame. -/
def prologue : Program → List Instruction
  | body _ => []
  | letIn _ _ _ => straight [.push 0]

/-- The frame of a program, whose base is the empty stack. -/
def frame (p : Program) (code : List Instruction) : Frame where
  code := code
  calls := Decl.callsAll p.decls ++ p.main.calls
  entry := 0
  base := 0

/-- The code of a program, up to where it halts, has the words of its frame in their places. -/
structure KeepsFrame (size : Nat) (p : Program) (code : List Instruction) : Prop where
  /-- The result comes after all words of the frame. -/
  steady : Steady (p.frame code).calls code 0
    (p.prologue.length + p.classes.length + p.decls.length + 1)
  classes : (p.frame code).HoldsClasses size p.prologue p.classes
  decls : ∃ tables, ClassDecl.emitAll size 0 0 .empty p.classes = .ok tables ∧
    (p.frame code).Holds size (ClassDecl.labelCountAll p.classes)
      (ClassDecl.blockCountAll p.classes) (p.prologue ++ tables.inline) p.decls

section Emitted

variable {p : Program} {memorySize : Nat} {code : Listing}

/-- The code of a program whose words have their places keeps its frame. -/
theorem keepsFrame (hp : p.Stored) (h : p.emit memorySize = .ok code) :
    p.KeepsFrame memorySize (p.front.map (Piece.erase memorySize)) := by
  cases p with
  | body main =>
    simp only [Program.emit, bind_ok_iff] at h
    obtain ⟨result, h₁, -⟩ := h
    have hresult := main.outlined _ _ _ h₁ memorySize 0
    refine ⟨Expr.rises hresult, fun cs₁ c cs₂ hcs => ?_, .empty, rfl, fun ds₁ d ds₂ hds => ?_⟩
    · simp [Program.classes] at hcs
    · simp [Program.decls] at hds
  | letIn classes decls main =>
    simp only [Program.emit, bind_ok_iff] at h
    obtain ⟨tables, h₁, locals, h₂, result, h₃, -⟩ := h
    have htables := ClassDecl.emitAll_outline h₁ memorySize
    have hlocals := Decl.emitAll_outline (fun d _ => d.outlined) _ _ _ _ h₂ memorySize
      (ClassDecl.labelCountAll classes) (ClassDecl.blockCountAll classes)
    have hresult := main.outlined _ _ _ h₃ memorySize
      (ClassDecl.labelCountAll classes + Decl.labelCountAll decls)
    -- blocks come later, so that any height will do for their labels
    obtain ⟨lab, hfits, -⟩ := exists_fits (ClassDecl.labelCountAll classes)
      (Decl.labelHeightsAll (1 + classes.length) decls ++
        main.labelHeights (1 + classes.length + decls.length)) 0 0
    rw [fits_append, Decl.length_labelHeightsAll] at hfits
    have hstart : Passes lab (straight [.push 0]) [] 0 1 := passes_straight rfl
    have hclasses : Passes lab _ [] 1 (1 + classes.length) := ClassDecl.passes_all htables
    have hdecls := Decl.passes_all hlocals hfits.1
    have hmain := main.leavesOne hresult hfits.2
    have hpush : StaysInside (straight [.push 0]) := staysInside_of_branches_eq_nil rfl
    have hfirst : ∀ count : Nat,
        ((1 + count : Nat) : Int) + 1 = (0 : Nat) - (firstLocal - count) := by
      intro count
      simp only [firstLocal]
      omega
    simp only [front, List.map_append, Piece.map_erase_plain]
    refine ⟨?_, ?_, _, htables, ?_⟩
    · exact (((hstart.append hclasses).append hdecls).append hmain).steady
        (((hpush.append (ClassDecl.staysInside_all htables)).append
          (Decl.staysInside_all hlocals)).append (Expr.staysInside hresult))
    · have hholds : Frame.HoldsClasses ⟨_, _, 0, 0⟩ memorySize _ classes :=
        ClassDecl.holds hstart htables (hdecls.append hmain) hp.classes (hfirst 0)
      rw [← List.append_assoc] at hholds
      exact hholds
    · exact Decl.holds (hstart.append hclasses) hlocals hfits.1 hmain hp.decls
        (hfirst classes.length)

/-- **Offsets are places on the stack.**  Let names be resolved, with whatever errors, and code be
emitted.

* Heights are those of the machine, where only a call takes more than one step.
* The code of an expression, a declaration or a class leaves one word, on all its paths and with no
  other words taken.  At a call site, the arguments lie where the parameters are, seen from the
  access link.
* In the frame of the program and in that of each of its blocks, the word of a class or a
  declaration lies at its offset from the base of the frame.  A block makes `fp` point at the access
  link, has its parameters above it, and leaves the result alone with the address to go back to. -/
theorem frames_of_emit {env : Env} {p : Program} {memorySize : Nat} {code : Listing}
    (h : (p.bindIn env).emit memorySize = .ok code) :
    (∀ {size : Nat} {s t : Machine.State} {o : Op Nat}, Machine.execute size s o = .ok t →
      o ≠ .js → t.sp = s.sp + .ofNat (o.takes 0) - .ofNat o.leaves) ∧
    (∀ {e : Expr} {n : Nat} {c : List Instruction}, e.emit memorySize n = .ok c →
      Rises e.calls c ∧
        ∀ {args}, e.callArgs? = some args → IsCallSite memorySize n args e.calls c) ∧
    (∀ {d : Decl} {n k : Nat} {c : Fragment}, d.emit memorySize n k = .ok c →
      Rises d.calls c.inline) ∧
    (∀ {cls : ClassDecl} {n k : Nat} {tables : NameMap DispatchTable} {table : DispatchTable}
      {c : Fragment}, cls.emit memorySize n k tables = .ok (table, c) → Rises [] c.inline) ∧
    ∃ (front : Listing) (blocks : List Block),
      code = front ++ straight [.halt] ++ blocks.flatMap (Block.code memorySize) ∧
      (p.bindIn env).KeepsFrame memorySize front ∧
      (blocks.map (·.routine)).Perm (p.bindIn env).routines ∧
      ∀ b ∈ blocks, ∃ inside, b.code memorySize = inside ++ straight [.js] ∧
        b.routine.KeepsFrame memorySize b.labels b.number inside := by
  have hstored := p.stored_bindIn env
  refine ⟨Machine.sp_of_execute, fun hemit => ⟨Expr.rises hemit, Expr.isCallSite hemit⟩, Decl.rises,
    ClassDecl.rises, _, _, code_eq h, keepsFrame hstored h, perm_routines _, fun b hb => ?_⟩
  have hroutine : b.routine ∈ (p.bindIn env).routines :=
    (perm_routines _).subset (List.mem_map_of_mem hb)
  exact (isBlock_of_mem h hb).exists_keepsFrame (hstored.routines _ hroutine)

/-- A name is declared twice, next to a class and a function with a function inside. -/
def crowded : Program :=
  .letIn
    [{ name := "Lamp"
       fields := []
       methods := [{ name := "lit", params := [{ name := "dark", ty := .bool }], ret := .bool
                     decls := []
                     body := .not 0 (.ident 0 "dark" none) }] }]
    [.var { name := "x", ty := .int, init := .int 0 1 },
      .var { name := "x", ty := .int, init := .int 0 2 },
      .fn { name := "outer", params := [{ name := "a", ty := .int }, { name := "b", ty := .int }]
            ret := .int
            decls := [.fn { name := "inner", params := [], ret := .int, decls := []
                            body := .ident 0 "b" none }]
            body := .call 0 "inner" [] none }]
    (.cond 0 (.bool 0 true) (.call 0 "outer" [.ident 0 "x" none, .int 0 3] none) (.int 0 4))

theorem frames_of_emit_crowded : crowded.nameErrors ≠ [] ∧
    ∃ code, (crowded.bindIn .empty).emit 100 = .ok code ∧ ∃ (front : Listing) (blocks : List Block),
      code = front ++ straight [.halt] ++ blocks.flatMap (Block.code 100) ∧
      (crowded.bindIn .empty).KeepsFrame 100 front ∧ blocks.length = 3 ∧
      ∀ b ∈ blocks, ∃ inside, b.code 100 = inside ++ straight [.js] ∧
        b.routine.KeepsFrame 100 b.labels b.number inside := by
  obtain ⟨code, hcode⟩ : ∃ code, (crowded.bindIn .empty).emit 100 = .ok code := ⟨_, rfl⟩
  obtain ⟨-, -, -, -, front, blocks, heq, hfront, hperm, hblocks⟩ := frames_of_emit hcode
  refine ⟨by decide, code, hcode, front, blocks, heq, hfront, ?_, hblocks⟩
  rw [← List.length_map (fun b : Block => b.routine), hperm.length_eq]
  rfl

end Emitted

end Program

end ObjectLang
