import ObjectLang.Proofs.Safety

/-!
# Method calls find the method of the object

Whatever the class that a variable is declared with, a method call goes to the declaration that is
nearest to the class which the object was made with, and the object is the link of the new frame
(`Program.dispatch_of_compile`).  This is so at every point of every run, for calls through a
variable as well as for those that one method of an object makes to another.

The calls in question are the `Piece.dispatch` operations of the outline, and the objects are those
that a `Piece.construct` operation has been executed for (`Program.HasMade`).
-/

namespace ObjectLang

open Segmented (Corresponds Links Steps Word)

/-! ### Receivers -/

namespace Machine

/-- The state after `n` steps, if the run goes on for so long. -/
def advance (code : Array (Op Nat)) : Nat → State → Option State
  | 0, s => some s
  | n + 1, s =>
    match step code s with
    | .ok (.running t) => advance code n t
    | _ => none

theorem takes_of_advance {code : Array (Op Nat)} {n : Nat} {s t : State}
    (h : advance code n s = some t) : Takes code n s t := by
  induction n generalizing s with
  | zero =>
    cases h
    exact .refl _
  | succ n ih =>
    rw [advance] at h
    split at h
    · rename_i hs
      exact .head hs (ih h)
    · cases h

end Machine

namespace Machine.State

variable (s : State)

/-- The word reached by following a number of links. -/
def follow : Nat → Int64 → Except Fault Int64
  | 0, a => .ok a
  | hops + 1, a => s.load a >>= follow hops

/-- The object that a method is called on: it is in a variable of the frame reached by the links,
or it is what the last link leads to. -/
def receiver (site : MethodSite) : Except Fault Int64 := do
  let link ← s.follow site.hops s.fp
  match site.offset with
  | none => .ok link
  | some offset => s.load (link + Int64.ofInt offset)

end Machine.State

namespace Segmented.Corresponds

variable {size : Nat} {t : State} {s : Machine.State}

theorem follow (hsize : size < 2 ^ 63) (h : Corresponds size t s) {hops : Nat} {a w : Word}
    (hw : t.follow hops a = some w) :
    s.follow hops (a.onMachine size) = .ok (w.onMachine size) := by
  induction hops generalizing a with
  | zero =>
    cases hw
    rfl
  | succ hops ih =>
    obtain ⟨b, hb, hw⟩ := Option.bind_eq_some_iff.1 hw
    rw [Machine.State.follow, h.load hsize hb]
    exact ih hw

theorem receiver (hsize : size < 2 ^ 63) (h : Corresponds size t s) {site : MethodSite} {w : Word}
    (hw : t.receiver site = some w) : s.receiver site = .ok (w.onMachine size) := by
  obtain ⟨link, hlink, hw⟩ := Option.bind_eq_some_iff.1 hw
  rw [Machine.State.receiver, h.fp, h.follow hsize hlink]
  cases hoffset : site.offset with
  | none =>
    rw [hoffset] at hw
    cases hw
    rfl
  | some offset =>
    rw [hoffset] at hw
    obtain ⟨a, ha, hw⟩ := Option.bind_eq_some_iff.1 hw
    have hadd : link.onMachine size + Int64.ofInt offset = a.onMachine size := onMachine_add ha
    exact (congrArg s.load hadd).trans (h.load hsize hw)

end Segmented.Corresponds

/-! ### Objects -/

/-- In the first `n` steps of a run, an object of the class has been completed at the address. -/
def Program.HasMade (p : Program) (code : Array (Op Nat)) (size n : Nat) (this : Int64)
    (cls : String) : Prop :=
  ∃ m < n, ∃ u, Machine.Takes code m (.initial size) u ∧
    (Image.ofPieces p.bind.outline).piece u.ip = some (.construct cls) ∧ u.hp = this

/-- The segmented machine notes the objects that it completes. -/
theorem Segmented.made_of_step {img : Image} {t u : State} {cls : String}
    (hp : img.piece t.ip = some (.construct cls)) (h : step img t = .next u) :
    (t.hp, cls) ∈ u.made := by
  rw [step, hp] at h
  simp only [perform] at h
  cases hst : State.store { t with ip := t.ip + 1 } with
  | next v =>
    rw [hst] at h
    cases h
    exact List.mem_cons_self
  | halted | fault | stuck => rw [hst] at h; cases h

theorem Program.HasMade.mem_made {p : Program} {size n : Nat} {code : Array (Op Nat)}
    {this : Int64} {cls : String} (hmade : p.HasMade code size n this cls) (hsize : size < 2 ^ 63)
    (hl : Links size (Image.ofPieces p.bind.outline) code) {Q : Segmented.State → Prop}
    {t : Segmented.State} (ht : Steps (Image.ofPieces p.bind.outline) Q n .initial t) :
    (this, cls) ∈ t.made := by
  obtain ⟨m, hm, u, hu, hpiece, rfl⟩ := hmade
  obtain ⟨k, rfl⟩ := Nat.exists_eq_add_of_lt hm
  rw [Nat.add_assoc] at ht
  obtain ⟨v, hv, hrest⟩ := ht.split
  have hcorr := hv.corresponds hsize hl (Segmented.corresponds_initial size) hu
  cases hrest with
  | head _ hs hr =>
    rw [hcorr.ip] at hpiece
    rw [hcorr.hp]
    exact hr.grows.2.mem (Segmented.made_of_step hpiece hs)

/-! ### Calls -/

/-- The jump to an address of the code that lies on the stack. -/
theorem Segmented.step_dispatch {img : Image} (himg : img.size < 2 ^ 63) {t : State}
    {site : MethodSite} (hp : img.piece t.ip = some (.dispatch site)) {a : Nat} (ha : a < img.size)
    {rest : List Word} (hst : t.stack = .plain (Int64.ofNat a) :: rest) :
    step img t =
      .next { t with stack := rest, ip := a, ra := .plain (Int64.ofNat (t.ip + 1)) } := by
  have hto : (Int64.ofNat a).toNatClampNeg = a := Int64.toNatClampNeg_ofNat_of_lt (by omega)
  have hnonneg : 0 ≤ Int64.ofNat a := zero_le_ofNat (by omega)
  simp only [step, hp, perform, State.jump, hst, hto, hnonneg, ha, and_self, ↓reduceIte]

/-- The machine makes the jump too, and has the word below the address on top of its stack. -/
theorem Segmented.Corresponds.step_dispatch {size : Nat} {img : Image} {code : Array (Op Nat)}
    {t : State} {s : Machine.State} (h : Corresponds size t s) (hsize : size < 2 ^ 63)
    (hl : Links size img code) (himg : img.size < 2 ^ 63) (hfit : t.Fits size) {site : MethodSite}
    (hp : img.piece t.ip = some (.dispatch site)) {a : Nat} (ha : a < img.size) {this : Int64}
    {rest : List Word} (hst : t.stack = .plain (Int64.ofNat a) :: .plain this :: rest) :
    ∃ s', Machine.step code s = .ok (.running s') ∧ s'.peek = .ok this ∧ s'.ip = a := by
  have hstep := h.step hsize hl hfit
  rw [Segmented.step_dispatch himg hp ha hst] at hstep
  obtain ⟨s', hs', hcorr⟩ := hstep
  have hlen : t.stack.length = (Word.plain this :: rest).length + 1 := by rw [hst]; rfl
  have hfit' : { t with
      stack := .plain this :: rest, ip := a, ra := .plain (Int64.ofNat (t.ip + 1)) }.Fits size := by
    unfold State.Fits at hfit ⊢
    simp only
    omega
  obtain ⟨-, -, hpeek, -⟩ := hcorr.pop hsize hfit' rfl
  exact ⟨s', hs', hpeek, hcorr.ip⟩

namespace Program

/-- **Virtual dispatch.**  Let the annotations of a program mention neither methods nor class
shapes, and its code be shorter than words can count.  The machine has the size of memory that the
code is emitted for.  Wherever a run is at the jump of a method call, and is not out of memory,
there is a word for the receiver, the jump is made, and the receiver is left on top of the stack as
the link of the new frame.  If the receiver is an object that has been made with the class `cls`,
then the jump leads to the block of the declaration that comes first in `cls`, its superclass, and
so on; the number of the block is that of the declaration. -/
theorem dispatch_of_compile {p : Program} {memorySize maxSteps : Nat} {c : Compiled}
    (hc : p.compile ⟨memorySize, ⟨memorySize, maxSteps⟩⟩ = .ok c)
    (hmemory : memorySize < 2 ^ 63) (hlen : c.code.length < 2 ^ 63)
    (hplain : ∀ ty ∈ p.annotations, ty.isPlain = true)
    {ops : List (Op Nat)} (hops : c.code.assemble = .ok ops)
    {n : Nat} {s : Machine.State} (hs : Machine.Takes ops.toArray n (.initial memorySize) s)
    (hroom : ¬ s.sp ≤ s.hp) {site : MethodSite}
    (hsite : (Image.ofPieces p.bind.outline).piece s.ip = some (.dispatch site)) :
    ∃ this s', s.receiver site = .ok this ∧
      Machine.step ops.toArray s = .ok (.running s') ∧ s'.peek = .ok this ∧
      ∀ cls, p.HasMade ops.toArray memorySize n this cls →
        ∃ r, nearestMethod? (lineage p.bind.classes.reverse cls) site.method = some r ∧
          ∃ d labels k block, p.bind.Provides cls site.method d r labels k ∧
            r.emitBlock memorySize labels k = .ok block ∧ block <:+: c.code ∧
            s'.ip = Listing.address (blockLabel k) c.code := by
  have hl := links_of_compile hc hops
  have haccepted := accepted_of_plain hc hlen hplain
  obtain ⟨t, ht, hcorr, hdispatches⟩ := haccepted.visits hmemory hl hs
  have hfit : t.Fits memorySize := by
    by_contra hfull
    exact hroom ((hcorr.full_iff hmemory).2 hfull)
  rw [hcorr.ip] at hsite
  obtain ⟨a, this, rest, hst, ha, hreceiver, hbound⟩ := hdispatches hfit site hsite
  obtain ⟨s', hstep, hpeek, hip⟩ :=
    hcorr.step_dispatch hmemory hl haccepted.size hfit hsite ha hst
  refine ⟨this, s', hcorr.receiver hmemory hreceiver, hstep, hpeek, fun cls hmade => ?_⟩
  obtain ⟨k, ⟨d, r, labels, hprovides⟩, haddress⟩ := hbound cls (hmade.mem_made hmemory hl ht)
  obtain ⟨hn, -, hcode, -⟩ := compile_ok hc
  have hdeclared := hprovides.declared
  refine ⟨r, nearestMethod?_of_provides hn hprovides, d, labels, k, _, hprovides,
    emitBlock_of_mem hcode hdeclared.mem_classes hdeclared.mem_methods _ labels k, ?_, ?_⟩
  · rw [code_eq_outline hc]
    exact hdeclared.isInfix_outline.map _
  · rw [hip, code_eq_outline hc, address_erase]
    exact haddress.symm

/-- A method of `Account` calls another one, which `Savings` overrides, on an object of that
class. -/
theorem dispatch_of_compile_savings : ∃ c ops s s' r,
    savings.compile ⟨60, ⟨60, 1000⟩⟩ = .ok c ∧ c.code.assemble = .ok ops ∧
      Machine.Takes ops.toArray 74 (.initial 60) s ∧
      (Image.ofPieces savings.bind.outline).piece s.ip = some (.dispatch ⟨1, none, "worth"⟩) ∧
      savings.HasMade ops.toArray 60 74 5 "Savings" ∧
      s.receiver ⟨1, none, "worth"⟩ = .ok 5 ∧ Machine.step ops.toArray s = .ok (.running s') ∧
      s'.peek = .ok 5 ∧
      nearestMethod? (lineage savings.bind.classes.reverse "Savings") "worth" = some r ∧
      ∃ d labels k block, savings.bind.Provides "Savings" "worth" d r labels k ∧
        r.emitBlock 60 labels k = .ok block ∧ block <:+: c.code ∧
        s'.ip = Listing.address (blockLabel k) c.code := by
  -- the object is completed in step 43, and step 74 is the call
  obtain ⟨c, hc, hlen, hsteps⟩ : ∃ c, savings.compile ⟨60, ⟨60, 1000⟩⟩ = .ok c ∧
      c.code.length < 2 ^ 63 ∧ c.code.assemble.toOption.any (fun ops => decide
        (((Machine.advance ops.toArray 43 (.initial 60)).any fun u => decide
          ((Image.ofPieces savings.bind.outline).piece u.ip = some (.construct "Savings") ∧
            u.hp = 5)) = true ∧
        ((Machine.advance ops.toArray 74 (.initial 60)).any fun s => decide
          (¬ s.sp ≤ s.hp ∧ s.receiver ⟨1, none, "worth"⟩ = .ok 5 ∧
            (Image.ofPieces savings.bind.outline).piece s.ip =
              some (.dispatch ⟨1, none, "worth"⟩))) = true)) = true :=
    exists_ok_of_decide (by decide +kernel)
  obtain ⟨ops, hops, hobject, hcall⟩ := exists_ok_of_decide hsteps
  obtain ⟨u, hu, hobject⟩ := (Option.any_eq_true _ _).1 hobject
  obtain ⟨s, hs, hcall⟩ := (Option.any_eq_true _ _).1 hcall
  obtain ⟨hroom, hreceiver, hsite⟩ := of_decide_eq_true hcall
  have htakes := Machine.takes_of_advance hs
  have hmade : savings.HasMade ops.toArray 60 74 5 "Savings" :=
    ⟨43, by decide, u, Machine.takes_of_advance hu, of_decide_eq_true hobject⟩
  have hplain : ∀ ty ∈ savings.annotations, ty.isPlain = true := by decide
  obtain ⟨this, s', hthis, hstep, hpeek, hbound⟩ :=
    dispatch_of_compile hc (by decide) hlen hplain hops htakes hroom hsite
  cases hreceiver.symm.trans hthis
  obtain ⟨r, hr, hblock⟩ := hbound "Savings" hmade
  exact ⟨c, ops, s, s', r, hc, hops, htakes, hsite, hmade, hreceiver, hstep, hpeek, hr, hblock⟩

end Program

end ObjectLang
