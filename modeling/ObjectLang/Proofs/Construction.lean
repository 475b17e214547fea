import ObjectLang.Proofs.Code.Labels
import ObjectLang.Proofs.Code.Places
import ObjectLang.Proofs.Machine.Partition

/-!
# Objects on the heap

The code of `new` leaves the values of the arguments on the stack, the last one on top.  Then it
moves them to the heap one by one, so that they lie there in the reverse order, and after them it
puts the address of the dispatch table, which the class has left in the directory at the end of
memory.  The object is where that address lies, and each field at its negative offset from there.

On the way the stack comes closer to the heap by three words at most, so with more than three free
words nothing can go wrong, and with fewer nothing but a lack of memory
(`Machine.State.Presents.leads`).  This is so wherever the code stands and whatever else is in
memory (`Program.builds_of_emit`).
-/

namespace ObjectLang

/-- The operations of `moveToHeap`. -/
def transferOps {τ : Type} : List (Op τ) := [.lhp, .sw, .lhp, .push 1, .add, .shp]

/-- The operations of `objectCode`. -/
def objectOps {τ : Type} (memorySize : Nat) (cls : Entry) (count : Nat) : List (Op τ) :=
  (List.replicate count transferOps).flatten ++
    [.push (Int64.ofNat memorySize), .push (Int64.ofInt cls.offset), .add, .lw, .lhp, .sw, .lhp,
      .lhp, .push 1, .add, .shp]

/-- Where a class has left the address of its dispatch table. -/
def Entry.directory (cls : Entry) (memorySize : Nat) : Int64 :=
  Int64.ofNat memorySize + Int64.ofInt cls.offset

theorem length_transfers {τ : Type} (count : Nat) :
    (List.replicate count (transferOps (τ := τ))).flatten.length = 6 * count := by
  simp [transferOps, Nat.mul_comm]

theorem length_objectOps {τ : Type} (memorySize : Nat) (cls : Entry) (count : Nat) :
    (objectOps (τ := τ) memorySize cls count).length = 6 * count + 11 := by
  rw [objectOps, List.length_append, length_transfers]
  rfl

theorem objectCode_eq (memorySize : Nat) (cls : Entry) (count : Nat) :
    objectCode memorySize cls count = straight (objectOps memorySize cls count) := by
  simp only [objectCode, objectOps, straight, List.map_append, List.map_flatten, List.map_replicate,
    List.append_assoc]
  rfl

theorem map_link_objectOps (address : Label → Nat) (memorySize : Nat) (cls : Entry) (count : Nat) :
    (objectOps memorySize cls count).map (Op.link address) = objectOps memorySize cls count := by
  simp only [objectOps, List.map_append, List.map_flatten, List.map_replicate]
  rfl

namespace Machine

/-- The values of arguments are on top of the stack, the last one at the top, and the address in the
class directory is inside the memory and above them. -/
structure State.Presents (s : State) (directory : Int64) (args : List Int64) : Prop where
  words : args <:+ s.stack
  heap : 0 ≤ s.hp.toInt
  above : s.sp.toInt + args.length ≤ directory.toInt
  inside : directory.toInt < s.memory.size
  size : s.memory.size < 2 ^ 63

/-- The address of an object that is made of so many words: it is just past them. -/
def State.nextObject (s : State) (count : Nat) : Int64 := s.hp + Int64.ofNat count

/-- The second state has an object in the place of the arguments on the stack of the first one. -/
structure State.Builds (s t : State) (directory : Int64) (args : List Int64) : Prop where
  /-- The address of the object is on top of the stack. -/
  pointer : t.peek = .ok (s.nextObject args.length)
  sp : t.sp.toInt = s.sp.toInt + args.length - 1
  /-- Each argument is at the offset of its field. -/
  field : ∀ {i : Nat} {v : Int64}, args[i]? = some v →
    t.load (s.nextObject args.length + Int64.ofInt (-(i : Int) - 1)) = .ok v
  /-- The object starts with what is in the class directory. -/
  table : t.load (s.nextObject args.length) = s.load directory
  hp : t.hp.toInt = s.hp.toInt + args.length + 1
  fp : t.fp = s.fp
  ra : t.ra = s.ra
  tm : t.tm = s.tm
  output : t.output = s.output
  size : t.memory.size = s.memory.size
  /-- The heap and the stack above the arguments are as they were. -/
  memory : ∀ i : Nat, (i : Int) < s.hp.toInt ∨ s.sp.toInt + args.length ≤ i →
    t.memory[i]? = s.memory[i]?

/-! ### Moving words to the heap -/

section

variable {code : Array (Op Nat)} {short : Prop} {s : State} {ip : Nat}
  {heap free stack : List Int64} {v x : Int64}

/-- The top of the stack goes to the heap, but does not belong to it yet. -/
theorem leads_storeTop (hsize : heap.length + free.length + (v :: stack).length < 2 ^ 63)
    (hcode : Stands code ip [.lhp, .sw]) (hshort : free.length < 2 → short) :
    Leads code short 2 (s.partitioned ip heap free (v :: stack)) fun t =>
      ∃ free', free'.length = free.length ∧
        t = s.partitioned (ip + 2) heap (v :: free') stack := by
  obtain ⟨h₀, h₁, -⟩ := hcode
  refine Leads.bind (m := 1) (n := 1) (leads_push (w := Int64.ofNat heap.length) hsize h₀ (by simp)
    (fun h => hshort (by simp [h])) rfl) ?_
  rintro _ ⟨free₁, y, rfl, rfl⟩
  simp only [List.length_append, List.length_cons, List.length_nil] at hsize hshort ⊢
  exact ⟨rfl, leads_store (by simp; omega) h₁ fun h => hshort (by simp [h])⟩

/-- The heap takes in the first free word. -/
theorem leads_advance (hsize : heap.length + (x :: free).length + stack.length < 2 ^ 63)
    (hcode : Stands code ip [.lhp, .push 1, .add, .shp]) (hshort : free.length < 2 → short) :
    Leads code short 4 (s.partitioned ip heap (x :: free) stack) fun t =>
      ∃ free', free'.length = free.length ∧
        t = s.partitioned (ip + 4) (heap ++ [x]) free' stack := by
  obtain ⟨h₀, h₁, h₂, h₃, -⟩ := hcode
  refine Leads.bind (m := 1) (n := 3)
    (leads_push (w := Int64.ofNat heap.length) hsize h₀ (by simp) (by simp) rfl) ?_
  rintro _ ⟨free₁, y₁, hfree₁, rfl⟩
  have hlen₁ : free₁.length = free.length := by simpa using congrArg List.length hfree₁.symm
  rw [List.length_cons] at hsize
  refine ⟨rfl, Leads.bind (m := 1) (n := 2) (leads_push (w := 1) (by simp; omega) h₁ (by simp)
    (fun h => hshort (by rw [← hlen₁, h]; decide)) rfl) ?_⟩
  rintro _ ⟨free₂, y₂, rfl, rfl⟩
  rw [List.length_append, List.length_singleton] at hlen₁
  refine ⟨rfl, Leads.bind (m := 1) (n := 1) (leads_add (by simp; omega) h₂
    (fun h => hshort (by rw [← hlen₁, h]; decide))) ?_⟩
  -- there is still a free word below the two that have been pushed, and it is the first one
  rintro _ ⟨hne, rfl⟩
  obtain ⟨z, rest, rfl⟩ := List.exists_cons_of_ne_nil hne
  obtain rfl : x = z := (List.cons.inj hfree₁).1
  rw [List.length_cons] at hlen₁
  have hnext : Int64.ofNat heap.length + 1 = Int64.ofNat (heap.length + 1) :=
    (Int64.ofNat_add heap.length 1).symm
  rw [hnext, List.cons_append]
  refine ⟨rfl, (leads_grow (by simp; omega) h₃).mono ?_⟩
  rintro _ ⟨free₃, hlen₃, rfl⟩
  rw [List.length_append, List.length_singleton] at hlen₃
  exact ⟨free₃, by omega, rfl⟩

/-- The top of the stack goes to the end of the heap. -/
theorem leads_transfer (hsize : heap.length + free.length + (v :: stack).length < 2 ^ 63)
    (hcode : Stands code ip transferOps) (hshort : free.length < 2 → short) :
    Leads code short 6 (s.partitioned ip heap free (v :: stack)) fun t =>
      ∃ free', free'.length = free.length ∧
        t = s.partitioned (ip + 6) (heap ++ [v]) free' stack := by
  obtain ⟨hstore, hadvance⟩ := (stands_append (a := [.lhp, .sw])).1 hcode
  refine Leads.bind (m := 2) (n := 4) (leads_storeTop hsize hstore hshort) ?_
  rintro _ ⟨free₁, hlen₁, rfl⟩
  rw [← hlen₁] at hshort ⊢
  refine ⟨rfl, leads_advance ?_ hadvance hshort⟩
  rw [List.length_cons] at hsize ⊢
  omega

/-- Words on top of the stack go to the end of the heap, the top first. -/
theorem leads_transfers {vs : List Int64}
    (hsize : heap.length + free.length + (vs ++ stack).length < 2 ^ 63)
    (hcode : Stands code ip (List.replicate vs.length transferOps).flatten)
    (hshort : free.length < 2 → short) :
    Leads code short (6 * vs.length) (s.partitioned ip heap free (vs ++ stack)) fun t =>
      ∃ free', free'.length = free.length ∧
        t = s.partitioned (ip + 6 * vs.length) (heap ++ vs) free' stack := by
  induction vs generalizing ip heap free with
  | nil => exact .refl ⟨free, rfl, by simp⟩
  | cons v vs ih =>
    rw [List.length_cons, List.replicate_succ, List.flatten_cons, stands_append] at hcode
    rw [List.length_cons, Nat.mul_succ, Nat.add_comm _ 6]
    refine (leads_transfer hsize hcode.1 hshort).bind ?_
    rintro _ ⟨free₁, hlen₁, rfl⟩
    rw [← hlen₁] at hshort ⊢
    have hrest : Stands code (ip + 6) (List.replicate vs.length transferOps).flatten := hcode.2
    refine ⟨rfl, (ih ?_ hrest hshort).mono ?_⟩
    · simp only [List.cons_append, List.length_cons, List.length_append, List.length_nil] at hsize ⊢
      omega
    · rintro _ ⟨free₂, hlen₂, rfl⟩
      exact ⟨free₂, hlen₂, by simp [Nat.add_assoc]⟩

/-! ### Making an object -/

/-- The word that a class left in the directory goes to the end of the heap, and its address there
to the stack. -/
theorem leads_table {size offset directory : Int64} {i : Nat}
    (hdirectory : size + offset = directory)
    (hsize : heap.length + free.length + stack.length < 2 ^ 63)
    (hcode : Stands code ip
      [.push size, .push offset, .add, .lw, .lhp, .sw, .lhp, .lhp, .push 1, .add, .shp])
    (hshort : free.length < 4 → short)
    (hi : directory.toInt = heap.length + free.length + i) (hv : stack[i]? = some v) :
    Leads code short 11 (s.partitioned ip heap free stack) fun t =>
      ∃ free', free'.length + 2 = free.length ∧
        t = s.partitioned (ip + 11) (heap ++ [v]) free' (Int64.ofNat heap.length :: stack) := by
  obtain ⟨h₀, h₁, h₂, h₃, hrest⟩ := hcode
  obtain ⟨hstore, h₆, hadvance⟩ := (stands_append (a := [.lhp, .sw])).1 hrest
  refine Leads.bind (m := 1) (n := 10) (leads_push (w := size) hsize h₀ (by simp)
    (fun h => hshort (by simp [h])) rfl) ?_
  rintro _ ⟨free₁, y₁, rfl, rfl⟩
  simp only [List.length_append, List.length_cons, List.length_nil] at hsize hshort hi ⊢
  refine ⟨rfl, Leads.bind (m := 1) (n := 9) (leads_push (w := offset) (by simp; omega) h₁ (by simp)
    (fun h => hshort (by simp [h])) rfl) ?_⟩
  rintro _ ⟨free₂, y₂, rfl, rfl⟩
  simp only [List.length_append, List.length_cons, List.length_nil] at hsize hshort hi ⊢
  refine ⟨rfl, Leads.bind (m := 1) (n := 8) (leads_add (by simp; omega) h₂
    (fun h => hshort (by simp [h]))) ?_⟩
  rintro _ ⟨-, rfl⟩
  -- the directory is above everything that is pushed here
  rw [hdirectory]
  refine ⟨rfl, Leads.bind (m := 1) (n := 7) (leads_load (i := i) (v := v) (by simp; omega) h₃
    (by simp) (by simp; omega) hv) ?_⟩
  rintro _ rfl
  refine ⟨rfl, Leads.bind (m := 2) (n := 5) (leads_storeTop (by simp; omega) hstore
    (fun h => hshort (by rw [List.length_append, List.length_singleton] at h; omega))) ?_⟩
  rintro _ ⟨free₃, hlen₃, rfl⟩
  rw [List.length_append, List.length_singleton] at hlen₃
  refine ⟨rfl, Leads.bind (m := 1) (n := 4) (leads_push (w := Int64.ofNat heap.length)
    (by simp; omega) h₆ (by simp) (by simp) rfl) ?_⟩
  rintro _ ⟨free₄, y₄, hfree₄, rfl⟩
  have hlen₄ : free₄.length = free₃.length := by simpa using congrArg List.length hfree₄.symm
  obtain _ | ⟨z, rest⟩ := free₄
  · rw [hlen₃] at hlen₄
    cases hlen₄
  obtain rfl : v = z := (List.cons.inj hfree₄).1
  rw [List.length_cons] at hlen₄
  refine ⟨rfl, (leads_advance (by simp; omega) hadvance (fun h => hshort (by omega))).mono ?_⟩
  rintro _ ⟨free₅, hlen₅, rfl⟩
  exact ⟨free₅, by omega, rfl⟩

/-- The words on top of the stack become an object. -/
theorem leads_object {memorySize : Nat} {cls : Entry} {vs : List Int64} {i : Nat}
    (hsize : heap.length + free.length + (vs ++ stack).length < 2 ^ 63)
    (hcode : Stands code ip (objectOps memorySize cls vs.length))
    (hshort : free.length < 4 → short)
    (hi : (cls.directory memorySize).toInt = heap.length + free.length + vs.length + i)
    (hv : stack[i]? = some v) :
    Leads code short (6 * vs.length + 11) (s.partitioned ip heap free (vs ++ stack)) fun t =>
      ∃ free', free'.length + 2 = free.length ∧
        t = s.partitioned (ip + (6 * vs.length + 11)) (heap ++ vs ++ [v]) free'
          (Int64.ofNat (heap.length + vs.length) :: stack) := by
  obtain ⟨htransfers, htable⟩ := stands_append.1 hcode
  rw [length_transfers] at htable
  rw [List.length_append] at hsize
  refine (leads_transfers (by simpa using hsize) htransfers fun h => hshort (by omega)).bind ?_
  rintro _ ⟨free₁, hlen₁, rfl⟩
  refine ⟨rfl, (leads_table rfl ?_ htable (fun h => hshort (by omega)) ?_ hv).mono ?_⟩
  · rw [List.length_append]
    omega
  · rw [List.length_append, hlen₁]
    exact hi.trans (by omega)
  · rintro _ ⟨free₂, hlen₂, rfl⟩
    exact ⟨free₂, by omega, by simp [Nat.add_assoc]⟩

theorem load_heap_partitioned {j : Nat}
    (hsize : heap.length + free.length + stack.length < 2 ^ 63) (hv : heap[j]? = some v) :
    (s.partitioned ip heap free stack).load (Int64.ofNat j) = .ok v := by
  have hj := (List.getElem?_eq_some_iff.1 hv).1
  refine Segmented.load_at (zero_le_ofNat (by omega))
    (Int64.toNatClampNeg_ofNat_of_lt (by omega)) ?_
  rw [State.partitioned, List.getElem?_toArray, List.append_assoc, List.getElem?_append_left hj, hv]

theorem ofNat_add_ofInt {a i : Nat} (h : i < a) :
    Int64.ofNat a + Int64.ofInt (-(i : Int) - 1) = Int64.ofNat (a - 1 - i) := by
  rw [← Int64.ofInt_eq_ofNat, ← Int64.ofInt_eq_ofNat, ← Int64.ofInt_add]
  congr 1
  omega

/-- An object as `leads_object` leaves it is as it should be. -/
theorem builds_partitioned {args rest free' : List Int64} {directory : Int64} {i : Nat}
    (s : State) (ip ip' : Nat)
    (hsize : heap.length + free.length + (args.reverse ++ rest).length < 2 ^ 63)
    (hlen : free'.length + 2 = free.length)
    (hi : directory.toInt = heap.length + free.length + args.length + i)
    (hv : rest[i]? = some v) :
    (s.partitioned ip heap free (args.reverse ++ rest)).Builds
      (s.partitioned ip' (heap ++ args.reverse ++ [v]) free'
        (Int64.ofNat (heap.length + args.length) :: rest)) directory args := by
  have hobject : (s.partitioned ip heap free (args.reverse ++ rest)).nextObject args.length =
      Int64.ofNat (heap.length + args.length) := (Int64.ofNat_add _ _).symm
  have hheap : (heap ++ args.reverse ++ [v]).length = heap.length + args.length + 1 := by
    simp [Nat.add_assoc]
  have hwords : (args.reverse ++ rest).length = args.length + rest.length := by simp
  have hsize' : (heap ++ args.reverse ++ [v]).length + free'.length +
      (Int64.ofNat (heap.length + args.length) :: rest).length < 2 ^ 63 := by
    rw [hheap, List.length_cons]
    omega
  constructor
  case pointer =>
    rw [hobject]
    exact State.peek_partitioned hsize'
  case sp =>
    rw [State.toInt_sp_partitioned _ _ hsize', State.toInt_sp_partitioned _ _ hsize, hheap]
    omega
  case hp =>
    rw [State.toInt_hp_partitioned _ _ hsize', State.toInt_hp_partitioned _ _ hsize, hheap]
    omega
  case field =>
    intro j w hw
    have hj := (List.getElem?_eq_some_iff.1 hw).1
    rw [hobject, ofNat_add_ofInt (by omega)]
    refine load_heap_partitioned hsize' ?_
    -- the arguments lie on the heap in the reverse order
    have hindex : heap.length + args.length - 1 - j = heap.length + (args.length - 1 - j) := by
      omega
    rw [hindex, List.append_assoc, List.getElem?_append_right (Nat.le_add_right _ _),
      Nat.add_sub_cancel_left, List.getElem?_append_left (by rw [List.length_reverse]; omega),
      List.getElem?_reverse (by omega), ← hw]
    congr 1
    omega
  case table =>
    have hload : (s.partitioned ip heap free (args.reverse ++ rest)).load directory = .ok v := by
      refine State.load_partitioned (i := args.length + i) (by omega) ?_
      rw [List.getElem?_append_right (by simp)]
      simpa using hv
    rw [hobject, hload]
    refine load_heap_partitioned hsize' ?_
    rw [List.getElem?_append_right (by simp)]
    simp
  case size =>
    rw [State.size_partitioned, State.size_partitioned, hheap, hwords, List.length_cons]
    omega
  case memory =>
    intro j hj
    rw [State.toInt_hp_partitioned _ _ hsize, State.toInt_sp_partitioned _ _ hsize] at hj
    simp only [State.partitioned, List.getElem?_toArray]
    rcases hj with hj | hj
    · simp only [List.append_assoc]
      rw [List.getElem?_append_left (by omega), List.getElem?_append_left (by omega)]
    · have hafter : heap ++ args.reverse ++ [v] ++ free' ++
          Int64.ofNat (heap.length + args.length) :: rest =
          heap ++ args.reverse ++ [v] ++ free' ++ [Int64.ofNat (heap.length + args.length)] ++
            rest := by simp
      rw [hafter, ← List.append_assoc _ args.reverse, List.getElem?_append_right (by simp; omega),
        List.getElem?_append_right (by simp; omega)]
      congr 1
      simp
      omega
  all_goals rfl

/-- From any state with arguments on its stack, the code of an object puts the object in their
place, or else it is out of memory, of which there were at most three words. -/
theorem State.Presents.leads {memorySize : Nat} {cls : Entry} {args : List Int64}
    (h : s.Presents (cls.directory memorySize) args)
    (hcode : Stands code s.ip (objectOps memorySize cls args.length)) :
    Leads code (s.sp.toInt ≤ s.hp.toInt + 3) (6 * args.length + 11) s fun t =>
      t.ip = s.ip + (6 * args.length + 11) ∧ s.Builds t (cls.directory memorySize) args := by
  obtain ⟨⟨rest, hrest⟩, hheap, habove, hinside, hsize⟩ := h
  by_cases hmeet : s.sp ≤ s.hp
  · have hle := Int64.le_iff_toInt_le.1 hmeet
    exact .inr ⟨by omega, 0, by omega, s, .refl s, if_pos hmeet⟩
  rw [Int64.le_iff_toInt_le] at hmeet
  obtain ⟨heap, free, hs, hhp, hsp⟩ := exists_eq_partitioned hheap (by omega) (by omega)
  have hwords : s.memory.size = heap.length + free.length + s.stack.reverse.length :=
    (congrArg (·.memory.size) hs).trans State.size_partitioned
  have hargs : args.reverse.length = args.length := List.length_reverse
  rw [← hrest, List.reverse_append] at hs hwords
  rw [List.length_append, hargs] at hwords
  have hfits : heap.length + free.length + (args.reverse ++ rest.reverse).length < 2 ^ 63 := by
    rw [List.length_append]
    omega
  -- the directory is a word of the stack above the arguments
  obtain ⟨i, hi⟩ : ∃ i : Nat, (cls.directory memorySize).toInt =
      heap.length + free.length + args.length + i :=
    ⟨((cls.directory memorySize).toInt - s.sp.toInt - args.length).toNat, by omega⟩
  obtain ⟨v, hv⟩ : ∃ v, rest.reverse[i]? = some v := ⟨_, List.getElem?_eq_getElem (by omega)⟩
  have hleads : Leads code (s.sp.toInt ≤ s.hp.toInt + 3) (6 * args.reverse.length + 11)
      (s.partitioned s.ip heap free (args.reverse ++ rest.reverse)) _ :=
    leads_object hfits (hargs.symm ▸ hcode) (fun h => by omega) (hargs.symm ▸ hi) hv
  rw [← hs, hargs] at hleads
  refine hleads.mono ?_
  rintro _ ⟨free', hlen, rfl⟩
  have hbuilds := builds_partitioned s s.ip (s.ip + (6 * args.length + 11)) hfits hlen hi hv
  rw [← hs] at hbuilds
  exact ⟨rfl, hbuilds⟩

end

theorem stands_toArray (before os after : List (Op Nat)) :
    Stands (before ++ os ++ after).toArray before.length os := by
  induction os generalizing before with
  | nil => trivial
  | cons o os ih =>
    have hrest := ih (before ++ [o])
    simp only [List.length_append, List.length_singleton, List.append_assoc,
      List.singleton_append] at hrest
    exact ⟨by simp, by simpa using hrest⟩

end Machine

/-! ### Objects in the code of a program -/

namespace Program

theorem assemble_of_emit {p : Program} {memorySize : Nat} {code : Listing}
    (h : p.emit memorySize = .ok code) :
    ∃ address, code.assemble = .ok (code.ops.map (Op.link address)) := by
  rw [eq_outline h]
  refine ⟨_, Listing.assemble_eq ?_ ?_⟩
  · rw [labels_erase]
    exact p.nodup_labels
  · rw [labels_erase, targets_erase]
    exact fun l hl => p.targets_subset hl

/-- **Construction of objects.**  Every part of a program for which code is emitted has its place in
the code, and the code can be assembled.  At every place of a `new` stands the code of its arguments
and then the code of the object.  From any state at the latter with the arguments on its stack, the
machine executes that code from its beginning to its end and then has the object in the place of the
arguments, or it is out of memory on the way, which cannot be if more than three words are free. -/
theorem builds_of_emit {p : Program} {memorySize : Nat} {code : Listing}
    (h : p.emit memorySize = .ok code) :
    (∀ root ∈ p.exprs, ∀ e, e.Within root → ∃ x, p.Occurs x ∧ x.expr = e) ∧
    ∃ ops, code.assemble = .ok ops ∧
      ∀ {x : Place} {line : SourceLine} {cls : String} {args : List Expr} {entry : Option Entry},
        p.Occurs x → x.expr = .new line cls args entry →
        ∃ (e : Entry) (before words after : Listing), entry = some e ∧
          code = before ++ words ++ objectCode memorySize e args.length ++ after ∧
          before.ops.length = x.start ∧ Expr.emitAll memorySize x.labels args = .ok words ∧
          ∀ {s : Machine.State} {values : List Int64},
            s.ip = (Listing.ops (before ++ words)).length → values.length = args.length →
            s.Presents (e.directory memorySize) values →
            Machine.Leads ops.toArray (s.sp.toInt ≤ s.hp.toInt + 3)
              (Listing.ops (objectCode memorySize e args.length)).length s fun t =>
                t.ip = (Listing.ops
                  (before ++ words ++ objectCode memorySize e args.length)).length ∧
                s.Builds t (e.directory memorySize) values := by
  refine ⟨fun root hroot e he => exists_occurs h hroot he, ?_⟩
  obtain ⟨address, hops⟩ := assemble_of_emit h
  refine ⟨_, hops, ?_⟩
  intro x line cls args entry hx hexpr
  obtain ⟨before, own, after, hcode, hstart, hown⟩ := hx.stands h
  rw [hexpr] at hown
  simp only [Expr.emit, bind_ok_iff] at hown
  obtain ⟨e, hentry, words, hwords, hown⟩ := hown
  obtain rfl := requireBound_ok hentry
  obtain rfl := Except.ok.inj hown
  refine ⟨e, before, words, after, rfl, by simp [hcode], hstart, hwords, ?_⟩
  intro s values hip hlen hs
  have hstands : Machine.Stands (code.ops.map (Op.link address)).toArray s.ip
      (objectOps memorySize e values.length) := by
    have hmiddle := Machine.stands_toArray ((Listing.ops (before ++ words)).map (Op.link address))
      (objectOps memorySize e args.length) (after.ops.map (Op.link address))
    rw [List.length_map] at hmiddle
    rw [hip, hlen, hcode]
    simp only [Listing.ops_append, objectCode_eq, Listing.ops_straight, List.map_append,
      map_link_objectOps, List.append_assoc] at hmiddle ⊢
    exact hmiddle
  have hleads := hs.leads hstands
  rw [Listing.ops_append (before ++ words), List.length_append, ← hip, objectCode_eq,
    Listing.ops_straight, length_objectOps, ← hlen]
  exact hleads

/-- A function that makes an object of two words. -/
def pairs : Program :=
  .letIn [{ name := "Pair", fields := [⟨"a", .int, 1, none⟩, ⟨"b", .int, 1, none⟩], methods := [] }]
    [.fn ⟨"f", [], .ref "Pair", [],
      .new 2 "Pair" [.arith 2 .add (.int 2 1) (.int 2 2), .int 2 4] (some ⟨0, .int, -2⟩), 2, none⟩]
    (.int 3 0)

/-- The place of the construction. -/
def pairsPlace : Place :=
  ⟨.new 2 "Pair" [.arith 2 .add (.int 2 1) (.int 2 2), .int 2 4] (some ⟨0, .int, -2⟩), 0, 7⟩

/-- A state with two arguments on its stack, and two words on its heap. -/
def pairsState : Machine.State :=
  ⟨#[5, 6, 0, 0, 0, 0, 0, 0, 4, 3, 77, 0], 11, 8, 9, 2, 3, 0, #[]⟩

theorem builds_of_emit_pairs : ∃ code ops t, pairs.emit 12 = .ok code ∧
    code.assemble = .ok ops ∧ pairs.Occurs pairsPlace ∧
    Machine.Executes ops.toArray (List.range' 11 23) pairsState t ∧ t.ip = 34 ∧ t.peek = .ok 4 ∧
    t.load 3 = .ok 3 ∧ t.load 2 = .ok 4 ∧ t.load 4 = .ok 77 ∧ t.hp.toInt = 5 := by
  obtain ⟨code, hcode⟩ : ∃ code, pairs.emit 12 = .ok code := ⟨_, rfl⟩
  have hplace : pairs.Occurs pairsPlace := .root (.tail _ (.head _))
  obtain ⟨-, ops, hops, hplaces⟩ := builds_of_emit hcode
  obtain ⟨e, before, words, after, hentry, -, hstart, hwords, hleads⟩ := hplaces hplace rfl
  cases hentry
  cases hwords
  simp only [Listing.ops_append, List.length_append, hstart] at hleads
  have hpresents : pairsState.Presents (Entry.directory ⟨0, .int, -2⟩ 12) [3, 4] :=
    ⟨by decide, by decide, by decide, by decide, by decide⟩
  obtain ⟨t, hexecutes, hip, hbuilds⟩ | ⟨hshort, -⟩ := hleads (s := pairsState) rfl rfl hpresents
  · exact ⟨code, ops, t, hcode, hops, hplace, hexecutes, hip, hbuilds.pointer,
      hbuilds.field (i := 0) rfl, hbuilds.field (i := 1) rfl, hbuilds.table, hbuilds.hp⟩
  · exact absurd hshort (by decide)

end Program

end ObjectLang
