import ObjectLang.Proofs.Code.Outline

/-!
# Pieces of code and their addresses

An `Image` is code as a run sees it: the piece at every address, and the address of every label.
`Image.Placed` says that a list of pieces stands in an image from an address on.  Labels have no
address of their own, so a list takes up as many addresses as it has operations (`width`).

What is placed from an address on can be cut wherever the list is an append
(`Image.placed_append`), which is all that proofs about code use.
-/

namespace ObjectLang

open Piece (plain)

/-- Is it an operation, and not the definition of a label? -/
def Piece.isOp : Piece → Bool
  | instr (.label _) => false
  | _ => true

/-- Number of operations. -/
def width (code : List Piece) : Nat := code.countP Piece.isOp

@[simp] theorem width_nil : width [] = 0 := rfl

@[simp] theorem width_append (a b : List Piece) : width (a ++ b) = width a + width b :=
  List.countP_append

@[simp] theorem width_cons_op (o : Op Label) (code : List Piece) :
    width (.instr (.op o) :: code) = width code + 1 :=
  List.countP_cons_of_pos rfl

@[simp] theorem width_cons_label (l : Label) (code : List Piece) :
    width (.instr (.label l) :: code) = width code :=
  List.countP_cons_of_neg (by simp [Piece.isOp])

@[simp] theorem width_cons_memoryEnd (code : List Piece) :
    width (.memoryEnd :: code) = width code + 1 :=
  List.countP_cons_of_pos rfl

@[simp] theorem width_cons_dispatch (site : MethodSite) (code : List Piece) :
    width (.dispatch site :: code) = width code + 1 :=
  List.countP_cons_of_pos rfl

@[simp] theorem width_cons_construct (cls : String) (code : List Piece) :
    width (.construct cls :: code) = width code + 1 :=
  List.countP_cons_of_pos rfl

@[simp] theorem plain_append (a b : List Instruction) : plain (a ++ b) = plain a ++ plain b := by
  simp [plain]

@[simp] theorem plain_nil : plain [] = [] := rfl

@[simp] theorem plain_cons (i : Instruction) (code : List Instruction) :
    plain (i :: code) = .instr i :: plain code := rfl

@[simp] theorem straight_nil : straight [] = [] := rfl

@[simp] theorem straight_cons (o : Op Label) (ops : List (Op Label)) :
    straight (o :: ops) = .op o :: straight ops := rfl

@[simp] theorem width_plain_straight (ops : List (Op Label)) :
    width (plain (straight ops)) = ops.length := by
  induction ops with
  | nil => rfl
  | cons o ops ih => simp [ih]

/-- Code as a run sees it. -/
structure Image where
  /-- The operation at an address. -/
  piece : Nat → Option Piece
  /-- The address of a label. -/
  address : Label → Nat
  /-- Number of operations. -/
  size : Nat

namespace Image

variable (img : Image)

/-- The pieces stand from an address on. -/
def Placed : Nat → List Piece → Prop
  | _, [] => True
  | i, .instr (.label l) :: rest => img.address l = i ∧ Placed i rest
  | i, p :: rest => img.piece i = some p ∧ Placed (i + 1) rest

variable {img} {i : Nat} {rest : List Piece}

@[simp] theorem placed_nil : img.Placed i [] := trivial

@[simp] theorem placed_label {l : Label} :
    img.Placed i (.instr (.label l) :: rest) ↔ img.address l = i ∧ img.Placed i rest := Iff.rfl

@[simp] theorem placed_op {o : Op Label} :
    img.Placed i (.instr (.op o) :: rest) ↔
      img.piece i = some (.instr (.op o)) ∧ img.Placed (i + 1) rest := Iff.rfl

@[simp] theorem placed_memoryEnd :
    img.Placed i (.memoryEnd :: rest) ↔
      img.piece i = some .memoryEnd ∧ img.Placed (i + 1) rest := Iff.rfl

@[simp] theorem placed_dispatch {site : MethodSite} :
    img.Placed i (.dispatch site :: rest) ↔
      img.piece i = some (.dispatch site) ∧ img.Placed (i + 1) rest := Iff.rfl

@[simp] theorem placed_construct {cls : String} :
    img.Placed i (.construct cls :: rest) ↔
      img.piece i = some (.construct cls) ∧ img.Placed (i + 1) rest := Iff.rfl

/-- Code can be cut in two, the second part starting where the operations of the first end. -/
@[simp] theorem placed_append {a b : List Piece} :
    img.Placed i (a ++ b) ↔ img.Placed i a ∧ img.Placed (i + width a) b := by
  induction a generalizing i with
  | nil => simp
  | cons p a ih =>
    obtain (o | l) | _ | site | cls := p <;>
      simp [ih, and_assoc, Nat.add_assoc, Nat.add_comm 1]

end Image

/-! ### Connectives -/

namespace LogicOp

/-- What stands after the operands of a connective, which is the same for both of them: a test, `1`
for true and `0` for false. -/
structure Ending (img : Image) (i : Nat) (no stop : Label) : Prop where
  test : img.Placed i (plain (straight [.push 0, .beq no]))
  one : img.piece (i + 2) = some (.instr (.op (.push 1)))
  leave : img.piece (i + 3) = some (.instr (.op (.b stop)))
  zero : img.piece (i + 4) = some (.instr (.op (.push 0)))
  no_eq : img.address no = i + 4
  stop_eq : img.address stop = i + 5

/-- What stands between the operands, the second of which starts at one address and ends at
another. -/
def Branching (op : LogicOp) (img : Image) (i right finish : Nat) : Prop :=
  ∃ l, img.Placed i (plain (straight [.push 0, .beq l])) ∧
    match op with
    | and => right = i + 2 ∧ img.address l = finish + 4
    | or => right = i + 3 ∧ img.address l = right ∧
      ∃ yes, img.piece (i + 2) = some (.instr (.op (.b yes))) ∧ img.address yes = finish + 2

variable {op : LogicOp} {img : Image} {n i : Nat}

@[simp] theorem width_finish : width (plain (op.finish n)) = 5 := by
  cases op <;> simp [finish]

theorem ending_of_placed (h : img.Placed i (plain (op.finish n))) :
    ∃ no stop, Ending img i no stop := by
  cases op with
  | and =>
    simp only [finish, straight_cons, straight_nil, List.cons_append, List.nil_append, plain_cons,
      plain_nil, Image.placed_op, Image.placed_label, Image.placed_nil, and_true, Nat.add_assoc,
      Nat.reduceAdd] at h
    obtain ⟨h₀, h₁, h₂, h₃, hzero, h₄, hend⟩ := h
    exact ⟨_, _, ⟨h₀, h₁, trivial⟩, h₂, h₃, h₄, hzero, hend⟩
  | or =>
    simp only [finish, straight_cons, straight_nil, List.cons_append, List.nil_append, plain_cons,
      plain_nil, Image.placed_op, Image.placed_label, Image.placed_nil, and_true, Nat.add_assoc,
      Nat.reduceAdd] at h
    obtain ⟨h₀, h₁, -, h₂, h₃, hzero, h₄, hend⟩ := h
    exact ⟨_, _, ⟨h₀, h₁, trivial⟩, h₂, h₃, h₄, hzero, hend⟩

theorem branching_of_placed {j : Nat} (h : img.Placed i (plain (op.test n)))
    (hfinish : img.Placed j (plain (op.finish n))) :
    op.Branching img i (i + width (plain (op.test n))) j := by
  cases op with
  | and =>
    simp only [finish, straight_cons, straight_nil, List.cons_append, List.nil_append,
      plain_cons, plain_nil, Image.placed_op, Image.placed_label, Image.placed_nil, and_true,
      Nat.add_assoc, Nat.reduceAdd] at hfinish
    obtain ⟨-, -, -, -, hzero, -⟩ := hfinish
    exact ⟨_, h, rfl, hzero⟩
  | or =>
    simp only [test, finish, straight_cons, straight_nil, List.cons_append, List.nil_append,
      plain_cons, plain_nil, Image.placed_op, Image.placed_label, Image.placed_nil, and_true,
      Nat.add_assoc, Nat.reduceAdd] at h hfinish
    obtain ⟨h₀, h₁, h₂, hright⟩ := h
    obtain ⟨-, -, hone, -⟩ := hfinish
    exact ⟨_, ⟨h₀, h₁, trivial⟩, rfl, hright, _, h₂, hone⟩

end LogicOp

end ObjectLang
